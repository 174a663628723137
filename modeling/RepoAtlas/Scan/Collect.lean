import RepoAtlas.Digest.Fingerprint
import RepoAtlas.Scan.Filter

/-!
# Walking a repository

The walk enters every directory that is not skipped and collects the files that the filter admits.
-/

namespace RepoAtlas

/-- A file found on disk. -/
structure ScannedFile where
  path : String
  language : String
  fingerprint : String
deriving DecidableEq, Inhabited

namespace ScanFilter

/-- The rules of one directory: of its ignore files, in the order of their rank. -/
structure DirectoryRules where
  path : String
  ignore : List Ignore.Rule
  gitignore : List Ignore.Rule
  exclude : List Ignore.Rule

/-- The rules of a directory. Those of version control are left out where they are not respected. -/
def directoryRules (f : ScanFilter) (tree : FileTree) (dir : String) : DirectoryRules :=
  let rulesIn (name : String) : List Ignore.Rule :=
    ((tree.read? (Paths.join dir name)).map Ignore.rulesOf).getD []
  let git (name : String) : List Ignore.Rule := if f.settings.respectGitignore then rulesIn name else []
  ⟨dir, rulesIn ".ignore", git ".gitignore", git ".git/info/exclude"⟩

/-- The path of an entry below one of the directories above it. -/
def below (dir path : String) : String :=
  if dir.isEmpty then path else (Text.stripStart? path (dir ++ "/")).getD path

/-- The first verdict that is not silent. -/
def firstVerdict (l : List Ignore.Verdict) : Ignore.Verdict := l.foldr Ignore.Verdict.orElse .silent

/-- What the ignore files of the directories above an entry, nearest first, say of it. -/
def ignoreVerdict (rules : List DirectoryRules) (path : String) (isDirectory : Bool) : Ignore.Verdict :=
  let ask (part : DirectoryRules → List Ignore.Rule) : Ignore.Verdict :=
    firstVerdict (rules.map fun r => Ignore.verdict (part r) (below r.path path) isDirectory)
  firstVerdict [ask (·.ignore), ask (·.gitignore), ask (·.exclude)]

/-- Whether the walk passes over an entry. -/
def skips (f : ScanFilter) (rules : List DirectoryRules) (path : String) (isDirectory : Bool) : Bool :=
  let name := (Paths.parts path).getLast?.getD ""
  let verdict := f.overrideVerdict path isDirectory
  let ignored :=
    if verdict != .silent then verdict == .ignored
    else
      match ignoreVerdict rules path isDirectory with
      | .ignored => true
      | .included => false
      | .silent => Text.startsWith name "."
  ignored || (isDirectory && f.settings.ignoreDirs.contains name)

/-- Whether the walk reaches a file: neither it nor a directory above it is passed over. `rules` are
those of the directories above, nearest first, and `dirs` the directories still to enter. -/
def reaches (f : ScanFilter) (tree : FileTree) (path : String) :
    List DirectoryRules → List String → Bool
  | rules, [] => !f.skips rules path false
  | rules, dir :: dirs =>
    !f.skips rules dir true && reaches f tree path (f.directoryRules tree dir :: rules) dirs

/-- The files that the walk collects, sorted by path. -/
def collect (f : ScanFilter) (tree : FileTree) : List ScannedFile :=
  let root := f.directoryRules tree ""
  tree.files.toList.filterMap fun (path, content) => do
    if !f.admits path then none
    else if !f.reaches tree path [root] (FileTree.directoriesAbove path) then none
    else
      let language ← f.registry.detect? path
      return ⟨path, language, fingerprintBytes content⟩

end ScanFilter

end RepoAtlas
