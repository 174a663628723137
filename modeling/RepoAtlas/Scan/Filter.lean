import RepoAtlas.Extraction.Registry
import RepoAtlas.Ignore.Rules
import RepoAtlas.Scan.FileTree
import RepoAtlas.Settings.Basic

/-!
# Which files belong in the graph

One filter decides for the walk over the whole repository and for events of single files.
-/

namespace RepoAtlas

/-- The rules that decide which paths belong in the graph. -/
structure ScanFilter where
  settings : IndexingSettings
  registry : Registry
  /-- The ignore patterns of the settings. -/
  overrides : List Ignore.Rule
  /-- The rules of the root directory, from its ignore file and its exclude file. -/
  rootRules : List Ignore.Rule

namespace ScanFilter

/-- The rules of the ignore patterns; `none` if one is malformed. -/
def overrides? (patterns : List String) : Option (List Ignore.Rule) :=
  (patterns.mapM fun p =>
    match Ignore.readLine false ("!" ++ p) with
    | .blank => some []
    | .rule r => some [r]
    | .malformed => none).map List.flatten

/-- The filter of a repository; `none` if an ignore pattern is malformed. -/
def build? (settings : IndexingSettings) (registry : Registry) (tree : FileTree) : Option ScanFilter := do
  let overrides ← overrides? settings.ignorePatterns
  let rulesIn (path : String) : List Ignore.Rule := ((tree.read? path).map Ignore.rulesOf).getD []
  let rootRules :=
    if settings.respectGitignore then rulesIn ".gitignore" ++ rulesIn ".git/info/exclude" else []
  return { settings, registry, overrides, rootRules }

/-- What the ignore patterns say of a path: a rule that would include it excludes it. -/
def overrideVerdict (f : ScanFilter) (path : String) (isDirectory : Bool) : Ignore.Verdict :=
  (Ignore.verdict f.overrides path isDirectory).invert

/-- Whether the extension, the directories and the ignore patterns let a path in. -/
def admits (f : ScanFilter) (path : String) : Bool :=
  let parts := Paths.parts path
  (match Paths.extension? path with
    | some ext => f.settings.extensions.contains ext
    | none => false) &&
  (f.registry.detect? path).isSome &&
  parts.all (!Text.startsWith · ".") &&
  parts.dropLast.all (!f.settings.ignoreDirs.contains ·) &&
  f.overrideVerdict path false != .ignored &&
  (Paths.properPrefixes parts).all fun p => f.overrideVerdict (Text.join "/" p) true != .ignored

/-- The rules of the ignore file of a directory. -/
def rulesOfDirectory (tree : FileTree) (dir : List String) : List Ignore.Rule :=
  let path := Text.join "/" ((dir.filter (!·.isEmpty)) ++ [".gitignore"])
  ((tree.read? path).map Ignore.rulesOf).getD []

/-- Whether the ignore file of a directory on the way to a path ignores it. -/
def ignoredBelow (tree : FileTree) : List String → List String → Bool
  | _, [] => false
  | _, [_] => false
  | above, part :: rest =>
    let dir := above ++ [part]
    Ignore.verdictAbove (rulesOfDirectory tree dir) (Text.join "/" rest) == .ignored ||
      ignoredBelow tree dir rest

/-- Whether an ignore file between the root and a path ignores it. -/
def isGitignored (f : ScanFilter) (tree : FileTree) (path : String) : Bool :=
  f.settings.respectGitignore &&
    (Ignore.verdictAbove f.rootRules path == .ignored || ignoredBelow tree [] (Paths.parts path))

/-- Whether a scan would pick up a path. -/
def accepts (f : ScanFilter) (tree : FileTree) (path : String) : Bool :=
  f.admits path && !f.isGitignored tree path

/-- Whether rules can be asked about a path below their directory: they cannot about an absolute
one. -/
def askable (rules : List Ignore.Rule) (path : String) : Bool := rules.isEmpty || !Paths.isAbsolute path

/-- Whether the rules of the directories on the way to a path can be asked about it, as far as
asking goes. -/
def askableBelow (tree : FileTree) : List String → List String → Bool
  | _, [] => true
  | _, [_] => true
  | above, part :: rest =>
    let dir := above ++ [part]
    let rules := rulesOfDirectory tree dir
    let below := Text.join "/" rest
    askable rules below && (Ignore.verdictAbove rules below == .ignored || askableBelow tree dir rest)

/-- Whether the filter can be asked about a path. All paths below the root can. -/
def canAsk (f : ScanFilter) (tree : FileTree) (path : String) : Bool :=
  !f.admits path || !f.settings.respectGitignore ||
    (askable f.rootRules path &&
      (Ignore.verdictAbove f.rootRules path == .ignored || askableBelow tree [] (Paths.parts path)))

end ScanFilter

end RepoAtlas
