import RepoAtlas.History.Record
import RepoAtlas.Text.Quoted

/-!
# Reading Git

What Git prints for a commit, read back as a record: its metadata, the kinds of its changes, and their
line counts.
-/

namespace RepoAtlas.Git

/-- The character between the fields of a commit's metadata. -/
def fieldMark : Char := '\x1f'

/-- The pieces of a text between marks, at most `n`; the last one holds the rest. -/
def splitFields : Nat → List Char → List (List Char)
  | 0, l => [l]
  | n + 1, l =>
    let field := l.takeWhile (· != fieldMark)
    match l.dropWhile (· != fieldMark) with
    | [] => [field]
    | _ :: rest => if n = 0 then [l] else field :: splitFields n rest

/-- The subject and the body of a message. -/
def splitMessage (message : String) : String × String :=
  let stripped := Text.trimStartBy (· == '\n') (Text.trimEndBy (· == '\n') message)
  match Text.lines stripped with
  | [] => ("", "")
  | subject :: rest => (Text.trim subject, Text.trim (Text.join "\n" rest))

/-- A point in time as Git prints it. -/
def parseTimestamp (raw : String) : Except String Instant :=
  (Instant.parse (Text.trim raw)).mapError fun e =>
    "invalid timestamp " ++ Text.quoted raw ++ ": " ++ e.message

/-- The metadata of a commit: seven fields, the last of which is its message. -/
def parseMetadata (output : String) : Except String CommitRecord :=
  match (splitFields 7 output.toList).map String.ofList with
  | [revision, parents, name, email, authored, committed, message] => do
    let (subject, body) := splitMessage message
    return {
      revision := Text.trim revision
      parents := Text.words parents
      authorName := Text.trim name
      authorEmail := normalizeEmail email
      authoredAt := ← parseTimestamp authored
      committedAt := ← parseTimestamp committed
      subject
      body
      changes := [] }
  | parts => .error ("expected 7 fields, got " ++ toString parts.length)

/-- The path after a rename, as line counts spell it: `old => new`, with what both share outside
braces. -/
def renameTarget (path : String) : String :=
  let plain :=
    match Text.cut? path " => " with
    | some (_, target) => target
    | none => path
  match Text.cut? path "\x7b" with
  | none => plain
  | some (front, rest) =>
    match Text.cutLast? rest "\x7d" with
    | none => plain
    | some (inner, back) =>
      match Text.cut? inner " => " with
      | some (_, target) => Text.replace (front ++ target ++ back) "//" "/"
      | none => plain

/-- A path with slashes. -/
def slashed (path : String) : String := Text.replace path "\\" "/"

/-- A count of lines; what is not a number of 32 bits counts zero. -/
def lineCount (s : String) : Nat :=
  let ds :=
    match s.toList with
    | '+' :: rest => rest
    | l => l
  if ds.isEmpty || !ds.all Char.isDigit then 0
  else
    let n := ds.foldl (fun n c => 10 * n + (c.toNat - 48)) 0
    if n < UInt32.size then n else 0

/-- The lines of an output that are not blank, cut at tabs. -/
def rows (output : String) : List (List String) :=
  ((Text.lines output).filter (!Text.isBlankText ·)).map (Text.splitAt '\t')

/-- Added and deleted lines of a path. -/
structure LineCounts where
  path : String
  additions : Nat
  deletions : Nat
deriving DecidableEq, Inhabited

/-- Replace the counts of a path, or add them. -/
def putCounts (l : List LineCounts) (c : LineCounts) : List LineCounts :=
  l.filter (·.path != c.path) ++ [c]

/-- The line counts of a commit; of a repeated path, the last. -/
def parseNumstat (output : String) : List LineCounts :=
  (rows output).foldl (fun l parts =>
    match parts with
    | additions :: deletions :: _ :: _ =>
      let path := slashed (renameTarget (Text.trim (parts.getLast?.getD "")))
      if path.isEmpty then l else putCounts l ⟨path, lineCount additions, lineCount deletions⟩
    | _ => l) []

/-- A change without its line counts. -/
structure StatusRow where
  change : ChangeKind
  path : String
  previousPath : Option String
deriving DecidableEq, Inhabited

/-- The kinds of the changes of a commit. A copy adds a path; other kinds modify it. -/
def parseNameStatus (output : String) : List StatusRow :=
  (rows output).filterMap fun parts =>
    match parts with
    | status :: first :: rest =>
      let row : StatusRow :=
        match (Text.trim status).toList.headD 'M', rest with
        | 'R', target :: _ => ⟨.renamed, target, some first⟩
        | 'C', target :: _ => ⟨.added, target, none⟩
        | 'A', _ => ⟨.added, first, none⟩
        | 'D', _ => ⟨.deleted, first, none⟩
        | _, _ => ⟨.modified, first, none⟩
      let clean (p : String) : String := slashed (Text.trim p)
      if (clean row.path).isEmpty then none
      else some { row with path := clean row.path, previousPath := row.previousPath.map clean }
    | _ => none

/-- Join changes with their line counts, which each count once; paths with counts only were
modified. -/
def mergeChanges : List StatusRow → List LineCounts → List FileChange
  | [], counts =>
    (counts.mergeSort fun a b => a.path ≤ b.path).map fun c =>
      ⟨c.path, none, .modified, c.additions, c.deletions⟩
  | r :: rs, counts =>
    let own := counts.find? (·.path == r.path)
    ⟨r.path, r.previousPath, r.change, (own.map (·.additions)).getD 0, (own.map (·.deletions)).getD 0⟩ ::
      mergeChanges rs (counts.filter (·.path != r.path))

/-! ### Asking Git -/

/-- What a run of Git left behind. -/
structure Output where
  code : Int := 0
  stdout : List UInt8 := []
  stderr : List UInt8 := []

/-- How Git is run with some arguments: its output, or why it could not be started. -/
abbrev Runner := List String → Except String Output

/-- Run Git. -/
def start (runner : Runner) (args : List String) : Except String Output :=
  (runner args).mapError fun e => "failed to run git " ++ Text.join " " args ++ ": " ++ e

/-- The text that Git prints, if it succeeds. -/
def run (runner : Runner) (args : List String) : Except String String := do
  let o ← start runner args
  if o.code != 0 then
    throw ("git " ++ Text.join " " args ++ " failed: " ++ Text.trim (Text.lossy o.stderr))
  match Text.invalidText? o.stdout with
  | some reason => throw ("invalid utf-8 in git output: " ++ reason)
  | none => return Text.lossy o.stdout

/-- The format of a commit's metadata. -/
def metadataFormat : String :=
  "--format=" ++ Text.join (.singleton fieldMark) ["%H", "%P", "%an", "%ae", "%aI", "%cI", "%B"]

/-- The arguments that list the changes of a commit in some form. -/
def changeArguments (form revision : String) : List String :=
  ["show", "--no-color", form, "--format=", "--find-renames", "--find-copies", revision]

/-- Read a commit. -/
def readCommit (runner : Runner) (revision : String) : Except String CommitRecord := do
  let metadata ← run runner ["show", "--quiet", "--no-color", metadataFormat, revision]
  let numstat ← run runner (changeArguments "--numstat" revision)
  let nameStatus ← run runner (changeArguments "--name-status" revision)
  let record ← (parseMetadata metadata).mapError fun e =>
    "unable to parse commit metadata for " ++ revision ++ ": " ++ e
  return { record with changes := mergeChanges (parseNameStatus nameStatus) (parseNumstat numstat) }

/-- The current revision. Without one there must at least be a repository. -/
def head (runner : Runner) : Except String (Option String) := do
  let o ← start runner ["rev-parse", "--verify", "--quiet", "HEAD"]
  if o.code == 0 then
    let head ← run runner ["rev-parse", "HEAD"]
    return some (Text.trim head)
  else
    let _ ← run runner ["rev-parse", "--git-dir"]
    return none

/-- Whether a commit is an ancestor of another. -/
def isAncestor (runner : Runner) (ancestor descendant : String) : Except String Bool := do
  let o ← start runner ["merge-base", "--is-ancestor", ancestor, descendant]
  if o.code == 0 then return true
  else if o.code == 1 then return false
  else
    throw ("git merge-base --is-ancestor " ++ ancestor ++ " " ++ descendant ++ " exited with Some(" ++
      toString o.code ++ ")")

/-- The version control of a repository that Git manages. -/
def vcs (runner : Runner) : Vcs :=
  { head := head runner
    containsRevision := fun r => do
      return (← start runner ["cat-file", "-e", r ++ "^\x7bcommit\x7d"]).code == 0
    isAncestor := isAncestor runner
    commitsSince := fun since h => do
      let range :=
        match since with
        | some s => s ++ ".." ++ h
        | none => h
      let listing ← run runner ["rev-list", "--reverse", "--topo-order", range]
      let revisions := ((Text.lines listing).map Text.trim).filter (!·.isEmpty)
      revisions.mapM (readCommit runner) }

/-- One row of a script for Git: the arguments that it answers, joined by blanks. -/
structure ScriptRow where
  args : String
  output : Output

/-- Git that follows a script; what is not in it fails. -/
def scripted (rows : List ScriptRow) : Runner := fun args =>
  match rows.find? (·.args == Text.join " " args) with
  | some r => .ok r.output
  | none => .ok { code := 128, stderr := Text.bytes "unscripted" }

/-- Git that is not installed. -/
def missing : Runner := fun _ => .error "No such file or directory (os error 2)"

end RepoAtlas.Git
