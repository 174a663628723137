import RepoAtlas.CommandLine.Session

/-!
# The program

The program works on the files below the working directory whose paths it reads from the standard input,
one to a line, and on the files that it keeps itself. It prints JSON documents, and writes the files that
it changed.
-/

namespace RepoAtlas.CommandLine

/-- The environment variables of a section of the settings. -/
def variablesOfSection (above : String) : List (String × Json) → List String
  | [] => []
  | (key, .obj fields) :: l =>
    fields.map (fun (k, _) => above ++ key.toUpper ++ "__" ++ k.toUpper) ++ variablesOfSection above l
  | (key, _) :: l => (above ++ key.toUpper) :: variablesOfSection above l

/-- The environment variables that the program reads. -/
def variableNames : List String :=
  let sections := (toJson ({} : Settings)).fields?.getD []
  apiKeyVariable :: sections.flatMap fun (name, j) =>
    variablesOfSection (Layer.variableStart.toUpper ++ name.toUpper ++ "__") (j.fields?.getD [])

/-- The files that the program reads besides those of the list. -/
def ownFiles : List String :=
  [Settings.path, dataDirectory ++ "/" ++ graphFile, dataDirectory ++ "/" ++ checkpointFile,
   ".gitignore", ".git/info/exclude"]

/-- The lines of a stream. -/
partial def readLines (s : IO.FS.Stream) (lines : List String) : IO (List String) := do
  let line ← s.getLine
  if line.isEmpty then return lines.reverse
  readLines s (Text.trim line :: lines)

/-- The files of some paths. What cannot be read is left out. -/
def readTree (paths : List String) : IO FileTree :=
  paths.foldlM (fun (t : FileTree) path => do
    match FileTree.normal? path with
    | none => return t
    | some p =>
      try
        let content ← IO.FS.readBinFile p
        return (t.writeWithParents p content.toList).toOption.getD t
      catch _ => return t) {}

/-- Write the files that changed. -/
def writeTree (before after : FileTree) : IO Unit :=
  after.files.toList.forM fun (path, content) => do
    if before.files[path]? != some content then
      if let some dir := Paths.parent? path then IO.FS.createDirAll dir
      IO.FS.writeBinFile path ⟨content.toArray⟩

end RepoAtlas.CommandLine

open RepoAtlas CommandLine in
/-- Run the program with its arguments. -/
def main (args : List String) : IO UInt32 := do
  let paths ← readLines (← IO.getStdin) []
  let tree ← readTree (ownFiles ++ paths)
  let environment ← variableNames.filterMapM fun name => do
    return (← IO.getEnv name).map fun value => (name, value)
  let session : Session :=
    { tree
      top := (← IO.currentDir).toString
      home := (← IO.getEnv "HOME").getD ""
      environment }
  let (outcome, after) := session.run args []
  writeTree tree after
  outcome.printed.forM fun j => IO.println j.pretty
  if let .failed message := outcome.ending then IO.eprintln ("Error: " ++ message)
  return outcome.ending.code.toUInt32
