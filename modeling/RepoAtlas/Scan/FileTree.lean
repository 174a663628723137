import Std.Data.ExtTreeMap
import Std.Data.ExtTreeSet
import RepoAtlas.Paths
import RepoAtlas.Text.Utf8

/-!
# Trees of files

The files of a repository by their paths below its root, with their content, and the directories
that exist. Operations fail as those of a file system do.
-/

namespace RepoAtlas

/-- The content of a file. -/
abbrev Bytes := List UInt8

/-- Why an operation on files fails. -/
inductive FileError where
  | notFound
  | alreadyExists
  | notDirectory
  | isDirectory
  | denied
  | notText
deriving DecidableEq, Inhabited

/-- The wording of an error. -/
def FileError.message : FileError → String
  | .notFound => "No such file or directory (os error 2)"
  | .alreadyExists => "File exists (os error 17)"
  | .notDirectory => "Not a directory (os error 20)"
  | .isDirectory => "Is a directory (os error 21)"
  | .denied => "Permission denied (os error 13)"
  | .notText => "stream did not contain valid UTF-8"

/-- Files and directories below a root. -/
structure FileTree where
  files : Std.ExtTreeMap String Bytes := ∅
  dirs : Std.ExtTreeSet String := ∅
deriving Inhabited

namespace FileTree

/-- A path below the root with single separators; `none` if it leads elsewhere. -/
def normal? (path : String) : Option String := do
  let names ← ((Paths.components path).filter (· != .here)).mapM fun
    | .name s => some s
    | _ => none
  return Text.join "/" names

/-- The directories above a path, outermost first. -/
def directoriesAbove (path : String) : List String :=
  (Paths.properPrefixes (Paths.parts path)).map (Text.join "/")

def isFile (t : FileTree) (path : String) : Bool := t.files.contains path

def isDirectory (t : FileTree) (path : String) : Bool := path.isEmpty || t.dirs.contains path

def exists? (t : FileTree) (path : String) : Bool := t.isFile path || t.isDirectory path

/-- Whether a path leads to a directory step by step, where two dots lead one up. -/
def isDirectoryAt (t : FileTree) (path : String) : Bool :=
  let step : Option (List String) → Paths.Component → Option (List String)
    | none, _ | some _, .root => none
    | some dirs, .here => some dirs
    | some dirs, .up => if dirs.isEmpty then none else some dirs.dropLast
    | some dirs, .name s =>
      if t.isDirectory (Text.join "/" (dirs ++ [s])) then some (dirs ++ [s]) else none
  ((Paths.components path).foldl step (some [])).isSome

/-- Whether a file stands where a directory above a path should be. -/
def isBlocked (t : FileTree) (path : String) : Bool := (directoriesAbove path).any t.isFile

def read? (t : FileTree) (path : String) : Option Bytes := t.files[path]?

/-- The content of a file. -/
def read (t : FileTree) (path : String) : Except FileError Bytes :=
  match t.files[path]? with
  | some content => .ok content
  | none =>
    if t.isDirectory path then .error .isDirectory
    else if t.isBlocked path then .error .notDirectory
    else .error .notFound

/-- The content of a file at a path as it was given: with separators that may be doubled or stand at
the end. Nothing is found outside of the root. -/
def readAt (t : FileTree) (path : String) : Except FileError Bytes :=
  match normal? path with
  | none => .error .notFound
  | some p => if Text.endsWith path "/" && t.isFile p then .error .notDirectory else t.read p

/-- The content of a file as text. -/
def readText (t : FileTree) (path : String) : Except FileError String := do
  let content ← t.read path
  match Text.ofBytes? content with
  | some s => return s
  | none => throw .notText

/-- Create a directory and those above it. -/
def createDirectories (t : FileTree) (path : String) : Except FileError FileTree :=
  if t.isDirectory path then .ok t
  else if t.isFile path then .error .alreadyExists
  else if t.isBlocked path then .error .notDirectory
  else .ok { t with dirs := (directoriesAbove path ++ [path]).foldl (·.insert ·) t.dirs }

/-- Write a file in a directory that exists. -/
def write (t : FileTree) (path : String) (content : Bytes) : Except FileError FileTree :=
  if t.isDirectory path then .error .isDirectory
  else if t.isBlocked path then .error .notDirectory
  else if (directoriesAbove path).all t.isDirectory then
    .ok { t with files := t.files.insert path content }
  else .error .notFound

/-- Write a file and create the directories above it. -/
def writeWithParents (t : FileTree) (path : String) (content : Bytes) : Except FileError FileTree := do
  let t ←
    match (directoriesAbove path).getLast? with
    | some dir => t.createDirectories dir
    | none => pure t
  t.write path content

/-- Move a file into place, over the one that is there. -/
def rename (t : FileTree) (source target : String) : Except FileError FileTree := do
  let content ← t.read source
  let t' : FileTree := { t with files := t.files.erase source }
  t'.write target content

/-- Remove a file. -/
def remove (t : FileTree) (path : String) : Except FileError FileTree := do
  let _ ← t.read path
  return { t with files := t.files.erase path }

/-- Write a file beside its place first and then move it into place, so that it is replaced whole or
not at all. The second part of the answer is the error if there is one. A path that does not end with a
name leads to a directory. -/
def replace (t : FileTree) (path : String) (content : Bytes) : FileTree × Option FileError :=
  match Paths.withExtension? path "json.tmp" with
  | none => (t, some .isDirectory)
  | some beside =>
    match t.write beside content with
    | .error e => (t, some e)
    | .ok t' =>
      match t'.rename beside path with
      | .error e => (t', some e)
      | .ok t'' => (t'', none)

/-- What stands below a directory. -/
def below (t : FileTree) (dir : String) : FileTree :=
  if dir.isEmpty then t
  else
    { files := t.files.foldl (fun m path content =>
        match Text.stripStart? path (dir ++ "/") with
        | some p => m.insert p content
        | none => m) ∅
      dirs := t.dirs.foldl (fun s path =>
        match Text.stripStart? path (dir ++ "/") with
        | some p => s.insert p
        | none => s) ∅ }

/-- Replace what stands below a directory. -/
def graft (t : FileTree) (dir : String) (sub : FileTree) : FileTree :=
  if dir.isEmpty then sub
  else
    let isOutside (path : String) : Bool := !Text.startsWith path (dir ++ "/")
    { files := sub.files.foldl (fun m path content => m.insert (dir ++ "/" ++ path) content)
        (t.files.filter fun path _ => isOutside path)
      dirs := sub.dirs.foldl (fun s path => s.insert (dir ++ "/" ++ path)) (t.dirs.filter isOutside) }

/-- The paths of all files, in order. -/
def paths (t : FileTree) : List String := t.files.keys

end FileTree

end RepoAtlas
