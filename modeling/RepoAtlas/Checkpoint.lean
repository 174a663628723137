import RepoAtlas.Json.Parser
import RepoAtlas.Json.Printer
import RepoAtlas.Scan.FileTree

/-!
# Checkpoints

What was processed last: for each file the fingerprint that its contents and its calls were recorded
at, and for each repository the last revision of its history.
-/

namespace RepoAtlas

/-- What a checkpoint is about. -/
inductive CheckpointKey where
  /-- The contents of a file. -/
  | file (path : String)
  /-- The calls of a file. -/
  | callGraph (path : String)
  /-- The history of a repository. -/
  | revision (repo : String)
deriving DecidableEq, Inhabited

/-- Why checkpoints cannot be read or written. -/
inductive CheckpointError where
  | io (reason : String)
  | parse
  | version (n : Nat)
deriving DecidableEq, Inhabited

/-- The wording of an error. -/
def CheckpointError.message : CheckpointError → String
  | .io reason => "IO error: " ++ reason
  | .parse => "Failed to parse checkpoints"
  | .version n => "Unsupported checkpoint version " ++ toString n

/-- Texts by texts. -/
abbrev TextMap := Std.ExtTreeMap String String

/-- All checkpoints. -/
structure Checkpoints where
  files : TextMap := ∅
  callGraph : TextMap := ∅
  revisions : TextMap := ∅
deriving Inhabited

/-- A change of one checkpoint; without a value it is cleared. -/
abbrev CheckpointUpdate := CheckpointKey × Option String

namespace Checkpoints

def get? (c : Checkpoints) : CheckpointKey → Option String
  | .file p => c.files[p]?
  | .callGraph p => c.callGraph[p]?
  | .revision r => c.revisions[r]?

/-- Set or clear the value of a text. -/
def put (m : TextMap) (id : String) : Option String → TextMap
  | some v => m.insert id v
  | none => m.erase id

def set (c : Checkpoints) (u : CheckpointUpdate) : Checkpoints :=
  match u.1 with
  | .file p => { c with files := put c.files p u.2 }
  | .callGraph p => { c with callGraph := put c.callGraph p u.2 }
  | .revision r => { c with revisions := put c.revisions r u.2 }

/-- All updates, in order. -/
def setAll (c : Checkpoints) (updates : List CheckpointUpdate) : Checkpoints := updates.foldl set c

/-- The document of a map. -/
def mapJson (m : TextMap) : Json := .obj (m.toList.map fun (k, v) => (k, .str v))

/-- The map of a document. -/
def mapOfJson? (j : Json) : Option TextMap := do
  (← j.fields?).foldlM (fun m (k, v) => v.text?.map (m.insert k ·)) ∅

/-- The version of documents. -/
def currentVersion : Nat := 1

instance : ToJson Checkpoints where
  toJson c := .obj [("version", toJson currentVersion), ("files", mapJson c.files),
    ("call_graph", mapJson c.callGraph), ("revisions", mapJson c.revisions)]

/-- Whether two sets of checkpoints hold the same. -/
def same (a b : Checkpoints) : Bool :=
  a.files.toList == b.files.toList && a.callGraph.toList == b.callGraph.toList &&
    a.revisions.toList == b.revisions.toList

/-- The checkpoints of a text. -/
def parse (text : String) : Except CheckpointError Checkpoints := do
  let read : Option (Nat × Checkpoints) := do
    let j ← Json.parse? text
    let table (name : String) : Option TextMap :=
      match j.member? name with
      | some v => mapOfJson? v
      | none => some ∅
    return (← (← j.member? "version").word32?,
      ⟨← table "files", ← table "call_graph", ← table "revisions"⟩)
  match read with
  | none => throw .parse
  | some (version, c) => if version != currentVersion then throw (.version version) else return c

end Checkpoints

/-- Checkpoints with where they are saved. -/
structure CheckpointStore where
  state : Checkpoints := {}
  location : Option String := none
deriving Inhabited

/-- The name of the checkpoints' file in the data directory. -/
def checkpointFile : String := "checkpoints.json"

namespace CheckpointStore

/-- Open the checkpoints of a file; without it there are none. -/
def load (tree : FileTree) (path : String) : Except CheckpointError CheckpointStore := do
  let state ←
    if tree.exists? path then
      Checkpoints.parse (← (tree.readText path).mapError fun e => .io e.message)
    else pure {}
  return { state, location := some path }

/-- Save checkpoints in a file whose directory is created. -/
def persist (tree : FileTree) (path : String) (c : Checkpoints) : FileTree × Option CheckpointError :=
  match tree.createDirectories ((Paths.parent? path).getD "") with
  | .error e => (tree, some (.io e.message))
  | .ok tree =>
    let (tree, error) := tree.replace path (Text.bytes (toJson c).pretty)
    (tree, error.map fun e => .io e.message)

/-- Apply all updates or none: they are saved before they count. -/
def setBatch (s : CheckpointStore) (tree : FileTree) (updates : List CheckpointUpdate) :
    CheckpointStore × FileTree × Option CheckpointError :=
  let next := s.state.setAll updates
  if next.same s.state then (s, tree, none)
  else
    match s.location with
    | none => ({ s with state := next }, tree, none)
    | some path =>
      match persist tree path next with
      | (tree, none) => ({ s with state := next }, tree, none)
      | (tree, some e) => (s, tree, some e)

/-- The paths with a file checkpoint, in order. -/
def trackedFiles (s : CheckpointStore) : List String := s.state.files.keys

end CheckpointStore

end RepoAtlas
