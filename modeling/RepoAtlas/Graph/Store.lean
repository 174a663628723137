import RepoAtlas.Graph.Admission
import RepoAtlas.Graph.Snapshot
import RepoAtlas.Json.Parser
import RepoAtlas.Json.Printer
import RepoAtlas.Scan.FileTree

/-!
# The graph store

A graph that is changed by admitted batches and saved in a file. Saving is skipped while nothing
changed since the last save.
-/

namespace RepoAtlas

/-- Why the store refuses or fails. -/
inductive StoreError where
  | invalid (reason : String)
  | unavailable (reason : String)
  | io (reason : String)
  /-- The file is not the document of a graph. -/
  | serialize
  /-- A sequence number is too large. -/
  | overflow
deriving DecidableEq, Inhabited

namespace StoreError

/-- The wording of an error. -/
def message : StoreError → String
  | .invalid reason => "Invalid write: " ++ reason
  | .unavailable reason => "Graph store unavailable: " ++ reason
  | .io reason => "IO error: " ++ reason
  | .serialize => "Failed to (de)serialize graph"
  | .overflow => "sequence numbers are used up"

/-- Whether the same operation may succeed later. -/
def isTransient : StoreError → Bool
  | .unavailable _ | .io _ => true
  | _ => false

end StoreError

/-- The name of the graph's file in the data directory. -/
def graphFile : String := "graph.json"

/-- A graph with where it is saved. -/
structure GraphStore where
  graph : KnowledgeGraph := {}
  /-- The path of the file; without one the graph is kept in memory only. -/
  location : Option String := none
  /-- The length that embeddings must have. -/
  dimensions : Option Nat := none
  /-- Whether the graph changed since it was saved. -/
  dirty : Bool := false
  /-- The number of changes since the store was opened. -/
  writes : Nat := 0
deriving Inhabited

namespace GraphStore

/-- The graph that a text describes. -/
def parseSnapshot (text : String) : Except StoreError KnowledgeGraph := do
  match Json.parse? text >>= (ofJson? · : Json → Option GraphSnapshot) with
  | none => throw .serialize
  | some s =>
    if s.version != snapshotVersion then
      throw (.invalid ("unsupported graph snapshot version " ++ toString s.version))
    if s.chunks.any (UInt64.size ≤ ·.sequence + 1) then throw .overflow
    return .ofSnapshot s

/-- Open the store in a directory, which is created. Without a file the graph is empty. -/
def load (tree : FileTree) (dir : String) : Except StoreError (FileTree × GraphStore) := do
  let tree ← (tree.createDirectories dir).mapError fun e => .io e.message
  let path := Paths.join dir graphFile
  let graph ←
    if tree.exists? path then
      parseSnapshot (← (tree.readText path).mapError fun e => .io e.message)
    else pure {}
  return (tree, { graph, location := some path })

/-- Apply a batch as a whole, or refuse it. -/
def apply (s : GraphStore) (batch : WriteBatch) : Except StoreError (GraphStore × WriteSummary) :=
  if batch.isEmpty then .ok (s, {})
  else
    match s.graph.batchFlaw? s.dimensions batch with
    | some reason => .error (.invalid reason)
    | none =>
      let d := s.graph.applyBatch batch
      let s := { s with graph := d.graph }
      if d.summary.isNoop then .ok (s, d.summary)
      else .ok ({ s with writes := s.writes + d.summary.mutations, dirty := true }, d.summary)

/-- Save the graph if it has a file and changed. A save that fails is done again by the next one. -/
def commit (s : GraphStore) (tree : FileTree) : GraphStore × FileTree × Option StoreError :=
  match s.location with
  | none => (s, tree, none)
  | some path =>
    if s.dirty then
      let content := Text.bytes (toJson s.graph.snapshot).compact
      match tree.replace path content with
      | (tree, none) => ({ s with dirty := false }, tree, none)
      | (tree, some e) => (s, tree, some (.io e.message))
    else (s, tree, none)

end GraphStore

end RepoAtlas
