import RepoAtlas.Graph.Edge
import RepoAtlas.Graph.Node

/-!
# Batches of writes

The graph is changed by batches. A batch is checked as a whole and applied as a whole, and its
summary says what it changed.
-/

namespace RepoAtlas

/-- One write. -/
inductive WriteOp where
  /-- Insert a node, or update the one of its key. -/
  | upsertNode (node : GraphNode)
  /-- Insert an edge unless it is there. -/
  | upsertEdge (edge : GraphEdge)
  /-- Remove the units and chunks of a file, and their edges. -/
  | clearFile (path : String)
  /-- Remove a file and its contents, and their edges. -/
  | removeFile (path : String)
  /-- Make the imports of a file lead exactly to some files. -/
  | replaceImports (path : String) (targets : List String)
  /-- Make the calls of the units of a file exactly some pairs of caller and callee. -/
  | replaceCalls (path : String) (calls : List (String × String))
  /-- Drop the commits of a repository other than some revisions, with their file revisions, and the
  authors that are left without commits. -/
  | retainHistory (repo : String) (revisions : List String)
deriving Inhabited

/-- Writes in order. -/
abbrev WriteBatch := List WriteOp

/-- What a batch changed. -/
structure WriteSummary where
  nodesWritten : Nat := 0
  nodesRemoved : Nat := 0
  edgesWritten : Nat := 0
  edgesRemoved : Nat := 0
  /-- The files whose units lost calls because their callees were removed. -/
  orphanedCallers : Std.ExtTreeSet String := ∅
deriving Inhabited

namespace WriteSummary

/-- The summary of two batches. -/
def merge (a b : WriteSummary) : WriteSummary :=
  { nodesWritten := a.nodesWritten + b.nodesWritten
    nodesRemoved := a.nodesRemoved + b.nodesRemoved
    edgesWritten := a.edgesWritten + b.edgesWritten
    edgesRemoved := a.edgesRemoved + b.edgesRemoved
    orphanedCallers := b.orphanedCallers.foldl (·.insert ·) a.orphanedCallers }

/-- The number of changes. -/
def mutations (s : WriteSummary) : Nat :=
  s.nodesWritten + s.nodesRemoved + s.edgesWritten + s.edgesRemoved

/-- Whether nothing changed. -/
def isNoop (s : WriteSummary) : Bool :=
  s.nodesWritten == 0 && s.nodesRemoved == 0 && s.edgesWritten == 0 && s.edgesRemoved == 0

instance : ToJson WriteSummary where
  toJson s := .obj [("nodes_written", toJson s.nodesWritten), ("nodes_removed", toJson s.nodesRemoved),
    ("edges_written", toJson s.edgesWritten), ("edges_removed", toJson s.edgesRemoved),
    ("orphaned_callers", toJson s.orphanedCallers.toList)]

end WriteSummary

end RepoAtlas
