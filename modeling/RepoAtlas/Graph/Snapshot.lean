import RepoAtlas.Graph.Query

/-!
# Snapshots

The document that a graph is saved as, and the graph that a document describes. Adjacency and indexes
are built anew when a graph is loaded.
-/

namespace RepoAtlas

/-- The version of documents. -/
def snapshotVersion : Nat := 2

/-- What is saved of a graph. -/
structure GraphSnapshot where
  version : Nat
  nextSequence : Nat
  files : List SourceFile
  units : List CodeUnit
  chunks : List StoredChunk
  commits : List Commit
  authors : List Author
  revisions : List FileRevision
  edges : List GraphEdge
deriving Inhabited

instance : ToJson StoredChunk where
  toJson s := .obj (("sequence", toJson s.sequence) :: s.chunk.fields)

instance : OfJson StoredChunk where
  ofJson? j := do
    let chunk : SemanticChunk ← ofJson? j
    return ⟨chunk, ← j.get? Nat "sequence"⟩

instance : ToJson GraphSnapshot where
  toJson s := .obj [("version", toJson s.version), ("next_sequence", toJson s.nextSequence),
    ("files", toJson s.files), ("units", toJson s.units), ("chunks", toJson s.chunks),
    ("commits", toJson s.commits), ("authors", toJson s.authors), ("revisions", toJson s.revisions),
    ("edges", toJson s.edges)]

instance : OfJson GraphSnapshot where
  ofJson? j := do
    return {
      version := ← (← j.member? "version").word32?
      nextSequence := ← j.get? Nat "next_sequence"
      files := ← j.get? (List SourceFile) "files"
      units := ← j.get? (List CodeUnit) "units"
      chunks := ← j.get? (List StoredChunk) "chunks"
      commits := ← j.get? (List Commit) "commits"
      authors := ← j.get? (List Author) "authors"
      revisions := ← j.get? (List FileRevision) "revisions"
      edges := ← j.get? (List GraphEdge) "edges" }

namespace KnowledgeGraph

/-- What is saved of a graph: nodes by key, chunks by sequence, edges in order. -/
def snapshot (g : KnowledgeGraph) : GraphSnapshot :=
  { version := snapshotVersion
    nextSequence := g.nextSequence
    files := g.files.values
    units := g.units.values
    chunks := g.chunks.values.mergeSort fun a b => a.sequence ≤ b.sequence
    commits := g.commits.values
    authors := g.authors.values
    revisions := g.revisions.values
    edges := g.edges.mergeSort fun a b => (a.compare b).isLE }

/-- Put a unit that was saved. -/
def loadUnit (g : KnowledgeGraph) (u : CodeUnit) : KnowledgeGraph :=
  { g with
    unitsByFile := addEntry g.unitsByFile u.path u.id
    unitsByName := addEntry g.unitsByName u.name u.id
    units := g.units.insert u.id u }

/-- Put a revision that was saved. -/
def loadRevision (g : KnowledgeGraph) (r : FileRevision) : KnowledgeGraph :=
  { g with
    revisionsByPath := addEntry g.revisionsByPath r.path r.id
    revisions := g.revisions.insert r.id r }

/-- Put an edge that was saved, unless it is there or one of its ends is not. -/
def loadEdge (g : KnowledgeGraph) (e : GraphEdge) : KnowledgeGraph :=
  if g.contains e.source && g.contains e.target && !g.hasEdge e then g.addEdge e else g

/-- The graph of a document. Edges that hang loose are dropped. -/
def ofSnapshot (s : GraphSnapshot) : KnowledgeGraph :=
  let g : KnowledgeGraph :=
    { files := s.files.foldl (fun m f => m.insert f.path f) ∅
      chunks := s.chunks.foldl (fun m c => m.insert c.chunk.id c) ∅
      commits := s.commits.foldl (fun m c => m.insert c.id c) ∅
      authors := s.authors.foldl (fun m a => m.insert a.id a) ∅
      nextSequence := s.chunks.foldl (fun n c => max n (c.sequence + 1)) s.nextSequence }
  let g := s.units.foldl loadUnit g
  let g := s.revisions.foldl loadRevision g
  s.edges.foldl loadEdge g

end KnowledgeGraph

end RepoAtlas
