import RepoAtlas.Proofs.Graph.Entries

/-!
# Edges from both of their ends

The graph keeps each edge twice, at its source and at its target. `Mirrored` says that the two agree;
it is what lets `detach` find all edges of a node. The writes of edges are described by the edges that
are there after them, and they leave the tables of nodes alone.
-/

namespace RepoAtlas

/-- The part of a graph that writes of edges leave alone. -/
structure NodeTables where
  files : Std.ExtTreeMap String SourceFile
  units : Std.ExtTreeMap String CodeUnit
  chunks : Std.ExtTreeMap String StoredChunk
  commits : Std.ExtTreeMap CommitId Commit
  authors : Std.ExtTreeMap AuthorId Author
  revisions : Std.ExtTreeMap RevisionId FileRevision
  unitsByFile : Index String
  unitsByName : Index String
  revisionsByPath : Index RevisionId
  nextSequence : Nat

namespace KnowledgeGraph

variable {g : KnowledgeGraph} {e e' : GraphEdge} {key k : NodeKey}

/-- The nodes of a graph with their indexes. -/
def tables (g : KnowledgeGraph) : NodeTables :=
  ⟨g.files, g.units, g.chunks, g.commits, g.authors, g.revisions, g.unitsByFile, g.unitsByName,
    g.revisionsByPath, g.nextSequence⟩

lemma contains_eq_of_tables {g g' : KnowledgeGraph} (h : g.tables = g'.tables) (k : NodeKey) :
    g.contains k = g'.contains k := by
  simp only [tables, NodeTables.mk.injEq] at h
  obtain ⟨h₁, h₂, h₃, h₄, h₅, h₆, -⟩ := h
  cases k <;> simp only [contains, h₁, h₂, h₃, h₄, h₅, h₆]

/-- Each edge is recorded at its source exactly when it is recorded at its target. -/
def Mirrored (g : KnowledgeGraph) : Prop :=
  ∀ kind s t, hasEntry g.incoming t ⟨kind, s⟩ = true ↔ hasEntry g.outgoing s ⟨kind, t⟩ = true

/-- The ends of every edge are of the kinds that its own kind connects. -/
def Typed (g : KnowledgeGraph) : Prop :=
  ∀ e, g.hasEdge e = true → (e.source.type, e.target.type) = e.kind.endpoints

lemma Mirrored.hasEntry_incoming (hm : g.Mirrored) {l : Link} :
    hasEntry g.incoming k l = true ↔ g.hasEdge ⟨l.kind, l.other, k⟩ = true := hm l.kind l.other k

@[simp] lemma mem_neighbors_outgoing {kind : EdgeKind} :
    k ∈ g.neighbors key kind .outgoing ↔ g.hasEdge ⟨kind, key, k⟩ = true := by
  simp only [neighbors, adjacency, List.mem_map, List.mem_filter, mem_entries, beq_iff_eq, hasEdge]
  constructor
  · rintro ⟨⟨kd, o⟩, ⟨h, rfl⟩, rfl⟩
    exact h
  · intro h
    exact ⟨⟨kind, k⟩, ⟨h, rfl⟩, rfl⟩

lemma mem_neighbors_incoming (hm : g.Mirrored) {kind : EdgeKind} :
    k ∈ g.neighbors key kind .incoming ↔ g.hasEdge ⟨kind, k, key⟩ = true := by
  simp only [neighbors, adjacency, List.mem_map, List.mem_filter, mem_entries, beq_iff_eq,
    hm.hasEntry_incoming]
  constructor
  · rintro ⟨⟨kd, o⟩, ⟨h, rfl⟩, rfl⟩
    exact h
  · intro h
    exact ⟨⟨kind, k⟩, ⟨h, rfl⟩, rfl⟩

/-! ### Single edges -/

@[simp] lemma tables_addEdge : (g.addEdge e).tables = g.tables := rfl

@[simp] lemma tables_dropEdge : (g.dropEdge e).tables = g.tables := rfl

@[simp] lemma hasEdge_addEdge : (g.addEdge e).hasEdge e' = true ↔ e' = e ∨ g.hasEdge e' = true := by
  obtain ⟨kd, s, t⟩ := e
  obtain ⟨kd', s', t'⟩ := e'
  simp only [hasEdge, addEdge, hasEntry_addEntry, Link.mk.injEq, GraphEdge.mk.injEq]
  tauto

@[simp] lemma hasEdge_dropEdge : (g.dropEdge e).hasEdge e' = true ↔ e' ≠ e ∧ g.hasEdge e' = true := by
  obtain ⟨kd, s, t⟩ := e
  obtain ⟨kd', s', t'⟩ := e'
  simp only [hasEdge, dropEdge, hasEntry_removeEntry, Link.mk.injEq, GraphEdge.mk.injEq, ne_eq]
  tauto

lemma Mirrored.addEdge (hm : g.Mirrored) : (g.addEdge e).Mirrored := by
  intro kind s t
  simp only [KnowledgeGraph.addEdge, hasEntry_addEntry, Link.mk.injEq, hm kind s t]
  tauto

lemma Mirrored.dropEdge (hm : g.Mirrored) : (g.dropEdge e).Mirrored := by
  intro kind s t
  simp only [KnowledgeGraph.dropEdge, hasEntry_removeEntry, Link.mk.injEq, hm kind s t]
  tauto

/-! ### All edges of a node -/

@[simp] lemma tables_detach : (g.detach key).1.tables = g.tables := rfl

/-- What is left at the targets after a node is detached, whatever is recorded there. -/
lemma hasEntry_incoming_detach {kind : EdgeKind} {s t : NodeKey} :
    hasEntry (g.detach key).1.incoming t ⟨kind, s⟩ = true ↔
      t ≠ key ∧ ¬(s = key ∧ hasEntry g.outgoing key ⟨kind, t⟩ = true) ∧
        hasEntry g.incoming t ⟨kind, s⟩ = true := by
  simp only [detach, hasEntry_erase, hasEntry_foldl_removeEntry, mem_entries, Link.mk.injEq]
  constructor
  · rintro ⟨ht, hall, h⟩
    refine ⟨ht, ?_, h⟩
    rintro ⟨hs, ho⟩
    exact hall ⟨kind, t⟩ ho ⟨rfl, rfl, hs⟩
  · rintro ⟨ht, hno, h⟩
    refine ⟨ht, ?_, h⟩
    rintro ⟨kd, o⟩ hl ⟨rfl, rfl, hs⟩
    exact hno ⟨hs, hl⟩

/-- What is recorded at the targets once the edges that leave a node are taken out. -/
def withoutOut (g : KnowledgeGraph) (key : NodeKey) : Adjacency :=
  (entries g.outgoing key).foldl (fun m l => removeEntry m l.other ⟨l.kind, key⟩) g.incoming

/-- At the node itself these are the edges that lead to it, less its loops. -/
lemma hasEntry_withoutOut (key : NodeKey) {l : Link} : hasEntry (g.withoutOut key) key l = true ↔
    ¬(l.other = key ∧ hasEntry g.outgoing key ⟨l.kind, key⟩ = true) ∧
      hasEntry g.incoming key l = true := by
  obtain ⟨lk, lo⟩ := l
  rw [withoutOut, hasEntry_foldl_removeEntry]
  simp only [mem_entries, Link.mk.injEq]
  refine and_congr_left fun _ => ?_
  constructor
  · rintro hall ⟨rfl, ho⟩
    exact hall ⟨lk, lo⟩ ho ⟨rfl, rfl, rfl⟩
  · rintro hno ⟨kd', o'⟩ ho ⟨rfl, rfl, rfl⟩
    exact hno ⟨rfl, ho⟩

/-- A detached node has no edges left, and all other edges stay. A loop is met in both directions, so
the second pass no longer finds what the first one removed. -/
lemma hasEdge_detach (hm : g.Mirrored) :
    (g.detach key).1.hasEdge e = true ↔ e.source ≠ key ∧ e.target ≠ key ∧ g.hasEdge e = true := by
  obtain ⟨kd, s, t⟩ := e
  have hinc := fun l => hasEntry_withoutOut (g := g) key (l := l)
  simp only [withoutOut] at hinc
  simp only [hasEdge, detach, hasEntry_foldl_removeEntry, hasEntry_erase, mem_entries, hinc,
    Link.mk.injEq]
  constructor
  · rintro ⟨hall, hs, h⟩
    refine ⟨hs, ?_, h⟩
    rintro rfl
    exact hall ⟨kd, s⟩ ⟨fun hloop => hs hloop.1, (hm kd s t).mpr h⟩ ⟨rfl, rfl, rfl⟩
  · rintro ⟨hs, ht, h⟩
    exact ⟨fun l _ hl => ht hl.2.2, hs, h⟩

lemma Mirrored.detach (hm : g.Mirrored) : (g.detach key).1.Mirrored := by
  intro kind s t
  have hout : hasEntry (g.detach key).1.outgoing s ⟨kind, t⟩ = true ↔
      s ≠ key ∧ t ≠ key ∧ hasEntry g.outgoing s ⟨kind, t⟩ = true := hasEdge_detach (e := ⟨kind, s, t⟩) hm
  rw [hasEntry_incoming_detach, hout, hm kind s t]
  constructor
  · rintro ⟨ht, hno, h⟩
    exact ⟨fun hs => hno ⟨hs, hs ▸ h⟩, ht, h⟩
  · rintro ⟨hs, ht, h⟩
    exact ⟨ht, fun hno => hs hno.1, h⟩

end KnowledgeGraph

end RepoAtlas
