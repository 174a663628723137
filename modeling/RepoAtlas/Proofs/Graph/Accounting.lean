import RepoAtlas.Proofs.Graph.Reachability

/-!
# What summaries account for

A batch reports how many nodes and edges it wrote and removed. A removed node is counted once, when it goes, so the
nodes that are there and those that were removed only ever grow together, by a node that is new; and each of these
was counted as written. A node that is replaced is counted as written too, so for nodes the account is an inequality;
for edges, which are never replaced, it is an equation. Nothing changes without being counted.
-/

namespace RepoAtlas

open KnowledgeGraph

/-! ### Sizes -/

section

variable {κ β : Type} [Ord κ] [Std.TransOrd κ] {m : Std.ExtTreeMap κ β} {k k' : κ}

/-- Putting a value adds one key at most. -/
lemma size_insert_bounds (m : Std.ExtTreeMap κ β) (k : κ) (b : β) :
    m.size ≤ (m.insert k b).size ∧ (m.insert k b).size ≤ m.size + 1 :=
  ⟨Std.ExtTreeMap.size_le_size_insert, Std.ExtTreeMap.size_insert_le⟩

lemma size_erase_of_contains (h : m.contains k = true) : (m.erase k).size + 1 = m.size := by
  have hpos : m.size ≠ 0 := by
    intro hzero
    rw [Std.ExtTreeMap.eq_empty_iff_size_eq_zero.mpr hzero] at h
    simp at h
  rw [Std.ExtTreeMap.size_erase, if_pos h]
  omega

lemma stored_erase_iff [Std.LawfulEqOrd κ] : (m.erase k).contains k' = true ↔ k' ≠ k ∧ m.contains k' = true := by
  rw [Std.ExtTreeMap.contains_erase, Bool.and_eq_true, bne_iff_ne, ne_eq, Std.LawfulEqCmp.compare_eq_iff_eq,
    eq_comm]

end

/-- The number of all nodes. -/
def KnowledgeGraph.nodeCount (g : KnowledgeGraph) : Nat :=
  g.files.size + g.units.size + g.chunks.size + g.commits.size + g.authors.size + g.revisions.size

lemma KnowledgeGraph.nodeCount_eq_of_tables {g g' : KnowledgeGraph} (h : g'.tables = g.tables) :
    g'.nodeCount = g.nodeCount := by
  simp only [tables, NodeTables.mk.injEq] at h
  obtain ⟨hfiles, hunits, hchunks, hcommits, hauthors, hrevisions, -⟩ := h
  simp only [nodeCount, hfiles, hunits, hchunks, hcommits, hauthors, hrevisions]

namespace Draft

variable {d d' d'' : Draft}

/-- The nodes that are there, and those that were removed so far. -/
def population (d : Draft) : Nat := d.graph.nodeCount + d.summary.nodesRemoved

/-- No node goes without being counted as removed, and none comes without being counted as written. -/
structure Tolls (d d' : Draft) : Prop where
  removed : d.population ≤ d'.population
  written : d'.population + d.summary.nodesWritten ≤ d.population + d'.summary.nodesWritten

namespace Tolls

lemma refl (d : Draft) : d.Tolls d := ⟨Nat.le_refl _, Nat.le_refl _⟩

lemma trans (h : d.Tolls d') (h' : d'.Tolls d'') : d.Tolls d'' where
  removed := Nat.le_trans h.removed h'.removed
  written := by
    have hfirst := h.written
    have hsecond := h'.written
    omega

/-- Neither nodes nor their counts change. -/
lemma of_tables (htables : d'.graph.tables = d.graph.tables)
    (hwritten : d'.summary.nodesWritten = d.summary.nodesWritten)
    (hremoved : d'.summary.nodesRemoved = d.summary.nodesRemoved) : d.Tolls d' := by
  have hpopulation : d'.population = d.population := by
    rw [population, population, nodeCount_eq_of_tables htables, hremoved]
  constructor <;> omega

/-- A node was put that may be new. -/
lemma wroteNode (hgrown : d.population ≤ d'.population) (hone : d'.population ≤ d.population + 1)
    (hwritten : d'.summary.nodesWritten = d.summary.nodesWritten) : d.Tolls d'.wroteNode where
  removed := hgrown
  written := by
    have hsame : d'.wroteNode.population = d'.population := rfl
    have hcount : d'.wroteNode.summary.nodesWritten = d'.summary.nodesWritten + 1 := rfl
    omega

/-- A node that was there was taken out. -/
lemma removedNode (hgone : d'.population + 1 = d.population)
    (hwritten : d'.summary.nodesWritten = d.summary.nodesWritten) : d.Tolls d'.removedNode := by
  have hcount : d'.removedNode.population = d'.population + 1 := rfl
  have hsame : d'.removedNode.summary.nodesWritten = d'.summary.nodesWritten := rfl
  constructor <;> omega

section

variable {β : Type} {op : Draft → β → Draft}

lemma foldl (hop : ∀ (d : Draft) b, d.Tolls (op d b)) (l : List β) : ∀ d : Draft, d.Tolls (l.foldl op d) := by
  induction l with
  | nil => exact refl
  | cons b l ih => exact fun d => (hop d b).trans (ih _)

/-- Steps that each take out something that is there, and leave the others there. -/
lemma foldl_of_stored {P : Draft → β → Prop} (hop : ∀ d b, P d b → d.Tolls (op d b))
    (hkept : ∀ d b c, c ≠ b → P d c → P (op d b) c) {l : List β} (hl : l.Nodup)
    (hstored : ∀ b ∈ l, P d b) : d.Tolls (l.foldl op d) := by
  induction l generalizing d with
  | nil => exact refl d
  | cons b l ih =>
    obtain ⟨hb, hl⟩ := List.nodup_cons.mp hl
    refine (hop d b (hstored b (by simp))).trans (ih hl fun c hc => ?_)
    exact hkept d b c (fun h => hb (h ▸ hc)) (hstored c (by simp [hc]))

end

end Tolls

/-! ### Edges -/

lemma tolls_insertEdge (d : Draft) (e : GraphEdge) : d.Tolls (d.insertEdge e) := by
  refine .of_tables tables_insertEdge ?_ ?_ <;> simp only [insertEdge] <;> split <;> rfl

lemma tolls_removeEdge (d : Draft) (e : GraphEdge) : d.Tolls (d.removeEdge e) := by
  refine .of_tables tables_removeEdge ?_ ?_ <;> simp only [removeEdge] <;> split <;> rfl

lemma tolls_detach (d : Draft) (key : NodeKey) : d.Tolls (d.detach key) := .of_tables rfl rfl rfl

lemma tolls_replaceEdges (d : Draft) (kind : EdgeKind) (source : NodeKey) (desired : Std.ExtTreeSet NodeKey) :
    d.Tolls (d.replaceEdges kind source desired) :=
  (Tolls.foldl (fun d t => tolls_removeEdge d ⟨kind, source, t⟩) _ d).trans
    (Tolls.foldl (fun d t => tolls_insertEdge d ⟨kind, source, t⟩) _ _)

/-! ### Nodes -/

lemma tolls_upsertFile (d : Draft) (f : SourceFile) : d.Tolls (d.upsertFile f) := by
  have hput : d.Tolls (if d.graph.files[f.path]? = some f then d
      else { d with graph := { d.graph with files := d.graph.files.insert f.path f } }.wroteNode) := by
    split
    · exact .refl d
    · have hsize := size_insert_bounds d.graph.files f.path f
      refine .wroteNode ?_ ?_ rfl <;> simp only [population, nodeCount] <;> omega
  simp only [upsertFile]
  split
  · exact hput
  · exact hput.trans (.foldl (fun d r => tolls_insertEdge d ⟨.versionOf, .revision r, .file f.path⟩) _ _)

lemma tolls_upsertUnit (d : Draft) (u : CodeUnit) : d.Tolls (d.upsertUnit u) := by
  simp only [upsertUnit]
  split
  · exact .refl d
  · have hsize := size_insert_bounds d.graph.units u.id u
    refine Tolls.trans ?_ (tolls_insertEdge _ _)
    refine .wroteNode ?_ ?_ rfl <;> simp only [population, nodeCount] <;> omega

lemma tolls_upsertChunk (d : Draft) (c : SemanticChunk) : d.Tolls (d.upsertChunk c) := by
  have hsize := fun s => size_insert_bounds d.graph.chunks c.id s
  simp only [upsertChunk]
  refine Tolls.trans ?_ (tolls_insertEdge _ _)
  split
  · rename_i stored _
    have hsize := hsize ⟨c, stored.sequence⟩
    split
    · exact .refl d
    · refine .wroteNode ?_ ?_ rfl <;> simp only [population, nodeCount] <;> omega
  · have hsize := hsize ⟨c, d.graph.nextSequence⟩
    refine .wroteNode ?_ ?_ rfl <;> simp only [population, nodeCount] <;> omega

lemma tolls_upsertCommit (d : Draft) (c : Commit) : d.Tolls (d.upsertCommit c) := by
  have hsize := size_insert_bounds d.graph.commits c.id c
  simp only [upsertCommit]
  split
  · exact .refl d
  · refine .wroteNode ?_ ?_ rfl <;> simp only [population, nodeCount] <;> omega

lemma tolls_upsertAuthor (d : Draft) (a : Author) : d.Tolls (d.upsertAuthor a) := by
  have hsize := size_insert_bounds d.graph.authors a.id a
  simp only [upsertAuthor]
  split
  · exact .refl d
  · refine .wroteNode ?_ ?_ rfl <;> simp only [population, nodeCount] <;> omega

lemma tolls_upsertRevision (d : Draft) (r : FileRevision) : d.Tolls (d.upsertRevision r) := by
  have hsize := size_insert_bounds d.graph.revisions r.id r
  have hput : d.Tolls (Draft.wroteNode { d with graph := { d.graph with
      revisionsByPath := addEntry d.graph.revisionsByPath r.path r.id
      revisions := d.graph.revisions.insert r.id r } }) := by
    refine .wroteNode ?_ ?_ rfl <;> simp only [population, nodeCount] <;> omega
  simp only [upsertRevision]
  split
  · exact .refl d
  · split
    · exact hput.trans (tolls_insertEdge _ _)
    · exact hput

lemma tolls_upsert (d : Draft) (n : GraphNode) : d.Tolls (d.upsert n) := by
  cases n with
  | sourceFile f => exact tolls_upsertFile d f
  | codeUnit u => exact tolls_upsertUnit d u
  | semanticChunk c => exact tolls_upsertChunk d c
  | commit c => exact tolls_upsertCommit d c
  | author a => exact tolls_upsertAuthor d a
  | fileRevision r => exact tolls_upsertRevision d r

/-! ### Removals -/

lemma tolls_removeChunk (d : Draft) (id : String) : d.Tolls (d.removeChunk id) := by
  simp only [removeChunk]
  split
  · rename_i hstored
    refine (tolls_detach d (.chunk id)).trans (.removedNode ?_ rfl)
    have hsize := size_erase_of_contains hstored
    simp only [population, nodeCount]
    omega
  · exact tolls_detach d (.chunk id)

lemma tolls_orphan (path : String) (d : Draft) (caller : NodeKey) : d.Tolls (d.orphan path caller) := by
  simp only [orphan]
  split
  · split
    · exact .refl d
    · exact .of_tables rfl rfl rfl
  · exact .refl d

lemma units_foldl_removeChunk (l : List String) (d : Draft) :
    (l.foldl removeChunk d).graph.units = d.graph.units :=
  List.foldlRecOn (motive := fun d' : Draft => d'.graph.units = d.graph.units) l _ rfl
    fun d' hd c _ => by rw [graph_removeChunk]; exact hd

lemma tolls_removeUnit (d : Draft) (id : String) : d.Tolls (d.removeUnit id) := by
  simp only [removeUnit]
  split
  · exact .refl d
  · rename_i u hu
    set d₁ := ((d.graph.neighbors (.unit id) .describes .incoming).filterMap NodeKey.chunk?).foldl removeChunk d
      with hd₁
    set d₂ := (d₁.graph.neighbors (.unit id) .calls .incoming).foldl (orphan · u.path) d₁ with hd₂
    have hchunks : d.Tolls d₁ := .foldl tolls_removeChunk _ d
    have hcallers : d₁.Tolls d₂ := .foldl (tolls_orphan u.path) _ d₁
    refine ((hchunks.trans hcallers).trans (tolls_detach d₂ (.unit id))).trans (.removedNode ?_ rfl)
    -- the unit is still there when its chunks are gone
    have hunits : d₂.graph.units = d.graph.units := by
      rw [hd₂, graph_foldl_orphan, hd₁, units_foldl_removeChunk]
    have hstored : (d₂.detach (.unit id)).graph.units.contains id = true := by
      show d₂.graph.units.contains id = true
      rw [hunits, Std.ExtTreeMap.contains_eq_isSome_getElem?, hu]
      rfl
    have hsize := size_erase_of_contains hstored
    simp only [population, nodeCount]
    omega

lemma tolls_clearFile (d : Draft) (path : String) : d.Tolls (d.clearFile path) := .foldl tolls_removeUnit _ d

lemma tolls_removeFile (d : Draft) (path : String) : d.Tolls (d.removeFile path) := by
  have hcleared := (tolls_clearFile d path).trans (tolls_detach _ (.file path))
  simp only [removeFile]
  split
  · rename_i hstored
    refine hcleared.trans (.removedNode ?_ rfl)
    have hsize := size_erase_of_contains hstored
    simp only [population, nodeCount]
    omega
  · exact hcleared

/-! ### Forgetting history

Revisions, commits and authors are taken out without asking whether they are there, so the accounts are right only
because each is listed once and is there. -/

lemma tolls_removeRevision {id : RevisionId} (hstored : d.graph.revisions.contains id = true) :
    d.Tolls (d.removeRevision id) := by
  refine (tolls_detach d (.revision id)).trans (.removedNode ?_ rfl)
  have hsize := size_erase_of_contains (m := (d.detach (.revision id)).graph.revisions) hstored
  simp only [population, nodeCount]
  omega

lemma tolls_removeCommit {id : CommitId} (hstored : d.graph.commits.contains id = true) :
    d.Tolls (d.removeCommit id) := by
  refine (tolls_detach d (.commit id)).trans (.removedNode ?_ rfl)
  have hsize := size_erase_of_contains (m := (d.detach (.commit id)).graph.commits) hstored
  simp only [population, nodeCount]
  omega

lemma tolls_removeAuthor {id : AuthorId} (hstored : d.graph.authors.contains id = true) :
    d.Tolls (d.removeAuthor id) := by
  refine .removedNode ?_ rfl
  have hsize := size_erase_of_contains hstored
  simp only [population, nodeCount]
  omega

lemma tolls_retainHistory (hm : d.graph.Mirrored) (repo : String) (keep : Std.ExtTreeSet String) :
    d.Tolls (d.retainHistory repo keep) := by
  simp only [retainHistory]
  split
  · exact .refl d
  · set d₁ := (d.graph.doomedRevisions repo keep).foldl removeRevision d with hd₁
    set d₂ := (d.graph.doomedCommits repo keep).foldl removeCommit d₁ with hd₂
    have hremoves : Removes (fun k => ∃ r ∈ d.graph.doomedRevisions repo keep, k = .revision r) d.graph
      d₁.graph := removes_foldl_removeRevision hm _
    have hrevisions : d.Tolls d₁ := by
      refine .foldl_of_stored (P := fun d r => d.graph.revisions.contains r = true)
        (fun d r hr => tolls_removeRevision hr) (fun d r s hne hs => stored_erase_iff.mpr ⟨hne, hs⟩)
        (Std.ExtTreeMap.nodup_keys.filter _) fun r hr => (mem_doomedRevisions.mp hr).1
    have hcommits : d₁.Tolls d₂ := by
      refine .foldl_of_stored (P := fun d c => d.graph.commits.contains c = true)
        (fun d c hc => tolls_removeCommit hc) (fun d c s hne hs => stored_erase_iff.mpr ⟨hne, hs⟩)
        (Std.ExtTreeMap.nodup_keys.filter _) fun c hc => ?_
      -- the revisions went without taking commits along
      refine (hremoves.contains_iff (.commit c)).mpr ⟨(mem_doomedCommits.mp hc).1, ?_⟩
      rintro ⟨r, -, h⟩
      cases h
    have hauthors : d₂.Tolls ((d₂.graph.idleAuthors repo).foldl removeAuthor d₂) := by
      refine .foldl_of_stored (P := fun d a => d.graph.authors.contains a = true)
        (fun d a ha => tolls_removeAuthor ha) (fun d a s hne hs => stored_erase_iff.mpr ⟨hne, hs⟩)
        (Std.ExtTreeMap.nodup_keys.filter _) fun a ha => ?_
      exact Std.ExtTreeMap.contains_iff_mem.mpr (Std.ExtTreeMap.mem_keys.mp (List.mem_filter.mp ha).1)
    exact (hrevisions.trans hcommits).trans hauthors

lemma tolls_applyOp (hm : d.graph.Mirrored) (op : WriteOp) : d.Tolls (d.applyOp op) := by
  cases op with
  | upsertNode n => exact tolls_upsert d n
  | upsertEdge e => exact tolls_insertEdge d e
  | clearFile p => exact tolls_clearFile d p
  | removeFile p => exact tolls_removeFile d p
  | replaceImports p ts => exact tolls_replaceEdges d _ _ _
  | replaceCalls p cs => exact .foldl (fun d u => tolls_replaceEdges d _ _ _) _ d
  | retainHistory r keep => exact tolls_retainHistory hm r _

end Draft

/-- A batch of typed writes counts the nodes that come and go. -/
lemma KnowledgeGraph.WellFormed.tolls_applyBatch {g : KnowledgeGraph} (h : g.WellFormed) {b : WriteBatch}
    (hb : ∀ op ∈ b, op.Typed) : Draft.Tolls { graph := g } (g.applyBatch b) := by
  have hrun : (g.applyBatch b).Sound g.edgeCount ∧ Draft.Tolls { graph := g } (g.applyBatch b) :=
    List.foldlRecOn (motive := fun d : Draft => d.Sound g.edgeCount ∧ Draft.Tolls { graph := g } d) b _
      ⟨⟨h, rfl⟩, .refl _⟩ fun d hd op hop => ⟨hd.1.applyOp (hb op hop),
        hd.2.trans (Draft.tolls_applyOp hd.1.wellFormed.adjacent.mirrored op)⟩
  exact hrun.2

namespace GraphStore

/-- A summary accounts for the step from one store to another. -/
structure Accounts (s s' : GraphStore) (summary : WriteSummary) : Prop where
  /-- The edges are those of before, with the written ones and without the removed ones. -/
  edges : s.graph.edges.length + summary.edgesWritten = s'.graph.edges.length + summary.edgesRemoved
  /-- So is the count that the graph keeps of them. -/
  edgeCount : s.graph.edgeCount + summary.edgesWritten = s'.graph.edgeCount + summary.edgesRemoved
  /-- Every node that is not there any more was counted as removed. -/
  gone : s.graph.nodeCount ≤ s'.graph.nodeCount + summary.nodesRemoved
  /-- Every node that was not there before was counted as written. -/
  come : s'.graph.nodeCount + summary.nodesRemoved ≤ s.graph.nodeCount + summary.nodesWritten
  /-- Nothing changes, neither in the graph nor beside it, if nothing was counted. -/
  unchanged : summary.isNoop = true → s' = s
  /-- The store is marked as changed if something was counted. -/
  marked : summary.isNoop = false → s'.dirty = true ∧ s'.writes = s.writes + summary.mutations ∧ s.writes < s'.writes

lemma mutations_pos {summary : WriteSummary} (h : summary.isNoop = false) : 0 < summary.mutations := by
  by_contra hzero
  have hnone : summary.mutations = 0 := by omega
  simp only [WriteSummary.mutations, Nat.add_eq_zero_iff] at hnone
  obtain ⟨⟨⟨hwritten, hremoved⟩, hedges⟩, hdropped⟩ := hnone
  simp [WriteSummary.isNoop, hwritten, hremoved, hedges, hdropped] at h

/-- The summary of a batch that is admitted to a reachable graph accounts for everything that it changed. -/
theorem accounts_of_apply {s s' : GraphStore} {batch : WriteBatch} {summary : WriteSummary}
    (hs : s.graph.Reachable) (h : s.apply batch = .ok (s', summary)) : s.Accounts s' summary := by
  obtain ⟨hgraph, -, hflaw⟩ := apply_eq_ok h
  obtain ⟨hwell, hbalance⟩ := wellFormed_apply hs.wellFormed h
  have htolls := hs.wellFormed.tolls_applyBatch (Overlay.typed_of_batchFlaw? hflaw)
  have hpopulation : (s.graph.applyBatch batch).population = s'.graph.nodeCount + summary.nodesRemoved := by
    rw [Draft.population, ← hgraph, ← summary_of_apply h]
  have hgone : s.graph.nodeCount ≤ s'.graph.nodeCount + summary.nodesRemoved := hpopulation ▸ htolls.removed
  have hcome : s'.graph.nodeCount + summary.nodesRemoved ≤ s.graph.nodeCount + summary.nodesWritten := by
    rw [← hpopulation, summary_of_apply h]
    exact htolls.written
  have hcounted := hs.wellFormed.adjacent.counted
  have hcounted' := hwell.adjacent.counted
  constructor
  case edges => omega
  case edgeCount => omega
  case gone => exact hgone
  case come => exact hcome
  case unchanged =>
    intro hnoop
    rcases apply_cases hs.wellFormed h with ⟨-, hsame⟩ | ⟨hcounts, -⟩
    · exact hsame
    · simp [hnoop] at hcounts
  case marked =>
    intro hcounts
    rcases apply_cases hs.wellFormed h with ⟨hnoop, -⟩ | ⟨-, hmarked⟩
    · simp [hcounts] at hnoop
    · have hwrites : s'.writes = s.writes + summary.mutations := by rw [hmarked]
      refine ⟨by rw [hmarked], hwrites, ?_⟩
      rw [hwrites]
      exact Nat.lt_add_of_pos_right (mutations_pos hcounts)

/-- A file goes with its unit and its chunk, and comes back without the chunk. -/
theorem accounts_of_apply_smallBatch :
    ∃ s s' summary, ({} : GraphStore).applyAll [smallBatch] = .ok s ∧ s.graph.Reachable ∧
      s.apply (.removeFile "a.py" :: smallBatch.take 2) = .ok (s', summary) ∧
      s.graph.nodeCount = 3 ∧ s'.graph.nodeCount = 2 ∧
      summary.nodesWritten = 2 ∧ summary.nodesRemoved = 3 ∧ summary.edgesWritten = 1 ∧ summary.edgesRemoved = 2 ∧
      s.Accounts s' summary := by
  have hread : (({} : GraphStore).applyAll [smallBatch]).toOption.bind (fun s =>
      (s.apply (.removeFile "a.py" :: smallBatch.take 2)).toOption.map fun r =>
        (s.graph.nodeCount, r.1.graph.nodeCount, r.2.nodesWritten, r.2.nodesRemoved, r.2.edgesWritten,
          r.2.edgesRemoved)) = some (3, 2, 2, 3, 1, 2) := by
    decide
  cases hrun : ({} : GraphStore).applyAll [smallBatch] with
  | error e => simp [hrun, Except.toOption] at hread
  | ok s =>
    cases happly : s.apply (.removeFile "a.py" :: smallBatch.take 2) with
    | error e => simp [hrun, happly, Except.toOption] at hread
    | ok r =>
      obtain ⟨s', summary⟩ := r
      have hs : s.graph.Reachable := .applyAll .empty hrun
      simp only [hrun, happly, Except.toOption, Option.bind_some, Option.map_some, Option.some.injEq,
        Prod.mk.injEq] at hread
      obtain ⟨hbefore, hafter, hwritten, hremoved, hedges, hdropped⟩ := hread
      exact ⟨s, s', summary, rfl, hs, happly, hbefore, hafter, hwritten, hremoved, hedges, hdropped,
        accounts_of_apply hs happly⟩

end GraphStore

end RepoAtlas
