import RepoAtlas.Proofs.Graph.WellFormed

/-!
# Changes that are counted

Saving relies on what a batch reports: a batch that reports no change must leave the graph as it is. Counts
only grow, and every write either counts a change or leaves the graph alone. For taking out the edges of a
node this holds because no node has an empty set of edges.
-/

namespace RepoAtlas

open KnowledgeGraph

namespace Draft

variable {n : Nat} {d d' d'' : Draft}

/-- The changes that were counted so far. -/
def changes (d : Draft) : Nat := d.summary.mutations

/-- Every change between two drafts of a graph was counted. -/
structure Counts (d d' : Draft) : Prop where
  le : d.changes ≤ d'.changes
  same : d'.changes = d.changes → d'.graph = d.graph

namespace Counts

lemma refl (d : Draft) : d.Counts d := ⟨Nat.le_refl _, fun _ => rfl⟩

lemma trans (h : d.Counts d') (h' : d'.Counts d'') : d.Counts d'' where
  le := Nat.le_trans h.le h'.le
  same he := by
    have hle := h.le
    have hle' := h'.le
    rw [h'.same (by omega), h.same (by omega)]

lemma of_lt (h : d.changes < d'.changes) : d.Counts d' :=
  ⟨Nat.le_of_lt h, fun he => absurd he (Nat.ne_of_gt h)⟩

/-- A node was written or removed after some changes that were counted. -/
lemma wroteNode (h : d.changes ≤ d'.changes) : d.Counts d'.wroteNode :=
  of_lt (by simp only [changes, Draft.wroteNode, WriteSummary.mutations] at h ⊢; omega)

lemma removedNode (h : d.changes ≤ d'.changes) : d.Counts d'.removedNode :=
  of_lt (by simp only [changes, Draft.removedNode, WriteSummary.mutations] at h ⊢; omega)

lemma foldl {β : Type} {op : Draft → β → Draft} (l : List β) (hop : ∀ (d : Draft), ∀ b ∈ l, d.Counts (op d b)) :
    ∀ d : Draft, d.Counts (l.foldl op d) := by
  induction l with
  | nil => exact refl
  | cons b l ih =>
    exact fun d => (hop d b (by simp)).trans (ih (fun d b hb => hop d b (by simp [hb])) _)

/-- Steps that count while the graph is well formed. -/
lemma foldl_sound {β : Type} {op : Draft → β → Draft}
    (hsound : ∀ (d : Draft) b, d.Sound n → (op d b).Sound n)
    (hop : ∀ (d : Draft) b, d.Sound n → d.Counts (op d b)) (l : List β) :
    ∀ d : Draft, d.Sound n → d.Counts (l.foldl op d) ∧ (l.foldl op d).Sound n := by
  induction l with
  | nil => exact fun d hd => ⟨refl d, hd⟩
  | cons b l ih => exact fun d hd => (ih _ (hsound d b hd)).imp_left (hop d b hd).trans

end Counts

/-! ### Edges -/

lemma counts_insertEdge (d : Draft) (e : GraphEdge) : d.Counts (d.insertEdge e) := by
  simp only [insertEdge]
  split
  · exact Counts.refl d
  · refine Counts.of_lt ?_
    simp only [changes, WriteSummary.mutations]
    omega

lemma counts_removeEdge (d : Draft) (e : GraphEdge) : d.Counts (d.removeEdge e) := by
  simp only [removeEdge]
  split
  · refine Counts.of_lt ?_
    simp only [changes, WriteSummary.mutations]
    omega
  · exact Counts.refl d

lemma changes_detach (d : Draft) (key : NodeKey) :
    (d.detach key).changes = d.changes + (d.graph.detach key).2 := by
  simp only [detach, changes, WriteSummary.mutations]
  omega

/-- A node without edges is not listed. -/
lemma erase_of_entries_nil {m : Adjacency} (hm : Filled m) {key : NodeKey} (h : entries m key = []) :
    m.erase key = m := by
  refine erase_eq_self ?_
  cases hget : m[key]? with
  | none => simp [Std.ExtTreeMap.contains_eq_isSome_getElem?, hget]
  | some s =>
    refine absurd ?_ (hm key s hget)
    rw [Std.ExtTreeSet.eq_empty_iff_forall_contains]
    intro a
    rw [← hasEntry_of_getElem? hget]
    exact entries_eq_nil.mp h a

lemma counts_detach (h : d.Sound n) (key : NodeKey) : d.Counts (d.detach key) where
  le := by
    rw [changes_detach]
    omega
  same he := by
    rw [changes_detach] at he
    have hremoved : (entries d.graph.outgoing key).length +
        (entries (d.graph.withoutOut key) key).length = 0 := by
      have : (d.graph.detach key).2 = 0 := by omega
      exact this
    obtain ⟨hout, hin⟩ := Nat.add_eq_zero_iff.mp hremoved
    rw [List.length_eq_zero_iff] at hout hin
    have hwithout : d.graph.withoutOut key = d.graph.incoming := by rw [withoutOut, hout, List.foldl_nil]
    have hadjacent := h.wellFormed.adjacent
    have hgraph : (d.detach key).graph = { d.graph with
        outgoing := (entries (d.graph.withoutOut key) key).foldl
          (fun m l => removeEntry m l.other ⟨l.kind, key⟩) (d.graph.outgoing.erase key)
        incoming := (d.graph.withoutOut key).erase key
        edgeCount := d.graph.edgeCount - ((entries d.graph.outgoing key).length +
          (entries (d.graph.withoutOut key) key).length) } := rfl
    rw [hgraph, hremoved, hin, List.foldl_nil, erase_of_entries_nil hadjacent.outgoing_filled hout]
    rw [hwithout] at hin ⊢
    rw [erase_of_entries_nil hadjacent.incoming_filled hin]
    rfl

/-! ### Nodes -/

lemma counts_upsert (d : Draft) (node : GraphNode) : d.Counts (d.upsert node) := by
  cases node with
  | sourceFile f =>
    have hput : d.Counts (if d.graph.files[f.path]? = some f then d
        else { d with graph := { d.graph with files := d.graph.files.insert f.path f } }.wroteNode) := by
      split
      · exact Counts.refl d
      · exact Counts.wroteNode (Nat.le_refl _)
    simp only [upsert, upsertFile]
    split
    · exact hput
    · exact hput.trans (Counts.foldl _ (fun d r _ => counts_insertEdge d _) _)
  | codeUnit u =>
    simp only [upsert, upsertUnit]
    split
    · exact Counts.refl d
    · refine Counts.trans ?_ (counts_insertEdge _ _)
      exact Counts.wroteNode (Nat.le_refl _)
  | semanticChunk c =>
    simp only [upsert, upsertChunk]
    refine Counts.trans ?_ (counts_insertEdge _ _)
    split
    · split
      · exact Counts.refl d
      · exact Counts.wroteNode (Nat.le_refl _)
    · exact Counts.wroteNode (Nat.le_refl _)
  | commit c =>
    simp only [upsert, upsertCommit]
    split
    · exact Counts.refl d
    · exact Counts.wroteNode (Nat.le_refl _)
  | author a =>
    simp only [upsert, upsertAuthor]
    split
    · exact Counts.refl d
    · exact Counts.wroteNode (Nat.le_refl _)
  | fileRevision r =>
    simp only [upsert, upsertRevision]
    split
    · exact Counts.refl d
    · split
      · refine Counts.trans ?_ (counts_insertEdge _ _)
        exact Counts.wroteNode (Nat.le_refl _)
      · exact Counts.wroteNode (Nat.le_refl _)

/-! ### Removals -/

lemma counts_removeChunk (h : d.Sound n) (id : String) : d.Counts (d.removeChunk id) := by
  have hdetach := counts_detach h (.chunk id)
  simp only [removeChunk]
  split
  · exact Counts.removedNode hdetach.le
  · exact hdetach

lemma counts_orphan (path : String) (d : Draft) (caller : NodeKey) : d.Counts (d.orphan path caller) := by
  simp only [orphan]
  split
  · split
    · exact Counts.refl d
    · exact ⟨Nat.le_refl _, fun _ => rfl⟩
  · exact Counts.refl d

lemma counts_removeUnit (h : d.Sound n) (id : String) : d.Counts (d.removeUnit id) := by
  simp only [removeUnit]
  split
  · exact Counts.refl d
  · rename_i u hu
    obtain ⟨hchunks, hsound⟩ := Counts.foldl_sound (fun _ c hd => hd.removeChunk c)
      (fun _ c hd => counts_removeChunk hd c)
      ((d.graph.neighbors (.unit id) .describes .incoming).filterMap NodeKey.chunk?) d h
    set d₁ := ((d.graph.neighbors (.unit id) .describes .incoming).filterMap NodeKey.chunk?).foldl removeChunk d
    obtain ⟨horphans, hsound'⟩ := Counts.foldl_sound (fun _ k hd => hd.orphan u.path k)
      (fun d k _ => counts_orphan u.path d k) (d₁.graph.neighbors (.unit id) .calls .incoming) d₁ hsound
    -- the unit itself is counted in any case
    exact Counts.removedNode ((hchunks.trans horphans).trans (counts_detach hsound' (.unit id))).le

lemma counts_clearFile (h : d.Sound n) (path : String) : d.Counts (d.clearFile path) :=
  (Counts.foldl_sound (fun _ i hd => hd.removeUnit i) (fun _ i hd => counts_removeUnit hd i) _ d h).1

lemma counts_removeFile (h : d.Sound n) (path : String) : d.Counts (d.removeFile path) := by
  have hdetach := (counts_clearFile h path).trans (counts_detach (h.clearFile path) (.file path))
  simp only [removeFile]
  split
  · exact Counts.removedNode hdetach.le
  · exact hdetach

lemma counts_retainHistory (h : d.Sound n) (repo : String) (keep : Std.ExtTreeSet String) :
    d.Counts (d.retainHistory repo keep) := by
  simp only [retainHistory]
  split
  · exact Counts.refl d
  · obtain ⟨hrevisions, hsound⟩ := Counts.foldl_sound (fun _ r hd => hd.removeRevision r)
      (fun _ r hd => Counts.removedNode (counts_detach hd (.revision r)).le)
      (d.graph.doomedRevisions repo keep) d h
    obtain ⟨hcommits, -⟩ := Counts.foldl_sound (fun _ c hd => hd.removeCommit c)
      (fun _ c hd => Counts.removedNode (counts_detach hd (.commit c)).le)
      (d.graph.doomedCommits repo keep) _ hsound
    refine (hrevisions.trans hcommits).trans (Counts.foldl _ (fun d a _ => ?_) _)
    exact Counts.removedNode (Nat.le_refl _)

/-! ### Replacements and batches -/

lemma counts_replaceEdges (d : Draft) (kind : EdgeKind) (source : NodeKey) (desired : Std.ExtTreeSet NodeKey) :
    d.Counts (d.replaceEdges kind source desired) :=
  (Counts.foldl _ (fun d t _ => counts_removeEdge d ⟨kind, source, t⟩) d).trans
    (Counts.foldl _ (fun d t _ => counts_insertEdge d ⟨kind, source, t⟩) _)

lemma counts_applyOp (h : d.Sound n) (op : WriteOp) : d.Counts (d.applyOp op) := by
  cases op with
  | upsertNode node => exact counts_upsert d node
  | upsertEdge e => exact counts_insertEdge d e
  | clearFile p => exact counts_clearFile h p
  | removeFile p => exact counts_removeFile h p
  | replaceImports p ts => exact counts_replaceEdges d _ _ _
  | replaceCalls p cs => exact Counts.foldl _ (fun d u _ => counts_replaceEdges d _ _ _) d
  | retainHistory r keep => exact counts_retainHistory h r _

end Draft

/-- A batch of typed writes that counts no change leaves a well-formed graph as it is. -/
theorem KnowledgeGraph.WellFormed.graph_applyBatch_of_isNoop {g : KnowledgeGraph} (h : g.WellFormed)
    {b : WriteBatch} (hb : ∀ op ∈ b, op.Typed) (hnoop : (g.applyBatch b).summary.isNoop = true) :
    (g.applyBatch b).graph = g := by
  have hcounts : Draft.Counts { graph := g } (g.applyBatch b) := by
    have hrun : ∀ (b : WriteBatch) (d : Draft), (∀ op ∈ b, op.Typed) → d.Sound g.edgeCount →
        d.Counts (b.foldl Draft.applyOp d) := by
      intro b
      induction b with
      | nil => exact fun d _ _ => Draft.Counts.refl d
      | cons op b ih =>
        intro d hb hd
        exact (Draft.counts_applyOp hd op).trans
          (ih _ (fun op hop => hb op (by simp [hop])) (hd.applyOp (hb op (by simp))))
    exact hrun b _ hb ⟨h, rfl⟩
  refine hcounts.same ?_
  simp only [WriteSummary.isNoop, Bool.and_eq_true, beq_iff_eq] at hnoop
  obtain ⟨⟨⟨hwritten, hremoved⟩, hedges⟩, hdropped⟩ := hnoop
  show (g.applyBatch b).summary.mutations = 0
  rw [WriteSummary.mutations, hwritten, hremoved, hedges, hdropped]

/-- An admitted batch that counts no change leaves the store as it is, and one that counts a change marks it. -/
lemma GraphStore.apply_cases {s s' : GraphStore} {batch : WriteBatch} {summary : WriteSummary}
    (hs : s.graph.WellFormed) (h : s.apply batch = .ok (s', summary)) :
    summary.isNoop = true ∧ s' = s ∨ summary.isNoop = false ∧
      s' = { s with graph := s'.graph, writes := s.writes + summary.mutations, dirty := true } := by
  simp only [apply] at h
  split at h
  · cases h
    exact Or.inl ⟨rfl, rfl⟩
  · split at h
    · cases h
    · rename_i hflaw
      split at h
      · rename_i hnoop
        cases h
        have hsame := hs.graph_applyBatch_of_isNoop (Overlay.typed_of_batchFlaw? hflaw) hnoop
        exact Or.inl ⟨hnoop, by rw [hsame]⟩
      · rename_i hcounted
        cases h
        exact Or.inr ⟨(Bool.not_eq_true _).mp hcounted, rfl⟩

end RepoAtlas
