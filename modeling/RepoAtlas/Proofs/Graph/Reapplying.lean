import RepoAtlas.Proofs.Graph.Reachability

/-!
# Batches that are put again

A failure after a batch was applied is answered by applying it once more. A batch that only puts nodes and
edges can bear that: after it the graph reflects each of its writes, and a write that is reflected changes
nothing. A later write of the batch could take the reflection of an earlier one away only by putting another
node under the same key.
-/

namespace RepoAtlas

open KnowledgeGraph

namespace WriteOp

/-- Writes that put one node or one edge. -/
def Upserts : WriteOp → Prop
  | .upsertNode _ | .upsertEdge _ => True
  | _ => False

/-- The key of the node that is put. -/
def key? : WriteOp → Option NodeKey
  | .upsertNode n => some n.key
  | _ => none

end WriteOp

lemma SemanticChunk.same_self (c : SemanticChunk) : c.same c = true := by
  simp [same, Embedding.same_self]

namespace KnowledgeGraph

variable {g g' : KnowledgeGraph}

/-- The graph has what a write puts. Commits and revisions are kept as they were first recorded, and a chunk may be
an equal one; for the other nodes it is the node itself. -/
def Reflects (g : KnowledgeGraph) : WriteOp → Prop
  | .upsertNode (.sourceFile f) => g.files[f.path]? = some f
  | .upsertNode (.codeUnit u) => g.units[u.id]? = some u
  | .upsertNode (.semanticChunk c) =>
    (∃ stored, g.chunks[c.id]? = some stored ∧ stored.chunk.same c = true) ∧
      g.hasEdge ⟨.describes, .chunk c.id, .unit c.unitId⟩ = true
  | .upsertNode (.commit c) => g.contains (.commit c.id) = true
  | .upsertNode (.author a) => g.authors[a.id]? = some a
  | .upsertNode (.fileRevision r) => g.contains (.revision r.id) = true
  | .upsertEdge e => g.hasEdge e = true
  | _ => False

/-- A table stays, or gets a new value for one key. -/
def Enters {κ β : Type} [Ord κ] [Std.TransOrd κ] (m m' : Std.ExtTreeMap κ β) (own : κ → Prop) : Prop :=
  m' = m ∨ ∃ k b, own k ∧ m' = m.insert k b

section

variable {κ β : Type} [Ord κ] [Std.TransOrd κ] [Std.LawfulEqOrd κ] {m m' : Std.ExtTreeMap κ β} {own : κ → Prop}

lemma Enters.getElem? (h : Enters m m' own) {k : κ} {b : β} (hk : ¬own k) (hb : m[k]? = some b) :
    m'[k]? = some b := by
  rcases h with rfl | ⟨k', b', hown, rfl⟩
  · exact hb
  · refine Draft.getElem?_insert_eq_some_iff.mpr (Or.inr ⟨?_, hb⟩)
    rintro rfl
    exact hk hown

lemma Enters.contains (h : Enters m m' own) {k : κ} (hk : m.contains k = true) : m'.contains k = true := by
  rcases h with rfl | ⟨k', b', -, rfl⟩
  · exact hk
  · exact Draft.stored_insert_iff.mpr (Or.inr hk)

end

/-- On the way from `g` to `g'` nothing is lost, and no node is put but the one of the key. -/
structure PutsAt (key? : Option NodeKey) (g g' : KnowledgeGraph) : Prop where
  files : Enters g.files g'.files fun p => key? = some (.file p)
  units : Enters g.units g'.units fun i => key? = some (.unit i)
  chunks : Enters g.chunks g'.chunks fun i => key? = some (.chunk i)
  commits : Enters g.commits g'.commits fun i => key? = some (.commit i)
  authors : Enters g.authors g'.authors fun i => key? = some (.author i)
  revisions : Enters g.revisions g'.revisions fun i => key? = some (.revision i)
  edge : ∀ e, g.hasEdge e = true → g'.hasEdge e = true

lemma PutsAt.refl (key? : Option NodeKey) (g : KnowledgeGraph) : PutsAt key? g g :=
  ⟨Or.inl rfl, Or.inl rfl, Or.inl rfl, Or.inl rfl, Or.inl rfl, Or.inl rfl, fun _ he => he⟩

lemma PutsAt.contains {key? : Option NodeKey} (h : PutsAt key? g g') {k : NodeKey} (hk : g.contains k = true) :
    g'.contains k = true := by
  cases k with
  | file p => exact h.files.contains hk
  | unit i => exact h.units.contains hk
  | chunk i => exact h.chunks.contains hk
  | commit i => exact h.commits.contains hk
  | author i => exact h.authors.contains hk
  | revision i => exact h.revisions.contains hk

/-- What is reflected stays so unless another node is put under its key. -/
lemma Reflects.putsAt {op : WriteOp} {key? : Option NodeKey} (h : g.Reflects op) (hp : PutsAt key? g g')
    (hkey : ∀ k ∈ op.key?, key? ≠ some k) : g'.Reflects op := by
  cases op with
  | upsertNode n =>
    have hne : key? ≠ some n.key := hkey n.key rfl
    cases n with
    | sourceFile f => exact hp.files.getElem? hne h
    | codeUnit u => exact hp.units.getElem? hne h
    | semanticChunk c =>
      obtain ⟨⟨stored, hstored, hsame⟩, hedge⟩ := h
      exact ⟨⟨stored, hp.chunks.getElem? hne hstored, hsame⟩, hp.edge _ hedge⟩
    | commit c => exact hp.contains h
    | author a => exact hp.authors.getElem? hne h
    | fileRevision r => exact hp.contains h
  | upsertEdge e => exact hp.edge e h
  | _ => exact h.elim

end KnowledgeGraph

namespace Draft

variable {d : Draft} {op : WriteOp}

/-! ### One write -/

/-- A write that the graph reflects changes nothing and reports nothing. -/
lemma applyOp_of_reflects (h : d.graph.Reflects op) : d.applyOp op = d := by
  cases op with
  | upsertNode n =>
    cases n with
    | sourceFile f =>
      simp only [Reflects] at h
      simp [applyOp, upsert, upsertFile, h]
    | codeUnit u => exact upsertUnit_of_eq h
    | semanticChunk c =>
      obtain ⟨⟨stored, hstored, hsame⟩, hedge⟩ := h
      simp [applyOp, upsert, upsertChunk, hstored, hsame, insertEdge, hedge]
    | commit c => exact upsertCommit_of_contains h
    | author a =>
      simp only [Reflects] at h
      simp [applyOp, upsert, upsertAuthor, h]
    | fileRevision r => exact upsertRevision_of_contains h
  | upsertEdge e =>
    simp only [Reflects] at h
    simp [applyOp, insertEdge, h]
  | _ => exact h.elim

/-- The chunk that is stored after a chunk is put equals it. -/
lemma exists_same_upsertChunk (d : Draft) (c : SemanticChunk) :
    ∃ stored, (d.upsertChunk c).graph.chunks[c.id]? = some stored ∧ stored.chunk.same c = true := by
  have htables : (d.upsertChunk c).graph.chunks = _ := congrArg NodeTables.chunks tables_insertEdge
  rw [htables]
  cases hold : d.graph.chunks[c.id]? with
  | none => exact ⟨⟨c, d.graph.nextSequence⟩, by simp [tables, wroteNode], c.same_self⟩
  | some stored =>
    by_cases hsame : stored.chunk.same c = true
    · exact ⟨stored, by simp [tables, hsame, hold], hsame⟩
    · exact ⟨⟨c, stored.sequence⟩, by simp [tables, hsame, wroteNode], c.same_self⟩

/-- After a write the graph reflects it. -/
lemma reflects_applyOp (d : Draft) (hop : op.Upserts) : (d.applyOp op).graph.Reflects op := by
  cases op with
  | upsertNode n =>
    cases n with
    | sourceFile f =>
      have hfiles := congrArg NodeTables.files (tables_upsertFile (d := d) (f := f))
      simp only [tables] at hfiles
      simp [Reflects, applyOp, upsert, hfiles]
    | codeUnit u =>
      by_cases hold : d.graph.units[u.id]? = some u
      · rw [applyOp, upsert, upsertUnit_of_eq hold]
        exact hold
      · have hunits := congrArg NodeTables.units (tables_upsertUnit hold)
        simp only [tables] at hunits
        simp [Reflects, applyOp, upsert, hunits]
    | semanticChunk c => exact ⟨d.exists_same_upsertChunk c, hasEdge_upsertChunk.mpr (Or.inl rfl)⟩
    | commit c => exact contains_upsert d (.commit c)
    | author a => simp [Reflects, applyOp, upsert, graph_upsertAuthor]
    | fileRevision r => exact contains_upsert d (.fileRevision r)
  | upsertEdge e => exact hasEdge_insertEdge.mpr (Or.inl rfl)
  | _ => exact hop.elim

/-- What is put is the node of the write's own key. -/
lemma putsAt_upsert (d : Draft) (n : GraphNode) : PutsAt (some n.key) d.graph (d.upsert n).graph := by
  cases n <;> rw [upsert]
  case sourceFile f =>
    have htables := tables_upsertFile (d := d) (f := f)
    simp only [tables, NodeTables.mk.injEq] at htables
    obtain ⟨hfiles, hunits, hchunks, hcommits, hauthors, hrevisions, -⟩ := htables
    exact ⟨Or.inr ⟨_, _, rfl, hfiles⟩, Or.inl hunits, Or.inl hchunks, Or.inl hcommits, Or.inl hauthors,
      Or.inl hrevisions, fun e he => hasEdge_upsertFile.mpr (Or.inr he)⟩
  case codeUnit u =>
    by_cases hold : d.graph.units[u.id]? = some u
    · rw [upsertUnit_of_eq hold]
      exact .refl _ _
    have htables := tables_upsertUnit hold
    simp only [tables, NodeTables.mk.injEq] at htables
    obtain ⟨hfiles, hunits, hchunks, hcommits, hauthors, hrevisions, -⟩ := htables
    exact ⟨Or.inl hfiles, Or.inr ⟨_, _, rfl, hunits⟩, Or.inl hchunks, Or.inl hcommits, Or.inl hauthors,
      Or.inl hrevisions, fun e he => (hasEdge_upsertUnit hold).mpr (Or.inr he)⟩
  case semanticChunk c =>
    obtain ⟨_, _, -, -, htables⟩ := tables_upsertChunk d c
    simp only [tables, NodeTables.mk.injEq] at htables
    obtain ⟨hfiles, hunits, hchunks, hcommits, hauthors, hrevisions, -⟩ := htables
    exact ⟨Or.inl hfiles, Or.inl hunits, Or.inr ⟨_, _, rfl, hchunks⟩, Or.inl hcommits, Or.inl hauthors,
      Or.inl hrevisions, fun e he => hasEdge_upsertChunk.mpr (Or.inr he)⟩
  case commit c =>
    by_cases hold : d.graph.commits.contains c.id = true
    · rw [upsertCommit_of_contains hold]
      exact .refl _ _
    rw [graph_upsertCommit ((Bool.not_eq_true _).mp hold)]
    exact { PutsAt.refl _ d.graph with commits := Or.inr ⟨_, _, rfl, rfl⟩ }
  case author a =>
    rw [graph_upsertAuthor]
    exact { PutsAt.refl _ d.graph with authors := Or.inr ⟨_, _, rfl, rfl⟩ }
  case fileRevision r =>
    by_cases hold : d.graph.revisions.contains r.id = true
    · rw [upsertRevision_of_contains hold]
      exact .refl _ _
    have hnew := (Bool.not_eq_true _).mp hold
    have htables := tables_upsertRevision hnew
    simp only [tables, NodeTables.mk.injEq] at htables
    obtain ⟨hfiles, hunits, hchunks, hcommits, hauthors, hrevisions, -⟩ := htables
    exact ⟨Or.inl hfiles, Or.inl hunits, Or.inl hchunks, Or.inl hcommits, Or.inl hauthors,
      Or.inr ⟨_, _, rfl, hrevisions⟩, fun e he => (hasEdge_upsertRevision hnew).mpr (Or.inr he)⟩

lemma putsAt_applyOp (d : Draft) (hop : op.Upserts) : PutsAt op.key? d.graph (d.applyOp op).graph := by
  cases op with
  | upsertNode n => exact putsAt_upsert d n
  | upsertEdge e =>
    have htables := tables_insertEdge (d := d) (e := e)
    simp only [tables, NodeTables.mk.injEq] at htables
    obtain ⟨hfiles, hunits, hchunks, hcommits, hauthors, hrevisions, -⟩ := htables
    exact ⟨Or.inl hfiles, Or.inl hunits, Or.inl hchunks, Or.inl hcommits, Or.inl hauthors, Or.inl hrevisions,
      fun e' he => hasEdge_insertEdge.mpr (Or.inr he)⟩
  | _ => exact hop.elim

/-! ### All writes of a batch -/

section

variable {b : WriteBatch}

lemma contains_foldl (hb : ∀ op ∈ b, op.Upserts) {k : NodeKey} (hk : d.graph.contains k = true) :
    (b.foldl applyOp d).graph.contains k = true := by
  induction b generalizing d with
  | nil => exact hk
  | cons op b ih =>
    exact ih (fun op' hop' => hb op' (by simp [hop'])) ((putsAt_applyOp d (hb op (by simp))).contains hk)

/-- What is reflected stays so while other nodes are put. -/
lemma reflects_foldl (hb : ∀ op ∈ b, op.Upserts) (h : d.graph.Reflects op)
    (hkeys : ∀ k ∈ op.key?, k ∉ b.filterMap WriteOp.key?) : (b.foldl applyOp d).graph.Reflects op := by
  induction b generalizing d with
  | nil => exact h
  | cons op' b ih =>
    have hother : ∀ k ∈ op.key?, op'.key? ≠ some k := fun k hk hsame =>
      hkeys k hk (List.mem_filterMap.mpr ⟨op', by simp, hsame⟩)
    have hrest : ∀ k ∈ op.key?, k ∉ b.filterMap WriteOp.key? := by
      intro k hk hmem
      obtain ⟨op'', hop'', hsame⟩ := List.mem_filterMap.mp hmem
      exact hkeys k hk (List.mem_filterMap.mpr ⟨op'', by simp [hop''], hsame⟩)
    exact ih (fun op'' hop'' => hb op'' (by simp [hop'']))
      (h.putsAt (putsAt_applyOp d (hb op' (by simp))) hother) hrest

/-- After a batch of nodes with different keys and of edges, the graph reflects each of its writes. -/
lemma reflects_of_mem (hb : ∀ op ∈ b, op.Upserts) (hkeys : (b.filterMap WriteOp.key?).Nodup) :
    ∀ op ∈ b, (b.foldl applyOp d).graph.Reflects op := by
  induction b generalizing d with
  | nil => simp
  | cons op b ih =>
    have hrest : ∀ op' ∈ b, op'.Upserts := fun op' hop' => hb op' (by simp [hop'])
    rintro op' (_ | ⟨_, hop'⟩)
    · refine reflects_foldl (d := d.applyOp op) hrest (reflects_applyOp d (hb op (by simp))) fun k hk => ?_
      rw [List.filterMap_cons_some hk] at hkeys
      exact (List.nodup_cons.mp hkeys).1
    · exact ih hrest (hkeys.sublist ((List.sublist_cons_self op b).filterMap _)) op' hop'

/-- A batch whose writes are all reflected changes nothing and reports nothing. -/
lemma foldl_of_reflects (h : ∀ op ∈ b, d.graph.Reflects op) : b.foldl applyOp d = d := by
  induction b with
  | nil => rfl
  | cons op b ih =>
    rw [List.foldl_cons, applyOp_of_reflects (h op (by simp))]
    exact ih fun op' hop' => h op' (by simp [hop'])

end

end Draft

namespace Overlay

variable {dims : Option Nat} {o o' : Overlay} {op : WriteOp}

/-- Where more nodes exist a node or an edge fits all the better. -/
lemma flaw?_of_knows (hop : op.Upserts) (hknows : ∀ k, o.exists? k = true → o'.exists? k = true)
    (h : o.flaw? dims op = none) : o'.flaw? dims op = none := by
  have hmissing : ∀ {context k}, o.missing? context k = none → o'.missing? context k = none := by
    intro context k hnone
    have hexists : o.exists? k = true := by simpa [missing?] using hnone
    simp [missing?, hknows k hexists]
  cases op with
  | upsertNode n =>
    simp only [flaw?, nodeFlaw?, Option.or_eq_none_iff] at h ⊢
    refine ⟨h.1, ?_⟩
    cases n with
    | codeUnit u => exact hmissing h.2
    | semanticChunk c =>
      simp only [Option.or_eq_none_iff] at h ⊢
      exact ⟨hmissing h.2.1, h.2.2⟩
    | _ => rfl
  | upsertEdge e =>
    simp only [flaw?, Option.or_eq_none_iff] at h ⊢
    exact ⟨⟨h.1.1, hmissing h.1.2⟩, hmissing h.2⟩
  | _ => exact hop.elim

lemma exists?_after_of_knows (hop : op.Upserts) (hknows : ∀ k, o.exists? k = true → o'.exists? k = true)
    {k : NodeKey} (hk : (o.after op).exists? k = true) : (o'.after op).exists? k = true := by
  cases op with
  | upsertNode n =>
    have hput : ∀ v : Overlay, (v.after (.upsertNode n)).exists? k = true ↔ k = n.key ∨ v.exists? k = true := by
      intro v
      cases n <;> exact exists?_add
    exact (hput o').mpr (((hput o).mp hk).imp_right (hknows k))
  | upsertEdge e => exact hknows k hk
  | _ => exact hop.elim

lemma batchFlaw?_of_knows {b : WriteBatch} (hb : ∀ op ∈ b, op.Upserts)
    (hknows : ∀ k, o.exists? k = true → o'.exists? k = true) (h : batchFlaw? dims o b = none) :
    batchFlaw? dims o' b = none := by
  induction b generalizing o o' with
  | nil => rfl
  | cons op b ih =>
    simp only [batchFlaw?, Option.or_eq_none_iff] at h ⊢
    have hop := hb op (by simp)
    exact ⟨flaw?_of_knows hop hknows h.1,
      ih (fun op' hop' => hb op' (by simp [hop'])) (fun _ => exists?_after_of_knows hop hknows) h.2⟩

end Overlay

namespace GraphStore

/-- A batch of nodes with different keys and of edges that was admitted is admitted again, and then reports no
change and leaves the store as it is: its graph with the places of all chunks, the number of its writes, and whether
it has to be saved. -/
theorem apply_again {s s' : GraphStore} {b : WriteBatch} {summary : WriteSummary}
    (hb : ∀ op ∈ b, op.Upserts) (hkeys : (b.filterMap WriteOp.key?).Nodup) (h : s.apply b = .ok (s', summary)) :
    s'.apply b = .ok (s', {}) ∧ WriteSummary.isNoop {} = true := by
  refine ⟨?_, rfl⟩
  by_cases hempty : b.isEmpty = true
  · simp [apply, hempty]
  obtain ⟨hgraph, hdims, hflaw⟩ := apply_eq_ok h
  have hgraph : s'.graph = (b.foldl Draft.applyOp { graph := s.graph }).graph := hgraph
  have hadmitted : s'.graph.batchFlaw? s'.dimensions b = none := by
    rw [hdims]
    refine Overlay.batchFlaw?_of_knows hb (fun k hk => ?_) hflaw
    have hstored : s.graph.contains k = true := by simpa [Overlay.exists?] using hk
    simpa [Overlay.exists?, hgraph] using Draft.contains_foldl hb (d := { graph := s.graph }) hstored
  have hsame : s'.graph.applyBatch b = { graph := s'.graph } := by
    refine Draft.foldl_of_reflects fun op hop => ?_
    rw [hgraph]
    exact Draft.reflects_of_mem hb hkeys op hop
  simp only [apply, hempty, hadmitted, hsame]
  rfl

/-- A commit with what it did to a file, before the file itself with a unit and a chunk: the file gets an edge from
the revision that was there before it. -/
def recordedFirst : WriteBatch :=
  [.upsertNode (.author ⟨"r", "a@x", "Ada"⟩),
    .upsertNode (.commit { (default : Commit) with repo := "r", revision := "1", authorEmail := "a@x" }),
    .upsertEdge ⟨.authoredBy, .commit ⟨"r", "1"⟩, .author ⟨"r", "a@x"⟩⟩,
    .upsertNode (.fileRevision { (default : FileRevision) with repo := "r", revision := "1", path := "a.py" }),
    .upsertEdge ⟨.touches, .commit ⟨"r", "1"⟩, .revision ⟨"r", "1", "a.py"⟩⟩] ++ smallBatch

theorem apply_again_recordedFirst :
    (∀ op ∈ recordedFirst, op.Upserts) ∧ (recordedFirst.filterMap WriteOp.key?).Nodup ∧
      ∃ s summary, ({} : GraphStore).apply recordedFirst = .ok (s, summary) ∧
        s.apply recordedFirst = .ok (s, {}) ∧ WriteSummary.isNoop {} = true := by
  have hb : ∀ op ∈ recordedFirst, op.Upserts := by simp [recordedFirst, smallBatch, WriteOp.Upserts]
  have hkeys : (recordedFirst.filterMap WriteOp.key?).Nodup := by decide
  have hsome : (({} : GraphStore).apply recordedFirst).toOption.isSome = true := by decide
  refine ⟨hb, hkeys, ?_⟩
  cases hrun : ({} : GraphStore).apply recordedFirst with
  | error e => simp [hrun, Except.toOption] at hsome
  | ok r => exact ⟨r.1, r.2, rfl, apply_again hb hkeys hrun⟩

end GraphStore

end RepoAtlas
