import RepoAtlas.Proofs.Graph.Reachability

/-!
# The order in which chunks arrived

The graph does not keep the order in which its chunks arrived: it gives every new chunk a number, and keeps the number
for as long as the chunk is there. So the order is defined here from the writes alone. The numbers are shown to grow
along it whatever is written, removed or loaded, which makes it the only one.
-/

namespace RepoAtlas

open KnowledgeGraph

/-! ### The order of arrival -/

namespace Draft

/-- The chunks in the order of their arrival, after a write: those that are left keep their order, and a chunk
that was not there before comes last. -/
def arrivals (d : Draft) (order : List String) (op : WriteOp) : List String :=
  let left := order.filter ((d.applyOp op).graph.chunks.contains ·)
  match op with
  | .upsertNode (.semanticChunk c) => if d.graph.chunks.contains c.id then left else left ++ [c.id]
  | _ => left

/-- The chunks in the order of their arrival, after the writes of a batch. -/
def arrivalsAfter (d : Draft) (order : List String) : WriteBatch → List String
  | [] => order
  | op :: b => (d.applyOp op).arrivalsAfter (d.arrivals order op) b

end Draft

namespace KnowledgeGraph

/-- `order` lists the chunks of `g` in the order of their arrival, along some history that leads to `g`. -/
inductive Arrived : KnowledgeGraph → List String → Prop
  | empty : Arrived {} []
  | applied {s s' : GraphStore} {order : List String} {batch : WriteBatch} {summary : WriteSummary} :
      Arrived s.graph order → s.apply batch = .ok (s', summary) →
      Arrived s'.graph (Draft.arrivalsAfter { graph := s.graph } order batch)
  | loaded {g : KnowledgeGraph} {order : List String} : Arrived g order → Arrived (.ofSnapshot g.snapshot) order

variable {g g' : KnowledgeGraph} {order order' : List String}

lemma Arrived.reachable (h : g.Arrived order) : g.Reachable := by
  induction h with
  | empty => exact .empty
  | applied _ happly ih => exact .applied ih happly
  | loaded _ ih => exact .loaded ih

lemma Reachable.exists_arrived (h : g.Reachable) : ∃ order, g.Arrived order := by
  induction h with
  | empty => exact ⟨[], .empty⟩
  | applied _ happly ih => exact ih.imp' _ fun _ harrived => harrived.applied happly
  | loaded _ ih => exact ih.imp fun _ => .loaded

/-! ### Numbers -/

/-- `order` lists the chunks of the graph, and their numbers grow along it. -/
structure Numbered (g : KnowledgeGraph) (order : List String) : Prop where
  mem : ∀ id, id ∈ order ↔ g.chunks.contains id = true
  increasing : order.Pairwise fun a b => ∀ x y, g.chunks[a]? = some x → g.chunks[b]? = some y →
    x.sequence < y.sequence

namespace Numbered

lemma exists_of_mem (h : g.Numbered order) {id : String} (hid : id ∈ order) : ∃ x, g.chunks[id]? = some x := by
  have hstored := (h.mem id).mp hid
  rwa [Std.ExtTreeMap.contains_eq_isSome_getElem?, Option.isSome_iff_exists] at hstored

lemma nodup (h : g.Numbered order) : order.Nodup := by
  refine h.increasing.imp_of_mem fun {a b} ha _ hlt heq => ?_
  subst heq
  obtain ⟨x, hx⟩ := h.exists_of_mem ha
  exact Nat.lt_irrefl _ (hlt x x hx hx)

/-- Only the numbers of the chunks matter. -/
lemma congr (h : g.Numbered order)
    (hsame : ∀ id : String, (g'.chunks[id]?).map (·.sequence) = (g.chunks[id]?).map (·.sequence)) :
    g'.Numbered order where
  mem id := by
    rw [h.mem, Std.ExtTreeMap.contains_eq_isSome_getElem?, Std.ExtTreeMap.contains_eq_isSome_getElem?,
      ← Option.isSome_map (f := StoredChunk.sequence), ← hsame, Option.isSome_map]
  increasing := by
    have hstored : ∀ (id : String) (x : StoredChunk), g'.chunks[id]? = some x →
        ∃ x', g.chunks[id]? = some x' ∧ x'.sequence = x.sequence := by
      intro id x hx
      have hmap := hsame id
      rw [hx] at hmap
      exact Option.map_eq_some_iff.mp hmap.symm
    refine h.increasing.imp fun {a b} hlt x y hx hy => ?_
    obtain ⟨x', hx', hxs⟩ := hstored a x hx
    obtain ⟨y', hy', hys⟩ := hstored b y hy
    rw [← hxs, ← hys]
    exact hlt x' y' hx' hy'

/-- A write that only takes chunks out. -/
lemma filter (h : g.Numbered order)
    (hsub : ∀ (id : String) (x : StoredChunk), g'.chunks[id]? = some x → g.chunks[id]? = some x) :
    g'.Numbered (order.filter (g'.chunks.contains ·)) where
  mem id := by
    rw [List.mem_filter, and_iff_right_of_imp]
    intro hstored
    rw [Std.ExtTreeMap.contains_eq_isSome_getElem?, Option.isSome_iff_exists] at hstored
    obtain ⟨x, hx⟩ := hstored
    rw [h.mem, Std.ExtTreeMap.contains_eq_isSome_getElem?, hsub id x hx]
    rfl
  increasing := (h.increasing.filter _).imp fun hlt x y hx hy => hlt x y (hsub _ x hx) (hsub _ y hy)

/-- A chunk that is new gets a number above all others. -/
lemma append (h : g.Numbered order) {id : String} {new : StoredChunk} (hid : g.chunks.contains id = false)
    (hnew : ∀ (id : String) (x : StoredChunk), g.chunks[id]? = some x → x.sequence < new.sequence)
    (hchunks : g'.chunks = g.chunks.insert id new) : g'.Numbered (order ++ [id]) := by
  have hget : ∀ {a x}, a ∈ order → g'.chunks[a]? = some x → g.chunks[a]? = some x := by
    intro a x ha hx
    rw [hchunks] at hx
    obtain ⟨rfl, -⟩ | ⟨-, hx⟩ := Draft.getElem?_insert_eq_some_iff.mp hx
    · rw [(h.mem a).mp ha] at hid
      cases hid
    · exact hx
  constructor
  case mem =>
    intro a
    rw [List.mem_append, List.mem_singleton, h.mem, hchunks, Std.ExtTreeMap.contains_insert, Bool.or_eq_true,
      beq_iff_eq, Std.LawfulEqCmp.compare_eq_iff_eq, or_comm, eq_comm]
  case increasing =>
    refine List.pairwise_append.mpr ⟨?_, List.pairwise_singleton _ _, ?_⟩
    · exact h.increasing.imp_of_mem fun ha hb hlt x y hx hy => hlt x y (hget ha hx) (hget hb hy)
    · intro a ha b hb x y hx hy
      rw [List.mem_singleton.mp hb, hchunks, Std.ExtTreeMap.getElem?_insert_self] at hy
      cases hy
      exact hnew a x (hget ha hx)

lemma empty : Numbered {} [] where
  mem id := by simp
  increasing := List.Pairwise.nil

lemma ofSnapshot (h : g.Numbered order) (hg : g.WellFormed) :
    (KnowledgeGraph.ofSnapshot g.snapshot).Numbered order :=
  h.congr fun id => by rw [hg.restores_ofSnapshot.chunks]

/-- The chunks of a graph are listed in one order only. -/
lemma unique (h : g.Numbered order) (h' : g.Numbered order') : order' = order := by
  have hperm : order'.Perm order :=
    (List.perm_ext_iff_of_nodup h'.nodup h.nodup).mpr fun id => (h'.mem id).trans (h.mem id).symm
  refine List.Perm.eq_of_pairwise (fun a b ha hb hab hba => ?_) h'.increasing h.increasing hperm
  obtain ⟨x, hx⟩ := h'.exists_of_mem ha
  obtain ⟨y, hy⟩ := h.exists_of_mem hb
  exact absurd (hab x y hx hy) (Nat.lt_asymm (hba y x hy hx))

end Numbered

end KnowledgeGraph

namespace Draft

variable {n : Nat} {d : Draft} {order : List String}

/-! ### What writes do to the chunks -/

/-- A chunk is put with the number of the one that is there, or else with the next number. -/
lemma sequence_upsertChunk (d : Draft) (c : SemanticChunk) : ∃ stored : StoredChunk,
    (d.upsertChunk c).graph.chunks = d.graph.chunks.insert c.id stored ∧
      stored.sequence = ((d.graph.chunks[c.id]?).map (·.sequence)).getD d.graph.nextSequence := by
  have htables : ∀ {d' : Draft} {e : GraphEdge}, (d'.insertEdge e).graph.chunks = d'.graph.chunks :=
    congrArg NodeTables.chunks tables_insertEdge
  simp only [upsertChunk, htables]
  cases hold : d.graph.chunks[c.id]? with
  | none => exact ⟨⟨c, d.graph.nextSequence⟩, rfl, rfl⟩
  | some stored =>
    by_cases hsame : stored.chunk.same c
    · refine ⟨stored, ?_, rfl⟩
      rw [insert_eq_self hold]
      simp only [hsame, if_true]
    · refine ⟨⟨c, stored.sequence⟩, ?_, rfl⟩
      simp only [hsame]
      rfl

/-- Only a chunk that is put changes the table of chunks other than by taking chunks out. -/
lemma getElem?_chunks_applyOp (hw : d.graph.WellFormed) {op : WriteOp}
    (hop : ∀ c, op ≠ .upsertNode (.semanticChunk c)) {id : String} {x : StoredChunk}
    (hx : (d.applyOp op).graph.chunks[id]? = some x) : d.graph.chunks[id]? = some x := by
  have hm := hw.adjacent.mirrored
  have hsame : ∀ {g : KnowledgeGraph}, g.chunks = d.graph.chunks → g.chunks[id]? = some x →
      d.graph.chunks[id]? = some x := fun heq hx => heq ▸ hx
  cases op with
  | upsertNode node =>
    refine hsame ?_ hx
    cases node with
    | sourceFile f => exact congrArg NodeTables.chunks (tables_upsertFile (d := d) (f := f))
    | codeUnit u =>
      by_cases hold : d.graph.units[u.id]? = some u
      · exact congrArg (·.graph.chunks) (upsertUnit_of_eq hold)
      · exact congrArg NodeTables.chunks (tables_upsertUnit hold)
    | semanticChunk c => exact absurd rfl (hop c)
    | commit c =>
      obtain ⟨commits, hgraph⟩ := d.exists_graph_upsertCommit c
      exact (congrArg KnowledgeGraph.chunks hgraph).trans rfl
    | author a => exact (congrArg KnowledgeGraph.chunks (graph_upsertAuthor ..)).trans rfl
    | fileRevision r =>
      by_cases hold : d.graph.revisions.contains r.id = true
      · exact congrArg (·.graph.chunks) (upsertRevision_of_contains hold)
      · exact congrArg NodeTables.chunks (tables_upsertRevision ((Bool.not_eq_true _).mp hold))
  | upsertEdge e => exact hsame (congrArg NodeTables.chunks tables_insertEdge) hx
  | clearFile p => exact (((removes_clearFile hm p).chunk id x).mp hx).1
  | removeFile p => exact (((removes_removeFile hm p).chunk id x).mp hx).1
  | replaceImports p ts => exact hsame (congrArg NodeTables.chunks tables_replaceImports) hx
  | replaceCalls p cs => exact hsame (congrArg NodeTables.chunks tables_replaceCalls) hx
  | retainHistory r keep => exact (((removes_retainHistory hm hw.adjacent.typed r _).chunk id x).mp hx).1

lemma arrivals_of_ne {op : WriteOp} (hop : ∀ c, op ≠ .upsertNode (.semanticChunk c)) :
    d.arrivals order op = order.filter ((d.applyOp op).graph.chunks.contains ·) := by
  simp only [arrivals]

/-- Chunks that are there before and after a write keep their order. -/
lemma filter_sublist_arrivals (d : Draft) (order : List String) (op : WriteOp) :
    (order.filter ((d.applyOp op).graph.chunks.contains ·)).Sublist (d.arrivals order op) := by
  simp only [arrivals]
  split
  · split
    · exact List.Sublist.refl _
    · exact List.sublist_append_left _ _
  · exact List.Sublist.refl _

lemma numbered_upsertChunk (h : d.graph.Numbered order) (hw : d.graph.WellFormed) (c : SemanticChunk) :
    (d.applyOp (.upsertNode (.semanticChunk c))).graph.Numbered
      (d.arrivals order (.upsertNode (.semanticChunk c))) := by
  obtain ⟨stored, hchunks, hnumber⟩ := d.sequence_upsertChunk c
  -- nothing that is listed goes
  have hleft : order.filter ((d.upsertChunk c).graph.chunks.contains ·) = order := by
    refine List.filter_eq_self.mpr fun id hid => ?_
    rw [hchunks, Std.ExtTreeMap.contains_insert, (h.mem id).mp hid, Bool.or_true]
  show (d.upsertChunk c).graph.Numbered
    (if d.graph.chunks.contains c.id then order.filter ((d.upsertChunk c).graph.chunks.contains ·)
      else order.filter ((d.upsertChunk c).graph.chunks.contains ·) ++ [c.id])
  rw [hleft]
  cases hold : d.graph.chunks[c.id]? with
  | none =>
    have habsent : d.graph.chunks.contains c.id = false := by
      rw [Std.ExtTreeMap.contains_eq_isSome_getElem?, hold]
      rfl
    rw [habsent, if_neg Bool.false_ne_true]
    rw [hold] at hnumber
    refine h.append habsent (fun id x hx => ?_) hchunks
    rw [hnumber]
    exact hw.indexed.sequence_lt id x hx
  | some old =>
    have hthere : d.graph.chunks.contains c.id = true := by
      rw [Std.ExtTreeMap.contains_eq_isSome_getElem?, hold]
      rfl
    rw [hthere, if_pos rfl]
    rw [hold] at hnumber
    refine h.congr fun id => ?_
    rw [hchunks, Std.ExtTreeMap.getElem?_insert]
    split
    · rename_i hid
      rw [← Std.LawfulEqCmp.eq_of_compare hid, hold, Option.map_some, Option.map_some, hnumber]
      rfl
    · rfl

lemma numbered_applyOp (h : d.graph.Numbered order) (hw : d.graph.WellFormed) (op : WriteOp) :
    (d.applyOp op).graph.Numbered (d.arrivals order op) := by
  by_cases hop : ∃ c, op = .upsertNode (.semanticChunk c)
  · obtain ⟨c, rfl⟩ := hop
    exact numbered_upsertChunk h hw c
  · have hne : ∀ c, op ≠ .upsertNode (.semanticChunk c) := not_exists.mp hop
    rw [arrivals_of_ne hne]
    exact h.filter fun id x => getElem?_chunks_applyOp hw hne

lemma numbered_arrivalsAfter {b : WriteBatch} (h : d.graph.Numbered order) (hd : d.Sound n)
    (hb : ∀ op ∈ b, op.Typed) : (b.foldl applyOp d).graph.Numbered (d.arrivalsAfter order b) := by
  induction b generalizing d order with
  | nil => exact h
  | cons op b ih =>
    exact ih (numbered_applyOp h hd.wellFormed op) (hd.applyOp (hb op (by simp))) fun op hop => hb op (by simp [hop])

/-- Chunks that no write of a batch takes out keep their order, also if they are put again. -/
lemma sublist_arrivalsAfter {l : List String} {b : WriteBatch} (h : l.Sublist order)
    (hstays : ∀ past, past <+: b → ∀ id ∈ l, (past.foldl applyOp d).graph.chunks.contains id = true) :
    l.Sublist (d.arrivalsAfter order b) := by
  induction b generalizing d order with
  | nil => exact h
  | cons op b ih =>
    refine ih ?_ fun past hpast => hstays (op :: past) (List.cons_prefix_cons.mpr ⟨rfl, hpast⟩)
    have hleft : l.filter ((d.applyOp op).graph.chunks.contains ·) = l :=
      List.filter_eq_self.mpr (hstays [op] (List.cons_prefix_cons.mpr ⟨rfl, List.nil_prefix⟩))
    have hkept := h.filter ((d.applyOp op).graph.chunks.contains ·)
    rw [hleft] at hkept
    exact hkept.trans (d.filter_sublist_arrivals order op)

end Draft

/-- Along every history the numbers grow in the order of arrival. -/
lemma KnowledgeGraph.Arrived.numbered {g : KnowledgeGraph} {order : List String} (h : g.Arrived order) :
    g.Numbered order := by
  induction h with
  | empty => exact .empty
  | applied hs happly ih =>
    obtain ⟨hgraph, -, hflaw⟩ := GraphStore.apply_eq_ok happly
    rw [hgraph]
    exact Draft.numbered_arrivalsAfter ih ⟨hs.reachable.wellFormed, rfl⟩ (Overlay.typed_of_batchFlaw? hflaw)
  | loaded hg ih => exact ih.ofSnapshot hg.reachable.wellFormed

end RepoAtlas
