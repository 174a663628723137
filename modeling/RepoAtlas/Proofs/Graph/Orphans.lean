import RepoAtlas.Proofs.Graph.Insertion

/-!
# Callers that lose their callees

When the units of a file go, calls to them from other files go too. The summary of the batch remembers
the files of these callers; no later write of the batch forgets them.
-/

namespace RepoAtlas.Draft

variable {d : Draft} {path q : String}

/-- The files whose units lost calls so far. -/
def Orphaned (d : Draft) (q : String) : Prop := d.summary.orphanedCallers.contains q = true

lemma orphaned_removeChunk (id : String) : (d.removeChunk id).Orphaned q ↔ d.Orphaned q := by
  simp only [removeChunk]
  split <;> exact Iff.rfl

lemma orphaned_foldl_removeChunk (l : List String) :
    (l.foldl removeChunk d).Orphaned q ↔ d.Orphaned q := by
  induction l generalizing d with
  | nil => rfl
  | cons c l ih => rw [List.foldl_cons, ih, orphaned_removeChunk]

lemma orphaned_insertEdge (e : GraphEdge) : (d.insertEdge e).Orphaned q ↔ d.Orphaned q := by
  simp only [insertEdge]
  split <;> exact Iff.rfl

lemma orphaned_foldl_insertEdge {β : Type} (f : β → GraphEdge) (l : List β) :
    (l.foldl (fun d b => d.insertEdge (f b)) d).Orphaned q ↔ d.Orphaned q := by
  induction l generalizing d with
  | nil => rfl
  | cons b l ih => rw [List.foldl_cons, ih, orphaned_insertEdge]

lemma orphaned_upsertFile (f : SourceFile) : (d.upsertFile f).Orphaned q ↔ d.Orphaned q := by
  simp only [upsertFile]
  split
  · split <;> exact Iff.rfl
  · rw [orphaned_foldl_insertEdge fun r => ⟨.versionOf, .revision r, .file f.path⟩]
    split <;> exact Iff.rfl

lemma orphaned_upsertUnit (u : CodeUnit) : (d.upsertUnit u).Orphaned q ↔ d.Orphaned q := by
  simp only [upsertUnit]
  split
  · rfl
  · rw [orphaned_insertEdge]
    exact Iff.rfl

lemma orphaned_upsertChunk (c : SemanticChunk) : (d.upsertChunk c).Orphaned q ↔ d.Orphaned q := by
  simp only [upsertChunk]
  rw [orphaned_insertEdge]
  split
  · split <;> exact Iff.rfl
  · exact Iff.rfl

lemma orphaned_foldl_upsertUnit (l : List CodeUnit) :
    (l.foldl upsertUnit d).Orphaned q ↔ d.Orphaned q := by
  induction l generalizing d with
  | nil => rfl
  | cons u l ih => rw [List.foldl_cons, ih, orphaned_upsertUnit]

lemma orphaned_foldl_upsertChunk (l : List SemanticChunk) :
    (l.foldl upsertChunk d).Orphaned q ↔ d.Orphaned q := by
  induction l generalizing d with
  | nil => rfl
  | cons c l ih => rw [List.foldl_cons, ih, orphaned_upsertChunk]

/-! ### Removing units -/

lemma orphaned_orphan (caller : NodeKey) : (d.orphan path caller).Orphaned q ↔
    d.Orphaned q ∨ ∃ i u, caller = .unit i ∧ d.graph.units[i]? = some u ∧ u.path ≠ path ∧ u.path = q := by
  cases caller with
  | unit i =>
    have hunit : (∃ j u, NodeKey.unit i = .unit j ∧ d.graph.units[j]? = some u ∧ u.path ≠ path ∧
        u.path = q) ↔ ∃ u, d.graph.units[i]? = some u ∧ u.path ≠ path ∧ u.path = q := by
      constructor
      · rintro ⟨j, u, hj, h⟩
        cases hj
        exact ⟨u, h⟩
      · rintro ⟨u, h⟩
        exact ⟨i, u, rfl, h⟩
    rw [hunit]
    simp only [orphan, NodeKey.unit?, Option.bind_some]
    cases hu : d.graph.units[i]? with
    | none => simp
    | some u =>
      simp only [Option.some.injEq, exists_eq_left']
      split
      · rename_i hp
        simp [hp]
      · rename_i hp
        simp only [Orphaned, contains_insert_iff, ne_eq, hp, not_false_eq_true, true_and]
        rw [or_comm, eq_comm (a := q)]
  | _ => simp [orphan, NodeKey.unit?]

lemma orphaned_foldl_orphan (l : List NodeKey) : (l.foldl (orphan · path) d).Orphaned q ↔
    d.Orphaned q ∨ ∃ i u, .unit i ∈ l ∧ d.graph.units[i]? = some u ∧ u.path ≠ path ∧ u.path = q := by
  induction l generalizing d with
  | nil => simp
  | cons k l ih =>
    have hgraph : (d.orphan path k).graph = d.graph := graph_foldl_orphan path [k]
    rw [List.foldl_cons, ih, orphaned_orphan, hgraph, or_assoc]
    refine or_congr_right ?_
    simp only [List.mem_cons]
    constructor
    · rintro (⟨i, u, rfl, h⟩ | ⟨i, u, hi, h⟩)
      · exact ⟨i, u, Or.inl rfl, h⟩
      · exact ⟨i, u, Or.inr hi, h⟩
    · rintro ⟨i, u, rfl | hi, h⟩
      · exact Or.inl ⟨i, u, rfl, h⟩
      · exact Or.inr ⟨i, u, hi, h⟩

/-- Removing a unit remembers exactly the callers of other files. -/
lemma orphaned_removeUnit (hm : d.graph.Mirrored) {id : String} {u : CodeUnit}
    (hu : d.graph.units[id]? = some u) : (d.removeUnit id).Orphaned q ↔ d.Orphaned q ∨
      ∃ i v, d.graph.hasEdge ⟨.calls, .unit i, .unit id⟩ = true ∧ d.graph.units[i]? = some v ∧
        v.path ≠ u.path ∧ v.path = q := by
  set l := (d.graph.neighbors (.unit id) .describes .incoming).filterMap NodeKey.chunk? with hl
  have hchunks := removes_foldl_removeChunk hm l
  have hrun : (d.removeUnit id).Orphaned q ↔
      (((l.foldl removeChunk d).graph.neighbors (.unit id) .calls .incoming).foldl (orphan · u.path)
        (l.foldl removeChunk d)).Orphaned q := by
    simp only [removeUnit, hu, ← hl]
    -- what follows on the callers leaves the summary of orphans as it is
    generalize List.foldl (orphan · u.path) _ _ = d'
    exact Iff.rfl
  rw [hrun, orphaned_foldl_orphan, orphaned_foldl_removeChunk]
  refine or_congr_right (exists_congr fun i => exists_congr fun v => and_congr ?_ (and_congr_left fun _ => ?_))
  · rw [KnowledgeGraph.mem_neighbors_incoming hchunks.mirrored, hchunks.edge]
    simp
  · rw [hchunks.unit]
    simp

/-- Removing units of one file remembers exactly the other files with a unit that calls one of them. Such
a caller is not among the units that go, so it is still there, with its call, when the turn of its callee
comes. -/
lemma orphaned_foldl_removeUnit (hm : d.graph.Mirrored) {l : List String}
    (hown : ∀ j ∈ l, ∀ u, d.graph.units[j]? = some u → u.path = path) :
    (l.foldl removeUnit d).Orphaned q ↔ d.Orphaned q ∨ q ≠ path ∧ ∃ i v j u,
      d.graph.units[i]? = some v ∧ v.path = q ∧ j ∈ l ∧ d.graph.units[j]? = some u ∧
        d.graph.hasEdge ⟨.calls, .unit i, .unit j⟩ = true := by
  induction l generalizing d with
  | nil => simp
  | cons k l ih =>
    have hown' : ∀ j ∈ l, ∀ u, d.graph.units[j]? = some u → u.path = path :=
      fun j hj => hown j (List.mem_cons_of_mem k hj)
    rw [List.foldl_cons]
    cases hk : d.graph.units[k]? with
    | none =>
      rw [removeUnit_of_none hk, ih hm hown']
      refine or_congr_right (and_congr_right fun _ => ?_)
      constructor
      · rintro ⟨i, v, j, u, hv, hq, hj, hu, hcall⟩
        exact ⟨i, v, j, u, hv, hq, List.mem_cons_of_mem k hj, hu, hcall⟩
      · rintro ⟨i, v, j, u, hv, hq, hj, hu, hcall⟩
        have hjk : j ≠ k := fun h => by rw [h, hk] at hu; cases hu
        exact ⟨i, v, j, u, hv, hq, (List.mem_cons.mp hj).resolve_left hjk, hu, hcall⟩
    | some w =>
      have hw : w.path = path := hown k (by simp) w hk
      have hr := removes_removeUnit hm hk
      have hstays : ∀ i, ¬GoneWithUnit d.graph k (.unit i) ↔ i ≠ k := by
        intro i
        simp [GoneWithUnit]
      rw [ih hr.mirrored fun j hj u hu => hown' j hj u ((hr.unit j u).mp hu).1, orphaned_removeUnit hm hk,
        or_assoc]
      refine or_congr_right ?_
      constructor
      · rintro (⟨i, v, hcall, hv, hne, hq⟩ | ⟨hne, i, v, j, u, hv, hq, hj, hu, hcall⟩)
        · exact ⟨by rwa [← hq, ← hw], i, v, k, w, hv, hq, by simp, hk, hcall⟩
        · exact ⟨hne, i, v, j, u, ((hr.unit i v).mp hv).1, hq, List.mem_cons_of_mem k hj,
            ((hr.unit j u).mp hu).1, ((hr.edge _).mp hcall).1⟩
      · rintro ⟨hne, i, v, j, u, hv, hq, hj, hu, hcall⟩
        by_cases hjk : j = k
        · subst hjk
          exact Or.inl ⟨i, v, hcall, hv, by rwa [hq, hw], hq⟩
        · have hik : i ≠ k := by
            rintro rfl
            rw [hk] at hv
            cases hv
            exact hne (hq.symm.trans hw)
          refine Or.inr ⟨hne, i, v, j, u, (hr.unit i v).mpr ⟨hv, (hstays i).mpr hik⟩, hq,
            (List.mem_cons.mp hj).resolve_left hjk, (hr.unit j u).mpr ⟨hu, (hstays j).mpr hjk⟩, ?_⟩
          exact (hr.edge _).mpr ⟨hcall, (hstays i).mpr hik, (hstays j).mpr hjk⟩

lemma orphaned_removeFile : (d.removeFile path).Orphaned q ↔ (d.clearFile path).Orphaned q := by
  simp only [removeFile]
  split <;> exact Iff.rfl

end RepoAtlas.Draft
