import Mathlib.Data.List.Induction
import RepoAtlas.Proofs.Graph.Integrity

/-!
# What admission guarantees

A batch is admitted by a view that does not run its writes. Histories of admitted batches keep the
graph referential exactly when every node that a write names and does not find is made up for by the end
of its batch. The view itself is right about batches that clear first, put next and forget last.
-/

namespace RepoAtlas

open KnowledgeGraph

/-! ### Batches -/

section

variable {g : KnowledgeGraph} {b : WriteBatch}

@[simp] lemma applyBatch_nil (g : KnowledgeGraph) : g.applyBatch [] = { graph := g } := rfl

lemma applyBatch_append_singleton (g : KnowledgeGraph) (b : WriteBatch) (op : WriteOp) :
    g.applyBatch (b ++ [op]) = (g.applyBatch b).applyOp op := by
  simp only [applyBatch, List.foldl_append, List.foldl_cons, List.foldl_nil]

lemma traced_applyBatch (ht : g.Traced) (hb : ∀ op ∈ b, op.Typed) : (g.applyBatch b).graph.Traced := by
  induction b using List.reverseRecOn with
  | nil => exact ht
  | append_singleton b op ih =>
    rw [applyBatch_append_singleton]
    have htb := ih fun o ho => hb o (List.mem_append_left _ ho)
    exact (Draft.careful_applyOp htb (hb op (by simp))).traced

/-- A write of a batch that names a node and does not find it. -/
def NotFound (g : KnowledgeGraph) (b : WriteBatch) (k : NodeKey) : Prop :=
  ∃ pre op post, b = pre ++ op :: post ∧ op.Names k ∧ (g.applyBatch pre).graph.contains k = false

/-- What dangles after a batch did before, or some write of the batch did not find its node. -/
lemma dangling_applyBatch (ht : g.Traced) (hb : ∀ op ∈ b, op.Typed) {h : Holder} {k : NodeKey}
    (hd : (g.applyBatch b).graph.Dangling h k) : g.Dangling h k ∨ NotFound g b k := by
  induction b using List.reverseRecOn with
  | nil => exact Or.inl hd
  | append_singleton b op ih =>
    have hb' : ∀ o ∈ b, o.Typed := fun o ho => hb o (List.mem_append_left _ ho)
    rw [applyBatch_append_singleton] at hd
    have hstep := Draft.careful_applyOp (traced_applyBatch ht hb') (hb op (by simp))
    rcases hstep.dangling h k hd with hd | ⟨hnames, hmissing⟩
    · rcases ih hb' hd with hd | ⟨pre, o, post, rfl, hnames, hmissing⟩
      · exact Or.inl hd
      · exact Or.inr ⟨pre, o, post ++ [op], by simp, hnames, hmissing⟩
    · exact Or.inr ⟨b, op, [], rfl, hnames, hmissing⟩

/-- In the end nothing dangles for want of a node that some write of the batch did not find. -/
def Mended (g : KnowledgeGraph) (b : WriteBatch) : Prop :=
  ∀ k, NotFound g b k → ∀ h, ¬(g.applyBatch b).graph.Dangling h k

lemma referential_applyBatch_iff (ht : g.Traced) (hg : g.Referential) (hb : ∀ op ∈ b, op.Typed) :
    (g.applyBatch b).graph.Referential ↔ Mended g b := by
  constructor
  · exact fun h k _ holder => referential_iff.mp h holder k
  · refine fun hmend => referential_iff.mpr fun h k hd => ?_
    rcases dangling_applyBatch ht hb hd with hd' | hn
    · exact referential_iff.mp hg h k hd'
    · exact hmend k hn h hd

end

/-! ### Histories -/

namespace Overlay

variable {dims : Option Nat}

lemma typed_of_flaw? {o : Overlay} {op : WriteOp} (h : o.flaw? dims op = none) : op.Typed := by
  cases op with
  | upsertEdge e =>
    simp only [flaw?, Option.or_eq_none_iff] at h
    have hflaw := h.1.1
    simp only [GraphEdge.flaw?, ite_eq_left_iff, reduceCtorEq, imp_false, not_not] at hflaw
    exact hflaw
  | _ => trivial

lemma typed_of_batchFlaw? {o : Overlay} {b : WriteBatch} (h : batchFlaw? dims o b = none) :
    ∀ op ∈ b, op.Typed := by
  induction b generalizing o with
  | nil => simp
  | cons op b ih =>
    simp only [batchFlaw?, Option.or_eq_none_iff] at h
    rintro op' (_ | ⟨_, hop'⟩)
    · exact typed_of_flaw? h.1
    · exact ih h.2 op' hop'

end Overlay

namespace GraphStore

/-- What an admitted batch does to a store. -/
lemma apply_eq_ok {s s' : GraphStore} {b : WriteBatch} {summary : WriteSummary}
    (h : s.apply b = .ok (s', summary)) :
    s'.graph = (s.graph.applyBatch b).graph ∧ s'.dimensions = s.dimensions ∧
      s.graph.batchFlaw? s.dimensions b = none := by
  simp only [apply] at h
  split at h
  · rename_i hnil
    rw [List.isEmpty_iff] at hnil
    subst hnil
    cases h
    exact ⟨rfl, rfl, rfl⟩
  · split at h
    · cases h
    · rename_i hflaw
      split at h <;> cases h <;> exact ⟨rfl, rfl, hflaw⟩

lemma summary_of_apply {s s' : GraphStore} {b : WriteBatch} {summary : WriteSummary}
    (h : s.apply b = .ok (s', summary)) : summary = (s.graph.applyBatch b).summary := by
  simp only [apply] at h
  split at h
  · rename_i hnil
    rw [List.isEmpty_iff] at hnil
    subst hnil
    cases h
    rfl
  · split at h
    · cases h
    · split at h <;> cases h <;> rfl

/-- The store after batches, if each is admitted. -/
def applyAll (s : GraphStore) : List WriteBatch → Except StoreError GraphStore
  | [] => .ok s
  | b :: bs => do (← s.apply b).1.applyAll bs

lemma applyAll_cons_eq_ok {s s' : GraphStore} {b : WriteBatch} {bs : List WriteBatch} :
    s.applyAll (b :: bs) = .ok s' ↔
      ∃ s₁ summary, s.apply b = .ok (s₁, summary) ∧ s₁.applyAll bs = .ok s' := by
  simp only [applyAll]
  cases h : s.apply b with
  | error e => simp [bind, Except.bind]
  | ok r => simp [bind, Except.bind, Prod.ext_iff]

/-- What is read off the store after batches, if they are admitted, is read off a store. -/
lemma exists_applyAll_of_map {β : Type} {read : GraphStore → β} {b : β} {s : GraphStore}
    {bs : List WriteBatch} (h : (s.applyAll bs).toOption.map read = some b) :
    ∃ s', s.applyAll bs = .ok s' ∧ read s' = b := by
  cases hrun : s.applyAll bs with
  | error e => simp [hrun, Except.toOption] at h
  | ok s' => exact ⟨s', rfl, by simpa [hrun, Except.toOption] using h⟩

/-- Along a history the integrity is kept exactly if each batch mends what it does not find. -/
lemma referential_iff_mended_of_referential {s₀ s : GraphStore} {bs : List WriteBatch}
    (ht : s₀.graph.Traced) (hg : s₀.graph.Referential) (h : s₀.applyAll bs = .ok s) :
    (∀ past s', past <+: bs → s₀.applyAll past = .ok s' → s'.graph.Referential) ↔
      ∀ past b s', past ++ [b] <+: bs → s₀.applyAll past = .ok s' → Mended s'.graph b := by
  induction bs generalizing s₀ with
  | nil =>
    constructor
    · intro _ past b s' hpre
      simp at hpre
    · intro _ past s' hpre hpast
      rw [List.prefix_nil.mp hpre] at hpast
      cases hpast
      exact hg
  | cons b bs ih =>
    obtain ⟨s₁, summary, hb, hrest⟩ := applyAll_cons_eq_ok.mp h
    obtain ⟨hgraph, -, hflaw⟩ := apply_eq_ok hb
    have htyped := Overlay.typed_of_batchFlaw? hflaw
    have hfirst : s₁.graph.Referential ↔ Mended s₀.graph b := by
      rw [hgraph]
      exact referential_applyBatch_iff ht hg htyped
    have ht₁ : s₁.graph.Traced := hgraph ▸ traced_applyBatch ht htyped
    have hcons : ∀ past s', s₀.applyAll (b :: past) = .ok s' ↔ s₁.applyAll past = .ok s' := by
      intro past s'
      rw [applyAll_cons_eq_ok, hb]
      simp
    constructor
    · intro hall
      have hg₁ := hall [b] s₁ ⟨bs, rfl⟩ ((hcons [] s₁).mpr rfl)
      have hmended := (ih ht₁ hg₁ hrest).mp fun past s' hpre hpast =>
        hall (b :: past) s' (List.cons_prefix_cons.mpr ⟨rfl, hpre⟩) ((hcons past s').mpr hpast)
      rintro (_ | ⟨b', past⟩) c s' hpre hpast
      · obtain ⟨rfl, -⟩ := List.cons_prefix_cons.mp hpre
        cases hpast
        exact hfirst.mp hg₁
      · obtain ⟨rfl, hlater⟩ := List.cons_prefix_cons.mp hpre
        exact hmended past c s' hlater ((hcons past s').mp hpast)
    · intro hall
      have hg₁ := hfirst.mpr (hall [] b s₀ ⟨bs, rfl⟩ rfl)
      have hkept := (ih ht₁ hg₁ hrest).mpr fun past c s' hpre hpast =>
        hall (b :: past) c s' (List.cons_prefix_cons.mpr ⟨rfl, hpre⟩) ((hcons past s').mpr hpast)
      rintro (_ | ⟨b', past⟩) s' hpre hpast
      · cases hpast
        exact hg
      · obtain ⟨rfl, hlater⟩ := List.cons_prefix_cons.mp hpre
        exact hkept past s' hlater ((hcons past s').mp hpast)

/-- From the empty graph, every state between the batches of an admitted history is referential if and
only if each batch mends what its writes do not find. -/
theorem referential_iff_mended {s₀ s : GraphStore} {bs : List WriteBatch} (h₀ : s₀.graph = {})
    (h : s₀.applyAll bs = .ok s) :
    (∀ past s', past <+: bs → s₀.applyAll past = .ok s' → s'.graph.Referential) ↔
      ∀ past b s', past ++ [b] <+: bs → s₀.applyAll past = .ok s' → Mended s'.graph b :=
  referential_iff_mended_of_referential (h₀ ▸ traced_empty) (h₀ ▸ referential_empty) h

/-- A file with a unit and a chunk, stored by one batch. -/
def smallBatch : WriteBatch :=
  [.upsertNode (.sourceFile ⟨"a.py", "python", "f", default, [], []⟩),
    .upsertNode (.codeUnit { (default : CodeUnit) with
      id := "a.py:f", path := "a.py", name := "f", qualifiedName := "f" }),
    .upsertNode (.semanticChunk ⟨"c", "a.py:f", "text", [1], default⟩)]

lemma exists_applyAll_smallBatch : ∃ s, ({} : GraphStore).applyAll [smallBatch] = .ok s := by
  have hsome : (({} : GraphStore).applyAll [smallBatch]).toOption.isSome = true := by decide
  cases hrun : ({} : GraphStore).applyAll [smallBatch] with
  | error e => simp [hrun, Except.toOption] at hsome
  | ok s => exact ⟨s, rfl⟩

/-- A second file, with a unit that calls the one of the first. -/
def callingBatch : WriteBatch :=
  smallBatch ++
    [.upsertNode (.sourceFile ⟨"b.py", "python", "f", default, [], []⟩),
      .upsertNode (.codeUnit { (default : CodeUnit) with
        id := "b.py:g", path := "b.py", name := "g", qualifiedName := "g" }),
      .upsertEdge ⟨.calls, .unit "b.py:g", .unit "a.py:f"⟩]

/-- A batch that refers to a chunk after clearing the file of the chunk's unit. The view does not know
that the chunk, which the same batch put, went with the unit. -/
def driftingBatch : WriteBatch :=
  smallBatch ++
    [.upsertNode (.sourceFile ⟨"b.py", "python", "f", default, [], []⟩),
      .upsertNode (.codeUnit { (default : CodeUnit) with
        id := "b.py:g", path := "b.py", name := "g", qualifiedName := "g" }),
      .clearFile "a.py",
      .upsertEdge ⟨.describes, .chunk "c", .unit "b.py:g"⟩]

lemma drifting : ((({} : GraphStore).applyAll [driftingBatch]).toOption.map fun s =>
    (s.graph.hasEdge ⟨.describes, .chunk "c", .unit "b.py:g"⟩, s.graph.contains (.chunk "c"))) =
      some (true, false) := by
  decide

/-- Not every admitted history is referential: the edge of the drifting batch dangles. -/
theorem not_referential_applyAll :
    ¬∀ bs s, ({} : GraphStore).applyAll bs = .ok s → s.graph.Referential := by
  intro hall
  have hdrift := drifting
  cases hrun : ({} : GraphStore).applyAll [driftingBatch] with
  | error e => simp [hrun, Except.toOption] at hdrift
  | ok s =>
    simp only [hrun, Except.toOption, Option.map_some, Option.some.injEq, Prod.mk.injEq] at hdrift
    have hedge := ((hall _ s hrun).edges _ hdrift.1).1
    rw [hdrift.2] at hedge
    cases hedge

theorem referential_iff_mended_smallBatch : ∃ s, ({} : GraphStore).applyAll [smallBatch] = .ok s ∧
    ((∀ past s', past <+: [smallBatch] → ({} : GraphStore).applyAll past = .ok s' →
        s'.graph.Referential) ↔
      ∀ past b s', past ++ [b] <+: [smallBatch] → ({} : GraphStore).applyAll past = .ok s' →
        Mended s'.graph b) := by
  obtain ⟨s, hrun⟩ := exists_applyAll_smallBatch
  exact ⟨s, hrun, referential_iff_mended rfl hrun⟩

end GraphStore

/-! ### Batches that clear first -/

/-- Writes that remove files or their contents. -/
def WriteOp.Clears : WriteOp → Prop
  | .clearFile _ | .removeFile _ => True
  | _ => False

namespace Overlay

variable {dims : Option Nat} {o : Overlay} {k key : NodeKey}

/-- What the view takes to exist is stored. -/
def Sound (o : Overlay) (g : KnowledgeGraph) : Prop := ∀ k, o.exists? k = true → g.contains k = true

lemma exists?_add : (o.add key).exists? k = true ↔ k = key ∨ o.exists? k = true := by
  simp only [exists?, add, Bool.or_eq_true, Bool.and_eq_true, contains_insert_iff, Bool.not_eq_true',
    ← Bool.not_eq_true, contains_erase_iff]
  by_cases hk : k = key <;> simp [hk]

lemma exists?_remove : (o.remove key).exists? k = true ↔ k ≠ key ∧ o.exists? k = true := by
  simp only [exists?, remove, Bool.or_eq_true, Bool.and_eq_true, contains_erase_iff,
    Bool.not_eq_true', ← Bool.not_eq_true, contains_insert_iff]
  by_cases hk : k = key <;> simp [hk]

lemma exists?_foldl_remove (l : List NodeKey) :
    (l.foldl remove o).exists? k = true ↔ k ∉ l ∧ o.exists? k = true := by
  induction l generalizing o with
  | nil => simp
  | cons a l ih =>
    rw [List.foldl_cons, ih, exists?_remove, List.mem_cons, not_or]
    tauto

lemma graph_foldl_remove (l : List NodeKey) : (l.foldl remove o).graph = o.graph := by
  induction l generalizing o with
  | nil => rfl
  | cons a l ih => rw [List.foldl_cons, ih, remove]

lemma graph_clearUnit (id : String) : (o.clearUnit id).graph = o.graph := by
  simp only [clearUnit, remove, graph_foldl_remove]

lemma exists?_clearUnit {id : String} : (o.clearUnit id).exists? k = true ↔
    (k ≠ .unit id ∧ k ∉ o.graph.neighbors (.unit id) .describes .incoming) ∧ o.exists? k = true := by
  rw [clearUnit, exists?_remove, and_assoc]
  exact and_congr_right fun _ => exists?_foldl_remove _

lemma exists?_foldl_clearUnit (l : List String) : (l.foldl clearUnit o).exists? k = true ↔
    (∀ i ∈ l, k ≠ .unit i ∧ k ∉ o.graph.neighbors (.unit i) .describes .incoming) ∧
      o.exists? k = true := by
  induction l generalizing o with
  | nil => simp
  | cons i l ih =>
    rw [List.foldl_cons, ih, graph_clearUnit, exists?_clearUnit]
    simp only [List.mem_cons, forall_eq_or_imp]
    tauto

lemma graph_clear (path : String) : (o.clear path).graph = o.graph := by
  simp only [clear]
  generalize o.fileUnits path = l
  induction l generalizing o with
  | nil => rfl
  | cons i l ih => rw [List.foldl_cons, ih, graph_clearUnit]

lemma mem_fileUnits {path id : String} (h : hasEntry o.graph.unitsByFile path id = true) :
    id ∈ o.fileUnits path := by
  simp only [fileUnits, Std.ExtTreeSet.mem_toList, ← Std.ExtTreeSet.contains_iff_mem,
    contains_foldl_insert]
  refine Or.inr ?_
  simp only [hasEntry] at h
  cases hs : o.graph.unitsByFile[path]? with
  | none => simp [hs] at h
  | some s => simpa [hs] using h

/-- A view that has only removed nodes so far, of which it knows at least those that are gone. -/
structure Cleared (o : Overlay) (g : KnowledgeGraph) : Prop where
  sound : o.Sound g
  mirrored : o.graph.Mirrored
  edges : ∀ e, g.hasEdge e = true → o.graph.hasEdge e = true
  listed : ∀ p i, hasEntry g.unitsByFile p i = true → hasEntry o.graph.unitsByFile p i = true

lemma Cleared.clear {g g' : KnowledgeGraph} {path : String} (hc : o.Cleared g)
    (hr : Removes (Draft.GoneWithContents g path) g g') : (o.clear path).Cleared g' where
  sound k hk := by
    rw [Overlay.clear, exists?_foldl_clearUnit] at hk
    obtain ⟨hnot, hk⟩ := hk
    refine (hr.contains_iff k).mpr ⟨hc.sound k hk, ?_⟩
    rintro ⟨i, hi, -, hgone⟩
    obtain ⟨hunit, hchunk⟩ := hnot i (mem_fileUnits (hc.listed path i (mem_entries.mp hi)))
    rcases hgone with rfl | ⟨c, rfl, he⟩
    · exact hunit rfl
    · exact hchunk ((mem_neighbors_incoming hc.mirrored).mpr (hc.edges _ he))
  mirrored := by
    rw [graph_clear]
    exact hc.mirrored
  edges e he := by
    rw [graph_clear]
    exact hc.edges e ((hr.edge e).mp he).1
  listed p i hl := by
    rw [graph_clear]
    exact hc.listed p i ((hr.byFile p i).mp hl).1

lemma Cleared.remove {g g' : KnowledgeGraph} (hc : o.Cleared g) (hr : Removes (· = key) g g') :
    (o.remove key).Cleared g' where
  sound k hk := by
    obtain ⟨hne, hk⟩ := exists?_remove.mp hk
    exact (hr.contains_iff k).mpr ⟨hc.sound k hk, hne⟩
  mirrored := hc.mirrored
  edges e he := hc.edges e ((hr.edge e).mp he).1
  listed p i hl := hc.listed p i ((hr.byFile p i).mp hl).1

lemma Cleared.after {d : Draft} {op : WriteOp} (hc : o.Cleared d.graph) (hm : d.graph.Mirrored)
    (hop : op.Clears) : (o.after op).Cleared (d.applyOp op).graph := by
  cases op with
  | clearFile path => exact hc.clear (Draft.removes_clearFile hm path)
  | removeFile path =>
    have hr := Draft.removes_clearFile hm path
    exact (hc.clear hr).remove (Draft.removes_file hr.mirrored)
  | _ => exact hop.elim

/-- What an admitted write names is stored if the view is right. -/
lemma Sound.found {g : KnowledgeGraph} {op : WriteOp} (hs : o.Sound g) (h : o.flaw? dims op = none)
    (hk : op.Names k) : g.contains k = true := by
  have hfound : ∀ {context k}, o.missing? context k = none → g.contains k = true := by
    intro context k hnone
    refine hs k ?_
    simpa [missing?] using hnone
  cases op with
  | upsertNode n =>
    simp only [flaw?, nodeFlaw?, Option.or_eq_none_iff] at h
    cases n with
    | codeUnit u =>
      cases hk
      exact hfound h.2
    | semanticChunk c =>
      cases hk
      simp only [Option.or_eq_none_iff] at h
      exact hfound h.2.1
    | _ => exact hk.elim
  | upsertEdge e =>
    simp only [flaw?, Option.or_eq_none_iff] at h
    rcases hk with rfl | rfl
    · exact hfound h.1.2
    · exact hfound h.2
  | replaceImports path targets =>
    simp only [flaw?, Option.or_eq_none_iff, List.findSome?_eq_none_iff] at h
    rcases hk with rfl | ⟨t, ht, rfl⟩
    · exact hfound h.1
    · exact hfound (h.2 t ht)
  | replaceCalls path calls =>
    simp only [flaw?, Option.or_eq_none_iff, List.findSome?_eq_none_iff] at h
    obtain ⟨c, hc, hk⟩ := hk
    have hcall := h.2 c hc
    simp only [callFlaw?, unitPath?] at hcall
    by_cases hex : o.exists? (.unit c.1) = true
    · rcases hk with rfl | rfl
      · exact hs _ hex
      · simp only [hex, if_true] at hcall
        split at hcall
        · split at hcall
          · exact hfound hcall
          · cases hcall
        · cases hcall
    · simp [hex] at hcall
  | _ => exact hk.elim

end Overlay

lemma Careful.referential {op : WriteOp} {g g' : KnowledgeGraph} (hc : Careful op g g')
    (hg : g.Referential) (hfound : ∀ k, op.Names k → g.contains k = true) : g'.Referential := by
  refine referential_iff.mpr fun h k hd => ?_
  rcases hc.dangling h k hd with hd | ⟨hnames, hmissing⟩
  · exact referential_iff.mp hg h k hd
  · rw [hfound k hnames] at hmissing
    cases hmissing

namespace Draft

variable {d : Draft} {dims : Option Nat} {o : Overlay}

lemma contains_upsert (d : Draft) (n : GraphNode) : (d.upsert n).graph.contains n.key = true := by
  cases n with
  | sourceFile f =>
    have hfiles := congrArg NodeTables.files (tables_upsertFile (d := d) (f := f))
    simp only [tables] at hfiles
    simp [upsert, GraphNode.key, contains, hfiles]
  | codeUnit u =>
    simp only [upsert, GraphNode.key, contains]
    by_cases hold : d.graph.units[u.id]? = some u
    · rw [upsertUnit_of_eq hold, Std.ExtTreeMap.contains_eq_isSome_getElem?, hold]
      rfl
    · have hunits := congrArg NodeTables.units (tables_upsertUnit hold)
      simp only [tables] at hunits
      simp [hunits]
  | semanticChunk c =>
    obtain ⟨stored, n, -, -, htables⟩ := tables_upsertChunk d c
    have hchunks := congrArg NodeTables.chunks htables
    simp only [tables] at hchunks
    simp [upsert, GraphNode.key, contains, hchunks]
  | commit c =>
    simp only [upsert, GraphNode.key, contains]
    by_cases hold : d.graph.commits.contains c.id = true
    · rw [upsertCommit_of_contains hold, hold]
    · rw [graph_upsertCommit ((Bool.not_eq_true _).mp hold)]
      simp
  | author a => simp [upsert, GraphNode.key, contains, graph_upsertAuthor]
  | fileRevision r =>
    simp only [upsert, GraphNode.key, contains]
    by_cases hold : d.graph.revisions.contains r.id = true
    · rw [upsertRevision_of_contains hold, hold]
    · have hrevs := congrArg NodeTables.revisions
        (tables_upsertRevision ((Bool.not_eq_true _).mp hold))
      simp only [tables] at hrevs
      simp [hrevs]

lemma sound_after (ht : d.graph.Traced) (hs : o.Sound d.graph) {op : WriteOp} (hop : op.Typed)
    (hfill : op.Fills) : (o.after op).Sound (d.applyOp op).graph := by
  have hput := puts_applyOp ht hop hfill
  intro k hk
  cases op with
  | upsertNode n =>
    rcases Overlay.exists?_add.mp hk with rfl | hk
    · exact contains_upsert d n
    · refine hput.stored k (hs k ?_)
      cases n <;> exact hk
  | upsertEdge e => exact hput.stored k (hs k hk)
  | replaceImports p ts => exact hput.stored k (hs k hk)
  | replaceCalls p cs => exact hput.stored k (hs k hk)
  | _ => exact hfill.elim

/-- While a batch clears, the view knows what is gone. -/
lemma cleared_foldl {clears : WriteBatch} (hc : o.Cleared d.graph) (ht : d.graph.Traced)
    (hg : d.graph.Referential) (hclears : ∀ op ∈ clears, op.Clears) :
    (clears.foldl Overlay.after o).Cleared (clears.foldl applyOp d).graph ∧
      (clears.foldl applyOp d).graph.Traced ∧ (clears.foldl applyOp d).graph.Referential := by
  induction clears generalizing o d with
  | nil => exact ⟨hc, ht, hg⟩
  | cons op clears ih =>
    have hop := hclears op (by simp)
    have htyped : op.Typed := by cases op <;> trivial
    have hnames : ∀ k, ¬op.Names k := by
      intro k hk
      cases op <;> first | exact hop | exact hk
    have hstep := careful_applyOp ht htyped
    exact ih (hc.after ht.mirrored hop) hstep.traced
      (hstep.referential hg fun k hk => absurd hk (hnames k))
      fun op' hop' => hclears op' (by simp [hop'])

/-- While a batch fills the graph, each write finds what it names. -/
lemma referential_foldl_fills {fills : WriteBatch} (hs : o.Sound d.graph) (ht : d.graph.Traced)
    (hg : d.graph.Referential) (hfills : ∀ op ∈ fills, op.Fills)
    (hflaw : Overlay.batchFlaw? dims o fills = none) :
    (fills.foldl applyOp d).graph.Traced ∧ (fills.foldl applyOp d).graph.Referential := by
  induction fills generalizing o d with
  | nil => exact ⟨ht, hg⟩
  | cons op fills ih =>
    simp only [Overlay.batchFlaw?, Option.or_eq_none_iff] at hflaw
    have htyped := Overlay.typed_of_flaw? hflaw.1
    have hstep := careful_applyOp ht htyped
    exact ih (sound_after ht hs htyped (hfills op (by simp))) hstep.traced
      (hstep.referential hg fun k hk => hs.found hflaw.1 hk)
      (fun op' hop' => hfills op' (by simp [hop'])) hflaw.2

lemma referential_foldl_forgets {forgets : WriteBatch} (ht : d.graph.Traced)
    (hg : d.graph.Referential)
    (hforgets : ∀ op ∈ forgets, ∃ repo revisions, op = .retainHistory repo revisions) :
    (forgets.foldl applyOp d).graph.Referential := by
  induction forgets generalizing d with
  | nil => exact hg
  | cons op forgets ih =>
    obtain ⟨repo, revisions, rfl⟩ := hforgets op (by simp)
    have hop : (WriteOp.retainHistory repo revisions).Typed := trivial
    have hstep := careful_applyOp ht hop
    exact ih hstep.traced (hstep.referential hg fun k hk => hk.elim)
      fun op' hop' => hforgets op' (by simp [hop'])

end Draft

/-- The batch clears files first, then puts nodes and edges, and forgets history last. -/
def ClearsFirst (b : WriteBatch) : Prop :=
  ∃ clears fills forgets : WriteBatch, b = clears ++ fills ++ forgets ∧
    (∀ op ∈ clears, op.Clears) ∧ (∀ op ∈ fills, op.Fills) ∧
      ∀ op ∈ forgets, ∃ repo revisions, op = .retainHistory repo revisions

namespace Overlay

lemma batchFlaw?_append {dims : Option Nat} {o : Overlay} {a b : WriteBatch} :
    batchFlaw? dims o (a ++ b) = none ↔
      batchFlaw? dims o a = none ∧ batchFlaw? dims (a.foldl after o) b = none := by
  induction a generalizing o with
  | nil => simp [batchFlaw?]
  | cons op a ih =>
    simp only [List.cons_append, batchFlaw?, Option.or_eq_none_iff, ih, List.foldl_cons, and_assoc]

end Overlay

lemma referential_applyBatch_of_clearsFirst {g : KnowledgeGraph} {dims : Option Nat} {b : WriteBatch}
    (ht : g.Traced) (hg : g.Referential) (hb : ClearsFirst b) (hflaw : g.batchFlaw? dims b = none) :
    (g.applyBatch b).graph.Referential := by
  obtain ⟨clears, fills, forgets, rfl, hclears, hfills, hforgets⟩ := hb
  have hstart : (⟨g, ∅, ∅, ∅⟩ : Overlay).Cleared g :=
    { sound := fun k hk => by simpa [Overlay.exists?] using hk
      mirrored := ht.mirrored
      edges := fun _ he => he
      listed := fun _ _ hl => hl }
  obtain ⟨hc, ht₁, hg₁⟩ := Draft.cleared_foldl (d := { graph := g }) hstart ht hg hclears
  rw [batchFlaw?, Overlay.batchFlaw?_append, Overlay.batchFlaw?_append] at hflaw
  obtain ⟨ht₂, hg₂⟩ := Draft.referential_foldl_fills hc.sound ht₁ hg₁ hfills hflaw.1.2
  simp only [applyBatch, List.foldl_append]
  exact Draft.referential_foldl_forgets ht₂ hg₂ hforgets

/-- Histories of admitted batches that clear first keep the graph referential. -/
theorem GraphStore.referential_of_clearsFirst {s₀ s : GraphStore} {bs : List WriteBatch}
    (ht : s₀.graph.Traced) (hg : s₀.graph.Referential) (hbs : ∀ b ∈ bs, ClearsFirst b)
    (h : s₀.applyAll bs = .ok s) : s.graph.Referential := by
  induction bs generalizing s₀ with
  | nil =>
    cases h
    exact hg
  | cons b bs ih =>
    obtain ⟨s₁, summary, hb, hrest⟩ := applyAll_cons_eq_ok.mp h
    obtain ⟨hgraph, -, hflaw⟩ := apply_eq_ok hb
    refine ih ?_ ?_ (fun b' hb' => hbs b' (by simp [hb'])) hrest
    · rw [hgraph]
      exact traced_applyBatch ht (Overlay.typed_of_batchFlaw? hflaw)
    · rw [hgraph]
      exact referential_applyBatch_of_clearsFirst ht hg (hbs b (by simp)) hflaw

end RepoAtlas
