import RepoAtlas.Proofs.Graph.Durability

/-!
# Reachable graphs

A graph is reachable if admitted batches lead to it from the empty graph, with any number of graphs saved
and loaded in between. What holds of the empty graph, is kept by every write that can be admitted, and is
kept when a graph is loaded holds of all reachable graphs. The stores of a session hold such graphs, and so
do their files.
-/

namespace RepoAtlas

open KnowledgeGraph

/-! ### What can be admitted -/

/-- What admission asks of a write whatever the graph holds: its node is without flaw, and its edge
connects nodes of the right kinds. -/
def WriteOp.Regular : WriteOp → Prop
  | .upsertNode n => n.flaw? = none
  | .upsertEdge e => (e.source.type, e.target.type) = e.kind.endpoints
  | _ => True

lemma WriteOp.Regular.typed {op : WriteOp} (h : op.Regular) : op.Typed := by
  cases op with
  | upsertEdge e => exact h
  | _ => trivial

namespace Overlay

variable {dims : Option Nat}

lemma regular_of_flaw? {o : Overlay} {op : WriteOp} (h : o.flaw? dims op = none) : op.Regular := by
  cases op with
  | upsertNode n =>
    simp only [flaw?, nodeFlaw?, Option.or_eq_none_iff] at h
    exact h.1
  | upsertEdge e => exact typed_of_flaw? h
  | _ => trivial

lemma regular_of_batchFlaw? {o : Overlay} {b : WriteBatch} (h : batchFlaw? dims o b = none) :
    ∀ op ∈ b, op.Regular := by
  induction b generalizing o with
  | nil => simp
  | cons op b ih =>
    simp only [batchFlaw?, Option.or_eq_none_iff] at h
    rintro op' (_ | ⟨_, hop'⟩)
    · exact regular_of_flaw? h.1
    · exact ih h.2 op' hop'

end Overlay

/-- A unit is admitted only under the id that its path and its name make. -/
lemma CodeUnit.id_eq_of_flaw? {u : CodeUnit} (h : (GraphNode.codeUnit u).flaw? = none) :
    u.id = CodeUnit.identity u.path u.qualifiedName := by
  simp only [GraphNode.flaw?, GraphNode.firstFlaw, List.findSome?_eq_none_iff] at h
  have hid := h _ (List.mem_cons_of_mem _ (List.mem_cons_of_mem _ (List.mem_singleton_self _)))
  simpa using hid

namespace GraphStore

lemma regular_of_applyAll {s s' : GraphStore} {bs : List WriteBatch} (h : s.applyAll bs = .ok s') :
    ∀ b ∈ bs, ∀ op ∈ b, op.Regular := by
  induction bs generalizing s with
  | nil => simp
  | cons b bs ih =>
    obtain ⟨s₁, summary, hb, hrest⟩ := applyAll_cons_eq_ok.mp h
    obtain ⟨-, -, hflaw⟩ := apply_eq_ok hb
    rintro b' (_ | ⟨_, hb'⟩)
    · exact Overlay.regular_of_batchFlaw? hflaw
    · exact ih hrest b' hb'

lemma applyAll_append_eq_ok {s s' : GraphStore} {bs bs' : List WriteBatch} :
    s.applyAll (bs ++ bs') = .ok s' ↔ ∃ s₁, s.applyAll bs = .ok s₁ ∧ s₁.applyAll bs' = .ok s' := by
  induction bs generalizing s with
  | nil => simp [applyAll]
  | cons b bs ih =>
    simp only [List.cons_append, applyAll_cons_eq_ok, ih]
    constructor
    · rintro ⟨s₁, summary, hb, s₂, hbs, hbs'⟩
      exact ⟨s₂, ⟨s₁, summary, hb, hbs⟩, hbs'⟩
    · rintro ⟨s₂, ⟨s₁, summary, hb, hbs⟩, hbs'⟩
      exact ⟨s₁, summary, hb, s₂, hbs, hbs'⟩

/-- What batches are admitted after others is read off the whole run. -/
lemma exists_applyAll_of_append {s s' : GraphStore} {bs bs' : List WriteBatch}
    (h : (s.applyAll (bs ++ bs')).toOption.isSome = true) (hs : s.applyAll bs = .ok s') :
    ∃ s₂, s'.applyAll bs' = .ok s₂ := by
  cases hrun : s.applyAll (bs ++ bs') with
  | error e => simp [hrun, Except.toOption] at h
  | ok s₂ =>
    obtain ⟨s₁, hfirst, hrest⟩ := applyAll_append_eq_ok.mp hrun
    cases hs.symm.trans hfirst
    exact ⟨s₂, hrest⟩

end GraphStore

namespace KnowledgeGraph

/-! ### Invariants -/

/-- The graphs that a store comes to hold. -/
inductive Reachable : KnowledgeGraph → Prop
  | empty : Reachable {}
  /-- A batch is admitted. -/
  | applied {s s' : GraphStore} {batch : WriteBatch} {summary : WriteSummary} : Reachable s.graph →
      s.apply batch = .ok (s', summary) → Reachable s'.graph
  /-- The document of a graph is loaded. -/
  | loaded {g : KnowledgeGraph} : Reachable g → Reachable (.ofSnapshot g.snapshot)

namespace Reachable

variable {g : KnowledgeGraph} {P : KnowledgeGraph → Prop}

lemma wellFormed (h : g.Reachable) : g.WellFormed := by
  induction h with
  | empty => exact wellFormed_empty
  | applied _ happly ih => exact (GraphStore.wellFormed_apply ih happly).1
  | loaded _ ih => exact ih.ofSnapshot

/-- What the writes of a batch keep one after the other, the batch keeps. -/
lemma invariant_applyBatch {b : WriteBatch}
    (hstep : ∀ (d : Draft), ∀ op ∈ b, d.graph.WellFormed → op.Regular → P d.graph → P (d.applyOp op).graph)
    (hg : g.WellFormed) (h : P g) (hb : ∀ op ∈ b, op.Regular) : P (g.applyBatch b).graph := by
  have hrun : (g.applyBatch b).Sound g.edgeCount ∧ P (g.applyBatch b).graph :=
    List.foldlRecOn (motive := fun d : Draft => d.Sound g.edgeCount ∧ P d.graph) b _ ⟨⟨hg, rfl⟩, h⟩
      fun d hd op hop => ⟨hd.1.applyOp (hb op hop).typed,
        hstep d op hop hd.1.wellFormed (hb op hop) hd.2⟩
  exact hrun.2

/-- What the writes of admitted batches keep, the batches keep. -/
lemma invariant_applyAll {s s' : GraphStore} {bs : List WriteBatch}
    (hstep : ∀ (d : Draft), ∀ b ∈ bs, ∀ op ∈ b, d.graph.WellFormed → op.Regular → P d.graph →
      P (d.applyOp op).graph)
    (hs : s.graph.WellFormed) (h : P s.graph) (happly : s.applyAll bs = .ok s') : P s'.graph := by
  induction bs generalizing s with
  | nil =>
    cases happly
    exact h
  | cons b bs ih =>
    obtain ⟨s₁, summary, hb, hrest⟩ := GraphStore.applyAll_cons_eq_ok.mp happly
    obtain ⟨hgraph, -, hflaw⟩ := GraphStore.apply_eq_ok hb
    refine ih (fun d b hb => hstep d b (by simp [hb])) (GraphStore.wellFormed_apply hs hb).1 ?_ hrest
    rw [hgraph]
    exact invariant_applyBatch (fun d op hop => hstep d b (by simp) op hop) hs h
      (Overlay.regular_of_batchFlaw? hflaw)

/-- What holds of every reachable graph: induction over its history, write by write. -/
theorem invariant (hempty : P {})
    (hstep : ∀ (d : Draft) (op : WriteOp), d.graph.WellFormed → op.Regular → P d.graph →
      P (d.applyOp op).graph)
    (hload : ∀ g : KnowledgeGraph, g.WellFormed → P g → P (.ofSnapshot g.snapshot))
    (h : g.Reachable) : P g := by
  induction h with
  | empty => exact hempty
  | applied hs happly ih =>
    obtain ⟨hgraph, -, hflaw⟩ := GraphStore.apply_eq_ok happly
    rw [hgraph]
    exact invariant_applyBatch (fun d op _ => hstep d op) hs.wellFormed ih
      (Overlay.regular_of_batchFlaw? hflaw)
  | loaded hg ih => exact hload _ hg.wellFormed ih

/-- Admitted batches lead from reachable graphs to reachable graphs. -/
lemma applyAll {s s' : GraphStore} {bs : List WriteBatch} (hs : s.graph.Reachable)
    (h : s.applyAll bs = .ok s') : s'.graph.Reachable := by
  induction bs generalizing s with
  | nil =>
    cases h
    exact hs
  | cons b bs ih =>
    obtain ⟨s₁, summary, hb, hrest⟩ := GraphStore.applyAll_cons_eq_ok.mp h
    exact ih (.applied hs hb) hrest

end Reachable

end KnowledgeGraph

/-! ### Sessions -/

namespace GraphStore

variable {s s' : GraphStore} {tree tree' : FileTree} {dir : String}

/-- A commit does not change the graph; it leaves the file as it is, or puts the document of the graph
there. -/
lemma of_commit {e : Option StoreError} (hlocation : s.location = some (place dir))
    (h : s.commit tree = (s', tree', e)) : s'.graph = s.graph ∧
      (tree'.read? (place dir) = tree.read? (place dir) ∨
        tree'.read? (place dir) = some (Text.bytes (toJson s.graph.snapshot).compact)) := by
  simp only [commit, hlocation] at h
  split at h
  · cases hreplace : tree.replace (place dir) (Text.bytes (toJson s.graph.snapshot).compact) with
    | mk tree₁ error =>
      rw [hreplace] at h
      cases error with
      | none =>
        cases h
        exact ⟨rfl, Or.inr (FileTree.read?_of_replace hreplace)⟩
      | some e =>
        cases h
        exact ⟨rfl, Or.inl (FileTree.read?_of_replace_error hreplace)⟩
  · cases h
    exact ⟨rfl, Or.inl rfl⟩

/-- Throughout a session the store holds a reachable graph, and so does its file. -/
lemma Session.reachable_saved (h : Session dir s tree) :
    s.graph.Reachable ∧ ∃ saved, Holds (tree.read? (place dir)) saved ∧ saved.Reachable := by
  induction h with
  | opened hnew hload =>
    have hholds := holds_of_not_exists hnew
    obtain ⟨rfl, hread⟩ := of_load hholds hload
    exact ⟨.empty, _, hread ▸ hholds, .empty⟩
  | reopened _ hload ih =>
    obtain ⟨-, saved, hholds, hsaved⟩ := ih
    obtain ⟨rfl, hread⟩ := of_load hholds hload
    exact ⟨hsaved, _, hread ▸ hholds, hsaved⟩
  | fixed _ _ ih => exact ih
  | disturbed _ hread ih => exact hread ▸ ih
  | applied _ happly ih => exact ⟨.applied ih.1 happly, ih.2⟩
  | committed hsession hd hcommit ih =>
    obtain ⟨hgraph, saved, hholds, hsaved⟩ := ih
    obtain ⟨_, hbacked⟩ := hsession.backed
    obtain ⟨hsame, hread | hread⟩ := of_commit hbacked.location hcommit
    · exact ⟨hsame ▸ hgraph, saved, hread ▸ hholds, hsaved⟩
    · exact ⟨hsame ▸ hgraph, _, hread ▸ .document hgraph.wellFormed hd, .loaded hgraph⟩

/-- The stores of a session hold reachable graphs. -/
theorem Session.reachable (h : Session dir s tree) : s.graph.Reachable := h.reachable_saved.1

end GraphStore

end RepoAtlas
