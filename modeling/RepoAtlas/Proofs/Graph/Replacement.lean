import Mathlib.Data.Finset.Card
import RepoAtlas.Proofs.Graph.Reachability

/-!
# Replacing edges

The imports of a file and the calls of its units are replaced as a whole: the edges that are not wanted are taken
out, and those that are missing are put. `Draft.Rewires scope wanted` says what such a write does, for the edges in
its scope and for all others. The numbers of edges that it reports are those of the edges that are new and of the
edges that are gone, whatever order they were written in, since none is put and taken out again.
-/

namespace RepoAtlas

namespace KnowledgeGraph

/-- The edges of a graph. -/
def edgeSet (g : KnowledgeGraph) : Finset GraphEdge := g.edges.toFinset

@[simp] lemma mem_edgeSet {g : KnowledgeGraph} {e : GraphEdge} : e ∈ g.edgeSet ↔ g.hasEdge e = true := by
  rw [edgeSet, List.mem_toFinset, mem_edges]

end KnowledgeGraph

namespace Draft

variable {d d' d'' : Draft} {e : GraphEdge} {kind : EdgeKind} {source : NodeKey}
  {desired : Std.ExtTreeSet NodeKey}

/-! ### Reports -/

/-- A write reports the edges that are new and those that are gone, and nothing else. -/
def Tallied (d d' : Draft) : Prop :=
  d'.summary = { d.summary with
    edgesWritten := d.summary.edgesWritten + (d'.graph.edgeSet \ d.graph.edgeSet).card
    edgesRemoved := d.summary.edgesRemoved + (d.graph.edgeSet \ d'.graph.edgeSet).card }

lemma Tallied.refl (d : Draft) : Tallied d d := by
  simp [Tallied]

/-- The new elements on the way to a set in between and those on the way from it add up. -/
lemma card_sdiff_of_between {a b c : Finset GraphEdge} (hlow : a ∩ c ⊆ b) (hhigh : b ⊆ a ∪ c) :
    (c \ a).card = (b \ a).card + (c \ b).card := by
  have hsplit : c \ a = b \ a ∪ c \ b := by
    ext e
    have hlow := @hlow e
    have hhigh := @hhigh e
    simp only [Finset.mem_inter, Finset.mem_union, Finset.mem_sdiff] at *
    tauto
  rw [hsplit, Finset.card_union_of_disjoint (disjoint_sdiff_self_right.mono_left sdiff_le)]

/-- Reports add up if the edges in between hold those that are there before and after, and no others than these. -/
lemma Tallied.trans (h : Tallied d d') (h' : Tallied d' d'')
    (hlow : ∀ e, d.graph.hasEdge e = true → d''.graph.hasEdge e = true → d'.graph.hasEdge e = true)
    (hhigh : ∀ e, d'.graph.hasEdge e = true → d.graph.hasEdge e = true ∨ d''.graph.hasEdge e = true) :
    Tallied d d'' := by
  have hlow' : d.graph.edgeSet ∩ d''.graph.edgeSet ⊆ d'.graph.edgeSet := by
    intro e he
    simp only [Finset.mem_inter, KnowledgeGraph.mem_edgeSet] at he ⊢
    exact hlow e he.1 he.2
  have hhigh' : d'.graph.edgeSet ⊆ d.graph.edgeSet ∪ d''.graph.edgeSet := by
    intro e he
    simp only [Finset.mem_union, KnowledgeGraph.mem_edgeSet] at he ⊢
    exact hhigh e he
  have hnew := card_sdiff_of_between hlow' hhigh'
  rw [Finset.inter_comm] at hlow'
  rw [Finset.union_comm] at hhigh'
  have hgone := (card_sdiff_of_between hlow' hhigh').trans (Nat.add_comm _ _)
  rw [Tallied, h', h, hnew, hgone, Nat.add_assoc, Nat.add_assoc]

lemma tallied_insertEdge (d : Draft) (e : GraphEdge) : Tallied d (d.insertEdge e) := by
  cases he : d.graph.hasEdge e with
  | true =>
    have hsame : d.insertEdge e = d := by simp only [insertEdge, he, if_true]
    rw [hsame]
    exact .refl d
  | false =>
    have hnew : (d.insertEdge e).graph.edgeSet \ d.graph.edgeSet = {e} := by
      ext e'
      simp only [Finset.mem_sdiff, KnowledgeGraph.mem_edgeSet, hasEdge_insertEdge, Finset.mem_singleton]
      grind
    have hgone : d.graph.edgeSet \ (d.insertEdge e).graph.edgeSet = ∅ := by
      ext e'
      simp only [Finset.mem_sdiff, KnowledgeGraph.mem_edgeSet, hasEdge_insertEdge, Finset.notMem_empty]
      tauto
    rw [Tallied, hnew, hgone]
    simp [insertEdge, he]

lemma tallied_removeEdge (d : Draft) (e : GraphEdge) : Tallied d (d.removeEdge e) := by
  cases he : d.graph.hasEdge e with
  | false =>
    have hsame : d.removeEdge e = d := by simp only [removeEdge, he, if_false, Bool.false_eq_true]
    rw [hsame]
    exact .refl d
  | true =>
    have hnew : (d.removeEdge e).graph.edgeSet \ d.graph.edgeSet = ∅ := by
      ext e'
      simp only [Finset.mem_sdiff, KnowledgeGraph.mem_edgeSet, hasEdge_removeEdge, Finset.notMem_empty]
      tauto
    have hgone : d.graph.edgeSet \ (d.removeEdge e).graph.edgeSet = {e} := by
      ext e'
      simp only [Finset.mem_sdiff, KnowledgeGraph.mem_edgeSet, hasEdge_removeEdge, Finset.mem_singleton]
      grind
    rw [Tallied, hnew, hgone]
    simp [removeEdge, he]

section

variable {β : Type} (f : β → GraphEdge) (l : List β)

lemma tallied_foldl_insertEdge (d : Draft) : Tallied d (l.foldl (fun d b => d.insertEdge (f b)) d) := by
  induction l generalizing d with
  | nil => exact .refl d
  | cons b l ih =>
    rw [List.foldl_cons]
    refine (tallied_insertEdge d (f b)).trans (ih _) (fun e he _ => ?_) fun e he => Or.inr ?_
    · exact hasEdge_insertEdge.mpr (Or.inr he)
    · exact hasEdge_foldl_insertEdge.mpr (Or.inr he)

lemma tallied_foldl_removeEdge (d : Draft) : Tallied d (l.foldl (fun d b => d.removeEdge (f b)) d) := by
  induction l generalizing d with
  | nil => exact .refl d
  | cons b l ih =>
    rw [List.foldl_cons]
    refine (tallied_removeEdge d (f b)).trans (ih _) (fun e _ he => ?_) fun e he => Or.inl ?_
    · exact (hasEdge_foldl_removeEdge.mp he).2
    · exact (hasEdge_removeEdge.mp he).2

end

lemma tallied_replaceEdges (d : Draft) (kind : EdgeKind) (source : NodeKey) (desired : Std.ExtTreeSet NodeKey) :
    Tallied d (d.replaceEdges kind source desired) := by
  simp only [replaceEdges]
  set stale := (d.graph.neighbors source kind .outgoing).filter (!desired.contains ·)
  set fresh := desired.toList.filter (!(d.graph.neighbors source kind .outgoing).contains ·)
  refine (tallied_foldl_removeEdge (fun t => ⟨kind, source, t⟩) stale d).trans
    (tallied_foldl_insertEdge (fun t => ⟨kind, source, t⟩) fresh _) ?_ ?_
  · -- a fresh edge was not there before
    intro e he hback
    rcases (hasEdge_foldl_insertEdge (f := fun t => ⟨kind, source, t⟩)).mp hback with ⟨t, ht, rfl⟩ | hkept
    · have hcurrent : t ∈ d.graph.neighbors source kind .outgoing :=
        KnowledgeGraph.mem_neighbors_outgoing.mpr he
      have hmissing := (List.mem_filter.mp ht).2
      simp [hcurrent] at hmissing
    · exact hkept
  · exact fun e he => Or.inr (hasEdge_foldl_insertEdge.mpr (Or.inr he))

/-! ### Replacements -/

/-- The edges in a scope become the wanted ones; all others, and all nodes, stay; the report is exact. -/
structure Rewires (scope wanted : GraphEdge → Prop) (d d' : Draft) : Prop where
  mirrored : d'.graph.Mirrored
  tables : d'.graph.tables = d.graph.tables
  edge : ∀ e, d'.graph.hasEdge e = true ↔ scope e ∧ wanted e ∨ ¬scope e ∧ d.graph.hasEdge e = true
  tallied : Tallied d d'

/-- The imports of a file. -/
def ImportsOf (path : String) (e : GraphEdge) : Prop := e.kind = .imports ∧ e.source = .file path

/-- The calls of the units that are listed for a file. -/
def CallsOf (g : KnowledgeGraph) (path : String) (e : GraphEdge) : Prop :=
  e.kind = .calls ∧ ∃ i, hasEntry g.unitsByFile path i = true ∧ e.source = .unit i

lemma rewires_replaceImports (hm : d.graph.Mirrored) (path : String) (targets : List String) :
    Rewires (ImportsOf path) (fun e => ∃ q ∈ targets, q ≠ path ∧ e.target = .file q) d
      (d.replaceImports path targets) where
  mirrored := mirrored_replaceImports hm
  tables := tables_replaceImports
  edge _ := hasEdge_replaceImports
  tallied := tallied_replaceEdges _ _ _ _

section

variable {calls : List (String × String)} {path : String}

/-- The units leave each other's calls alone, so the reports for them add up. -/
lemma tallied_foldl_replaceCallsOf {l : List String} (hl : l.Nodup) :
    Tallied d (l.foldl (replaceCallsOf calls) d) := by
  induction l generalizing d with
  | nil => exact .refl d
  | cons u l ih =>
    obtain ⟨hu, hl⟩ := List.nodup_cons.mp hl
    set d' := replaceCallsOf calls d u with hd'
    have hfirst : Tallied d d' := tallied_replaceEdges _ _ _ _
    have hothers : ∀ e, e.source ≠ .unit u → (d'.graph.hasEdge e = true ↔ d.graph.hasEdge e = true) := by
      intro e hne
      rw [hd', hasEdge_replaceCallsOf]
      simp [hne]
    have hown : ∀ e, e.source = .unit u →
        ((l.foldl (replaceCallsOf calls) d').graph.hasEdge e = true ↔ d'.graph.hasEdge e = true) := by
      intro e hsource
      have hscope : ¬∃ a ∈ l, e.source = .unit a := by
        rintro ⟨a, ha, hsame⟩
        rw [hsource] at hsame
        cases hsame
        exact hu ha
      rw [hasEdge_foldl_replaceCallsOf]
      simp only [hscope, and_false, false_and, false_or, not_false_eq_true, true_and]
    rw [List.foldl_cons]
    refine hfirst.trans (ih hl) (fun e he hlast => ?_) fun e he => ?_
    · by_cases hsource : e.source = .unit u
      · exact (hown e hsource).mp hlast
      · exact (hothers e hsource).mpr he
    · by_cases hsource : e.source = .unit u
      · exact Or.inr ((hown e hsource).mpr he)
      · exact Or.inl ((hothers e hsource).mp he)

lemma rewires_replaceCalls (hm : d.graph.Mirrored) (path : String) (calls : List (String × String)) :
    Rewires (CallsOf d.graph path)
      (fun e => ∃ i j, (i, j) ∈ calls ∧ i ≠ j ∧ e.source = .unit i ∧ e.target = .unit j) d
      (d.replaceCalls path calls) where
  mirrored := mirrored_replaceCalls hm
  tables := tables_replaceCalls
  edge _ := hasEdge_replaceCalls
  tallied := tallied_foldl_replaceCallsOf (entries_nodup path)

/-! ### Repetitions -/

/-- Nothing is written if the edges are the desired ones already. -/
lemma replaceEdges_eq_self
    (hsame : ∀ t, d.graph.hasEdge ⟨kind, source, t⟩ = true ↔ desired.contains t = true) :
    d.replaceEdges kind source desired = d := by
  have hstale : (d.graph.neighbors source kind .outgoing).filter (!desired.contains ·) = [] := by
    rw [List.filter_eq_nil_iff]
    intro t ht
    simp [(hsame t).mp (KnowledgeGraph.mem_neighbors_outgoing.mp ht)]
  have hfresh : desired.toList.filter (!(d.graph.neighbors source kind .outgoing).contains ·) = [] := by
    rw [List.filter_eq_nil_iff]
    intro t ht
    have hedge := (hsame t).mpr (Std.ExtTreeSet.contains_iff_mem.mpr (Std.ExtTreeSet.mem_toList.mp ht))
    simp [KnowledgeGraph.mem_neighbors_outgoing.mpr hedge]
  simp only [replaceEdges, hstale, hfresh, List.foldl_nil]

lemma replaceImports_again {targets : List String} (h : d'.graph = (d.replaceImports path targets).graph) :
    d'.replaceImports path targets = d' :=
  replaceEdges_eq_self fun t => by rw [h, replaceImports, hasEdge_replaceEdges]; simp

/-- Nothing is written for units whose calls are the given ones already. -/
lemma foldl_replaceCallsOf_eq_self {l : List String}
    (hsame : ∀ i ∈ l, ∀ k, d.graph.hasEdge ⟨.calls, .unit i, k⟩ = true ↔
      ∃ j, (i, j) ∈ calls ∧ i ≠ j ∧ k = .unit j) : l.foldl (replaceCallsOf calls) d = d := by
  induction l with
  | nil => rfl
  | cons u l ih =>
    have hfirst : replaceCallsOf calls d u = d := by
      refine replaceEdges_eq_self fun k => (hsame u (by simp) k).trans ?_
      simp only [contains_keySet, List.mem_map, List.mem_filter, Bool.and_eq_true, beq_iff_eq, bne_iff_ne]
      constructor
      · rintro ⟨j, hj, hne, rfl⟩
        exact ⟨(u, j), ⟨hj, rfl, hne⟩, rfl⟩
      · rintro ⟨⟨i, j⟩, ⟨hj, rfl, hne⟩, rfl⟩
        exact ⟨j, hj, hne, rfl⟩
    rw [List.foldl_cons, hfirst]
    exact ih fun i hi => hsame i (List.mem_cons_of_mem u hi)

lemma replaceCalls_again (h : d'.graph = (d.replaceCalls path calls).graph) :
    d'.replaceCalls path calls = d' := by
  have htables : (d.replaceCalls path calls).graph.tables = d.graph.tables := tables_replaceCalls
  have hlisted : d'.graph.unitsByFile = d.graph.unitsByFile := h ▸ congrArg NodeTables.unitsByFile htables
  rw [replaceCalls_eq, hlisted]
  refine foldl_replaceCallsOf_eq_self fun i hi k => ?_
  rw [h, hasEdge_replaceCalls]
  simp [mem_entries.mp hi]

end

end Draft

open Draft

/-- After the imports of a file are replaced, they lead exactly to the targets other than the file itself. After
the calls of a file are replaced, those of its listed units are exactly the given pairs of different units. Nothing
else changes, and the report gives the numbers of new and of lost edges. The same write on the graph that is left
changes nothing and reports nothing. -/
theorem KnowledgeGraph.Reachable.replacement_exact {d : Draft} (hg : d.graph.Reachable) (path : String)
    (targets : List String) (calls : List (String × String)) :
    Rewires (ImportsOf path) (fun e => ∃ q ∈ targets, q ≠ path ∧ e.target = .file q) d
      (d.applyOp (.replaceImports path targets)) ∧
    Rewires (CallsOf d.graph path)
      (fun e => ∃ i j, (i, j) ∈ calls ∧ i ≠ j ∧ e.source = .unit i ∧ e.target = .unit j) d
      (d.applyOp (.replaceCalls path calls)) ∧
    ∀ d' : Draft,
      (d'.graph = (d.applyOp (.replaceImports path targets)).graph →
        d'.applyOp (.replaceImports path targets) = d') ∧
      (d'.graph = (d.applyOp (.replaceCalls path calls)).graph → d'.applyOp (.replaceCalls path calls) = d') := by
  have hm := hg.wellFormed.adjacent.mirrored
  exact ⟨rewires_replaceImports hm path targets, rewires_replaceCalls hm path calls,
    fun d' => ⟨replaceImports_again, replaceCalls_again⟩⟩

namespace GraphStore

/-- Each file has its unit, and there is one call. -/
lemma exists_applyAll_callingBatch : ∃ s, ({} : GraphStore).applyAll [callingBatch] = .ok s ∧
    (∀ i, hasEntry s.graph.unitsByFile "a.py" i = true ↔ i = "a.py:f") ∧
    (∀ i, hasEntry s.graph.unitsByFile "b.py" i = true ↔ i = "b.py:g") ∧
    ∀ i k, s.graph.hasEdge ⟨.calls, .unit i, k⟩ = true ↔ i = "b.py:g" ∧ k = .unit "a.py:f" := by
  obtain ⟨s, hrun, hstored⟩ : ∃ s, ({} : GraphStore).applyAll [callingBatch] = .ok s ∧
      (entries s.graph.unitsByFile "a.py", entries s.graph.unitsByFile "b.py",
        s.graph.edges.filter (·.kind == .calls)) =
      (["a.py:f"], ["b.py:g"], [⟨.calls, .unit "b.py:g", .unit "a.py:f"⟩]) :=
    exists_applyAll_of_map (by decide)
  simp only [Prod.mk.injEq] at hstored
  obtain ⟨hcallee, hcaller, hedges⟩ := hstored
  refine ⟨s, hrun, fun i => ?_, fun i => ?_, fun i k => ?_⟩
  · rw [← mem_entries, hcallee, List.mem_singleton]
  · rw [← mem_entries, hcaller, List.mem_singleton]
  · have hmem : (⟨.calls, .unit i, k⟩ : GraphEdge) ∈ s.graph.edges.filter (·.kind == .calls) ↔
        s.graph.hasEdge ⟨.calls, .unit i, k⟩ = true := by
      simp [KnowledgeGraph.mem_edges]
    rw [← hmem, hedges]
    simp

/-- Calls that are given for the callee: one of itself, and one of the caller, twice. -/
def calleeCalls : List (String × String) :=
  [("a.py:f", "a.py:f"), ("a.py:f", "b.py:g"), ("a.py:f", "b.py:g")]

/-- Calls that are given for the caller: one of itself, and one that is not its own. -/
def callerCalls : List (String × String) := [("b.py:g", "b.py:g"), ("a.py:f", "b.py:g")]

/-- A file that is said to import itself, and another one twice, imports the other one. The callee gets one call,
and the caller keeps its own. The caller loses its call, and the callee has none. -/
theorem replacement_exact_callingBatch : ∃ s, ({} : GraphStore).applyAll [callingBatch] = .ok s ∧
    ∃ imported called cleared : Draft,
      imported = ({ graph := s.graph } : Draft).applyOp (.replaceImports "a.py" ["a.py", "b.py", "b.py"]) ∧
      called = ({ graph := s.graph } : Draft).applyOp (.replaceCalls "a.py" calleeCalls) ∧
      cleared = ({ graph := s.graph } : Draft).applyOp (.replaceCalls "b.py" callerCalls) ∧
      (∀ k, imported.graph.hasEdge ⟨.imports, .file "a.py", k⟩ = true ↔ k = .file "b.py") ∧
      (∀ i k, called.graph.hasEdge ⟨.calls, .unit i, k⟩ = true ↔
        i = "a.py:f" ∧ k = .unit "b.py:g" ∨ i = "b.py:g" ∧ k = .unit "a.py:f") ∧
      (∀ i k, cleared.graph.hasEdge ⟨.calls, .unit i, k⟩ = false) ∧
      called.summary.edgesWritten = 1 ∧ cleared.summary.edgesRemoved = 1 ∧
      called.applyOp (.replaceCalls "a.py" calleeCalls) = called := by
  obtain ⟨s, hrun, hlisted, hlisting, hcalls⟩ := exists_applyAll_callingBatch
  have hreachable : s.graph.Reachable := .applyAll .empty hrun
  obtain ⟨himports, hcalled, hagain⟩ := hreachable.replacement_exact (d := { graph := s.graph }) "a.py"
    ["a.py", "b.py", "b.py"] calleeCalls
  obtain ⟨-, hcleared, -⟩ := hreachable.replacement_exact (d := { graph := s.graph }) "b.py" [] callerCalls
  have hput : (({ graph := s.graph } : Draft).applyOp (.replaceCalls "a.py" calleeCalls)).graph.edgeSet \
      s.graph.edgeSet = {⟨.calls, .unit "a.py:f", .unit "b.py:g"⟩} := by
    ext ⟨kind, source, target⟩
    simp only [Finset.mem_sdiff, KnowledgeGraph.mem_edgeSet, hcalled.edge, Finset.mem_singleton, CallsOf, hlisted]
    grind [calleeCalls]
  have htaken : s.graph.edgeSet \
      (({ graph := s.graph } : Draft).applyOp (.replaceCalls "b.py" callerCalls)).graph.edgeSet =
        {⟨.calls, .unit "b.py:g", .unit "a.py:f"⟩} := by
    ext ⟨kind, source, target⟩
    simp only [Finset.mem_sdiff, KnowledgeGraph.mem_edgeSet, hcleared.edge, Finset.mem_singleton, CallsOf, hlisting]
    grind [callerCalls]
  refine ⟨s, hrun, _, _, _, rfl, rfl, rfl, fun k => (himports.edge _).trans ?_, fun i k => (hcalled.edge _).trans ?_,
    fun i k => ?_, ?_, ?_, (hagain _).2 rfl⟩
  · simp [ImportsOf]
  · simp only [CallsOf, hlisted, hcalls, calleeCalls]
    grind
  · rw [← Bool.not_eq_true, hcleared.edge]
    simp only [CallsOf, hlisting, hcalls, callerCalls]
    grind
  · rw [hcalled.tallied, hput]
    rfl
  · rw [hcleared.tallied, htaken]
    rfl

end GraphStore

end RepoAtlas
