import RepoAtlas.Proofs.Graph.Orphans
import RepoAtlas.Proofs.Graph.Reachability

/-!
# Clearing files

A file is cleared unit by unit, and each unit is looked up when its turn comes, in a graph that the units before
it have left. What goes in the end can still be read off the graph before: the units that are listed for the
file, the chunks that describe them, and the edges of both. A chunk is meant by its key, stored or not: an edge
that dangles goes like any other. The files whose units lose a call can be read off as well, as long as the units
that are listed for the file are its own: then no caller from elsewhere goes before its callee.
-/

namespace RepoAtlas

open KnowledgeGraph

namespace Draft

variable {d : Draft} {g : KnowledgeGraph} {path q : String}

/-- The units that go with a file are the stored ones among those that are listed for it. -/
lemma goneWithContents_unit {i : String} : GoneWithContents g path (.unit i) ↔
    hasEntry g.unitsByFile path i = true ∧ ∃ u, g.units[i]? = some u := by
  simp [GoneWithContents, GoneWithUnits, GoneWithUnit]

/-- The chunks that go with a file are those with an edge to a unit that goes. -/
lemma goneWithContents_chunk {c : String} : GoneWithContents g path (.chunk c) ↔
    ∃ i, GoneWithContents g path (.unit i) ∧ g.hasEdge ⟨.describes, .chunk c, .unit i⟩ = true := by
  simp only [goneWithContents_unit]
  simp [GoneWithContents, GoneWithUnits, GoneWithUnit, and_assoc]

/-- A unit of another file calls a unit that goes with a file. -/
def LosesCalls (g : KnowledgeGraph) (path q : String) : Prop :=
  q ≠ path ∧ ∃ i v j, g.units[i]? = some v ∧ v.path = q ∧ GoneWithContents g path (.unit j) ∧
    g.hasEdge ⟨.calls, .unit i, .unit j⟩ = true

lemma orphaned_clearFile (hm : d.graph.Mirrored)
    (hown : ∀ i u, hasEntry d.graph.unitsByFile path i = true → d.graph.units[i]? = some u → u.path = path) :
    (d.clearFile path).Orphaned q ↔ d.Orphaned q ∨ LosesCalls d.graph path q := by
  rw [clearFile, orphaned_foldl_removeUnit hm fun j hj u hu => hown j u (mem_entries.mp hj) hu]
  refine or_congr_right (and_congr_right fun _ => ?_)
  simp only [goneWithContents_unit, mem_entries]
  constructor
  · rintro ⟨i, v, j, u, hv, hq, hj, hu, hcall⟩
    exact ⟨i, v, j, hv, hq, ⟨hj, u, hu⟩, hcall⟩
  · rintro ⟨i, v, j, hv, hq, ⟨hj, u, hu⟩, hcall⟩
    exact ⟨i, v, j, u, hv, hq, hj, hu, hcall⟩

end Draft

open Draft

/-- Clearing a file takes its listed units, the chunks that describe one of them, and the edges of both; removing
it takes the file with its edges as well. Nothing else changes. Either way the summary gets exactly the other
files with a unit that loses a call, provided that the units which are listed for the file are its own. -/
theorem KnowledgeGraph.Reachable.clearing_exact {d : Draft} (hg : d.graph.Reachable) {path : String}
    (hown : ∀ i u, hasEntry d.graph.unitsByFile path i = true → d.graph.units[i]? = some u → u.path = path) :
    Removes (GoneWithContents d.graph path) d.graph (d.applyOp (.clearFile path)).graph ∧
    Removes (fun k => GoneWithContents d.graph path k ∨ k = .file path) d.graph
      (d.applyOp (.removeFile path)).graph ∧
    ∀ q, ((d.applyOp (.clearFile path)).Orphaned q ↔ d.Orphaned q ∨ LosesCalls d.graph path q) ∧
      ((d.applyOp (.removeFile path)).Orphaned q ↔ d.Orphaned q ∨ LosesCalls d.graph path q) := by
  have hm := hg.wellFormed.adjacent.mirrored
  have horphans : ∀ q, (d.clearFile path).Orphaned q ↔ d.Orphaned q ∨ LosesCalls d.graph path q :=
    fun q => orphaned_clearFile hm hown
  refine ⟨removes_clearFile hm path, removes_removeFile hm path, fun q => ⟨horphans q, ?_⟩⟩
  exact orphaned_removeFile.trans (horphans q)

namespace GraphStore

/-- The file of the callee is cleared: its chunk goes, and the file of the caller is reported. -/
theorem clearing_exact_callingBatch : ∃ s, ({} : GraphStore).applyAll [callingBatch] = .ok s ∧
    Removes (GoneWithContents s.graph "a.py") s.graph
      (({ graph := s.graph } : Draft).applyOp (.clearFile "a.py")).graph ∧
    GoneWithContents s.graph "a.py" (.chunk "c") ∧
    (({ graph := s.graph } : Draft).applyOp (.clearFile "a.py")).Orphaned "b.py" := by
  obtain ⟨s, hrun, hstored⟩ : ∃ s, ({} : GraphStore).applyAll [callingBatch] = .ok s ∧
      (entries s.graph.unitsByFile "a.py", (s.graph.units["a.py:f"]?).map CodeUnit.path,
        (s.graph.units["b.py:g"]?).map CodeUnit.path,
        s.graph.hasEdge ⟨.calls, .unit "b.py:g", .unit "a.py:f"⟩,
        s.graph.hasEdge ⟨.describes, .chunk "c", .unit "a.py:f"⟩) =
      (["a.py:f"], some "a.py", some "b.py", true, true) :=
    exists_applyAll_of_map (by decide)
  simp only [Prod.mk.injEq, Option.map_eq_some_iff] at hstored
  obtain ⟨hlisted, ⟨u, hu, hpath⟩, ⟨v, hv, hcaller⟩, hcall, hdescribes⟩ := hstored
  have hown : ∀ i w, hasEntry s.graph.unitsByFile "a.py" i = true → s.graph.units[i]? = some w →
      w.path = "a.py" := by
    intro i w hi hw
    rw [← mem_entries, hlisted, List.mem_singleton] at hi
    rw [hi, hu] at hw
    cases hw
    exact hpath
  have hgone : GoneWithContents s.graph "a.py" (.unit "a.py:f") :=
    goneWithContents_unit.mpr ⟨mem_entries.mp (by simp [hlisted]), u, hu⟩
  have hloses : LosesCalls s.graph "a.py" "b.py" := ⟨by decide, _, v, _, hv, hcaller, hgone, hcall⟩
  have hreachable : s.graph.Reachable := .applyAll .empty hrun
  obtain ⟨hcleared, -, horphans⟩ := hreachable.clearing_exact (d := { graph := s.graph }) hown
  exact ⟨s, hrun, hcleared, goneWithContents_chunk.mpr ⟨_, hgone, hdescribes⟩,
    (horphans "b.py").1.mpr (Or.inr hloses)⟩

end GraphStore

end RepoAtlas
