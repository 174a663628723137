import RepoAtlas.Proofs.Engine.CurrentCalls
import RepoAtlas.Proofs.Engine.CurrentImports

/-!
# States between runs

`InSync` relates the checkpoints to the graph: the checkpoint of a file is the fingerprint of the document
that is held under its path, imports are current, and calls are current where the checkpoint of the calls
says so. A full run that completes preserves it, and its graph mirrors what the repository showed.
-/

namespace RepoAtlas.Sync

open KnowledgeGraph

variable {𝒟 : Document → Prop} {vec : String → Embedding} {w w' : World} {D : Document}

/-- The checkpoints tell what the graph holds. -/
structure InSync (vec : String → Embedding) (𝒟 : Document → Prop) (w : World) : Prop where
  tidy : Tidy 𝒟 w.store.graph
  held : ∀ q, w.store.graph.files.contains q = true → ∃ D, 𝒟 D ∧ D.path = q ∧ Holds vec w.store.graph D ∧
    w.checkpoints.state.get? (.file q) = some D.fingerprint
  tracked : ∀ q v, w.checkpoints.state.get? (.file q) = some v → w.store.graph.files.contains q = true
  imports : ∀ q, w.store.graph.files.contains q = true → w.store.graph.ImportsCurrent q
  calls : ∀ D, 𝒟 D → Holds vec w.store.graph D →
    w.checkpoints.state.get? (.callGraph D.path) = some D.fingerprint → w.store.graph.CallsCurrent D

lemma inSync_empty (hgraph : w.store.graph = {}) (hcheckpoints : w.checkpoints.state = {}) :
    InSync vec 𝒟 w := by
  have hnone : ∀ q, w.store.graph.files.contains q = false := by
    intro q
    rw [hgraph]
    show (∅ : Std.ExtTreeMap String SourceFile).contains q = false
    simp
  constructor
  case tidy =>
    rw [hgraph]
    exact tidy_empty
  case held =>
    intro q hq
    rw [hnone] at hq
    cases hq
  case tracked =>
    intro q v hv
    rw [hcheckpoints] at hv
    have : (∅ : TextMap)[q]? = some v := hv
    simp at this
  case imports =>
    intro q hq
    rw [hnone] at hq
    cases hq
  case calls =>
    intro D _ _ hv
    rw [hcheckpoints] at hv
    have : (∅ : TextMap)[D.path]? = some D.fingerprint := hv
    simp at this

namespace InSync

/-- The relation is about the graph and the checkpoints only. -/
lemma congr (h : InSync vec 𝒟 w) (hgraph : w'.store.graph = w.store.graph)
    (hcheckpoints : ∀ k, w'.checkpoints.state.get? k = w.checkpoints.state.get? k) : InSync vec 𝒟 w' := by
  obtain ⟨htidy, hheld, htracked, himports, hcalls⟩ := h
  rw [← hgraph] at htidy hheld htracked himports hcalls
  simp only [← hcheckpoints] at hheld htracked hcalls
  exact ⟨htidy, hheld, htracked, himports, hcalls⟩

/-- A document whose fingerprint is checkpointed is held. -/
lemma holds (h : InSync vec 𝒟 w) (ha : Apart 𝒟) (hD : 𝒟 D)
    (hcheck : w.checkpoints.state.get? (.file D.path) = some D.fingerprint) :
    Holds vec w.store.graph D := by
  obtain ⟨D', hD', hpath, hholds, hcheck'⟩ := h.held _ (h.tracked _ _ hcheck)
  rw [hcheck] at hcheck'
  rw [ha.content D D' hD hD' hpath.symm (Option.some.inj hcheck')]
  exact hholds

lemma importsInSync (h : InSync vec 𝒟 w) : ImportsInSync w := ⟨h.tracked, h.imports⟩

lemma callsInSync (h : InSync vec 𝒟 w) (ha : Apart 𝒟) : CallsInSync 𝒟 w := by
  refine ⟨h.tidy, fun D t hD hfile hcheck => ?_⟩
  obtain ⟨D', hD', hpath, hholds, -⟩ := h.held D.path (contains_iff_getElem?.mpr ⟨_, hfile⟩)
  obtain ⟨t', hfile'⟩ := hholds.file
  rw [hpath, hfile, Option.some.injEq] at hfile'
  obtain rfl := ha.eq_of_node hD hD' hfile'
  exact h.calls D hD hholds hcheck

end InSync

/-! ### What a run can find -/

/-- What the checkpoints say of the documents that are shown is backed by the graph. Links may be out of
date. -/
structure Backed (vec : String → Embedding) (𝒟 : Document → Prop) (w : World) : Prop where
  tidy : Tidy 𝒟 w.store.graph
  held : ∀ D, w.Shows D → w.checkpoints.state.get? (.file D.path) = some D.fingerprint →
    Holds vec w.store.graph D
  tracked : ∀ D, w.Shows D → ∀ v, w.checkpoints.state.get? (.file D.path) = some v →
    w.store.graph.files.contains D.path = true

lemma InSync.backed (h : InSync vec 𝒟 w) (ha : Apart 𝒟) (hready : Ready vec 𝒟 w) : Backed vec 𝒟 w where
  tidy := h.tidy
  held D hD hcheck := h.holds ha (hready.shown D hD) hcheck
  tracked D _ v hv := h.tracked D.path v hv

/-- The links of a document that a run leaves alone are current, or the run notices that they may not
be. -/
structure Noticed (w : World) (work : Worklist) (p : Progress) (w₁ : World) (D : Document) : Prop where
  imports : fileSetChanged work p = true ∨ w.store.graph.ImportsCurrent D.path
  calls : Stale work p w₁.store.graph w.checkpoints.state D.scanned ∨ w.store.graph.CallsCurrent D

section

variable {work : Worklist} {p : Progress} {w₁ : World} {g : KnowledgeGraph} (hready : Ready vec 𝒟 w)
  (hb : Backed vec 𝒟 w) (hg : Integrated vec 𝒟 w work p w₁ g)
include hready hb hg

/-- The imports of a file that is left alone are current in the end if they were, or if all imports are
linked again. -/
lemma importsCurrent_iff (hD : w.Shows D)
    (hcheck : w.checkpoints.state.get? (.file D.path) = some D.fingerprint) :
    g.ImportsCurrent D.path ↔ fileSetChanged work p = true ∨ w.store.graph.ImportsCurrent D.path := by
  have hp := hg.prepared
  rw [hg.imports D hD]
  cases hset : fileSetChanged work p with
  | true =>
    have hmem : D.scanned ∈ work.unchanged := (hp.sorts.unchanged _).mpr ⟨hg.finds _ hD.collected, hcheck⟩
    exact iff_of_true (Or.inl (Or.inr ⟨hset, _, hmem, rfl⟩)) (Or.inl rfl)
  | false =>
    have hno : ¬Relinked work p D.path := by
      rintro (hin | ⟨hset', -⟩)
      · rw [hp.not_ingested hD hcheck] at hin
        cases hin
      · rw [hset] at hset'
        cases hset'
    obtain ⟨hremoved, hstored⟩ := (hp.mono fun _ _ h => h.toRecorded).stored_of_fileSet
      (fun f v hf hv => by
        obtain ⟨D', -, hD', rfl⟩ := hready.document hf
        exact hb.tracked D' hD' v hv) hset
    rw [hp.carried.evolves.importsCurrent_iff hb.tidy (hp.not_touched hD hcheck)
      (fun r hr => absurd hr (hremoved r)) hstored]
    simp [hno]

omit hready in
/-- The calls of a file that is left alone are current in the end if they were, or if they are linked
again. -/
lemma callsCurrent_iff (hD : w.Shows D)
    (hcheck : w.checkpoints.state.get? (.file D.path) = some D.fingerprint) :
    g.CallsCurrent D ↔
      Stale work p w₁.store.graph w.checkpoints.state D.scanned ∨ w.store.graph.CallsCurrent D := by
  have hp := hg.prepared.mono fun _ _ h => h.toTraced
  rw [hg.calls D hD]
  exact or_congr_right' fun hfresh => hp.callsCurrent_iff hb.tidy hD (hg.finds _ hD.collected) hcheck
    (holds_of_tables hg.tables.symm (hg.holds D hD)).file hfresh

/-- The graph mirrors what was shown exactly if the run noticed all links that were out of date. -/
theorem mirror_iff : Mirror vec 𝒟 w.Shows g ↔ ∀ D, w.Shows D →
    w.checkpoints.state.get? (.file D.path) = some D.fingerprint → Noticed w work p w₁ D := by
  have hp := hg.prepared
  constructor
  · intro hm D hD hcheck
    exact ⟨(importsCurrent_iff hready hb hg hD hcheck).mp (hm.imports D hD),
      (callsCurrent_iff hb hg hD hcheck).mp (hm.calls D hD)⟩
  · intro hnoticed
    refine ⟨hg.tidy, hg.holds, hg.stored, fun D hD => ?_, fun D hD => ?_⟩
    · rcases found_cases hp.sorts (hg.finds _ hD.collected) with hmem | ⟨-, hcheck⟩
      · exact (hg.imports D hD).mpr (Or.inl (Or.inl (hg.all_ingested _ hmem)))
      · exact (importsCurrent_iff hready hb hg hD hcheck).mpr (hnoticed D hD hcheck).imports
    · rcases found_cases hp.sorts (hg.finds _ hD.collected) with hmem | ⟨-, hcheck⟩
      · exact (hg.calls D hD).mpr (Or.inl (Or.inl (hg.all_ingested _ hmem)))
      · exact (callsCurrent_iff hb hg hD hcheck).mpr (hnoticed D hD hcheck).calls

end

/-! ### Full runs -/

/-- In a state between runs a run notices all links that are out of date. -/
lemma InSync.noticed (h : InSync vec 𝒟 w) (ha : Apart 𝒟) (hready : Ready vec 𝒟 w) {work : Worklist}
    {p : Progress} {w₁ : World} (hD : w.Shows D)
    (hcheck : w.checkpoints.state.get? (.file D.path) = some D.fingerprint) : Noticed w work p w₁ D := by
  have hholds := h.holds ha (hready.shown D hD) hcheck
  refine ⟨Or.inr (h.imports _ (h.tracked _ _ hcheck)), ?_⟩
  by_cases hcalls : w.checkpoints.state.get? (.callGraph D.path) = some D.fingerprint
  · exact Or.inr (h.calls D (hready.shown D hD) hholds hcalls)
  · exact Or.inl (Or.inr (Or.inr (Or.inr hcalls)))

/-- A full run that completes keeps the state in sync, and its graph mirrors what was shown. -/
theorem InSync.full (ha : Apart 𝒟) (hready : Ready vec 𝒟 w) (hsync : InSync vec 𝒟 w)
    (h : Completes full w w') : InSync vec 𝒟 w' ∧ Mirror vec 𝒟 w.Shows w'.store.graph := by
  have hb := hsync.backed ha hready
  obtain ⟨work, p, w₁, -, hc⟩ := full_completed ha hready hb.tidy hb.held h
  have hm : Mirror vec 𝒟 w.Shows w'.store.graph :=
    (mirror_iff hready hb hc.toIntegrated).mpr fun D hD => hsync.noticed ha hready hD
  refine ⟨⟨hc.tidy, fun q hq => ?_, fun q v hv => ?_, fun q hq => ?_, fun D hD hholds hcheck => ?_⟩, hm⟩
  · obtain ⟨D, hD, rfl⟩ := (hc.stored q).mp hq
    exact ⟨D, hready.shown D hD, rfl, hc.holds D hD, hc.file_checkpoint D hD⟩
  · exact (hc.stored q).mpr (hc.tracked q v hv)
  · obtain ⟨D, hD, rfl⟩ := (hc.stored q).mp hq
    exact hm.imports D hD
  · obtain ⟨t, ht⟩ := hholds.file
    exact ((hsync.callsInSync ha).full ha hready.regular hready.shown h).current D t hD ht hcheck

end RepoAtlas.Sync
