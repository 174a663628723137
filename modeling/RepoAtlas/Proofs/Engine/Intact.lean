import RepoAtlas.Proofs.Engine.Running
import RepoAtlas.Proofs.Engine.Skipping

/-!
# Histories keep graphs well formed

Runs change the graph by admitted batches only. So a graph that is well formed stays so along every run,
whether it completes, is cancelled or fails, and at every step of it. `Synced` are the histories in which
every run completes.
-/

namespace RepoAtlas

open KnowledgeGraph

variable {w w' : World}

/-- A graph that was well formed still is. -/
def Intact (w w' : World) : Prop := w.store.graph.WellFormed → w'.store.graph.WellFormed

lemma Intact.refl (w : World) : Intact w w := id

lemma Intact.trans (u v w : World) (h : Intact u v) (h' : Intact v w) : Intact u w := h' ∘ h

lemma Saved.intact (h : Saved w w') : Intact w w' := by
  intro hw
  rw [h.graph]
  exact hw

lemma Act.Keeps.intact {α : Type} {m : Act α} (h : m.Keeps Quiet) : m.Keeps Intact :=
  h.mono fun _ _ hq => hq.saved.intact

namespace Act

lemma intact_applyBatch (b : WriteBatch) : Keeps Intact (applyBatch b) := by
  intro w
  rcases hrun : applyBatch b w with ⟨e | summary, w'⟩
  · exact (applyBatch_error hrun).saved.intact
  · exact fun hw => (GraphStore.wellFormed_apply hw (applyBatch_ok hrun).2).1

lemma writes_intact {S : Touch → Prop} : Writes S Intact :=
  .of_applyBatch ⟨Intact.refl, Intact.trans, fun _ _ => (quiet_query _ _).intact, quiet_now.intact⟩ (fun _ _ _ => id)
    (fun _ => id) intact_applyBatch

lemma saves_intact : Saves Intact := .of_saved fun _ _ => Saved.intact

end Act

lemma Ingest.intact_file (f : ScannedFile) : Act.Keeps Intact (Ingest.file f) := fun _ =>
  (Act.writes_intact (S := fun _ => True)).ingest fun _ _ _ _ =>
    ⟨(Act.quiet_embedAll _).intact, fun _ _ => Act.intact_applyBatch _⟩

namespace Sync

lemma intact_prepare : Act.Keeps Intact prepare := fun _ =>
  Act.writes_intact.prepare (S := fun _ => True) fun _ _ _ =>
    ⟨fun _ _ => trivial, fun f _ u _ => Ingest.intact_file f u⟩

lemma intact_full : Act.Keeps Intact full := fun w =>
  Act.writes_intact.full Act.saves_intact (intact_prepare w) (S := fun _ => True) fun _ => ⟨trivial, trivial⟩

lemma intact_event (e : FileEvent) : Act.Keeps Intact (event e) := fun _ =>
  Act.writes_intact.event Act.saves_intact (S := fun _ => True) (fun _ => trivial) fun _ _ v _ _ =>
    Ingest.intact_file _ v

/-- Every graph that a history of runs leads to is well formed, whatever becomes of the runs. -/
theorem Visited.wellFormed (h : Visited w) : w.store.graph.WellFormed := by
  induction h with
  | start hgraph _ =>
    rw [hgraph]
    exact wellFormed_empty
  | edit _ hgraph _ ih =>
    rw [hgraph]
    exact ih
  | @full w _ ih => exact intact_full w ih
  | @event w e _ ih => exact intact_event e w ih

/-! ### Histories of runs that complete -/

variable {𝒟 : Document → Prop}

/-- The states that histories lead to in which every run completes. A history starts with an empty graph
and without checkpoints; between runs everything else may change. The documents that runs come across are
among the known ones. -/
inductive Synced (𝒟 : Document → Prop) : World → Prop
  | start {w : World} : w.store.graph = {} → w.checkpoints.state = {} → Synced 𝒟 w
  | edit {w w' : World} : Synced 𝒟 w → w'.store.graph = w.store.graph →
      w'.checkpoints.state = w.checkpoints.state → Synced 𝒟 w'
  | full {w w' : World} : Synced 𝒟 w → w.tree.Regular → (∀ D, w.Shows D → 𝒟 D) → Completes full w w' →
      Synced 𝒟 w'
  | event {w w' : World} (e : FileEvent) : Synced 𝒟 w → (∀ D, w.Reads D → D.path = e.path → 𝒟 D) →
      Completes (event e) w w' → Synced 𝒟 w'

lemma Synced.withStateOf {earlier : World} (h : Synced 𝒟 earlier) (w : World) :
    Synced 𝒟 (w.withStateOf earlier) := h.edit rfl rfl

lemma Synced.visited (h : Synced 𝒟 w) : Visited w := by
  induction h with
  | start hgraph hcheckpoints => exact .start hgraph hcheckpoints
  | edit _ hgraph hcheckpoints ih => exact ih.edit hgraph hcheckpoints
  | full _ _ _ hrun ih =>
    obtain ⟨r, hrun, -⟩ := hrun
    have hvisited := ih.full
    rw [hrun] at hvisited
    exact hvisited
  | event e _ _ hrun ih =>
    obtain ⟨r, hrun, -⟩ := hrun
    have hvisited := ih.event e
    rw [hrun] at hvisited
    exact hvisited

end Sync

end RepoAtlas
