import RepoAtlas.Proofs.Engine.InSync

/-!
# Events keep states in sync

A run for one file changes the graph under one path. Imports and calls follow such a change already, so if
the run completes, the state stays in sync if what is held under the path is what its checkpoint says.
-/

namespace RepoAtlas.Sync

open KnowledgeGraph

variable {𝒟 : Document → Prop} {vec : String → Embedding} {w w' : World} {D : Document} {path : String}

/-- A change under one path keeps the state in sync if the checkpoints and the links follow it. -/
lemma InSync.step {removed names orphans : String → Prop} {moved : NodeKey → Prop} {g : KnowledgeGraph}
    (hsync : InSync vec 𝒟 w) (hevolves : Evolves vec 𝒟 (· = path) removed names orphans w.store.graph g)
    (hrelinks : Relinks .imports moved g w'.store.graph)
    (hheld : g.files.contains path = true → ∃ D, 𝒟 D ∧ D.path = path ∧ Holds vec g D ∧
      w'.checkpoints.state.get? (.file path) = some D.fingerprint)
    (hfile : ∀ q, q ≠ path → w'.checkpoints.state.get? (.file q) = w.checkpoints.state.get? (.file q))
    (himports : ImportsInSync w') (hcalls : CallsInSync 𝒟 w') : InSync vec 𝒟 w' := by
  refine ⟨hcalls.tidy, fun q hq => ?_, himports.tracked, himports.current, fun D hD hholds hcheck => ?_⟩
  · rw [hrelinks.files] at hq
    by_cases hp : q = path
    · subst hp
      obtain ⟨D, hD, hpath, hholds, hcheck⟩ := hheld hq
      exact ⟨D, hD, hpath, holds_of_tables hrelinks.tables hholds, hcheck⟩
    · rw [contains_iff_getElem?, hevolves.file q hp, ← contains_iff_getElem?] at hq
      obtain ⟨D, hD, rfl, hholds, hcheck⟩ := hsync.held q hq
      exact ⟨D, hD, rfl, holds_of_tables hrelinks.tables (hevolves.holds D hD hp hholds),
        by rw [hfile _ hp, hcheck]⟩
  · obtain ⟨t, ht⟩ := hholds.file
    exact hcalls.current D t hD ht hcheck

/-- Removing a file keeps the state in sync if it completes. -/
lemma InSync.removeFile (ha : Apart 𝒟) (hsync : InSync vec 𝒟 w) (h : Completes (removeFile path) w w') :
    InSync vec 𝒟 w' := by
  obtain ⟨stale, hrun⟩ := removeFile_run hsync.tidy.keyedBy h
  obtain ⟨moved, hrelinks⟩ := hrun.relinks
  obtain ⟨hevolves, hgone⟩ :=
    hsync.tidy.evolves_removeFile vec path ha (fun _ => True) fun _ _ _ _ => trivial
  refine hsync.step hevolves hrelinks (fun hin => ?_) (fun q hq => ?_)
    (hsync.importsInSync.removeFile hsync.tidy.mirrored hsync.tidy.keyedBy h)
    ((hsync.callsInSync ha).removeFile ha h)
  · obtain ⟨f, hf⟩ := contains_iff_getElem?.mp hin
    rw [hgone] at hf
    cases hf
  · rw [hrun.file_checkpoint, if_neg hq]

/-- Storing a file keeps the state in sync if it completes. -/
lemma InSync.storeFile {isNew : Bool} {report : SyncReport} (ha : Apart 𝒟) (hsync : InSync vec 𝒟 w)
    (hD : 𝒟 D) (hreads : w.Reads D) (hsteady : w.embedder.Steady vec)
    (hnew : w.checkpoints.state.get? (.file D.path) = none → isNew = true)
    (h : Completes (storeFile D.scanned isNew report) w w') : InSync vec 𝒟 w' := by
  obtain ⟨f, w₁, stale, hrun⟩ := storeFile_run hsync.tidy.keyedBy hreads h
  obtain ⟨moved, hrelinks⟩ := hrun.relinks
  refine hsync.step (hrun.stores.evolves ha hsync.tidy hD vec) hrelinks (fun _ => ?_) (fun q hq => ?_)
    (hsync.importsInSync.storeFile hsync.tidy.mirrored hsync.tidy.keyedBy hreads hnew h)
    ((hsync.callsInSync ha).storeFile ha hD hreads h)
  · refine ⟨D, hD, rfl, hrun.stores.holds ha hsync.tidy hD hsteady hrun.complete, ?_⟩
    rw [hrun.file_checkpoint, if_pos rfl]
  · rw [hrun.file_checkpoint, if_neg hq]

/-- An event that completes keeps the state in sync. -/
theorem InSync.event {e : FileEvent} (ha : Apart 𝒟) (hsync : InSync vec 𝒟 w)
    (hsteady : w.embedder.Steady vec) (hknown : ∀ D, w.Reads D → D.path = e.path → 𝒟 D)
    (h : Completes (event e) w w') : InSync vec 𝒟 w' := by
  have hquiet : ∀ w₁, Quiet w w₁ → InSync vec 𝒟 w₁ :=
    fun w₁ hq => hsync.congr (by rw [hq.store]) fun k => by rw [hq.checkpoints]
  rcases event_cases h with hq | ⟨w₁, hq, h | ⟨D, isNew, report, hD, hpath, hnew, h⟩⟩
  · exact hquiet w' hq
  · exact (hquiet w₁ hq).removeFile ha h
  · refine (hquiet w₁ hq).storeFile ha (hknown D hD hpath) (hq.toCalm.reads hD) (hq.steady vec hsteady) ?_ h
    rw [hq.checkpoints, hpath]
    exact hnew

end RepoAtlas.Sync
