import RepoAtlas.Proofs.Engine.Recording

/-!
# What the first part of a full run does to the graph

The progress of a run tells which paths were touched and removed, which names are affected and which
callers lost calls, and the graph evolved from the one at the start accordingly: this is `Traced`. If
embeddings are steady, the documents that were stored completely are held: this is `Midway`. Each step
preserves both, whether the step succeeds or fails, so they hold wherever the run stops.
-/

namespace RepoAtlas.Sync

open KnowledgeGraph

variable {𝒟 : Document → Prop} {vec : String → Embedding} {w₀ w w' : World} {p : Progress}

/-- The graph evolved as the progress of a run says. -/
structure Traced (vec : String → Embedding) (𝒟 : Document → Prop) (w₀ : World) (p : Progress) (w : World) :
    Prop extends Recorded w₀ p w where
  evolves : Evolves vec 𝒟 p.Touched p.Removed (p.affected.contains · = true)
    (p.orphaned.contains · = true) w₀.store.graph w.store.graph

namespace Traced

/-- A file was removed before any was stored. -/
lemma addRemoved (h : Traced vec 𝒟 w₀ p w) (ha : Apart 𝒟) {path : String} {units : List CodeUnit}
    {s : WriteSummary} (hcalm : Calm w w') (hunits : units = w.store.graph.unitsInFile path)
    (hgraph : w'.store.graph = (w.store.graph.applyBatch [.removeFile path]).graph)
    (hs : s = (w.store.graph.applyBatch [.removeFile path]).summary)
    (hnew : p.ingested = ∅) : Traced vec 𝒟 w₀ (p.addRemoved path units s) w' := by
  refine ⟨h.toRecorded.addRemoved hnew hcalm hgraph, ?_⟩
  have hremoved : ∀ q, (p.addRemoved path units s).Removed q ↔ p.Removed q ∨ q = path :=
    fun q => Progress.removed_addRemoved
  have ht := h.evolves.tidy
  have hold : ∀ (i : String) (u : CodeUnit), w.store.graph.units[i]? = some u → u.path = path →
      ∃ u' ∈ units, u'.name = u.name := by
    intro i u hu hp
    rw [hunits]
    exact ⟨u, ht.mem_unitsInFile.mpr ⟨i, hu, hp⟩, rfl⟩
  have hevolves := (ht.evolves_removeFile vec path ha (fun n => ∃ u ∈ units, u.name = n) hold).1
  rw [← hgraph] at hevolves
  refine (h.evolves.trans hevolves).mono (fun q hq => ?_) (fun q => (hremoved q).symm) (fun n hn => ?_)
    fun q hq => ?_
  · rcases hq with (hq | hq) | hq
    · exact Or.inl ((hremoved q).mpr (Or.inl hq))
    · simp [hnew] at hq
    · exact Or.inl ((hremoved q).mpr (Or.inr hq))
  · rw [Progress.addRemoved, NameSet.contains_join, NameSet.contains_ofList, List.mem_map]
    exact hn
  · rw [Progress.addRemoved, NameSet.contains_join, hs]
    exact hq

/-- A document was stored. -/
lemma addIngested (h : Traced vec 𝒟 w₀ p w) (ha : Apart 𝒟) {D : Document} {f : IngestedFile}
    (hs : Ingest.Stores D f w w') (hD : 𝒟 D) (hshows : w₀.Shows D) :
    Traced vec 𝒟 w₀ (p.addIngested f) w' := by
  refine ⟨h.toRecorded.addIngested hshows hs, ?_⟩
  have hcontains : ∀ q, (p.addIngested f).ingested.contains q = true ↔
      q = D.path ∨ p.ingested.contains q = true := by
    intro q
    rw [Progress.contains_addIngested, hs.path]
  refine (h.evolves.trans (hs.evolves ha h.evolves.tidy hD vec)).mono (fun q hq => ?_) (fun q => ?_)
    (fun n hn => ?_) fun q hq => ?_
  · rcases hq with (hq | hq) | rfl
    · exact Or.inl hq
    · exact Or.inr ((hcontains q).mpr (Or.inr hq))
    · exact Or.inr ((hcontains _).mpr (Or.inl rfl))
  · rw [or_false]
    exact Iff.rfl
  · rw [Progress.addIngested, NameSet.contains_join]
    exact hn
  · rw [Progress.addIngested, NameSet.contains_join]
    exact hq

end Traced

/-- The steps of a run over known documents evolve the graph. -/
lemma carries_traced (vec : String → Embedding) (ha : Apart 𝒟) (hshown : ∀ D, w.Shows D → 𝒟 D)
    (ht : Tidy 𝒟 w.store.graph) : Carries w (Traced vec 𝒟 w) where
  calm _ _ h := h.calm
  begin work _ hq := by
    refine ⟨Recorded.begin work hq, ?_⟩
    rw [hq.store]
    exact Evolves.refl ht fun q h => by cases h
  quiet _ _ _ h hq := by
    refine ⟨h.toRecorded.quiet hq, ?_⟩
    rw [hq.store]
    exact h.evolves
  mark _ _ report blocked h hf hd := ⟨h.toRecorded.mark report blocked hf hd, h.evolves⟩
  removes _ _ _ _ _ _ h hnew hcalm hunits hgraph hs := h.addRemoved ha hcalm hunits hgraph hs hnew
  stores _ _ _ D _ h hD hs := h.addIngested ha hs (hshown D hD) hD

/-! ### Documents that are held -/

/-- Where a run stands after it removed and stored some files: what was stored completely is held. -/
structure Midway (vec : String → Embedding) (𝒟 : Document → Prop) (w₀ : World) (p : Progress) (w : World) :
    Prop extends Traced vec 𝒟 w₀ p w where
  held : ∀ (D : Document) (f : IngestedFile), w₀.Shows D → p.ingested[D.path]? = some f →
    f.isComplete = true → Holds vec w.store.graph D

/-! ### Where runs start -/

/-- Where runs start: the documents that the repository shows are among the known ones, and its
embeddings are steady. -/
structure Ready (vec : String → Embedding) (𝒟 : Document → Prop) (w : World) : Prop where
  regular : w.tree.Regular
  shown : ∀ D, w.Shows D → 𝒟 D
  steady : w.embedder.Steady vec

lemma Ready.document (h : Ready vec 𝒟 w) {f : ScannedFile} (hf : w.Collects f) :
    ∃ D, 𝒟 D ∧ w.Shows D ∧ D.scanned = f := by
  obtain ⟨D, hD, rfl⟩ := hf.shows h.regular
  exact ⟨D, h.shown D hD, hD, rfl⟩

lemma ready_of_documents (hregular : w.tree.Regular) (h : ∀ D ∈ w.documents, 𝒟 D)
    (hsteady : w.embedder.Steady vec) : Ready vec 𝒟 w :=
  ⟨hregular, fun D hD => h D hD.mem_documents, hsteady⟩

/-- The steps of a run that is ready preserve the invariant. -/
lemma carries_midway (ha : Apart 𝒟) (hready : Ready vec 𝒟 w) (ht : Tidy 𝒟 w.store.graph) :
    Carries w (Midway vec 𝒟 w) := by
  have htraced := carries_traced vec ha hready.shown ht
  constructor
  case calm => exact fun _ _ h => h.calm
  case begin =>
    refine fun work w₁ hq => ⟨htraced.begin work w₁ hq, fun D f _ hf => ?_⟩
    have : (∅ : Std.ExtTreeMap String IngestedFile)[D.path]? = some f := hf
    simp at this
  case quiet =>
    intro p w₁ w₂ h hq
    refine ⟨htraced.quiet p w₁ w₂ h.toTraced hq, ?_⟩
    rw [hq.store]
    exact h.held
  case mark => exact fun p w₁ report blocked h hf hd => ⟨htraced.mark p w₁ report blocked h.toTraced hf hd, h.held⟩
  case removes =>
    intro p w₁ w₂ path units s h hnew hcalm hunits hgraph hs
    refine ⟨h.toTraced.addRemoved ha hcalm hunits hgraph hs hnew, fun D f _ hf => ?_⟩
    change p.ingested[D.path]? = some f at hf
    rw [hnew] at hf
    simp at hf
  case stores =>
    intro p w₁ w₂ D f h hD hs
    refine ⟨h.toTraced.addIngested ha hs (hready.shown D hD) hD, fun D' f' hD' hf hcomplete => ?_⟩
    have ht₁ := h.evolves.tidy
    simp only [Progress.addIngested, hs.path, Draft.getElem?_insert_eq_some_iff] at hf
    rcases hf with ⟨hpath, rfl⟩ | ⟨hne, hf⟩
    · rw [hD'.reads.unique hD.reads hpath]
      exact hs.holds ha ht₁ (hready.shown D hD) (h.calm.steady vec hready.steady) hcomplete
    · exact (hs.evolves ha ht₁ (hready.shown D hD) vec).holds D' (hready.shown D' hD') hne
        (h.held D' f' hD' hf hcomplete)

/-- The first part of a full run either does not begin, or ends with its invariant. -/
lemma prepare_ends (ha : Apart 𝒟) (hready : Ready vec 𝒟 w) (ht : Tidy 𝒟 w.store.graph) :
    Act.Ends (fun w r w' => Prepared (Midway vec 𝒟 w) w r.1 r.2 w') Quiet w (prepare w) :=
  prepare_run hready.regular (carries_midway ha hready ht)

end RepoAtlas.Sync
