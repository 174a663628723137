import RepoAtlas.Engine.Sync
import RepoAtlas.Proofs.Engine.Evolution
import RepoAtlas.Proofs.Engine.Links

/-!
# Storing and removing one file

Storing a file that is read never fails as an action: either its document was stored by one batch, or
nothing was written and the failure is its outcome. If no unit lacks a chunk, the graph holds the
document afterwards. Removing a file is one batch as well.
-/

namespace RepoAtlas

open KnowledgeGraph

variable {𝒟 : Document → Prop} {vec : String → Embedding} {w w' : World} {D : Document}

lemma NameSet.contains_ofList {l : List String} {n : String} :
    (NameSet.ofList l).contains n = true ↔ n ∈ l := by
  rw [NameSet.ofList, contains_foldl_insert]
  simp

lemma NameSet.contains_join {a b : NameSet} {n : String} :
    (a.join b).contains n = true ↔ a.contains n = true ∨ b.contains n = true := by
  rw [NameSet.join, contains_foldl_insert, Std.ExtTreeSet.mem_toList, ← Std.ExtTreeSet.contains_iff_mem,
    or_comm]

lemma Tidy.mem_unitsInFile {g : KnowledgeGraph} (ht : Tidy 𝒟 g) {p : String} {u : CodeUnit} :
    u ∈ g.unitsInFile p ↔ ∃ i : String, g.units[i]? = some u ∧ u.path = p := by
  simp only [unitsInFile, List.mem_mergeSort, List.mem_filterMap, mem_entries, ht.byFile]
  constructor
  · rintro ⟨i, ⟨v, hv, hp⟩, hu⟩
    rw [hv] at hu
    cases hu
    exact ⟨i, hv, hp⟩
  · rintro ⟨i, hu, hp⟩
    exact ⟨i, ⟨u, hu, hp⟩, hu⟩

/-! ### Chunks -/

namespace Ingest

variable {now : Instant} {units : List CodeUnit} {results : List (Except EmbeddingError Embedding)}

/-- The chunks are those of the units whose texts were embedded. -/
lemma mem_chunks {c : SemanticChunk} (h : c ∈ chunks now units results) :
    ∃ (i : Nat) (u : CodeUnit) (v : Embedding), units[i]? = some u ∧ results[i]? = some (.ok v) ∧
      c = chunkOf now u v := by
  fun_induction chunks now units results with
  | case1 u us v rs ih =>
    rcases List.mem_cons.mp h with rfl | h
    · exact ⟨0, u, v, rfl, rfl, rfl⟩
    · obtain ⟨i, u', v', hu, hv, hc⟩ := ih h
      exact ⟨i + 1, u', v', hu, hv, hc⟩
  | case2 u us e rs ih =>
    obtain ⟨i, u', v', hu, hv, hc⟩ := ih h
    exact ⟨i + 1, u', v', hu, hv, hc⟩
  | case3 => cases h

/-- If no unit is missing, each has its chunk. -/
lemma exists_chunk (hlength : results.length = units.length) (hmissing : missing units results = [])
    {u : CodeUnit} (hu : u ∈ units) : ∃ c ∈ chunks now units results, c.id = u.chunkId := by
  induction units generalizing results with
  | nil => cases hu
  | cons v us ih =>
    cases results with
    | nil => cases hlength
    | cons r rs =>
      cases r with
      | error e => cases hmissing
      | ok x =>
        rcases List.mem_cons.mp hu with rfl | hu
        · exact ⟨chunkOf now u x, by simp [chunks], rfl⟩
        · obtain ⟨c, hc, hid⟩ := ih (by simpa using hlength) hmissing hu
          exact ⟨c, by simp [chunks, hc], hid⟩

lemma embeddingFailure?_eq_none {path : String} :
    embeddingFailure? path units results = none ↔ missing units results = [] := by
  simp only [embeddingFailure?]
  split <;> simp_all

/-- The chunks of the units of a document are about these units, with their texts. -/
lemma embeds_of_mem_chunks {c : SemanticChunk} (h : c ∈ chunks now D.units results) : D.Embeds c := by
  obtain ⟨i, u, v, hu, -, rfl⟩ := mem_chunks h
  exact ⟨u, ⟨List.mem_of_getElem? hu, rfl, rfl⟩, rfl⟩

/-! ### Storing -/

/-- The document was stored, as the outcome says. -/
structure Stores (D : Document) (f : IngestedFile) (w w' : World) : Prop where
  calm : Calm w w'
  path : f.path = D.path
  fingerprint : f.fingerprint = D.fingerprint
  imports : ∀ t, f.imports = (D.node t).imports
  names : ∀ n, f.unitNames.contains n = true ↔
    ∃ u, (u ∈ w.store.graph.unitsInFile D.path ∨ u ∈ D.units) ∧ u.name = n
  batch : ∃ t cs, (∀ c ∈ cs, D.Embeds c) ∧
    w'.store.graph = (w.store.graph.applyBatch (contents (D.node t) D.units cs)).graph ∧
    f.orphanedCallers =
      (w.store.graph.applyBatch (contents (D.node t) D.units cs)).summary.orphanedCallers ∧
    (f.isComplete = true → ∀ u ∈ D.units, ∃ c ∈ cs, c.id = u.chunkId) ∧
    ∀ vec, w.embedder.Steady vec → Embedded vec D cs

/-- What becomes of a document that is stored. -/
def Becomes (D : Document) (w : World) (o : FileOutcome) (w' : World) : Prop :=
  match o with
  | .ingested f => Stores D f w w'
  | .failed f => f.path = D.path ∧ Quiet w w'

lemma store_becomes (D : Document) (w : World) :
    ∃ o w', store D.scanned D.fingerprint D.extraction w = (.ok o, w') ∧ Becomes D w o w' := by
  obtain ⟨r, w₁, hquery, hq₁, hanswer⟩ :=
    Act.query_apply "units_in_file" (·.unitsInFile D.path) w
  simp only [store, Document.scanned]
  rw [Act.bind_of_ok hquery]
  cases r with
  | error e => exact ⟨_, _, rfl, rfl, hq₁⟩
  | ok previous =>
    have hprevious := hanswer previous rfl
    subst hprevious
    simp only
    rw [show D.extraction.definitions.map (CodeUnit.ofDefinition D.path) = D.units from rfl]
    -- the texts are embedded
    obtain ⟨results, w₂, hembed⟩ : ∃ results w₂,
        Act.embedAll (D.units.map CodeUnit.chunkText) w₁ = (.ok results, w₂) := ⟨_, _, rfl⟩
    obtain ⟨hq₂, -, hlength, hsteady⟩ := Act.embedAll_ok hembed
    rw [Act.bind_of_ok hembed]
    obtain ⟨t, w₃, hnow⟩ : ∃ t w₃, Act.now w₂ = (.ok t, w₃) := ⟨_, _, rfl⟩
    have hq₃ := Act.quiet_now.of_ok hnow
    have hq : Quiet w w₃ := Quiet.trans _ _ _ (Quiet.trans _ _ _ hq₁ hq₂) hq₃
    rw [Act.bind_of_ok hnow]
    rw [show sourceFile ⟨D.path, D.language, D.fingerprint⟩ D.fingerprint D.extraction t = D.node t from rfl,
      Act.bind_apply, Act.attempt_apply]
    rcases hbatch : Act.applyBatch (contents (D.node t) D.units (chunks t D.units results)) w₃ with
      ⟨e | summary, w₄⟩
    · exact ⟨_, _, rfl, rfl, Quiet.trans _ _ _ hq (Act.applyBatch_error hbatch)⟩
    obtain ⟨hcalm, happly⟩ := Act.applyBatch_ok hbatch
    rw [hq.store] at happly
    refine ⟨_, _, rfl, ⟨Calm.trans _ _ _ hq.toCalm hcalm, rfl, rfl, fun _ => rfl, fun n => ?_,
      ⟨t, _, fun c => embeds_of_mem_chunks, (GraphStore.apply_eq_ok happly).1, ?_, ?_, fun vec hs => ?_⟩⟩⟩
    · rw [NameSet.contains_ofList, List.mem_map]
      simp only [List.mem_append]
    · exact congrArg WriteSummary.orphanedCallers (GraphStore.summary_of_apply happly)
    · intro hcomplete u hu
      have hnone := Option.isNone_iff_eq_none.mp hcomplete
      exact exists_chunk (by simpa using hlength) (embeddingFailure?_eq_none.mp hnone) hu
    · intro c hc
      obtain ⟨i, u, v, hu, hv, rfl⟩ := mem_chunks hc
      refine ⟨u, ⟨List.mem_of_getElem? hu, rfl, rfl⟩, rfl, ?_⟩
      exact hsteady vec (hq₁.steady vec hs) i _ v (by simp [hu]) hv

/-- A file that is read is stored, or its outcome is a failure and nothing was written. -/
lemma file_becomes (hD : w.Reads D) :
    ∃ o w', Ingest.file D.scanned w = (.ok o, w') ∧ Becomes D w o w' := by
  obtain ⟨-, content, hread, hprint, hextract⟩ := hD
  rcases World.readFile_of_readAt hread with hread | hread
  · simp only [Ingest.file, Document.scanned, Act.bind_apply, Act.get_apply, hread, hextract, ← hprint]
    exact store_becomes D w
  · simp only [Ingest.file, Document.scanned, Act.bind_apply, Act.get_apply, hread]
    exact ⟨_, w, rfl, rfl, Quiet.refl w⟩

namespace Stores

variable {f : IngestedFile} (h : Stores D f w w') (ha : Apart 𝒟) (ht : Tidy 𝒟 w.store.graph) (hD : 𝒟 D)
include h ha ht hD

lemma evolves (vec : String → Embedding) : Evolves vec 𝒟 (· = D.path) (fun _ => False) (f.unitNames.contains · = true)
    (f.orphanedCallers.contains · = true) w.store.graph w'.store.graph := by
  obtain ⟨t, cs, hcs, hgraph, horphans, -⟩ := h.batch
  rw [hgraph, horphans]
  refine ht.evolves_contents vec ha hD (fun c hc => (hcs c hc).imp fun _ => And.left) _
    (fun i u hu hp => ?_) fun u hu => ?_
  · exact (h.names _).mpr ⟨u, Or.inl (ht.mem_unitsInFile.mpr ⟨i, hu, hp⟩), rfl⟩
  · exact (h.names _).mpr ⟨u, Or.inr hu, rfl⟩

/-- A document that was stored completely is held. -/
lemma holds (hs : w.embedder.Steady vec) (hcomplete : f.isComplete = true) :
    Holds vec w'.store.graph D := by
  obtain ⟨t, cs, hcs, hgraph, -, hall, hembedded⟩ := h.batch
  obtain ⟨ht', hr⟩ := ht.replaces (t := t) ha hD fun c hc => (hcs c hc).imp fun _ => And.left
  rw [hgraph]
  exact hr.holds ha ht ht' hD (hembedded vec hs) (hall hcomplete)

end Stores

end Ingest

/-! ### Removing -/

namespace Sync

/-- Removing a file is one batch, or changes nothing. -/
lemma remove_ends (path : String) (w : World) :
    Act.Ends (fun w r w' => Calm w w' ∧ r.1 = w.store.graph.unitsInFile path ∧
        w'.store.graph = (w.store.graph.applyBatch [.removeFile path]).graph ∧
        r.2 = (w.store.graph.applyBatch [.removeFile path]).summary)
      Quiet w (remove path w) := by
  simp only [remove, Act.bind_apply]
  rcases hunits : Act.unitsInFile path w with ⟨e | units, w₁⟩
  · exact (Act.quiet_ask _ _).of_error hunits
  obtain ⟨rfl, hq₁⟩ := Act.ask_ok hunits
  simp only
  rcases h : Act.applyBatch [.removeFile path] w₁ with ⟨e | summary, w₂⟩
  · exact Quiet.trans _ _ _ hq₁ (Act.applyBatch_error h)
  obtain ⟨hcalm, happly⟩ := Act.applyBatch_ok h
  rw [hq₁.store] at happly
  exact ⟨Calm.trans _ _ _ hq₁.toCalm hcalm, rfl, (GraphStore.apply_eq_ok happly).1,
    GraphStore.summary_of_apply happly⟩

end Sync

end RepoAtlas
