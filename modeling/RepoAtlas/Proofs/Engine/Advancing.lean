import RepoAtlas.Proofs.Engine.Repetition
import RepoAtlas.Proofs.Engine.Trails

/-!
# Checkpoints advance after the graph was saved

Whatever becomes of a run, the checkpoints stay, or the graph was saved and the checkpoints were updated
right after that. A file whose checkpoint is set is stored with its fingerprint in the graph that was
saved, each of its units has a chunk, and its imports are those that the run wrote. The chunks stay while
other files are stored, since ids of chunks tell their units.
-/

namespace RepoAtlas

open KnowledgeGraph

namespace Sync

/-- The documents of a history whose paths have no colon, and whose chunks have ids that tell the units. -/
structure Separate (𝒟 : Document → Prop) : Prop where
  path : ∀ D, 𝒟 D → ':' ∉ D.path.toList
  chunk : ∀ D D' u u', 𝒟 D → 𝒟 D' → u ∈ D.units → u' ∈ D'.units → u.chunkId = u'.chunkId → u.id = u'.id

variable {𝒟 : Document → Prop} {D D' : Document}

lemma Unambiguous.separate (h : Unambiguous 𝒟) : Separate 𝒟 :=
  ⟨h.path, fun D D' u u' hD hD' hu hu' hid => (h.chunk D D' u u' hD hD' hu hu' hid).1⟩

/-- The id of a chunk tells the path of its unit. -/
lemma Separate.path_eq (hs : Separate 𝒟) {u u' : CodeUnit} (hD : 𝒟 D) (hD' : 𝒟 D') (hu : u ∈ D.units)
    (hu' : u' ∈ D'.units) (hid : u.chunkId = u'.chunkId) : D.path = D'.path := by
  have hown := Document.ownedBy_of_mem_units hu
  rw [hs.chunk D D' u u' hD hD' hu hu' hid] at hown
  exact hown.unique (Document.ownedBy_of_mem_units hu') (hs.path D hD) (hs.path D' hD')

end Sync

variable {𝒟 : Document → Prop} {skip : String → Prop} {g g' : KnowledgeGraph} {D D' : Document} {t : Instant}
  {cs : List SemanticChunk}

/-! ### Chunks that are stored -/

/-- Every unit of a document has a chunk that is about it. -/
def Document.Covered (D : Document) (g : KnowledgeGraph) : Prop :=
  ∀ u ∈ D.units, ∃ s, g.chunks[u.chunkId]? = some s ∧ s.chunk.unitId = u.id

lemma Draft.chunks_foldl_upsertUnit (l : List CodeUnit) (d : Draft) :
    (l.foldl Draft.upsertUnit d).graph.chunks = d.graph.chunks := by
  obtain ⟨_, _, _, htables⟩ := Draft.tables_foldl_upsertUnit l d
  exact congrArg NodeTables.chunks htables

/-- What is stored under an id after chunks were put: what was there, or a chunk about the unit of one of
them. -/
lemma Draft.chunk_foldl_upsertChunk (h : String) (cs : List SemanticChunk) : ∀ d : Draft,
    ((∀ c ∈ cs, c.id ≠ h) ∧ (cs.foldl Draft.upsertChunk d).graph.chunks[h]? = d.graph.chunks[h]?) ∨
      ∃ c ∈ cs, c.id = h ∧ ∃ s, (cs.foldl Draft.upsertChunk d).graph.chunks[h]? = some s ∧
        s.chunk.unitId = c.unitId := by
  induction cs with
  | nil => exact fun d => Or.inl ⟨by simp, rfl⟩
  | cons c cs ih =>
    intro d
    obtain ⟨s, n, -, hunit, htables⟩ := Draft.tables_upsertChunk d c
    simp only [tables, NodeTables.mk.injEq] at htables
    obtain ⟨-, -, hchunks, -⟩ := htables
    rw [List.foldl_cons]
    rcases ih (d.upsertChunk c) with ⟨hnone, hkept⟩ | ⟨c', hc', hid, hs⟩
    · by_cases hid : c.id = h
      · refine Or.inr ⟨c, by simp, hid, s, ?_, hunit⟩
        rw [hkept, hchunks, ← hid, Std.ExtTreeMap.getElem?_insert_self]
      · refine Or.inl ⟨by simpa [hid] using hnone, ?_⟩
        rw [hkept, hchunks, Std.ExtTreeMap.getElem?_insert, if_neg]
        exact fun he => hid (Std.LawfulEqCmp.eq_of_compare he)
    · exact Or.inr ⟨c', by simp [hc'], hid, hs⟩

/-- What is stored under an id after a document was stored: what was there and did not go with its path, or
a chunk about the unit of one of the new chunks. -/
lemma Undivided.chunk_contents (hg : Undivided 𝒟 skip g) (D : Document) (t : Instant)
    (cs : List SemanticChunk) (h : String) :
    ((∀ c ∈ cs, c.id ≠ h) ∧ ∀ s,
      ((g.applyBatch (Ingest.contents (D.node t) D.units cs)).graph.chunks[h]? = some s ↔
        g.chunks[h]? = some s ∧ ¬GoneFrom g D.path (.chunk h))) ∨
    ∃ c ∈ cs, c.id = h ∧ ∃ s,
      (g.applyBatch (Ingest.contents (D.node t) D.units cs)).graph.chunks[h]? = some s ∧
        s.chunk.unitId = c.unitId := by
  rw [applyBatch_contents]
  obtain ⟨hr, -⟩ := hg.clearFile (d := { graph := g }) (D.node t).path
  have htables := Draft.tables_upsertFile (d := Draft.clearFile { graph := g } (D.node t).path) (f := D.node t)
  simp only [tables, NodeTables.mk.injEq] at htables
  obtain ⟨-, -, hchunks, -⟩ := htables
  rcases Draft.chunk_foldl_upsertChunk h cs
    (D.units.foldl Draft.upsertUnit ((Draft.clearFile { graph := g } (D.node t).path).upsertFile (D.node t)))
    with ⟨hnone, hkept⟩ | hput
  · refine Or.inl ⟨hnone, fun s => ?_⟩
    rw [hkept, Draft.chunks_foldl_upsertUnit, hchunks]
    exact hr.chunk h s
  · exact Or.inr hput

section

variable (hs : Sync.Separate 𝒟) (hg : Undivided 𝒟 (fun _ => False) g) (hD : 𝒟 D) (hcs : ∀ c ∈ cs, D.Embeds c)
include hs hg hD hcs

/-- A document that is stored with a chunk for each unit is covered. -/
lemma Undivided.covered_contents (hall : ∀ u ∈ D.units, ∃ c ∈ cs, c.id = u.chunkId) :
    D.Covered (g.applyBatch (Ingest.contents (D.node t) D.units cs)).graph := by
  intro u hu
  rcases hg.chunk_contents D t cs u.chunkId with ⟨hnone, -⟩ | ⟨c, hc, hid, s, hstored, hunit⟩
  · obtain ⟨c, hc, hid⟩ := hall u hu
    exact absurd hid (hnone c hc)
  · obtain ⟨u', hu', -⟩ := hcs c hc
    refine ⟨s, hstored, ?_⟩
    rw [hunit, ← hu'.unit]
    exact hs.chunk D D u' u hD hD hu'.mem hu (hu'.id.trans hid)

/-- A document stays covered while one of another path is stored. -/
lemma Document.Covered.contents (h : D'.Covered g) (hD' : 𝒟 D') (hne : D'.path ≠ D.path) :
    D'.Covered (g.applyBatch (Ingest.contents (D.node t) D.units cs)).graph := by
  intro u hu
  obtain ⟨s, hstored, hunit⟩ := h u hu
  rcases hg.chunk_contents D t cs u.chunkId with ⟨-, hkept⟩ | ⟨c, hc, hid, -⟩
  · refine ⟨s, (hkept s).mpr ⟨hstored, ?_⟩, hunit⟩
    -- what goes with the path describes units of the document that is stored there
    rintro ⟨i, v, hv, hpath, he⟩
    obtain ⟨hvid, -, hfile⟩ := hg.unit i v hv
    obtain ⟨f, hf⟩ := contains_iff_getElem?.mp hfile
    obtain ⟨D₀, -, hD₀, hpath₀, -, hwhole⟩ := hg.file _ f hf id
    have hmem := (mem_of_lastUnit ((hwhole.unit i v).mp ⟨hv, hpath₀.symm⟩)).1
    obtain ⟨v', hv', -, hkey⟩ := hwhole.describes _ _ he ⟨v, hmem, hvid⟩
    refine hne ((hs.path_eq hD' hD₀ hu hv' ?_).trans (hpath₀.trans hpath))
    exact NodeKey.chunk.inj hkey
  · obtain ⟨u', hu', -⟩ := hcs c hc
    exact absurd (hs.path_eq hD' hD hu hu'.mem (hu'.id.trans hid).symm) hne

end

/-- A document stays whole while one of another path is stored. -/
lemma Document.Whole.contents (hg : Undivided 𝒟 (fun _ => False) g) (hpath : ':' ∉ D.path.toList)
    (hcs : ∀ c ∈ cs, D.Embeds c) {t' : Instant} (hfile : g.files[D'.path]? = some (D'.node t'))
    (h : D'.Whole g) (hne : D'.path ≠ D.path) :
    D'.Whole (g.applyBatch (Ingest.contents (D.node t) D.units cs)).graph := by
  -- seen from the other path alone, its document is the only one
  have hother : Undivided (· = D') (· ≠ D'.path) g := by
    refine { hg with file := fun p f hf hp => ?_ }
    rw [not_not] at hp
    subst hp
    rw [hfile] at hf
    cases hf
    exact ⟨D', t', rfl, rfl, rfl, h⟩
  have hafter := (hother.contents (t := t) (fun hskip => absurd hne.symm hskip) hpath hcs).1
  obtain ⟨D'', -, rfl, -, -, hwhole⟩ := hafter.file D'.path (D'.node t') (by
    rw [files_contents, Std.ExtTreeMap.getElem?_insert, if_neg, hfile]
    exact fun he => hne (Std.LawfulEqCmp.eq_of_compare he).symm) (by simp)
  exact hwhole

lemma Undivided.keyedBy (hg : Undivided 𝒟 (fun _ => False) g) : KeyedBy SourceFile.path g.files := by
  intro p f hf
  obtain ⟨D, t, -, rfl, rfl, -⟩ := hg.file p f hf id
  rfl

/-- Every unit of a document that is stored whole and covered has a chunk that describes it. -/
lemma Undivided.describes_of_covered (hg : Undivided 𝒟 skip g') (htables : g'.tables = g.tables)
    (hwhole : D.Whole g) (hcovered : D.Covered g) {u : CodeUnit} (hu : u ∈ g'.unitsInFile D.path) :
    ∃ (h : String) (s : StoredChunk), g'.chunks[h]? = some s ∧ s.chunk.unitId = u.id ∧
      g'.hasEdge ⟨.describes, .chunk h, .unit u.id⟩ = true := by
  have hstored := hg.mem_unitsInFile.mp hu
  simp only [tables, NodeTables.mk.injEq] at htables
  obtain ⟨-, hunits, hchunks, -⟩ := htables
  rw [hunits] at hstored
  obtain ⟨s, hs, hunit⟩ := hcovered u (mem_of_lastUnit ((hwhole.unit _ _).mp hstored)).1
  rw [← hchunks] at hs
  refine ⟨u.chunkId, s, hs, hunit, ?_⟩
  rw [← hunit]
  exact (hg.chunk _ _ hs).2.2.2

namespace Sync

variable {w w' w₁ w₂ v v' : World} {work : Worklist} {p p' : Progress}

/-! ### What a run stored -/

/-- The documents that a run stored are stored whole, and covered if they were stored completely. -/
structure Covering (𝒟 : Document → Prop) (w₀ : World) (p : Progress) (w : World) : Prop
    extends Recorded w₀ p w where
  undivided : Undivided 𝒟 (fun _ => False) w.store.graph
  whole : ∀ D f, w₀.Shows D → p.ingested[D.path]? = some f →
    D.Whole w.store.graph ∧ (f.isComplete = true → D.Covered w.store.graph)

/-- The steps of a run keep the documents covered. -/
lemma carries_covering (hs : Separate 𝒟) (hg : Undivided 𝒟 (fun _ => False) w.store.graph)
    (hshown : ∀ D, w.Shows D → 𝒟 D) : Carries w (Covering 𝒟 w) where
  calm _ _ h := h.calm
  begin work w' hq := by
    refine ⟨Recorded.begin work hq, by rw [hq.store]; exact hg, fun D f _ hf => ?_⟩
    have : (∅ : Std.ExtTreeMap String IngestedFile)[D.path]? = some f := hf
    simp at this
  quiet p w₁ w₂ h hq := by
    refine ⟨h.toRecorded.quiet hq, ?_, ?_⟩ <;> rw [hq.store]
    · exact h.undivided
    · exact h.whole
  mark _ _ report blocked h hf hd := ⟨h.toRecorded.mark report blocked hf hd, h.undivided, h.whole⟩
  removes p w₁ w₂ path units s h hnew hcalm _ hgraph _ := by
    refine ⟨h.toRecorded.addRemoved hnew hcalm hgraph, ?_, fun D f _ hf => ?_⟩
    · rw [hgraph]
      exact h.undivided.removeFile (d := { graph := w₁.store.graph }) path
    · change p.ingested[D.path]? = some f at hf
      rw [hnew] at hf
      simp at hf
  stores p w₁ w₂ D f h hD hstores := by
    obtain ⟨t, cs, hcs, hgraph, -, hall, -⟩ := hstores.batch
    have hknown := hshown D hD
    obtain ⟨hg', hwhole⟩ := h.undivided.contents (t := t) (fun _ => hknown) (hs.path D hknown) hcs
    refine ⟨h.toRecorded.addIngested hD hstores, by rw [hgraph]; exact hg', fun D' f' hD' hf' => ?_⟩
    simp only [Progress.addIngested, hstores.path, Draft.getElem?_insert_eq_some_iff] at hf'
    rw [hgraph]
    rcases hf' with ⟨hpath, rfl⟩ | ⟨hne, hf'⟩
    · obtain rfl := hD'.reads.unique hD.reads hpath
      exact ⟨hwhole, fun hcomplete => h.undivided.covered_contents hs hknown hcs (hall hcomplete)⟩
    · obtain ⟨hwhole', hcovered⟩ := h.whole D' f' hD' hf'
      obtain ⟨D'', t', hD'', hpath, -, -, hfile, -⟩ := h.stored _ _ hf'
      obtain rfl := hD''.reads.unique hD'.reads hpath
      exact ⟨hwhole'.contents h.undivided (hs.path D hknown) hcs hfile hne, fun hcomplete =>
        (hcovered hcomplete).contents hs h.undivided hknown hcs (hshown _ hD') hne⟩

/-! ### What a run wrote of imports -/

/-- The import edges of a file are those that a run wrote between two states. -/
def ImportsWritten (𝒟 : Document → Prop) (path : String) (w v : World) : Prop :=
  ∃ targets files outcome u u', Moves 𝒟 (fun _ => True) w u ∧
    Linking.imports path targets files u = (.ok outcome, u') ∧ Moves 𝒟 (fun _ => True) u' v ∧
    ∀ q, v.store.graph.hasEdge ⟨.imports, .file path, .file q⟩ = true ↔
      u'.store.graph.hasEdge ⟨.imports, .file path, .file q⟩ = true

/-- More may be written before, and after if it leaves the edges alone. -/
lemma ImportsWritten.extend {path : String} (h : ImportsWritten 𝒟 path w₁ w₂)
    (hbefore : Moves 𝒟 (fun _ => True) w w₁) (hafter : Moves 𝒟 (fun _ => True) w₂ w')
    (hsame : ∀ q, w'.store.graph.hasEdge ⟨.imports, .file path, .file q⟩ = true ↔
      w₂.store.graph.hasEdge ⟨.imports, .file path, .file q⟩ = true) : ImportsWritten 𝒟 path w w' := by
  obtain ⟨targets, files, outcome, u, u', hu, hrun, hu', hedge⟩ := h
  exact ⟨targets, files, outcome, u, u', Moves.trans _ _ _ hbefore hu, hrun, Moves.trans _ _ _ hu' hafter,
    fun q => (hsame q).trans (hedge q)⟩

/-- Linking imports writes those of each job, unless it fails. -/
lemma linkImports_writes (files : FileIndex) (jobs : List ImportJob) : ∀ {report report' : SyncReport}
    {failed : NameSet} {w w' : World}, linkImports files report jobs w = (.ok (failed, report'), w') →
    ∀ j ∈ jobs, failed.contains j.1 = false → ImportsWritten 𝒟 j.1 w w' := by
  induction jobs with
  | nil => exact fun _ j hj => by cases hj
  | cons job jobs ih =>
    intro report report' failed w w' h j hj hno
    have hwalks : Moves 𝒟 (fun _ => True) w _ :=
      Act.writes_moves.linkingImports job.1 job.2 files trivial w
    simp only [linkImports] at h
    obtain ⟨r, w₁, hrun, h⟩ := Act.bind_ok h
    have hrun := Act.attempt_ok hrun
    rw [hrun] at hwalks
    rcases r with e | outcome
    · obtain ⟨⟨failed', report₁⟩, w₂, hrest, h⟩ := Act.bind_ok h
      cases h
      rw [← Bool.not_eq_true, contains_insert_iff, not_or, Bool.not_eq_true] at hno
      rcases List.mem_cons.mp hj with rfl | hj
      · exact absurd rfl hno.1
      · exact (ih hrest j hj hno.2).extend hwalks (Moves.refl _) fun _ => Iff.rfl
    · by_cases hlater : ∃ j' ∈ jobs, j'.1 = j.1
      · obtain ⟨j', hj', hpath⟩ := hlater
        rw [← hpath] at hno ⊢
        exact (ih h j' hj' hno).extend hwalks (Moves.refl _) fun _ => Iff.rfl
      · obtain rfl := (List.mem_cons.mp hj).resolve_right fun hj => hlater ⟨j, hj, rfl⟩
        obtain ⟨-, hrelinks, -⟩ := linkImports_ok _ _ h
        refine ⟨_, _, outcome, w, w₁, Moves.refl w, hrun, ?_, fun q => hrelinks.edge _ ?_⟩
        · exact (Act.writes_moves.linkImports files jobs (fun _ _ => trivial) _).of_ok h
        · rintro ⟨-, j', hj', hk⟩
          exact hlater ⟨j', hj', (NodeKey.file.inj hk).symm⟩

/-! ### Files that are secured -/

/-- A file is stored with a fingerprint in the graph that a run made; each of its units has a chunk, and its
imports are those that the run wrote, which lead where they refer to. -/
structure Secured (𝒟 : Document → Prop) (path fingerprint : String) (w v : World) : Prop where
  file : ∃ f, v.store.graph.files[path]? = some f ∧ f.fingerprint = fingerprint
  described : ∀ u ∈ v.store.graph.unitsInFile path, ∃ (h : String) (s : StoredChunk),
    v.store.graph.chunks[h]? = some s ∧ s.chunk.unitId = u.id ∧
      v.store.graph.hasEdge ⟨.describes, .chunk h, .unit u.id⟩ = true
  written : ImportsWritten 𝒟 path w v
  current : v.store.graph.ImportsCurrent path

lemma Secured.saved {path fingerprint : String} (h : Secured 𝒟 path fingerprint w v) (hsaved : Saved v v') :
    Secured 𝒟 path fingerprint w v' where
  file := by
    rw [hsaved.graph]
    exact h.file
  described := by
    rw [hsaved.graph]
    exact h.described
  written := h.written.extend (Moves.refl _) hsaved.moves fun _ => by rw [hsaved.graph]
  current := by
    rw [hsaved.graph]
    exact h.current

/-- What became of the checkpoints in a run: they stayed, or the graph was saved and they were updated right
after that, where every file whose checkpoint was set is secured. -/
def Settles (𝒟 : Document → Prop) (w w' : World) : Prop :=
  w'.checkpoints = w.checkpoints ∨ ∃ updates v v', Moves 𝒟 (fun _ => True) w v ∧
    Act.commit v = (.ok (), v') ∧ v'.checkpoints = w.checkpoints ∧
    Act.setCheckpoints updates v' = (.ok (), w') ∧
    ∀ path fingerprint, (.file path, some fingerprint) ∈ updates → Secured 𝒟 path fingerprint w v'

lemma Settles.after (h : Settles 𝒟 w₁ w') (hw : Walks 𝒟 (fun _ => True) w w₁) : Settles 𝒟 w w' := by
  refine h.imp (fun h => h.trans hw.calm.checkpoints) ?_
  rintro ⟨updates, v, v', hmoves, hcommit, hcheck, hset, hsecured⟩
  refine ⟨updates, v, v', Moves.trans _ _ _ hw.moves hmoves, hcommit, hcheck.trans hw.calm.checkpoints, hset,
    fun path fingerprint hmem => ?_⟩
  have h := hsecured path fingerprint hmem
  exact { h with written := h.written.extend hw.moves (Moves.refl _) fun _ => Iff.rfl }

section

variable {α : Type} {updates : List CheckpointUpdate}

/-- Steps that only write may come first. -/
lemma settles_bind {m : Act α} {f : α → Act SyncReport} (hm : Walks 𝒟 (fun _ => True) w (m w).2)
    (hf : ∀ a w₁, m w = (.ok a, w₁) → Settles 𝒟 w₁ (f a w₁).2) : Settles 𝒟 w ((m >>= f) w).2 := by
  rcases hrun : m w with ⟨e | a, w₁⟩
  · rw [Act.bind_of_error hrun]
    rw [hrun] at hm
    exact Or.inl hm.calm.checkpoints
  · rw [Act.bind_of_ok hrun]
    rw [hrun] at hm
    exact (hf a w₁ hrun).after hm

/-- Updating checkpoints after the graph was saved. -/
lemma settles_setCheckpoints {m : Act SyncReport} (hmoves : Moves 𝒟 (fun _ => True) w v)
    (hcheck : v.checkpoints = w.checkpoints) (hcommit : Act.commit v = (.ok (), v'))
    (hsecured : ∀ path fingerprint, (.file path, some fingerprint) ∈ updates → Secured 𝒟 path fingerprint w v)
    (hm : ∀ u, (m u).2 = u) : Settles 𝒟 w ((Act.setCheckpoints updates >>= fun _ => m) v').2 := by
  have hcommitted := Act.committed_commit.of_ok hcommit
  rw [Act.bind_apply]
  rcases hset : Act.setCheckpoints updates v' with ⟨e | ⟨⟩, w'⟩
  · exact Or.inl (by rw [(Act.setCheckpoints_error hset).checkpoints, hcommitted.checkpoints, hcheck])
  · rw [hm]
    exact Or.inr ⟨updates, v, v', hmoves, hcommit, hcommitted.checkpoints.trans hcheck, hset,
      fun path fingerprint hmem => (hsecured path fingerprint hmem).saved hcommitted.toSaved⟩

lemma settles_setCheckpoints_nil {m : Act SyncReport} (w : World) (hm : ∀ u, (m u).2 = u) :
    Settles 𝒟 w ((Act.setCheckpoints [] >>= fun _ => m) w).2 := by
  have hidle := Act.idles_setCheckpoints w
  refine Or.inl ?_
  rcases hset : Act.setCheckpoints [] w with ⟨e | ⟨⟩, w'⟩
  · rw [Act.bind_of_error hset]
    exact (Act.setCheckpoints_error hset).checkpoints
  · rw [Act.bind_of_ok hset, hm]
    rw [Act.Idles, hset] at hidle
    obtain ⟨-, faults, clock, rfl⟩ := hidle
    rfl

/-- Saving the graph and updating checkpoints. -/
lemma settles_finish {m : Act SyncReport} (hw : Walks 𝒟 (fun _ => True) w v)
    (hsecured : ∀ path fingerprint, (.file path, some fingerprint) ∈ updates → Secured 𝒟 path fingerprint w v)
    (hm : ∀ u, (m u).2 = u) : Settles 𝒟 w ((finish updates >>= fun _ => m) v).2 := by
  rcases hcommit : Act.commit v with ⟨e | ⟨⟩, v'⟩
  · have hfinish : finish updates v = (.error e, v') := Act.bind_of_error hcommit
    rw [Act.bind_of_error hfinish]
    exact Or.inl ((Act.committed_commit.of_error hcommit).checkpoints.trans hw.calm.checkpoints)
  · have hfinish : finish updates v = Act.setCheckpoints updates v' := Act.bind_of_ok hcommit
    rw [Act.bind_apply, hfinish, ← Act.bind_apply]
    exact settles_setCheckpoints hw.moves hw.calm.checkpoints hcommit hsecured hm

end

/-! ### Full runs -/

/-- A file that a full run stored completely and linked is secured. -/
lemma link_secures (hregular : w.tree.Regular) (hs : Separate 𝒟) (hp : Prepared (Covering 𝒟 w) w work p w₁)
    (h : link work p w₁ = (.ok p', w₂)) {q : String} {f : IngestedFile} (hf : p.ingested[q]? = some f)
    (hcomplete : f.isComplete = true) (hfree : p'.blocked.contains q = false) :
    Secured 𝒟 q f.fingerprint w₁ w₂ := by
  have hrecorded := hp.mono fun _ _ h => h.toRecorded
  have hl := link_log hregular hrecorded h
  have hg₂ : Undivided 𝒟 (fun _ => False) w₂.store.graph := by
    obtain ⟨l, hl⟩ := (Act.writes_moves (S := fun _ => True)).link work p (fun _ => ⟨trivial, trivial⟩) |>.of_ok h
    exact (hl.undivided hs.path hp.carried.undivided).2
  obtain ⟨D, t, hD, rfl, hpath, hprint, hfile, -⟩ := hp.carried.stored q f hf
  obtain ⟨hwhole, hcovered⟩ := hp.carried.whole D f hD hf
  constructor
  case file =>
    refine ⟨D.node t, ?_, hprint.symm⟩
    rw [hl.files]
    exact hfile
  case described => exact fun u hu => hg₂.describes_of_covered hl.tables hwhole (hcovered hcomplete) hu
  case current =>
    refine (link_imports hregular hrecorded h hp.carried.undivided.keyedBy).2.2 D.path (Or.inl ?_) ?_ hfree
    · exact contains_iff_getElem?.mpr ⟨f, hf⟩
    · exact contains_iff_getElem?.mpr ⟨_, hfile⟩
  case written =>
    obtain ⟨others, jobs, stale, u, failed, report, v, hq, -, -, hjobs, himports, hstale, hcalls⟩ :=
      link_parts h
    have hjob : (D.path, f.imports) ∈ jobs := by
      refine hjobs.mem_iff.mpr (List.mem_append_left _ (List.mem_map.mpr ⟨(D.path, f), ?_, by rw [hpath]⟩))
      rw [Std.ExtTreeMap.mem_toList_iff_getElem?_eq_some]
      exact hf
    have hcalm := Calm.trans _ _ _ hq.toCalm (linkImports_ok _ _ himports).1
    obtain ⟨-, hrelinks, -⟩ := linkCalls_ok _ hcalls (hrecorded.reads_filter hregular hcalm hstale)
    refine (linkImports_writes _ _ himports _ hjob (free_of_unblocked hcalls hfree).2).extend
      hq.saved.moves ?_ fun q => hrelinks.edge _ fun he => by cases he.1
    exact (Act.writes_moves.linkCalls _ (fun _ _ => trivial) _).of_ok hcalls

/-- What a full run collects is known. -/
lemma offers_of_collects (hregular : w.tree.Regular) (hshown : ∀ D, w.Shows D → 𝒟 D) {f : ScannedFile}
    (hf : w.Collects f) : w.Offers 𝒟 f.path f.language := by
  intro content x hread hx
  obtain ⟨hlanguage, content', hcontent, hprint⟩ := hf.listed
  have hread' := hregular _ _ hcontent
  rw [hread] at hread'
  cases hread'
  rw [← hprint]
  exact hshown _ ⟨hf, hlanguage, content, hread, hprint, hx⟩

/-- A full run settles the checkpoints, whatever becomes of it. -/
lemma full_settles (hs : Separate 𝒟) (hg : Undivided 𝒟 (fun _ => False) w.store.graph)
    (hregular : w.tree.Regular) (hshown : ∀ D, w.Shows D → 𝒟 D) : Settles 𝒟 w (full w).2 := by
  refine settles_bind (walks_prepare (fun f => offers_of_collects hregular hshown)
    fun _ _ => ⟨fun _ _ => trivial, fun _ _ => trivial⟩) fun ⟨work, p⟩ w₁ hprepare => ?_
  have hp := (prepare_run hregular (carries_covering hs hg hshown)).of_ok hprepare
  -- the first part clears checkpoints only
  have hclears : ∀ path fingerprint, (CheckpointKey.file path, some fingerprint) ∉ p.updates := by
    intro path fingerprint hmem
    obtain ⟨q, -, hu | hu⟩ := (hp.carried.updates _).mp hmem <;> cases hu
  simp only [Act.bind_apply (m := get), Act.get_apply]
  split
  · exact settles_finish (Walks.refl _)
      (fun path fingerprint hmem => absurd hmem (hclears path fingerprint)) fun _ => rfl
  have hlinks : Walks 𝒟 (fun _ => True) w₁ (link work p w₁).2 :=
    Act.writes_walks.link work p (fun _ => ⟨trivial, trivial⟩) w₁
  rcases hlink : link work p w₁ with ⟨e | p', w₂⟩
  · rw [Act.bind_of_error hlink]
    rw [hlink] at hlinks
    exact Or.inl hlinks.calm.checkpoints
  rw [Act.bind_of_ok hlink]
  rw [hlink] at hlinks
  have hlog := link_log hregular (hp.mono fun _ _ h => h.toRecorded) hlink
  refine settles_finish hlinks (fun path fingerprint hmem => ?_) fun _ => rfl
  rcases List.mem_append.mp hmem with hmem | hmem
  · rcases hlog.updates_new _ hmem with hmem | ⟨f, -, hu⟩
    · exact absurd hmem (hclears path fingerprint)
    · cases hu
  · obtain ⟨q, f, hf, hcomplete, hfree, hu⟩ := mem_advances.mp hmem
    cases hu
    rw [hlog.ingested] at hf
    exact link_secures hregular hs hp hlink hf hcomplete hfree

/-! ### Runs for one file -/

lemma removeFile_settles (path : String) (w : World) : Settles 𝒟 w (removeFile path w).2 := by
  refine settles_bind (quiet_startRun.walks w) fun _ w₁ _ =>
    settles_bind (Act.writes_walks.syncRemove path trivial w₁) fun gone w₂ _ => settles_bind ?_ fun _ w₃ _ =>
      settles_finish (Walks.refl w₃) (fun q fingerprint hmem => ?_) fun _ => rfl
  · split
    · exact Act.writes_walks.linkOthers _ (fun _ => trivial) w₂
    · exact Walks.refl w₂
  · simp at hmem

/-- After a document was stored, a run for its file links its imports and saves the graph. -/
lemma linkFile_secures (hs : Separate 𝒟) (hg : Undivided 𝒟 (fun _ => False) w.store.graph) (hD : 𝒟 D)
    {f : IngestedFile} (hstores : Ingest.Stores D f w w₁) {isNew : Bool} {report report' : SyncReport}
    {updates : List CheckpointUpdate}
    (h : linkFile D.path isNew f report w₁ = (.ok (updates, report'), w')) :
    ∃ v, Walks 𝒟 (fun _ => True) w₁ v ∧ Act.commit v = (.ok (), w') ∧
      ∀ path fingerprint, (.file path, some fingerprint) ∈ updates → Secured 𝒟 path fingerprint w₁ v := by
  obtain ⟨t, cs, hcs, hgraph, -, hall, -⟩ := hstores.batch
  obtain ⟨hg₁, hwhole⟩ := hg.contents (t := t) (fun _ => hD) (hs.path D hD) hcs
  obtain ⟨t', hfile⟩ := hstores.file_self
  rw [← hgraph] at hg₁ hwhole
  simp only [linkFile] at h
  obtain ⟨paths, w₂, hpaths, h⟩ := Act.bind_ok h
  obtain ⟨rfl, hq₁⟩ := Act.ask_ok hpaths
  obtain ⟨others, w₃, hothers, h⟩ := Act.bind_ok h
  obtain ⟨hq₂, honly, -⟩ := storedFiles_filePaths (by rw [hq₁.store]; exact hg₁.keyedBy) hothers
  have hq := Quiet.trans _ _ _ hq₁ hq₂
  rw [hq₁.store] at honly
  rw [Act.bind_of_ok (Act.inTurn_apply _ _)] at h
  obtain ⟨⟨failed, report₁⟩, v, hlink, h⟩ := Act.bind_ok h
  obtain ⟨⟨⟩, w₄, hcommit, h⟩ := Act.bind_ok h
  cases h
  have hlinked : Walks 𝒟 (fun _ => True) w₃ v :=
    (Act.writes_walks.linkImports _ _ (fun _ _ => trivial) _).of_ok hlink
  obtain ⟨-, hrelinks, -⟩ := linkImports_ok _ _ hlink
  rw [hq.store] at hrelinks
  obtain ⟨-, hcurrent⟩ := linkImports_current _ _ hlink (by rw [hq.store]) fun j hj => by
    rw [hq.store]
    rcases List.mem_cons.mp (Schedule.mem_arrange.mp hj) with rfl | hj
    · exact ⟨D.node t', hfile, (hstores.imports t').symm⟩
    · split at hj
      · obtain ⟨s, hs, rfl⟩ := List.mem_map.mp hj
        exact ⟨s, (honly s hs).2, rfl⟩
      · cases hj
  refine ⟨v, Walks.trans _ _ _ hq.walks hlinked, hcommit, fun path fingerprint hmem => ?_⟩
  -- the checkpoint of the file advances if it is complete and its imports were linked
  rcases List.mem_append.mp hmem with hmem | hmem
  swap
  · simp at hmem
  split at hmem
  swap
  · cases hmem
  rename_i hadvance
  simp only [Bool.and_eq_true, Bool.not_eq_true'] at hadvance
  obtain ⟨hcomplete, hno⟩ := hadvance
  simp only [List.mem_singleton, Prod.mk.injEq, CheckpointKey.file.injEq, Option.some.injEq] at hmem
  obtain ⟨rfl, rfl⟩ := hmem
  have hgv : Undivided 𝒟 (fun _ => False) v.store.graph := by
    obtain ⟨l, hl⟩ := hlinked.moves
    rw [hq.store] at hl
    exact (hl.undivided hs.path hg₁).2
  constructor
  case file =>
    refine ⟨D.node t', ?_, hstores.fingerprint.symm⟩
    rw [hrelinks.files]
    exact hfile
  case described =>
    refine fun u hu => hgv.describes_of_covered hrelinks.tables hwhole ?_ hu
    rw [hgraph]
    exact hg.covered_contents hs hD hcs (hall hcomplete)
  case written =>
    exact (linkImports_writes _ _ hlink _ (Schedule.mem_arrange.mpr List.mem_cons_self) hno).extend
      hq.saved.moves (Moves.refl _) fun _ => Iff.rfl
  case current => exact hcurrent (D.path, f.imports) (Schedule.mem_arrange.mpr List.mem_cons_self) hno

/-- Checkpoints are updated only after the imports of a file were linked. -/
lemma checkpoints_linkFile (path : String) (isNew : Bool) (f : IngestedFile) (report : SyncReport) :
    Act.Keeps (fun w w' => w'.checkpoints = w.checkpoints) (linkFile path isNew f report) := by
  have htrans : ∀ u v w : World, v.checkpoints = u.checkpoints → w.checkpoints = v.checkpoints →
      w.checkpoints = u.checkpoints := fun u v w h h' => h'.trans h
  have hwalks : ∀ {α : Type} {m : Act α}, m.Keeps (Walks (fun _ => False) (fun _ => True)) →
      m.Keeps (fun w w' => w'.checkpoints = w.checkpoints) := fun hm => hm.mono fun _ _ h => h.calm.checkpoints
  refine (hwalks (Act.quiet_ask _ _).walks).bind htrans fun paths => ?_
  refine (hwalks (Act.asks_quiet.storedFiles _).walks).bind htrans fun others => ?_
  refine (hwalks (Act.asks_quiet.inTurn _ _).walks).bind htrans fun jobs => ?_
  refine (hwalks (Act.writes_walks.linkImports _ _ (fun _ _ => trivial) _)).bind htrans fun r => ?_
  refine (Act.committed_commit.mono fun _ _ h => h.checkpoints).bind htrans fun _ => ?_
  exact fun _ => rfl

lemma storeFile_settles (hs : Separate 𝒟) (hg : Undivided 𝒟 (fun _ => False) w.store.graph) (hD : 𝒟 D)
    (hreads : w.Reads D) {isNew : Bool} {report : SyncReport} :
    Settles 𝒟 w (storeFile D.scanned isNew report w).2 := by
  obtain ⟨o, w₁, hingest, hbecomes⟩ := Ingest.file_becomes hreads
  have hwalks : Walks 𝒟 (fun _ => True) w (Ingest.file D.scanned w).2 := by
    refine Ingest.walks_file (fun content x hread hx => ?_) trivial
    obtain ⟨hlanguage, content', hread', hprint, hx'⟩ := hreads
    change w.tree.readAt D.path = .ok content at hread
    rw [hread] at hread'
    cases hread'
    change w.registry.extract? (Text.lossy content) D.language = some x at hx
    rw [hx] at hx'
    cases hx'
    rw [← hprint]
    exact hD
  refine settles_bind hwalks fun o' w₁' hrun => ?_
  rw [hingest] at hrun
  cases hrun
  cases o with
  | failed failure =>
    -- nothing was stored, and no checkpoint is updated
    exact settles_setCheckpoints_nil w₁ fun _ => rfl
  | ingested f =>
    have hkeeps := checkpoints_linkFile D.path isNew f (report.addIngested f) w₁
    rcases hlink : linkFile D.path isNew f (report.addIngested f) w₁ with ⟨e | ⟨updates, report'⟩, w₂⟩
    · rw [hlink] at hkeeps
      rw [show linkOutcome D.scanned.path isNew report (.ingested f) =
        linkFile D.path isNew f (report.addIngested f) from rfl, Act.bind_of_error hlink]
      exact Or.inl hkeeps
    · rw [show linkOutcome D.scanned.path isNew report (.ingested f) =
        linkFile D.path isNew f (report.addIngested f) from rfl, Act.bind_of_ok hlink]
      obtain ⟨v, hv, hcommit, hsecured⟩ := linkFile_secures hs hg hD hbecomes hlink
      exact settles_setCheckpoints hv.moves hv.calm.checkpoints hcommit hsecured fun _ => rfl

lemma file_settles (hs : Separate 𝒟) (hg : Undivided 𝒟 (fun _ => False) w.store.graph) {path : String}
    (hknown : ∀ D, w.Reads D → D.path = path → 𝒟 D) : Settles 𝒟 w (file path w).2 := by
  refine settles_bind (quiet_startRun.walks w) fun _ w₁ hstart =>
    settles_bind (Act.asks_quiet.filter.walks w₁) fun f w₂ hfilter => ?_
  have hq := Quiet.trans _ _ _ (quiet_startRun.of_ok hstart) (Act.asks_quiet.filter.of_ok hfilter)
  have hsame : Settles 𝒟 w₂ w₂ := Or.inl rfl
  rw [← hq.store] at hg
  simp only [Act.bind_apply (m := get), Act.get_apply]
  split
  · exact hsame
  split
  · exact hsame
  cases hread : w₂.readFile path with
  | error err => cases err <;> first | exact removeFile_settles path w₂ | exact hsame
  | ok content =>
    have hread := World.readAt_of_readFile hread
    cases hlanguage : w₂.registry.detect? path with
    | none => exact hsame
    | some language =>
      -- the file is that of a document
      obtain ⟨x, hx⟩ := Registry.exists_extraction hlanguage (Text.lossy content)
      set D : Document := ⟨path, language, fingerprintBytes content, x⟩
      have hreads₂ : w₂.Reads D := ⟨hlanguage, content, hread, rfl, hx⟩
      have hreads : w.Reads D := by
        rw [hq.registry] at hlanguage hx
        rw [hq.tree] at hread
        exact ⟨hlanguage, content, hread, rfl, hx⟩
      have hD := hknown D hreads rfl
      cases w₂.checkpoints.state.get? (.file path) with
      | none => exact storeFile_settles hs hg hD hreads₂
      | some fingerprint =>
        simp only
        split
        · exact hsame
        · exact storeFile_settles hs hg hD hreads₂

/-! ### Histories -/

/-- A call of the engine. -/
inductive Call where
  | full
  | event (e : FileEvent)

/-- What a call runs. -/
def Call.run : Call → Act SyncReport
  | .full => Sync.full
  | .event e => Sync.event e

/-- The documents that a call may store are known, and the files that a full run collects are readable. -/
def Call.Known (𝒟 : Document → Prop) (w : World) : Call → Prop
  | .full => w.tree.Regular ∧ ∀ D, w.Shows D → 𝒟 D
  | .event e => ∀ D, w.Reads D → D.path = e.path → 𝒟 D

/-- The states that calls lead to, whatever becomes of them. A history starts with an empty graph; between
calls everything but the graph may change. -/
inductive Roamed (𝒟 : Document → Prop) : World → Prop
  | start {w : World} : w.store.graph = {} → Roamed 𝒟 w
  | edit {w w' : World} : Roamed 𝒟 w → w'.store.graph = w.store.graph → Roamed 𝒟 w'
  | call {w : World} (c : Call) : Roamed 𝒟 w → c.Known 𝒟 w → Roamed 𝒟 (c.run w).2

/-- A call moves along a trail of known documents. -/
lemma moves_run {c : Call} (hc : c.Known 𝒟 w) : Moves 𝒟 (fun _ => True) w (c.run w).2 := by
  cases c with
  | full =>
    exact moves_full (fun f hf => offers_of_collects hc.1 hc.2 hf)
      (fun _ _ => ⟨fun _ _ => trivial, fun _ _ => trivial⟩) fun _ => ⟨trivial, trivial⟩
  | event e =>
    refine moves_event fun language hlanguage content x hread hx => ?_
    exact hc _ ⟨hlanguage, content, hread, rfl, hx⟩ rfl

/-- A call leaves all files undivided, whatever becomes of it. -/
lemma undivided_run (hs : Separate 𝒟) {c : Call} (hc : c.Known 𝒟 w)
    (hg : Undivided 𝒟 (fun _ => False) w.store.graph) : Undivided 𝒟 (fun _ => False) (c.run w).2.store.graph := by
  obtain ⟨l, hl⟩ := moves_run hc
  exact (hl.undivided hs.path hg).2

lemma Roamed.undivided (hs : Separate 𝒟) (h : Roamed 𝒟 w) : Undivided 𝒟 (fun _ => False) w.store.graph := by
  induction h with
  | start hgraph =>
    rw [hgraph]
    exact undivided_empty
  | edit _ hgraph ih =>
    rw [hgraph]
    exact ih
  | call c _ hc ih => exact undivided_run hs hc ih

/-- Checkpoints advance only after the graph was saved: whatever becomes of a call, it leaves the checkpoints
alone, or updates them right after it saved the graph, in which every file whose checkpoint is set is
secured. -/
theorem Roamed.settles (hs : Separate 𝒟) (h : Roamed 𝒟 w) {c : Call} (hc : c.Known 𝒟 w) :
    Settles 𝒟 w (c.run w).2 := by
  have hg := h.undivided hs
  cases c with
  | full => exact full_settles hs hg hc.1 hc.2
  | event e =>
    simp only [Call.run, event]
    cases e.kind
    · exact file_settles hs hg hc
    · exact file_settles hs hg hc
    · exact removeFile_settles e.path w

/-- A run stores a function and advances the checkpoint of its file. -/
theorem settles_rewritten :
    (full .rewritten).2.checkpoints.state.get? (.file "a.py") =
        some (fingerprint "def alpha():\n    return 1\n") ∧
      World.rewritten.checkpoints.state.get? (.file "a.py") = none ∧
      Settles (· ∈ World.rewritten.documents) .rewritten (full .rewritten).2 := by
  obtain ⟨hcheckpoint, hnone, hregular, hunambiguous⟩ :
      (full .rewritten).2.checkpoints.state.get? (.file "a.py") =
          some (fingerprint "def alpha():\n    return 1\n") ∧
        World.rewritten.checkpoints.state.get? (.file "a.py") = none ∧ World.rewritten.tree.Regular ∧
        Unambiguous (· ∈ World.rewritten.documents) := by
    decide +kernel
  exact ⟨hcheckpoint, hnone, Roamed.settles hunambiguous.separate (.start rfl) (c := .full)
    ⟨hregular, fun D hD => hD.mem_documents⟩⟩

end Sync

end RepoAtlas
