import RepoAtlas.Proofs.Engine.Storing
import RepoAtlas.Proofs.Engine.Worklist

/-!
# The first part of a full run

A full run first scans, then removes what was deleted and stores what is new or changed. Each step may
fail, and the run may be cancelled between two of them; failures are reported and the run goes on.
`Carries` says that a property of the progress and the state is preserved by each of these steps. Such a
property holds at the end of the first part, wherever it was cancelled and whatever failed.
-/

namespace RepoAtlas.Sync

open KnowledgeGraph

variable {w₀ w w' : World} {p : Progress} {I : Progress → World → Prop}

namespace Progress

/-- The run removed a file. -/
def Removed (p : Progress) (q : String) : Prop := (CheckpointKey.file q, none) ∈ p.updates

/-- The run removed or stored a file. -/
def Touched (p : Progress) (q : String) : Prop := p.Removed q ∨ p.ingested.contains q = true

lemma removed_addRemoved {path : String} {units : List CodeUnit} {s : WriteSummary} {q : String} :
    (p.addRemoved path units s).Removed q ↔ p.Removed q ∨ q = path := by
  simp [Removed, addRemoved]

lemma contains_addIngested {f : IngestedFile} {q : String} :
    (p.addIngested f).ingested.contains q = true ↔ q = f.path ∨ p.ingested.contains q = true :=
  Draft.stored_insert_iff

end Progress

/-- Every step of the first part of a run preserves a property. -/
structure Carries (w₀ : World) (I : Progress → World → Prop) : Prop where
  calm : ∀ p w, I p w → Calm w₀ w
  begin : ∀ work w, Quiet w₀ w → I (begin work) w
  /-- Asking changes nothing. -/
  quiet : ∀ p w w', I p w → Quiet w w' → I p w'
  /-- Reporting a failure or blocking a checkpoint changes nothing else. -/
  mark : ∀ p w (report : SyncReport) (blocked : NameSet), I p w →
    (report.failures = [] → p.report.failures = []) → report.filesDeleted = p.report.filesDeleted →
    I { p with report := report, blocked := blocked } w
  /-- A file is removed before any is stored. -/
  removes : ∀ p w w' path units s, I p w → p.ingested = ∅ → Calm w w' →
    units = w.store.graph.unitsInFile path →
    w'.store.graph = (w.store.graph.applyBatch [.removeFile path]).graph →
    s = (w.store.graph.applyBatch [.removeFile path]).summary → I (p.addRemoved path units s) w'
  /-- A document is stored. -/
  stores : ∀ p w w' D f, I p w → w₀.Shows D → Ingest.Stores D f w w' → I (p.addIngested f) w'

/-- Removing files one after the other: those whose removal failed are reported. -/
lemma removeAll_run (hI : Carries w₀ I) (paths : List String) : ∀ {p : Progress} {w : World},
    I p w → p.ingested = ∅ →
    ∃ p' w', removeAll p paths w = (.ok p', w') ∧ I p' w' ∧ p'.ingested = ∅ ∧
      p'.blocked = p.blocked ∧ p'.report.cancelled = p.report.cancelled ∧
      (∀ q, p.Removed q → p'.Removed q) ∧ (∀ q, p'.Removed q → p.Removed q ∨ q ∈ paths) ∧
      (p'.report.failures = [] → p.report.failures = [] ∧ ∀ q ∈ paths, p'.Removed q) := by
  induction paths with
  | nil =>
    intro p w h hnew
    exact ⟨p, w, rfl, h, hnew, rfl, rfl, fun _ hq => hq, fun _ hq => Or.inl hq, fun hf => ⟨hf, by simp⟩⟩
  | cons path paths ih =>
    intro p w h hnew
    have hends := remove_ends path w
    simp only [removeAll, Act.bind_apply, Act.attempt_apply]
    rcases hrun : remove path w with ⟨e | ⟨units, s⟩, w₁⟩
    · -- the removal failed and is reported
      rw [hrun] at hends
      have h₁ : I (p.fail ⟨path, .delete, e.message⟩) w₁ :=
        hI.mark p w₁ _ _ (hI.quiet p w w₁ h hends) (fun hf => by simp [SyncReport.fail] at hf) rfl
      obtain ⟨p', w', hrest, h', hnew', hblocked, hcancelled, hkeeps, honly, hclean⟩ := ih h₁ hnew
      refine ⟨p', w', hrest, h', hnew', hblocked, hcancelled, hkeeps, fun q hq => ?_, fun hf => ?_⟩
      · exact (honly q hq).imp_right (List.mem_cons_of_mem _)
      · have := (hclean hf).1
        simp [Progress.fail, SyncReport.fail] at this
    · rw [hrun] at hends
      obtain ⟨hcalm, hunits, hgraph, hs⟩ := hends
      have h₁ := hI.removes p w w₁ path units s h hnew hcalm hunits hgraph hs
      obtain ⟨p', w', hrest, h', hnew', hblocked, hcancelled, hkeeps, honly, hclean⟩ := ih h₁ hnew
      refine ⟨p', w', hrest, h', hnew', hblocked, hcancelled, fun q hq => ?_, fun q hq => ?_, fun hf => ?_⟩
      · exact hkeeps q (Progress.removed_addRemoved.mpr (Or.inl hq))
      · rcases honly q hq with hq | hq
        · exact (Progress.removed_addRemoved.mp hq).imp_right fun hq => by simp [hq]
        · exact Or.inr (List.mem_cons_of_mem _ hq)
      · obtain ⟨hf, hall⟩ := hclean hf
        refine ⟨hf, fun q hq => ?_⟩
        rcases List.mem_cons.mp hq with rfl | hq
        · exact hkeeps q (Progress.removed_addRemoved.mpr (Or.inr rfl))
        · exact hall q hq

/-- Storing files one after the other: those that failed, and those that were passed over after the run
was cancelled, are reported. -/
lemma ingestAll_run (hI : Carries w₀ I) (files : List ScannedFile)
    (hfiles : ∀ f ∈ files, ∃ D, w₀.Shows D ∧ D.scanned = f) : ∀ {p : Progress} {w : World}, I p w →
    ∃ p' w', ingestAll p files w = (.ok p', w') ∧ I p' w' ∧ p'.updates = p.updates ∧
      (∀ q, p.ingested.contains q = true → p'.ingested.contains q = true) ∧
      (∀ q, p'.ingested.contains q = true → p.ingested.contains q = true ∨ ∃ f ∈ files, f.path = q) ∧
      (p'.report.failures = [] → p'.report.cancelled = false →
        p.report.failures = [] ∧ p.report.cancelled = false ∧ p'.blocked = p.blocked ∧
        ∀ f ∈ files, p'.ingested.contains f.path = true) := by
  induction files with
  | nil =>
    intro p w h
    exact ⟨p, w, rfl, h, rfl, fun _ hq => hq, fun _ hq => Or.inl hq,
      fun hf hc => ⟨hf, hc, rfl, by simp⟩⟩
  | cons file files ih =>
    intro p w h
    have hrest := fun {p w} => ih (fun f hf => hfiles f (List.mem_cons_of_mem _ hf)) (p := p) (w := w)
    have h := hI.quiet p w w.heed h (Act.quiet_heed w)
    simp only [ingestAll]
    rw [Act.bind_of_ok Act.isCancelled_apply]
    by_cases hcancelled : w.heed.cancelled = true
    · -- the run was cancelled, which is reported
      rw [if_pos hcancelled]
      have h₁ : I { p.block file.path with
          report := { (p.block file.path).report with cancelled := true } } w.heed :=
        hI.mark p w.heed _ _ h (fun hf => hf) rfl
      obtain ⟨p', w', hrun, h', hupdates, hkeeps, honly, hclean⟩ := hrest h₁
      refine ⟨p', w', hrun, h', hupdates, hkeeps, fun q hq => ?_, fun hf hc => ?_⟩
      · exact (honly q hq).imp_right List.exists_mem_cons_of_exists
      · cases (hclean hf hc).2.1
    rw [if_neg hcancelled]
    obtain ⟨D, hD, rfl⟩ := hfiles file (by simp)
    obtain ⟨o, w₁, hrun, hbecomes⟩ := Ingest.file_becomes ((hI.calm p w.heed h).reads hD.reads)
    rw [Act.bind_of_ok hrun]
    cases o with
    | failed f =>
      obtain ⟨-, hq⟩ := hbecomes
      have h₁ : I ((p.block f.path).fail f) w₁ :=
        hI.mark p w₁ _ _ (hI.quiet p w.heed w₁ h hq) (fun hf => by simp [SyncReport.fail] at hf) rfl
      obtain ⟨p', w', hrun, h', hupdates, hkeeps, honly, hclean⟩ := hrest h₁
      refine ⟨p', w', hrun, h', hupdates, hkeeps, fun q hq => ?_, fun hf hc => ?_⟩
      · exact (honly q hq).imp_right List.exists_mem_cons_of_exists
      · have := (hclean hf hc).1
        simp [Progress.fail, SyncReport.fail] at this
    | ingested f =>
      have h₁ := hI.stores p w.heed w₁ D f h hD hbecomes
      have hpath : f.path = D.path := hbecomes.path
      obtain ⟨p', w', hrun, h', hupdates, hkeeps, honly, hclean⟩ := hrest h₁
      refine ⟨p', w', hrun, h', hupdates, fun q hq => ?_, fun q hq => ?_, fun hf hc => ?_⟩
      · exact hkeeps q (Progress.contains_addIngested.mpr (Or.inr hq))
      · rcases honly q hq with hq | ⟨f', hf', hq⟩
        · rcases Progress.contains_addIngested.mp hq with rfl | hq
          · exact Or.inr ⟨D.scanned, by simp, hpath.symm⟩
          · exact Or.inl hq
        · exact Or.inr ⟨f', List.mem_cons_of_mem _ hf', hq⟩
      · obtain ⟨hfailures, hc, hblocked, hall⟩ := hclean hf hc
        simp only [Progress.addIngested, SyncReport.addIngested, List.append_eq_nil_iff] at hfailures
        refine ⟨hfailures.1, hc, hblocked, fun f' hf' => ?_⟩
        rcases List.mem_cons.mp hf' with rfl | hf'
        · exact hkeeps _ (Progress.contains_addIngested.mpr (Or.inl hpath.symm))
        · exact hall f' hf'

/-! ### Both together -/

/-- What the first part of a full run did. -/
structure Prepared (I : Progress → World → Prop) (w₀ : World) (work : Worklist) (p : Progress) (w : World) :
    Prop where
  sorts : work.Sorts w₀
  carried : I p w
  removed : ∀ q, p.Removed q → q ∈ work.deleted
  ingested : ∀ q, p.ingested.contains q = true → ∃ f ∈ work.toIngest, f.path = q
  /-- If nothing failed, all files could be read. -/
  found : p.report.failures = [] → p.report.cancelled = false → ∀ f, w₀.Collects f → w₀.Finds f
  clean : p.report.failures = [] → p.report.cancelled = false →
    (∀ q ∈ work.deleted, p.Removed q) ∧ (∀ f ∈ work.toIngest, p.ingested.contains f.path = true) ∧
      ∀ q, p.blocked.contains q = false

lemma quiet_start (w : World) : Quiet w { w with cancelled := false, embedder := w.embedder.forRun } :=
  ⟨⟨rfl, rfl, rfl, rfl, rfl, fun _ h => h⟩, rfl⟩

lemma sorts_of_quiet (hq : Quiet w w') {work : Worklist} (h : work.Sorts w') : work.Sorts w := by
  have hcollects : ∀ f, w'.Collects f ↔ w.Collects f := by
    intro f
    simp only [World.Collects, hq.settings, hq.registry, hq.tree]
  obtain ⟨hnew, hchanged, hunchanged, hdeleted, hunreadable⟩ := h
  simp only [World.finds_iff, hcollects, hq.denied, hq.checkpoints, hq.store]
    at hnew hchanged hunchanged hdeleted hunreadable
  simp only [← World.finds_iff] at hnew hchanged hunchanged
  exact ⟨hnew, hchanged, hunchanged, hdeleted, hunreadable⟩

/-- The first part of a full run either does not begin, or ends with what its steps preserve. -/
lemma prepare_run (hregular : w.tree.Regular) (hI : Carries w I) :
    Act.Ends (fun w r w' => Prepared I w r.1 r.2 w') Quiet w (prepare w) := by
  have hstart := quiet_start w
  simp only [prepare, startRun, Act.bind_apply, Act.modify_apply]
  rcases hscan : scan { w with cancelled := false, embedder := w.embedder.forRun } with ⟨e | work, w₁⟩
  · exact Quiet.trans _ _ _ hstart (Act.asks_quiet.scan.of_error hscan)
  obtain ⟨hq, hsorts⟩ := scan_ok hscan
  have hsorts := sorts_of_quiet hstart hsorts
  have hq := Quiet.trans _ _ _ hstart hq
  obtain ⟨p₁, w₂, hremove, h₁, hnone, hblocked, hcancelled, -, hremoved, hclean₁⟩ :=
    removeAll_run hI work.deleted (hI.begin work w₁ hq) rfl
  have hfiles : ∀ f ∈ work.toIngest, ∃ D, w.Shows D ∧ D.scanned = f := by
    intro f hf
    rcases List.mem_append.mp hf with hf | hf
    · exact ((hsorts.new f).mp hf).1.collects.shows hregular
    · exact ((hsorts.changed f).mp hf).1.collects.shows hregular
  obtain ⟨p₂, w₃, hingest, h₂, hupdates, -, hingested, hclean₂⟩ :=
    ingestAll_run hI (w₂.schedule.arrange .write work.toIngest)
      (fun f hf => hfiles f (Schedule.mem_arrange.mp hf)) h₁
  simp only [Schedule.mem_arrange] at hingested hclean₂
  simp only
  rw [hremove]
  simp only [Act.inTurn_apply]
  rw [hingest]
  refine ⟨hsorts, hI.quiet _ _ _ h₂ (Act.quiet_heed w₃), fun q hq => ?_, fun q hq => ?_, fun hf hc f => ?_,
    fun hf hc => ?_⟩
  · rw [Progress.Removed, hupdates] at hq
    exact (hremoved q hq).resolve_left fun h => by cases h
  · refine (hingested q hq).resolve_left fun h => ?_
    rw [hnone] at h
    simp at h
  · have hread : work.unreadable = [] := (hclean₁ (hclean₂ hf hc).1).1
    exact hsorts.finds hread
  · obtain ⟨hf₁, -, hblocked₂, hall⟩ := hclean₂ hf hc
    obtain ⟨hread, hremoves⟩ : work.unreadable = [] ∧ ∀ q ∈ work.deleted, p₁.Removed q := hclean₁ hf₁
    refine ⟨fun q hq => ?_, hall, fun q => ?_⟩
    · rw [Progress.Removed, hupdates]
      exact hremoves q hq
    · rw [hblocked₂, hblocked, ← Bool.not_eq_true]
      simp only [Sync.begin, hread, NameSet.contains_ofList, List.map_nil, List.not_mem_nil,
        not_false_eq_true]

/-- A document whose file is found is new, changed or unchanged. -/
lemma found_cases {work : Worklist} (hsorts : work.Sorts w) {D : Document} (hD : w.Finds D.scanned) :
    D.scanned ∈ work.toIngest ∨
      (D.scanned ∈ work.unchanged ∧ w.checkpoints.state.get? (.file D.path) = some D.fingerprint) := by
  cases hcheck : w.checkpoints.state.get? (.file D.path) with
  | none => exact Or.inl (List.mem_append_left _ ((hsorts.new _).mpr ⟨hD, hcheck⟩))
  | some v =>
    by_cases hv : v = D.fingerprint
    · subst hv
      exact Or.inr ⟨(hsorts.unchanged _).mpr ⟨hD, hcheck⟩, rfl⟩
    · exact Or.inl (List.mem_append_right _ ((hsorts.changed _).mpr ⟨hD, v, hcheck, hv⟩))

lemma mem_onDisk {work : Worklist} (hsorts : work.Sorts w) {D : Document} (hD : w.Finds D.scanned) :
    D.scanned ∈ work.onDisk := by
  rcases found_cases hsorts hD with h | h
  · exact List.mem_append_left _ h
  · exact List.mem_append_right _ h.1

namespace Prepared

variable {work : Worklist} {D : Document} (hp : Prepared I w work p w')
include hp

lemma collects {f : ScannedFile} (hf : f ∈ work.onDisk) : w.Collects f := by
  simp only [Worklist.onDisk, List.mem_append] at hf
  rcases hf with (hf | hf) | hf
  · exact ((hp.sorts.new f).mp hf).1.collects
  · exact ((hp.sorts.changed f).mp hf).1.collects
  · exact ((hp.sorts.unchanged f).mp hf).1.collects

/-- The files on disk are those of documents that are shown. -/
lemma document (hregular : w.tree.Regular) {f : ScannedFile} (hf : f ∈ work.onDisk) :
    ∃ D, w.Shows D ∧ D.scanned = f := (hp.collects hf).shows hregular

lemma mono {J : Progress → World → Prop} (h : ∀ p w, I p w → J p w) : Prepared J w work p w' :=
  ⟨hp.sorts, h p w' hp.carried, hp.removed, hp.ingested, hp.found, hp.clean⟩

/-- Only files that were collected and changed are stored. -/
lemma not_ingested (hD : w.Shows D)
    (hcheck : w.checkpoints.state.get? (.file D.path) = some D.fingerprint) :
    p.ingested.contains D.path = false := by
  rw [← Bool.not_eq_true]
  intro hq
  obtain ⟨f, hf, hpath⟩ := hp.ingested _ hq
  rcases List.mem_append.mp hf with hf | hf
  · obtain ⟨-, hnone⟩ := (hp.sorts.new f).mp hf
    rw [hpath, hcheck] at hnone
    cases hnone
  · obtain ⟨hf, v, hv, hne⟩ := (hp.sorts.changed f).mp hf
    have : f = D.scanned := hf.collects.unique hD.collected hpath
    subst this
    rw [hpath, hcheck] at hv
    cases hv
    exact hne rfl

lemma not_removed (hD : w.Shows D) : ¬p.Removed D.path := fun hq =>
  ((hp.sorts.deleted _).mp (hp.removed _ hq)).1 _ hD.collected rfl

lemma not_touched (hD : w.Shows D)
    (hcheck : w.checkpoints.state.get? (.file D.path) = some D.fingerprint) : ¬p.Touched D.path := by
  rintro (hq | hq)
  · exact hp.not_removed hD hq
  · rw [hp.not_ingested hD hcheck] at hq
    cases hq

end Prepared

end RepoAtlas.Sync
