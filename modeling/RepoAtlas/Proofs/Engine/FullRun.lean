import RepoAtlas.Proofs.Engine.LinkRun

/-!
# Full runs

A full run without failures leaves the checkpoints of contents and calls at the fingerprints of what the
repository shows, and files that it shows only. The graph then holds exactly what is shown, if it held the
files that the run left alone, and links of files are current if they were linked again or were current
before. The graph is saved before checkpoints advance.
-/

namespace RepoAtlas.Sync

open KnowledgeGraph

variable {𝒟 : Document → Prop} {vec : String → Embedding} {w w₁ w₂ w' : World} {work : Worklist}
  {p p' : Progress} {D : Document} {I : Progress → World → Prop}

/-! ### Runs that complete -/

/-- A report without failures of a run that was not cancelled. -/
structure Clean (r : SyncReport) : Prop where
  failures : r.failures = []
  cancelled : r.cancelled = false

/-- An action completes: it succeeds with a clean report. -/
def Completes (m : Act SyncReport) (w w' : World) : Prop := ∃ r, m w = (.ok r, w') ∧ Clean r

lemma completes_iff {m : Act SyncReport} : Completes m w (m w).2 ↔
    (m w).1.toOption.any (fun r => r.failures.isEmpty && !r.cancelled) = true := by
  constructor
  · rintro ⟨r, hrun, hclean⟩
    rw [show (m w).1 = .ok r from congrArg Prod.fst hrun]
    simp [Except.toOption, hclean.failures, hclean.cancelled]
  · intro h
    rcases hrun : m w with ⟨e | r, w'⟩
    · simp [hrun, Except.toOption] at h
    · simp only [hrun, Except.toOption, Option.any_some, Bool.and_eq_true, List.isEmpty_iff,
        Bool.not_eq_true'] at h
      exact ⟨r, hrun, h.1, h.2⟩

instance (m : Act SyncReport) (w : World) : Decidable (Completes m w (m w).2) :=
  decidable_of_iff' _ completes_iff

/-- The graph is saved, then the checkpoints are updated. -/
lemma finish_ok {updates : List CheckpointUpdate} (h : finish updates w = (.ok (), w')) : Saved w w' ∧
    ∀ k, w'.checkpoints.state.get? k = (w.checkpoints.state.setAll updates).get? k := by
  simp only [finish] at h
  obtain ⟨⟨⟩, w₁, hcommit, h⟩ := Act.bind_ok h
  have hcommitted := Act.committed_commit.of_ok hcommit
  obtain ⟨hsaved, hget⟩ := Act.setCheckpoints_ok h
  rw [hcommitted.checkpoints] at hget
  exact ⟨Saved.trans _ _ _ hcommitted.toSaved hsaved, hget⟩

/-- The parts of a full run that completes. -/
lemma full_parts (h : Completes full w w') : ∃ work p w₁ p' w₂, prepare w = (.ok (work, p), w₁) ∧
    link work p w₁ = (.ok p', w₂) ∧ finish (p'.updates ++ p'.advances) w₂ = (.ok (), w') ∧
      Clean p'.report := by
  obtain ⟨r, hrun, hclean⟩ := h
  simp only [full] at hrun
  obtain ⟨⟨work, p⟩, w₁, hprepare, hrun⟩ := Act.bind_ok hrun
  simp only [Act.bind_apply, Act.get_apply] at hrun
  split at hrun
  · -- a run that was cancelled says so
    obtain ⟨⟨⟩, w₂, -, hrun⟩ := Act.bind_ok hrun
    cases hrun
    cases hclean.cancelled
  · obtain ⟨p', w₂, hlink, hrun⟩ := Act.bind_ok hrun
    obtain ⟨⟨⟩, w₃, hfinish, hrun⟩ := Act.bind_ok hrun
    cases hrun
    exact ⟨work, p, w₁, p', w₂, hprepare, hlink, hfinish, ⟨hclean.failures, hclean.cancelled⟩⟩

/-- A full run that completes, with what its first part preserves. -/
lemma full_run (hregular : w.tree.Regular) (hI : Carries w I) (h : Completes full w w') :
    ∃ work p w₁ p' w₂, prepare w = (.ok (work, p), w₁) ∧ Prepared I w work p w₁ ∧
      link work p w₁ = (.ok p', w₂) ∧ w'.store.graph = w₂.store.graph ∧
      (∀ k, w'.checkpoints.state.get? k = (w₂.checkpoints.state.setAll (p'.updates ++ p'.advances)).get? k) ∧
      Clean p'.report := by
  obtain ⟨work, p, w₁, p', w₂, hprepare, hlink, hfinish, hclean⟩ := full_parts h
  obtain ⟨hsaved, hget⟩ := finish_ok hfinish
  exact ⟨work, p, w₁, p', w₂, hprepare, (prepare_run hregular hI).of_ok hprepare, hlink, hsaved.graph, hget,
    hclean⟩

/-! ### Files and checkpoints after a run -/

/-- In a run without failures everything was done that had to be. -/
lemma LinkLog.done (hl : LinkLog work p w₁ p' w₂) (hp : Prepared I w work p w₁) (hclean : Clean p'.report) :
    p.report.failures = [] ∧ (∀ f, w.Collects f → w.Finds f) ∧ (∀ q ∈ work.deleted, p.Removed q) ∧
      (∀ f ∈ work.toIngest, p.ingested.contains f.path = true) ∧ ∀ q, p.blocked.contains q = false :=
  have hfailures := hl.failures hclean.failures
  have hcancelled := hl.cancelled.symm.trans hclean.cancelled
  ⟨hfailures, hp.found hfailures hcancelled, hp.clean hfailures hcancelled⟩

lemma mem_advances {u : CheckpointUpdate} : u ∈ p.advances ↔ ∃ (q : String) (f : IngestedFile),
    p.ingested[q]? = some f ∧ f.isComplete = true ∧ p.blocked.contains q = false ∧
      u = (.file q, some f.fingerprint) := by
  simp only [Progress.advances, List.mem_filterMap, Prod.exists,
    Std.ExtTreeMap.mem_toList_iff_getElem?_eq_some, Option.ite_none_right_eq_some, Bool.and_eq_true,
    Bool.not_eq_true', Option.some.injEq, and_assoc, eq_comm (b := u)]

/-- A file that is stored after the first part is shown, since others were removed. -/
lemma Prepared.shown_of_stored (hp : Prepared (Recorded w) w work p w₁) (hregular : w.tree.Regular)
    (hremoved : ∀ q ∈ work.deleted, p.Removed q) {q : String}
    (hq : w₁.store.graph.files.contains q = true) : ∃ D, w.Shows D ∧ D.path = q := by
  by_cases hin : p.ingested.contains q = true
  · obtain ⟨f, hf⟩ := contains_iff_getElem?.mp hin
    obtain ⟨D, -, hD, hpath, -⟩ := hp.carried.stored q f hf
    exact ⟨D, hD, hpath⟩
  rw [Bool.not_eq_true] at hin
  obtain ⟨f, hf⟩ := contains_iff_getElem?.mp hq
  have hno : ¬p.Removed q := by
    intro hr
    rw [hp.carried.gone q hr hin] at hf
    cases hf
  have hbefore : w.store.graph.files.contains q = true := by
    rw [hp.carried.kept q fun ht => ht.elim hno fun h => by rw [hin] at h; cases h] at hf
    exact contains_iff_getElem?.mpr ⟨f, hf⟩
  by_contra hnone
  refine hno (hremoved q ((hp.sorts.deleted q).mpr ⟨fun f hf hpath => hnone ?_, Or.inr hbefore⟩))
  obtain ⟨D, hD, rfl⟩ := hf.shows hregular
  exact ⟨D, hD, hpath⟩

/-- If no file appeared or disappeared, the same files are stored. -/
lemma Prepared.stored_of_fileSet (hp : Prepared (Recorded w) w work p w₁)
    (htracked : ∀ f v, w.Collects f → w.checkpoints.state.get? (.file f.path) = some v →
      w.store.graph.files.contains f.path = true) (hset : fileSetChanged work p = false) :
    (∀ q, ¬p.Removed q) ∧
      ∀ q, w₁.store.graph.files.contains q = true ↔ w.store.graph.files.contains q = true := by
  simp only [fileSetChanged, Bool.or_eq_false_iff, Bool.not_eq_false', List.isEmpty_iff,
    decide_eq_false_iff_not, hp.carried.deleted, not_exists] at hset
  obtain ⟨hnew, hremoved⟩ := hset
  refine ⟨hremoved, fun q => ?_⟩
  by_cases hin : p.ingested.contains q = true
  · -- a file that was stored now was tracked, hence stored before
    obtain ⟨i, hi⟩ := contains_iff_getElem?.mp hin
    obtain ⟨D, t, -, -, -, -, hfile, -⟩ := hp.carried.stored q i hi
    obtain ⟨f, hf, rfl⟩ := hp.ingested q hin
    rw [Worklist.toIngest, hnew, List.nil_append, hp.sorts.changed] at hf
    obtain ⟨hfound, v, hv, -⟩ := hf
    exact iff_of_true (contains_iff_getElem?.mpr ⟨_, hfile⟩) (htracked f v hfound.collects hv)
  · rw [contains_iff_getElem?, contains_iff_getElem?, hp.carried.kept q (not_or.mpr ⟨hremoved q, hin⟩)]

section

variable (hp : Prepared (Recorded w) w work p w₁) (hl : LinkLog work p w₁ p' w₂)
include hp hl

/-- The checkpoints of files are cleared where files were removed, and set where they were stored. -/
lemma LinkLog.file_update {u : CheckpointUpdate} (hu : u ∈ p'.updates ++ p'.advances) {q : String}
    (hkey : u.1 = .file q) :
    (p.Removed q ∧ u.2 = none) ∨ ∃ f, p.ingested[q]? = some f ∧ u.2 = some f.fingerprint := by
  rcases List.mem_append.mp hu with hu | hu
  · rcases hl.updates_new u hu with hu | ⟨f, -, rfl⟩
    · obtain ⟨q', hr, rfl | rfl⟩ := (hp.carried.updates u).mp hu
      · cases hkey
        exact Or.inl ⟨hr, rfl⟩
      · cases hkey
    · cases hkey
  · obtain ⟨q', f, hf, -, -, rfl⟩ := mem_advances.mp hu
    cases hkey
    rw [hl.ingested] at hf
    exact Or.inr ⟨f, hf, rfl⟩

/-- The checkpoints of calls are cleared where files were removed, and set where calls were linked. -/
lemma LinkLog.call_update {u : CheckpointUpdate} (hu : u ∈ p'.updates ++ p'.advances) {q : String}
    (hkey : u.1 = .callGraph q) :
    (p.Removed q ∧ u.2 = none) ∨ ∃ f ∈ work.onDisk, f.path = q ∧ u.2 = some f.fingerprint := by
  rcases List.mem_append.mp hu with hu | hu
  · rcases hl.updates_new u hu with hu | ⟨f, hf, rfl⟩
    · obtain ⟨q', hr, rfl | rfl⟩ := (hp.carried.updates u).mp hu
      · cases hkey
      · cases hkey
        exact Or.inl ⟨hr, rfl⟩
    · cases hkey
      exact Or.inr ⟨f, hf, rfl, rfl⟩
  · obtain ⟨q', f, -, -, -, rfl⟩ := mem_advances.mp hu
    cases hkey

variable (hclean : Clean p'.report)
include hclean

/-- Files that are shown have their fingerprints as checkpoints. -/
lemma LinkLog.file_checkpoint (hD : w.Shows D) :
    (w.checkpoints.state.setAll (p'.updates ++ p'.advances)).get? (.file D.path) = some D.fingerprint := by
  obtain ⟨hfailures, hfinds, -, hingested, hfree⟩ := hl.done hp hclean
  rcases found_cases hp.sorts (hfinds _ hD.collected) with hmem | ⟨-, hcheck⟩
  · obtain ⟨f, hf⟩ := contains_iff_getElem?.mp (hingested _ hmem)
    change p.ingested[D.path]? = some f at hf
    obtain ⟨D', -, hD', hpath, -, hprint, -⟩ := hp.carried.stored _ f hf
    rw [hD'.reads.unique hD.reads hpath] at hprint
    refine Checkpoints.get?_setAll_of_mem (List.mem_append_right _ ?_) fun u hu hkey => ?_
    · exact mem_advances.mpr ⟨D.path, f, by rw [hl.ingested]; exact hf,
        hp.carried.complete hfailures _ f hf, hl.free hclean.failures hfree _, by rw [hprint]⟩
    · rcases hl.file_update hp hu hkey with ⟨hr, -⟩ | ⟨f', hf', hu⟩
      · exact absurd hr (hp.not_removed hD)
      · rw [hf] at hf'
        cases hf'
        rw [hu, hprint]
  · rw [Checkpoints.get?_setAll_of_forall_ne fun u hu hkey => ?_, hcheck]
    rcases hl.file_update hp hu hkey with ⟨hr, -⟩ | ⟨f', hf', -⟩
    · exact hp.not_removed hD hr
    · have hcontains := contains_iff_getElem?.mpr ⟨f', hf'⟩
      rw [hp.not_ingested hD hcheck] at hcontains
      cases hcontains

/-- The calls of files that are shown have the fingerprints of the files as checkpoints. -/
lemma LinkLog.call_checkpoint (hD : w.Shows D) :
    (w.checkpoints.state.setAll (p'.updates ++ p'.advances)).get? (.callGraph D.path) =
      some D.fingerprint := by
  obtain ⟨-, hfinds, -, -, hfree⟩ := hl.done hp hclean
  have hall : ∀ u ∈ p'.updates ++ p'.advances, u.1 = .callGraph D.path → u.2 = some D.fingerprint := by
    intro u hu hkey
    rcases hl.call_update hp hu hkey with ⟨hr, -⟩ | ⟨f, hf, hpath, hprint⟩
    · exact absurd hr (hp.not_removed hD)
    · have : f = D.scanned := (hp.collects hf).unique hD.collected hpath
      rw [hprint, this]
      rfl
  by_cases hmem : (.callGraph D.path, some D.fingerprint) ∈ p'.updates
  · exact Checkpoints.get?_setAll_of_mem (List.mem_append_left _ hmem) hall
  · -- otherwise the checkpoint was there before
    rw [Checkpoints.get?_setAll_of_forall_ne]
    · by_contra hne
      rw [← hp.carried.calm.checkpoints] at hne
      exact hmem (hl.called hclean.failures hfree D.scanned (mem_onDisk hp.sorts (hfinds _ hD.collected))
        (Or.inr hne))
    · intro u hu hkey
      obtain ⟨key, v⟩ := u
      have hv := hall _ hu hkey
      simp only at hkey hv
      subst hkey hv
      rcases List.mem_append.mp hu with hu | hu
      · exact hmem hu
      · obtain ⟨q, f, -, -, -, hu⟩ := mem_advances.mp hu
        cases hu

/-- No other files have checkpoints. -/
lemma LinkLog.tracked (hregular : w.tree.Regular) {q v : String}
    (hv : (w.checkpoints.state.setAll (p'.updates ++ p'.advances)).get? (.file q) = some v) :
    ∃ D, w.Shows D ∧ D.path = q := by
  obtain ⟨-, -, hremoved, -⟩ := hl.done hp hclean
  by_contra hnone
  have hin : ∀ f, p.ingested[q]? ≠ some f := by
    intro f hf
    obtain ⟨D, -, hD, hpath, -⟩ := hp.carried.stored q f hf
    exact hnone ⟨D, hD, hpath⟩
  by_cases hr : p.Removed q
  · rw [Checkpoints.get?_setAll_of_mem (v := none) (List.mem_append_left _ (hl.updates_kept _ hr))
      fun u hu hkey => ?_] at hv
    · cases hv
    · rcases hl.file_update hp hu hkey with ⟨-, hu⟩ | ⟨f, hf, -⟩
      · exact hu
      · exact absurd hf (hin f)
  · rw [Checkpoints.get?_setAll_of_forall_ne fun u hu hkey => ?_] at hv
    · refine hr (hremoved q ((hp.sorts.deleted q).mpr ⟨fun f hf hpath => hnone ?_, Or.inl ⟨v, hv⟩⟩))
      obtain ⟨D, hD, rfl⟩ := hf.shows hregular
      exact ⟨D, hD, hpath⟩
    · rcases hl.file_update hp hu hkey with ⟨hq, -⟩ | ⟨f, hf, -⟩
      · exact hr hq
      · exact hin f hf

end

/-- The checkpoints are those of the documents that were shown, and no other file is stored. -/
structure Settled (w w' : World) : Prop where
  file_checkpoint : ∀ D, w.Shows D → w'.checkpoints.state.get? (.file D.path) = some D.fingerprint
  call_checkpoint : ∀ D, w.Shows D → w'.checkpoints.state.get? (.callGraph D.path) = some D.fingerprint
  tracked : ∀ q v, w'.checkpoints.state.get? (.file q) = some v → ∃ D, w.Shows D ∧ D.path = q
  stored : ∀ q, w'.store.graph.files.contains q = true → ∃ D, w.Shows D ∧ D.path = q

/-- A full run that completes settles the checkpoints, whatever was stored before. -/
theorem full_settled (hregular : w.tree.Regular) (h : Completes full w w') : Settled w w' := by
  obtain ⟨work, p, w₁, p', w₂, -, hp, hlink, hgraph, hget, hclean⟩ :=
    full_run hregular (carries_recorded w) h
  have hl := link_log hregular hp hlink
  rw [hl.calm.checkpoints.trans hp.carried.calm.checkpoints] at hget
  constructor
  case file_checkpoint =>
    intro D hD
    rw [hget]
    exact hl.file_checkpoint hp hclean hD
  case call_checkpoint =>
    intro D hD
    rw [hget]
    exact hl.call_checkpoint hp hclean hD
  case tracked =>
    intro q v hv
    rw [hget] at hv
    exact hl.tracked hp hclean hregular hv
  case stored =>
    intro q hq
    rw [hgraph, hl.files] at hq
    exact hp.shown_of_stored hregular (hl.done hp hclean).2.2.1 hq

/-! ### The graph after a run -/

lemma holds_of_tables {g g' : KnowledgeGraph} {D : Document} (h : g'.tables = g.tables)
    (hh : Holds vec g D) : Holds vec g' D := by
  simp only [tables, NodeTables.mk.injEq] at h
  obtain ⟨hfiles, hunits, hchunks, -⟩ := h
  obtain ⟨hfile, hunit, hchunk, honly⟩ := hh
  rw [← hfiles] at hfile
  rw [← hunits] at hunit
  rw [← hchunks] at hchunk honly
  exact ⟨hfile, hunit, hchunk, honly⟩

/-- All documents that are shown are held, if those that the run leaves alone were. -/
lemma Prepared.holds (hready : Ready vec 𝒟 w) (hp : Prepared (Midway vec 𝒟 w) w work p w₁)
    (hfailures : p.report.failures = []) (hfinds : ∀ f, w.Collects f → w.Finds f)
    (hingested : ∀ f ∈ work.toIngest, p.ingested.contains f.path = true)
    (hheld : ∀ D, w.Shows D → w.checkpoints.state.get? (.file D.path) = some D.fingerprint →
      Holds vec w.store.graph D) (hD : w.Shows D) : Holds vec w₁.store.graph D := by
  rcases found_cases hp.sorts (hfinds _ hD.collected) with hmem | ⟨-, hcheck⟩
  · obtain ⟨f, hf⟩ := contains_iff_getElem?.mp (hingested _ hmem)
    exact hp.carried.held D f hD hf (hp.carried.complete hfailures _ f hf)
  · exact hp.carried.evolves.holds D (hready.shown D hD) (hp.not_touched hD hcheck) (hheld D hD hcheck)

/-- The graph after both parts of a run without failures. -/
structure Integrated (vec : String → Embedding) (𝒟 : Document → Prop) (w : World) (work : Worklist)
    (p : Progress) (w₁ : World) (g : KnowledgeGraph) : Prop where
  prepared : Prepared (Midway vec 𝒟 w) w work p w₁
  finds : ∀ f, w.Collects f → w.Finds f
  tables : g.tables = w₁.store.graph.tables
  tidy : Tidy 𝒟 g
  holds : ∀ D, w.Shows D → Holds vec g D
  stored : ∀ q, g.files.contains q = true ↔ ∃ D, w.Shows D ∧ D.path = q
  all_removed : ∀ q ∈ work.deleted, p.Removed q
  all_ingested : ∀ f ∈ work.toIngest, p.ingested.contains f.path = true
  imports : ∀ D, w.Shows D → (g.ImportsCurrent D.path ↔
    Relinked work p D.path ∨ w₁.store.graph.ImportsCurrent D.path)
  calls : ∀ D, w.Shows D → (g.CallsCurrent D ↔
    Stale work p w₁.store.graph w.checkpoints.state D.scanned ∨ w₁.store.graph.CallsCurrent D)

/-- Linking without failures completes the graph, if what the run leaves alone was held. -/
lemma link_integrated (hready : Ready vec 𝒟 w) (hp : Prepared (Midway vec 𝒟 w) w work p w₁)
    (hheld : ∀ D, w.Shows D → w.checkpoints.state.get? (.file D.path) = some D.fingerprint →
      Holds vec w.store.graph D) (hlink : link work p w₁ = (.ok p', w₂)) (hclean : Clean p'.report) :
    Integrated vec 𝒟 w work p w₁ w₂.store.graph := by
  have hrecorded := hp.mono fun _ _ h => h.toRecorded
  have hl := link_ok hready.regular hrecorded hp.carried.evolves.tidy hlink
  obtain ⟨hfailures, hfinds, hremoved, hingested, hfree⟩ := hl.done hp hclean
  have himports := hl.imports_current hclean.failures hfree
  have hcalls := hl.calls_current hclean.failures hfree
  have hholds : ∀ D, w.Shows D → Holds vec w₂.store.graph D :=
    fun D hD => holds_of_tables hl.tables (hp.holds hready hfailures hfinds hingested hheld hD)
  have hfiles := hl.files
  have hunits : w₂.store.graph.units = w₁.store.graph.units := congrArg NodeTables.units hl.tables
  have hstored : ∀ q, w₂.store.graph.files.contains q = true ↔ ∃ D, w.Shows D ∧ D.path = q := by
    intro q
    constructor
    · intro hq
      rw [hfiles] at hq
      exact hrecorded.shown_of_stored hready.regular hremoved hq
    · rintro ⟨D, hD, rfl⟩
      obtain ⟨t, hfile⟩ := (hholds D hD).file
      exact contains_iff_getElem?.mpr ⟨_, hfile⟩
  constructor
  case prepared => exact hp
  case finds => exact hfinds
  case tables => exact hl.tables
  case tidy => exact hl.tidy
  case holds => exact hholds
  case stored => exact hstored
  case all_removed => exact hremoved
  case all_ingested => exact hingested
  case imports =>
    intro D hD
    constructor
    · intro hcurrent
      by_cases hrelinked : Relinked work p D.path
      · exact Or.inl hrelinked
      · refine Or.inr fun r => ?_
        rw [← hl.imports_edge _ _ hrelinked, hcurrent r]
        exact imports_of_tables hl.tables
    · rintro (hrelinked | hcurrent)
      · refine himports _ hrelinked ?_
        rw [← hfiles]
        exact (hstored _).mpr ⟨D, hD, rfl⟩
      · exact hl.imports_kept _ hcurrent
  case calls =>
    intro D hD
    rw [← hp.carried.calm.checkpoints]
    constructor
    · intro hcurrent
      by_cases hstale : Stale work p w₁.store.graph w₁.checkpoints.state D.scanned
      · exact Or.inl hstale
      · refine Or.inr fun i j u hu hpath => ?_
        simp only [← callsBy_of_tables hl.tables]
        rw [← hcurrent i j u (by rw [hunits]; exact hu) hpath]
        refine (hl.calls_edge i u _ hu fun f hf hfp => ?_).symm
        have : f = D.scanned := (hp.collects hf).unique hD.collected (hfp.trans hpath)
        rw [this]
        exact hstale
    · rintro (hstale | hcurrent)
      · exact hcalls D hD (hfinds _ hD.collected) hstale
      · exact hl.calls_kept D hD.reads hcurrent

/-! ### Both together -/

/-- What a full run that completes did, apart from the links of files that it left alone. -/
structure Completed (vec : String → Embedding) (𝒟 : Document → Prop) (w : World) (work : Worklist)
    (p : Progress) (w₁ w' : World) : Prop extends Integrated vec 𝒟 w work p w₁ w'.store.graph where
  file_checkpoint : ∀ D, w.Shows D → w'.checkpoints.state.get? (.file D.path) = some D.fingerprint
  tracked : ∀ q v, w'.checkpoints.state.get? (.file q) = some v → ∃ D, w.Shows D ∧ D.path = q

/-- A full run that completes stores what the repository shows, if what it leaves alone is held. -/
theorem full_completed (ha : Apart 𝒟) (hready : Ready vec 𝒟 w) (ht : Tidy 𝒟 w.store.graph)
    (hheld : ∀ D, w.Shows D → w.checkpoints.state.get? (.file D.path) = some D.fingerprint →
      Holds vec w.store.graph D) (h : Completes full w w') :
    ∃ work p w₁, prepare w = (.ok (work, p), w₁) ∧ Completed vec 𝒟 w work p w₁ w' := by
  obtain ⟨work, p, w₁, p', w₂, hprepare, hp, hlink, hgraph, -, hclean⟩ :=
    full_run hready.regular (carries_midway ha hready ht) h
  have hsettled := full_settled hready.regular h
  have hg := link_integrated hready hp hheld hlink hclean
  rw [← hgraph] at hg
  exact ⟨work, p, w₁, hprepare, hg, hsettled.file_checkpoint, hsettled.tracked⟩

end RepoAtlas.Sync
