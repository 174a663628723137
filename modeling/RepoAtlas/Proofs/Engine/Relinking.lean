import RepoAtlas.Engine.Sync
import RepoAtlas.Proofs.Engine.Worklist

/-!
# Linking many files

Imports and calls are linked file by file. A file that fails is reported and keeps its edges; all others
have current edges in the end, since linking does not change what links refer to.
-/

namespace RepoAtlas.Sync

open KnowledgeGraph

variable {𝒟 : Document → Prop} {w w' : World}

/-! ### Stored files -/

lemma storedFiles_ok (paths : List String) : ∀ {w w' : World} {l : List SourceFile},
    storedFiles paths w = (.ok l, w') →
    Quiet w w' ∧ ∀ f, f ∈ l ↔ ∃ p ∈ paths, w.store.graph.files[p]? = some f := by
  induction paths with
  | nil =>
    intro w w' l h
    cases h
    exact ⟨Quiet.refl w, by simp⟩
  | cons path paths ih =>
    intro w w' l h
    simp only [storedFiles] at h
    obtain ⟨node, w₁, hnode, h⟩ := Act.bind_ok h
    obtain ⟨hnode, hq⟩ := Act.ask_ok hnode
    change node = w.store.graph.files[path]?.map .sourceFile at hnode
    cases hfile : w.store.graph.files[path]? with
    | none =>
      rw [hfile] at hnode
      subst hnode
      obtain ⟨hq', hl⟩ := ih h
      refine ⟨Quiet.trans _ _ _ hq hq', fun f => ?_⟩
      rw [hl, hq.store]
      simp [hfile]
    | some file =>
      rw [hfile] at hnode
      subst hnode
      obtain ⟨rest, w₂, hrest, h⟩ := Act.bind_ok h
      cases h
      obtain ⟨hq', hl⟩ := ih hrest
      refine ⟨Quiet.trans _ _ _ hq hq', fun f => ?_⟩
      rw [List.mem_cons, hl, hq.store]
      simp [hfile, eq_comm]

/-! ### Imports -/

/-- The files of jobs, as nodes. -/
def JobNode (jobs : List ImportJob) (k : NodeKey) : Prop := ∃ j ∈ jobs, k = .file j.1

/-- After the first job, which fails and is reported or ends well, the others are linked. -/
lemma linkImports_cons {files : FileIndex} {job : ImportJob} {jobs : List ImportJob} {report report' : SyncReport}
    {failed : NameSet} (h : linkImports files report (job :: jobs) w = (.ok (failed, report'), w')) :
    (∃ e w₁ failed', Linking.imports job.1 job.2 files w = (.error e, w₁) ∧ failed = failed'.insert job.1 ∧
      linkImports files (report.fail ⟨job.1, .imports, e.message⟩) jobs w₁ = (.ok (failed', report'), w')) ∨
    ∃ outcome w₁, Linking.imports job.1 job.2 files w = (.ok outcome, w₁) ∧
      linkImports files
        { report with
          importEdgesWritten := report.importEdgesWritten + outcome.edgesWritten
          unresolvedImports := report.unresolvedImports + outcome.unresolved } jobs w₁ =
        (.ok (failed, report'), w') := by
  simp only [linkImports] at h
  obtain ⟨r, w₁, hrun, h⟩ := Act.bind_ok h
  cases r with
  | ok outcome => exact Or.inr ⟨outcome, w₁, Act.attempt_ok hrun, h⟩
  | error e =>
    obtain ⟨⟨failed', report₁⟩, w₂, hrest, h⟩ := Act.bind_ok h
    cases h
    exact Or.inl ⟨e, w₁, failed', Act.attempt_ok hrun, rfl, hrest⟩

/-- Linking imports changes the import edges of the files of its jobs only, and reports those that
fail. -/
lemma linkImports_ok (files : FileIndex) (jobs : List ImportJob) : ∀ {report report' : SyncReport}
    {failed : NameSet} {w w' : World}, linkImports files report jobs w = (.ok (failed, report'), w') →
    Calm w w' ∧ Relinks .imports (JobNode jobs) w.store.graph w'.store.graph ∧
      report'.filesDeleted = report.filesDeleted ∧ report'.cancelled = report.cancelled ∧
      (report'.failures = [] → report.failures = [] ∧ ∀ q, failed.contains q = false) := by
  induction jobs with
  | nil =>
    intro report report' failed w w' h
    cases h
    exact ⟨Calm.refl w, Relinks.refl _, rfl, rfl, fun hf => ⟨hf, by simp⟩⟩
  | cons job jobs ih =>
    intro report report' failed w w' h
    have hends := Linking.imports_ends job.1 job.2 files w
    have hjobs : ∀ k, JobNode jobs k → JobNode (job :: jobs) k := by
      rintro k ⟨j, hj, hk⟩
      exact ⟨j, List.mem_cons_of_mem _ hj, hk⟩
    rcases linkImports_cons h with ⟨e, w₁, failed', hrun, rfl, hrest⟩ | ⟨outcome, w₁, hrun, h⟩
    · -- the file fails, which is reported
      replace hends := hends.of_error hrun
      obtain ⟨hcalm, hrelinks, hdeleted, hcancelled, hclean⟩ := ih hrest
      rw [hends.store] at hrelinks
      refine ⟨Calm.trans _ _ _ hends.toCalm hcalm, hrelinks.mono hjobs, hdeleted, hcancelled, fun hf => ?_⟩
      have := (hclean hf).1
      simp [SyncReport.fail] at this
    · obtain ⟨hcalm₁, hrelinks₁, -⟩ := hends.of_ok hrun
      obtain ⟨hcalm, hrelinks, hdeleted, hcancelled, hclean⟩ := ih h
      refine ⟨Calm.trans _ _ _ hcalm₁ hcalm, (hrelinks₁.trans hrelinks).mono ?_, hdeleted, hcancelled, hclean⟩
      rintro k (rfl | hk)
      · exact ⟨job, by simp, rfl⟩
      · exact hjobs k hk

/-- Linking the imports of stored files makes them current, except where it fails. -/
lemma linkImports_current (files : FileIndex) (jobs : List ImportJob) : ∀ {report report' : SyncReport}
    {failed : NameSet} {w w' : World}, linkImports files report jobs w = (.ok (failed, report'), w') →
    files = FileIndex.ofPaths w.store.graph.filePaths →
    (∀ j ∈ jobs, ∃ f, w.store.graph.files[j.1]? = some f ∧ f.imports = j.2) →
    (∀ q, w.store.graph.ImportsCurrent q → w'.store.graph.ImportsCurrent q) ∧
      ∀ j ∈ jobs, failed.contains j.1 = false → w'.store.graph.ImportsCurrent j.1 := by
  induction jobs with
  | nil =>
    intro report report' failed w w' h _ _
    cases h
    exact ⟨fun _ h => h, by simp⟩
  | cons job jobs ih =>
    intro report report' failed w w' h hindex hjobs
    obtain ⟨path, targets⟩ := job
    have hends := Linking.imports_ends path targets files w
    rcases linkImports_cons h with ⟨e, w₁, failed', hrun, rfl, hrest⟩ | ⟨outcome, w₁, hrun, h⟩
    · -- the file fails and keeps its edges
      have hgraph : w₁.store.graph = w.store.graph := by rw [(hends.of_error hrun).store]
      obtain ⟨hkeeps, hcurrent⟩ := ih hrest (by rw [hgraph, hindex])
        fun j hj => by rw [hgraph]; exact hjobs j (List.mem_cons_of_mem _ hj)
      rw [hgraph] at hkeeps
      refine ⟨hkeeps, fun j hj hno => ?_⟩
      rw [← Bool.not_eq_true, contains_insert_iff, not_or, Bool.not_eq_true] at hno
      rcases List.mem_cons.mp hj with rfl | hj
      · exact absurd rfl hno.1
      · exact hcurrent j hj hno.2
    · obtain ⟨-, hrelinks₁, hedges⟩ := hends.of_ok hrun
      obtain ⟨f, hf, himports⟩ := hjobs (path, targets) (by simp)
      simp only at hf himports
      have hsame : ∀ p q, w₁.store.graph.Imports p q ↔ w.store.graph.Imports p q :=
        fun p q => imports_of_tables hrelinks₁.tables
      have hcurrent₁ : w₁.store.graph.ImportsCurrent path := by
        intro q
        rw [hedges, hsame, hindex]
        constructor
        · rintro ⟨t, ht, hq⟩
          exact ⟨f, hf, t, by rw [himports]; exact ht, hq⟩
        · rintro ⟨f', hf', t, ht, hq⟩
          rw [hf] at hf'
          cases hf'
          exact ⟨t, by rw [← himports]; exact ht, hq⟩
      have hkeeps₁ : ∀ q, w.store.graph.ImportsCurrent q → w₁.store.graph.ImportsCurrent q := by
        intro q hq
        by_cases hp : q = path
        · rw [hp]
          exact hcurrent₁
        · intro r
          rw [hsame, ← hq r]
          refine hrelinks₁.edge _ ?_
          rintro ⟨-, hk⟩
          cases hk
          exact hp rfl
      have hpaths : w₁.store.graph.filePaths = w.store.graph.filePaths := by
        simp only [filePaths, hrelinks₁.files]
      obtain ⟨hkeeps, hcurrent⟩ := ih h (by rw [hpaths, hindex])
        fun j hj => by rw [hrelinks₁.files]; exact hjobs j (List.mem_cons_of_mem _ hj)
      refine ⟨fun q hq => hkeeps q (hkeeps₁ q hq), fun j hj hno => ?_⟩
      rcases List.mem_cons.mp hj with rfl | hj
      · exact hkeeps path hcurrent₁
      · exact hcurrent j hj hno

/-! ### Calls -/

/-- The units of files, as nodes. -/
def UnitNode (g : KnowledgeGraph) (files : List ScannedFile) (k : NodeKey) : Prop :=
  ∃ (i : String) (u : CodeUnit) (f : ScannedFile), k = .unit i ∧ g.units[i]? = some u ∧ f ∈ files ∧
    u.path = f.path

/-- Current calls stay current if nothing is linked but imports and the calls of other files. -/
lemma callsCurrent_relinks {g g' : KnowledgeGraph} {D : Document}
    {kind : EdgeKind} {moved : NodeKey → Prop} (h : g.CallsCurrent D) (hr : Relinks kind moved g g')
    (hother : ∀ (i : String) (u : CodeUnit), g.units[i]? = some u → u.path = D.path →
      ¬(.calls = kind ∧ moved (.unit i))) : g'.CallsCurrent D := by
  intro i j u hu hp
  rw [hr.units] at hu
  simp only [callsBy_of_tables hr.tables]
  rw [← h i j u hu hp]
  exact hr.edge _ (hother i u hu hp)

/-- The units that are listed for files, as nodes. -/
def ListedNode (g : KnowledgeGraph) (files : List ScannedFile) (k : NodeKey) : Prop :=
  ∃ (i : String) (f : ScannedFile), k = .unit i ∧ f ∈ files ∧ hasEntry g.unitsByFile f.path i = true

lemma ListedNode.unitNode {g : KnowledgeGraph} {files : List ScannedFile} {k : NodeKey} (ht : Tidy 𝒟 g)
    (h : ListedNode g files k) : UnitNode g files k := by
  obtain ⟨i, f, rfl, hf, hi⟩ := h
  obtain ⟨u, hu, hp⟩ := (ht.byFile _ _).mp hi
  exact ⟨i, u, f, rfl, hu, hf, hp⟩

/-- After the first file, which fails and is reported or has its fingerprint as a new checkpoint, the others
are linked. -/
lemma linkCalls_cons {p p' : Progress} {file : ScannedFile} {files : List ScannedFile}
    (h : linkCalls p (file :: files) w = (.ok p', w')) :
    (∃ e w₁, Linking.calls file w = (.error e, w₁) ∧
      linkCalls ((p.block file.path).fail ⟨file.path, .calls, e.message⟩) files w₁ = (.ok p', w')) ∨
    ∃ fingerprint outcome w₁, Linking.calls file w = (.ok (fingerprint, outcome), w₁) ∧
      linkCalls
        { p with
          report :=
            { p.report with
              callEdgesWritten := p.report.callEdgesWritten + outcome.edgesWritten
              unresolvedCalls := p.report.unresolvedCalls + outcome.unresolved }
          updates := p.updates ++ [(.callGraph file.path, some fingerprint)] } files w₁ = (.ok p', w') := by
  simp only [linkCalls] at h
  obtain ⟨r, w₁, hrun, h⟩ := Act.bind_ok h
  cases r with
  | ok r => exact Or.inr ⟨r.1, r.2, w₁, Act.attempt_ok hrun, h⟩
  | error e => exact Or.inl ⟨e, w₁, Act.attempt_ok hrun, h⟩

/-- The other files are read after the first one was linked. -/
lemma reads_others {file : ScannedFile} {files : List ScannedFile} (hcalm : Calm w w')
    (hfiles : ∀ f ∈ file :: files, ∃ D, w.Reads D ∧ D.scanned = f) :
    ∀ f ∈ files, ∃ D, w'.Reads D ∧ D.scanned = f := by
  intro f hf
  obtain ⟨D, hD, hscanned⟩ := hfiles f (List.mem_cons_of_mem _ hf)
  exact ⟨D, hcalm.reads hD, hscanned⟩

/-- Linking the calls of files that are read changes the call edges of their units only, and reports those
that fail. The others have their fingerprints as new checkpoints. -/
lemma linkCalls_ok (files : List ScannedFile) : ∀ {p p' : Progress} {w w' : World},
    linkCalls p files w = (.ok p', w') → (∀ f ∈ files, ∃ D, w.Reads D ∧ D.scanned = f) →
    Calm w w' ∧ Relinks .calls (ListedNode w.store.graph files) w.store.graph w'.store.graph ∧
      p'.ingested = p.ingested ∧ p'.report.cancelled = p.report.cancelled ∧
      (∀ u ∈ p.updates, u ∈ p'.updates) ∧
      (∀ u ∈ p'.updates, u ∈ p.updates ∨ ∃ f ∈ files, u = (.callGraph f.path, some f.fingerprint)) ∧
      (p'.report.failures = [] → p.report.failures = [] ∧ p'.blocked = p.blocked ∧
        ∀ f ∈ files, (.callGraph f.path, some f.fingerprint) ∈ p'.updates) := by
  induction files with
  | nil =>
    intro p p' w w' h _
    cases h
    exact ⟨Calm.refl w, Relinks.refl _, rfl, rfl, fun _ hu => hu, fun _ hu => Or.inl hu,
      fun hf => ⟨hf, rfl, by simp⟩⟩
  | cons file files ih =>
    intro p p' w w' h hfiles
    obtain ⟨D, hD, rfl⟩ := hfiles file (by simp)
    have hends := Linking.calls_ends hD
    have hlisted : ∀ k, ListedNode w.store.graph files k → ListedNode w.store.graph (D.scanned :: files) k := by
      rintro k ⟨i, f, hk, hf, hi⟩
      exact ⟨i, f, hk, List.mem_cons_of_mem _ hf, hi⟩
    rcases linkCalls_cons h with ⟨e, w₁, hrun, h⟩ | ⟨fingerprint, outcome, w₁, hrun, h⟩
    · -- the file fails, which is reported
      replace hends := hends.of_error hrun
      obtain ⟨hcalm, hrelinks, hingested, hcancelled, hold, hnew, hclean⟩ := ih h (reads_others hends.toCalm hfiles)
      rw [hends.store] at hrelinks
      refine ⟨Calm.trans _ _ _ hends.toCalm hcalm, hrelinks.mono hlisted, hingested, hcancelled, hold,
        fun u hu => ?_, fun hf => ?_⟩
      · rcases hnew u hu with hu | ⟨f, hf, hu⟩
        · exact Or.inl hu
        · exact Or.inr ⟨f, List.mem_cons_of_mem _ hf, hu⟩
      · have := (hclean hf).1
        simp [Progress.fail, SyncReport.fail] at this
    · obtain ⟨hcalm₁, hrelinks₁, -, hprint⟩ := hends.of_ok hrun
      change fingerprint = D.fingerprint at hprint
      subst hprint
      obtain ⟨hcalm, hrelinks, hingested, hcancelled, hold, hnew, hclean⟩ := ih h (reads_others hcalm₁ hfiles)
      have hbyFile : w₁.store.graph.unitsByFile = w.store.graph.unitsByFile :=
        congrArg NodeTables.unitsByFile hrelinks₁.tables
      refine ⟨Calm.trans _ _ _ hcalm₁ hcalm, (hrelinks₁.trans hrelinks).mono ?_, hingested, hcancelled,
        fun u hu => hold u (by simp [hu]), fun u hu => ?_, fun hf => ?_⟩
      · rintro k (⟨i, rfl, hi⟩ | hk)
        · exact ⟨i, D.scanned, rfl, by simp, hi⟩
        · simp only [ListedNode, hbyFile] at hk
          exact hlisted k hk
      · rcases hnew u hu with hu | ⟨f, hf, hu⟩
        · rcases List.mem_append.mp hu with hu | hu
          · exact Or.inl hu
          · exact Or.inr ⟨D.scanned, by simp, List.mem_singleton.mp hu⟩
        · exact Or.inr ⟨f, List.mem_cons_of_mem _ hf, hu⟩
      · obtain ⟨hfailures, hblocked, hall⟩ := hclean hf
        refine ⟨hfailures, hblocked, fun f hf => ?_⟩
        rcases List.mem_cons.mp hf with rfl | hf
        · exact hold _ (List.mem_append_right _ (by simp [Document.scanned]))
        · exact hall f hf

/-- Linking calls blocks files only. -/
lemma blocked_linkCalls (files : List ScannedFile) : ∀ {p p' : Progress} {w w' : World},
    linkCalls p files w = (.ok p', w') → ∀ q, p.blocked.contains q = true → p'.blocked.contains q = true := by
  induction files with
  | nil =>
    intro p p' w w' h q hq
    cases h
    exact hq
  | cons file files ih =>
    intro p p' w w' h q hq
    rcases linkCalls_cons h with ⟨e, w₁, -, h⟩ | ⟨fingerprint, outcome, w₁, -, h⟩
    · exact ih h q (contains_insert_iff.mpr (Or.inr hq))
    · exact ih h q hq

/-- Linking the calls of files that are read makes them current, except where it fails. -/
lemma linkCalls_current (files : List ScannedFile) : ∀ {p p' : Progress} {w w' : World},
    linkCalls p files w = (.ok p', w') → (∀ f ∈ files, ∃ D, w.Reads D ∧ D.scanned = f) →
    Tidy 𝒟 w.store.graph →
    (∀ D, w.Reads D → w.store.graph.CallsCurrent D → w'.store.graph.CallsCurrent D) ∧
      (p'.report.failures = [] → ∀ D, D.scanned ∈ files → w.Reads D → w'.store.graph.CallsCurrent D) := by
  induction files with
  | nil =>
    intro p p' w w' h _ _
    cases h
    exact ⟨fun _ _ h => h, by simp⟩
  | cons file files ih =>
    intro p p' w w' h hfiles ht
    obtain ⟨D, hD, rfl⟩ := hfiles file (by simp)
    have hends := Linking.calls_ends hD
    rcases linkCalls_cons h with ⟨e, w₁, hrun, h⟩ | ⟨fingerprint, outcome, w₁, hrun, h⟩
    · -- the file fails and keeps its edges
      replace hends := hends.of_error hrun
      have hread := reads_others hends.toCalm hfiles
      obtain ⟨hkeeps, -⟩ := ih h hread (by rw [hends.store]; exact ht)
      rw [hends.store] at hkeeps
      refine ⟨fun D' hD' => hkeeps D' (hends.toCalm.reads hD'), fun hf => ?_⟩
      obtain ⟨-, -, -, -, -, -, hclean⟩ := linkCalls_ok files h hread
      have := (hclean hf).1
      simp [Progress.fail, SyncReport.fail] at this
    · obtain ⟨hcalm₁, hrelinks₁, hcurrent₁, -⟩ := hends.of_ok hrun
      have hcurrent₁ := hcurrent₁ 𝒟 ht
      have hkeeps₁ : ∀ D', w.Reads D' → w.store.graph.CallsCurrent D' →
          w₁.store.graph.CallsCurrent D' := by
        intro D' hD' hcurrent
        by_cases hp : D'.path = D.path
        · rw [hD'.unique hD hp]
          exact hcurrent₁
        · refine callsCurrent_relinks hcurrent hrelinks₁ fun i u hu hpath => ?_
          rintro ⟨-, i', hi, hlisted⟩
          cases hi
          obtain ⟨u', hu', hpath'⟩ := (ht.byFile _ _).mp hlisted
          rw [hu] at hu'
          cases hu'
          exact hp (by rw [← hpath, hpath'])
      obtain ⟨hkeeps, hcurrent⟩ := ih h (reads_others hcalm₁ hfiles) (hrelinks₁.tidy 𝒟 ht)
      refine ⟨fun D' hD' h => hkeeps D' (hcalm₁.reads hD') (hkeeps₁ D' hD' h), fun hf D' hD' hreads => ?_⟩
      rcases List.mem_cons.mp hD' with hD' | hD'
      · rw [hreads.unique hD (congrArg ScannedFile.path hD')]
        exact hkeeps D (hcalm₁.reads hD) hcurrent₁
      · exact hcurrent hf D' hD' (hcalm₁.reads hreads)

end RepoAtlas.Sync
