import RepoAtlas.Proofs.Engine.Progress
import RepoAtlas.Proofs.Engine.Relinking

/-!
# Linking in a full run

After the first part of a full run the imports and the calls are linked that may be out of date: those of
the files that were stored, all imports if the set of files changed, and the calls of files that lost
some, that call an affected name, or whose calls were never linked at their fingerprint.
-/

namespace RepoAtlas.Sync

open KnowledgeGraph

variable {𝒟 : Document → Prop} {vec : String → Embedding} {w₀ w w' : World} {work : Worklist}
  {p p' : Progress}

/-! ### What is linked -/

/-- The imports of a file are linked again. -/
def Relinked (work : Worklist) (p : Progress) (q : String) : Prop :=
  p.ingested.contains q = true ∨ (fileSetChanged work p = true ∧ ∃ f ∈ work.unchanged, f.path = q)

/-- A file that is left alone calls an affected name. -/
def CallsAffected (work : Worklist) (p : Progress) (g : KnowledgeGraph) (q : String) : Prop :=
  (∃ f ∈ work.unchanged, f.path = q) ∧
    ∃ s, g.files[q]? = some s ∧ ∃ n ∈ s.callees, p.affected.contains n = true

/-- The calls of a file may be out of date. -/
def Stale (work : Worklist) (p : Progress) (g : KnowledgeGraph) (c : Checkpoints) (f : ScannedFile) : Prop :=
  p.ingested.contains f.path = true ∨ p.orphaned.contains f.path = true ∨
    CallsAffected work p g f.path ∨ c.get? (.callGraph f.path) ≠ some f.fingerprint

/-- The files that a run leaves alone are looked at if files or names changed. -/
lemma untouched_ok {others : List SourceFile} (h : untouched work p w = (.ok others, w')) :
    Quiet w w' ∧
      (∀ s ∈ others, ∃ f ∈ work.unchanged, w.store.graph.files[f.path]? = some s) ∧
      ((fileSetChanged work p = true ∨ ∃ n, p.affected.contains n = true) →
        ∀ f ∈ work.unchanged, p.blocked.contains f.path = false →
          ∀ s, w.store.graph.files[f.path]? = some s → s ∈ others) := by
  simp only [untouched] at h
  split at h
  · obtain ⟨hq, hmem⟩ := storedFiles_ok _ h
    refine ⟨hq, fun s hs => ?_, fun _ f hf hb s hs => ?_⟩
    · obtain ⟨q, hq, hs⟩ := (hmem s).mp hs
      obtain ⟨f, hf, rfl⟩ := List.mem_map.mp (List.mem_filter.mp hq).1
      exact ⟨f, hf, hs⟩
    · refine (hmem s).mpr ⟨f.path, List.mem_filter.mpr ⟨List.mem_map.mpr ⟨f, hf, rfl⟩, ?_⟩, hs⟩
      simp [hb]
  · rename_i hno
    cases h
    refine ⟨Quiet.refl _, by simp, fun hchanged => ?_⟩
    simp only [Bool.or_eq_true, Bool.not_eq_true', not_or, Bool.not_eq_false] at hno
    rcases hchanged with hchanged | ⟨n, hn⟩
    · exact absurd hchanged hno.1
    · rw [Std.ExtTreeSet.isEmpty_iff.mp hno.2] at hn
      simp at hn

lemma contains_callersOf {others : List SourceFile} {names : NameSet} {q : String} :
    (callersOf others names).contains q = true ↔
      ∃ s ∈ others, s.path = q ∧ ∃ n ∈ s.callees, names.contains n = true := by
  rw [callersOf, NameSet.contains_ofList, List.mem_map]
  simp only [List.mem_filter, List.any_eq_true, and_assoc]
  exact exists_congr fun s => and_congr_right fun _ => and_comm

/-- The files whose imports are linked again, with their references. -/
def importJobs (work : Worklist) (p : Progress) (others : List SourceFile) : List ImportJob :=
  p.ingested.toList.map (fun x => (x.2.path, x.2.imports)) ++
    if fileSetChanged work p then others.map importJob else []

/-- The parts of linking: first imports, then calls, the jobs of each in any order. -/
lemma link_parts (h : link work p w = (.ok p', w')) : ∃ others jobs stale w₁ failed report w₂, Quiet w w₁ ∧
    (∀ s ∈ others, ∃ f ∈ work.unchanged, w.store.graph.files[f.path]? = some s) ∧
    ((fileSetChanged work p = true ∨ ∃ n, p.affected.contains n = true) →
      ∀ f ∈ work.unchanged, p.blocked.contains f.path = false →
        ∀ s, w.store.graph.files[f.path]? = some s → s ∈ others) ∧
    jobs.Perm (importJobs work p others) ∧
    linkImports (FileIndex.ofPaths w.store.graph.filePaths) p.report jobs w₁ = (.ok (failed, report), w₂) ∧
    stale.Perm (work.onDisk.filter (Progress.needsCalls
      { p with report := report, blocked := p.blocked.join failed } (callersOf others p.affected)
      w.checkpoints.state)) ∧
    linkCalls { p with report := report, blocked := p.blocked.join failed } stale w₂ = (.ok p', w') := by
  simp only [link] at h
  obtain ⟨others, w₁, hothers, h⟩ := Act.bind_ok h
  obtain ⟨hq₁, honly, hall⟩ := untouched_ok hothers
  obtain ⟨paths, w₂, hpaths, h⟩ := Act.bind_ok h
  obtain ⟨rfl, hq₂⟩ := Act.ask_ok hpaths
  rw [Act.bind_of_ok (Act.inTurn_apply _ _)] at h
  obtain ⟨⟨failed, report⟩, w₃, himports, h⟩ := Act.bind_ok h
  have hq := Quiet.trans _ _ _ hq₁ hq₂
  rw [hq₁.store] at himports
  simp only [Act.bind_apply, Act.get_apply, Act.inTurn_apply] at h
  rw [(linkImports_ok _ _ himports).1.checkpoints, hq.checkpoints] at h
  exact ⟨others, _, _, w₂, failed, report, w₃, hq, honly, hall, Schedule.arrange_perm _ _ _, himports,
    Schedule.arrange_perm _ _ _, h⟩

/-- What linking leaves alone and what it records, whatever is stored. -/
structure LinkLog (work : Worklist) (p : Progress) (w : World) (p' : Progress) (w' : World) : Prop where
  calm : Calm w w'
  tables : w'.store.graph.tables = w.store.graph.tables
  ingested : p'.ingested = p.ingested
  cancelled : p'.report.cancelled = p.report.cancelled
  updates_kept : ∀ u ∈ p.updates, u ∈ p'.updates
  updates_new : ∀ u ∈ p'.updates, u ∈ p.updates ∨
    ∃ f ∈ work.onDisk, u = (.callGraph f.path, some f.fingerprint)
  failures : p'.report.failures = [] → p.report.failures = []
  free : p'.report.failures = [] → (∀ q, p.blocked.contains q = false) → ∀ q, p'.blocked.contains q = false
  /-- Calls that were never linked at a fingerprint are linked. -/
  called : p'.report.failures = [] → (∀ q, p.blocked.contains q = false) → ∀ f ∈ work.onDisk,
    p.ingested.contains f.path = true ∨ w.checkpoints.state.get? (.callGraph f.path) ≠ some f.fingerprint →
      (.callGraph f.path, some f.fingerprint) ∈ p'.updates

lemma LinkLog.files (h : LinkLog work p w p' w') : w'.store.graph.files = w.store.graph.files :=
  congrArg NodeTables.files h.tables

/-- The files whose calls are linked are still read. -/
lemma Prepared.reads_filter (hp : Prepared (Recorded w₀) w₀ work p w) (hregular : w₀.tree.Regular)
    {w₁ : World} (hcalm : Calm w w₁) {needed : ScannedFile → Bool} {stale : List ScannedFile}
    (hstale : stale.Perm (work.onDisk.filter needed)) : ∀ f ∈ stale, ∃ D, w₁.Reads D ∧ D.scanned = f := by
  intro f hf
  obtain ⟨D, hD, hf⟩ := hp.document hregular (List.mem_filter.mp (hstale.mem_iff.mp hf)).1
  exact ⟨D, hcalm.reads (hp.carried.calm.reads hD.reads), hf⟩

/-- Files that failed are blocked. -/
lemma not_blocked_join {failed : NameSet} (hfree : ∀ q, p.blocked.contains q = false)
    (hfailed : ∀ q, failed.contains q = false) (q : String) : (p.blocked.join failed).contains q = false := by
  rw [← Bool.not_eq_true, NameSet.contains_join, hfree, hfailed]
  simp

/-- A file that is not blocked in the end was not blocked before, and its imports were linked. -/
lemma free_of_unblocked {files : List ScannedFile} {failed : NameSet} {report : SyncReport} {q : String}
    (h : linkCalls { p with report := report, blocked := p.blocked.join failed } files w = (.ok p', w'))
    (hq : p'.blocked.contains q = false) : p.blocked.contains q = false ∧ failed.contains q = false := by
  have hno : ¬(p.blocked.join failed).contains q = true := fun hb => by
    rw [blocked_linkCalls _ h q hb] at hq
    cases hq
  rw [NameSet.contains_join, not_or, Bool.not_eq_true, Bool.not_eq_true] at hno
  exact hno

section

variable (hregular : w₀.tree.Regular) (hp : Prepared (Recorded w₀) w₀ work p w)
  (h : link work p w = (.ok p', w'))
include hregular hp h

lemma link_log : LinkLog work p w p' w' := by
  obtain ⟨others, jobs, stale, w₁, failed, report, w₂, hq, -, -, -, himports, hstale, hcalls⟩ := link_parts h
  obtain ⟨hcalm₂, hrelinks₂, -, hcancelled₂, hclean₂⟩ := linkImports_ok _ _ himports
  have hcalm : Calm w w₂ := Calm.trans _ _ _ hq.toCalm hcalm₂
  obtain ⟨hcalm₃, hrelinks₃, hingested, hcancelled, hold, hnew, hclean⟩ := linkCalls_ok _ hcalls
    (hp.reads_filter hregular hcalm hstale)
  have hfailed : p'.report.failures = [] → (∀ q, p.blocked.contains q = false) →
      ∀ q, (p.blocked.join failed).contains q = false := by
    intro hf hfree
    exact not_blocked_join hfree (hclean₂ (hclean hf).1).2
  constructor
  case calm => exact Calm.trans _ _ _ hcalm hcalm₃
  case tables => rw [hrelinks₃.tables, hrelinks₂.tables, hq.store]
  case ingested => exact hingested
  case cancelled => exact hcancelled.trans hcancelled₂
  case updates_kept => exact hold
  case updates_new =>
    intro u hu
    rcases hnew u hu with hu | ⟨f, hf, hu⟩
    · exact Or.inl hu
    · exact Or.inr ⟨f, (List.mem_filter.mp (hstale.mem_iff.mp hf)).1, hu⟩
  case failures => exact fun hf => (hclean₂ (hclean hf).1).1
  case free =>
    intro hf hfree q
    rw [(hclean hf).2.1]
    exact hfailed hf hfree q
  case called =>
    intro hf hfree f hdisk hcase
    refine (hclean hf).2.2 f (hstale.mem_iff.mpr (List.mem_filter.mpr ⟨hdisk, ?_⟩))
    simp only [Progress.needsCalls, hfailed hf hfree, Bool.or_eq_true, Bool.and_eq_true,
      bne_iff_ne, Bool.not_false, true_and]
    rcases hcase with hcase | hcase
    · exact Or.inl hcase
    · exact Or.inr (Or.inr hcase)

/-- Linking makes the imports current that may be out of date, but for files that are blocked. -/
lemma link_imports (hkeyed : KeyedBy SourceFile.path w.store.graph.files) :
    (∀ q, w.store.graph.ImportsCurrent q → w'.store.graph.ImportsCurrent q) ∧
      (∀ q r, ¬Relinked work p q → (w'.store.graph.hasEdge ⟨.imports, .file q, .file r⟩ = true ↔
        w.store.graph.hasEdge ⟨.imports, .file q, .file r⟩ = true)) ∧
      ∀ q, Relinked work p q → w.store.graph.files.contains q = true → p'.blocked.contains q = false →
        w'.store.graph.ImportsCurrent q := by
  obtain ⟨others, jobs, stale, w₁, failed, report, w₂, hq, honly, hall, hjobs, himports, hstale, hcalls⟩ :=
    link_parts h
  have hgraph : w₁.store.graph = w.store.graph := by rw [hq.store]
  have hjob : ∀ j ∈ jobs,
      (∃ f, w.store.graph.files[j.1]? = some f ∧ f.imports = j.2) ∧ Relinked work p j.1 := by
    intro j hj
    rcases List.mem_append.mp (hjobs.mem_iff.mp hj) with hj | hj
    · obtain ⟨⟨q, f⟩, hf, rfl⟩ := List.mem_map.mp hj
      rw [Std.ExtTreeMap.mem_toList_iff_getElem?_eq_some] at hf
      obtain ⟨D, t, -, -, hpath, -, hs, himports⟩ := hp.carried.stored q f hf
      simp only [hpath]
      exact ⟨⟨D.node t, hs, himports.symm⟩, Or.inl (contains_iff_getElem?.mpr ⟨f, hf⟩)⟩
    · split at hj
      · rename_i hchanged
        obtain ⟨s, hs, rfl⟩ := List.mem_map.mp hj
        obtain ⟨f, hf, hs⟩ := honly s hs
        simp only [importJob, hkeyed _ _ hs]
        exact ⟨⟨s, hs, rfl⟩, Or.inr ⟨hchanged, f, hf, rfl⟩⟩
      · cases hj
  obtain ⟨hcalm₂, hrelinks₂, -⟩ := linkImports_ok _ _ himports
  obtain ⟨hkeeps, hcurrent⟩ := linkImports_current _ _ himports (by rw [hgraph])
    fun j hj => by rw [hgraph]; exact (hjob j hj).1
  rw [hgraph] at hrelinks₂ hkeeps
  obtain ⟨-, hrelinks₃, -⟩ := linkCalls_ok _ hcalls
    (hp.reads_filter hregular (Calm.trans _ _ _ hq.toCalm hcalm₂) hstale)
  -- linking calls leaves imports alone
  have hsame : ∀ q r, w'.store.graph.hasEdge ⟨.imports, .file q, .file r⟩ = true ↔
      w₂.store.graph.hasEdge ⟨.imports, .file q, .file r⟩ = true :=
    fun q r => hrelinks₃.edge _ fun he => by cases he.1
  have hlast : ∀ q, w₂.store.graph.ImportsCurrent q → w'.store.graph.ImportsCurrent q := by
    intro q hcurrent r
    rw [imports_of_tables hrelinks₃.tables, ← hcurrent r]
    exact hsame q r
  refine ⟨fun q hcurrent => hlast q (hkeeps q hcurrent), fun q r hno => ?_, fun q hq hin hunblocked => ?_⟩
  · rw [hsame]
    refine hrelinks₂.edge _ ?_
    rintro ⟨-, j, hj, hk⟩
    cases hk
    exact hno (hjob j hj).2
  · obtain ⟨hfree, hfailed⟩ := free_of_unblocked hcalls hunblocked
    refine hlast q ?_
    rcases hq with hq | ⟨hchanged, f, hf, rfl⟩
    · obtain ⟨f, hf⟩ := contains_iff_getElem?.mp hq
      refine hcurrent (q, f.imports)
        (hjobs.mem_iff.mpr (List.mem_append_left _ (List.mem_map.mpr ⟨(q, f), ?_, ?_⟩))) hfailed
      · rw [Std.ExtTreeMap.mem_toList_iff_getElem?_eq_some]
        exact hf
      · obtain ⟨D, t, -, -, hpath, -⟩ := hp.carried.stored q f hf
        simp only [hpath]
    · obtain ⟨s, hs⟩ := contains_iff_getElem?.mp hin
      have hmem := hall (Or.inl hchanged) f hf hfree s hs
      refine hcurrent (f.path, s.imports) (hjobs.mem_iff.mpr (List.mem_append_right _ ?_)) hfailed
      rw [if_pos hchanged]
      refine List.mem_map.mpr ⟨s, hmem, ?_⟩
      rw [importJob, hkeyed _ _ hs]

end

/-- What linking did in a tidy graph. -/
structure Linked (𝒟 : Document → Prop) (w₀ : World) (work : Worklist) (p : Progress) (w : World)
    (p' : Progress) (w' : World) : Prop extends LinkLog work p w p' w' where
  tidy : Tidy 𝒟 w'.store.graph
  imports_kept : ∀ q, w.store.graph.ImportsCurrent q → w'.store.graph.ImportsCurrent q
  imports_edge : ∀ q r, ¬Relinked work p q → (w'.store.graph.hasEdge ⟨.imports, .file q, .file r⟩ = true ↔
    w.store.graph.hasEdge ⟨.imports, .file q, .file r⟩ = true)
  imports_current : p'.report.failures = [] → (∀ q, p.blocked.contains q = false) → ∀ q, Relinked work p q →
    w.store.graph.files.contains q = true → w'.store.graph.ImportsCurrent q
  calls_kept : ∀ D, w₀.Reads D → w.store.graph.CallsCurrent D → w'.store.graph.CallsCurrent D
  calls_edge : ∀ (i : String) (u : CodeUnit) (b : NodeKey), w.store.graph.units[i]? = some u →
    (∀ f ∈ work.onDisk, f.path = u.path → ¬Stale work p w.store.graph w.checkpoints.state f) →
    (w'.store.graph.hasEdge ⟨.calls, .unit i, b⟩ = true ↔ w.store.graph.hasEdge ⟨.calls, .unit i, b⟩ = true)
  calls_current : p'.report.failures = [] → (∀ q, p.blocked.contains q = false) → ∀ D, w₀.Shows D →
    w₀.Finds D.scanned → Stale work p w.store.graph w.checkpoints.state D.scanned → w'.store.graph.CallsCurrent D

/-- Linking in a tidy graph, after the first part of a run. -/
lemma link_ok (hregular : w₀.tree.Regular) (hp : Prepared (Recorded w₀) w₀ work p w)
    (ht : Tidy 𝒟 w.store.graph) (h : link work p w = (.ok p', w')) : Linked 𝒟 w₀ work p w p' w' := by
  have hcalm := hp.carried.calm
  have hkeyed := ht.keyedBy
  obtain ⟨hkept, hedge, hcurrent⟩ := link_imports hregular hp h hkeyed
  obtain ⟨others, jobs, stale, w₁, failed, report, w₂, hq, honly, hall, -, himports, hperm, hcalls⟩ :=
    link_parts h
  obtain ⟨hcalm₂, hrelinks₂, -, -, hclean₂⟩ := linkImports_ok _ _ himports
  rw [hq.store] at hrelinks₂
  have ht₂ := hrelinks₂.tidy 𝒟 ht
  have hcalm₂ : Calm w w₂ := Calm.trans _ _ _ hq.toCalm hcalm₂
  have hreads₂ := hp.reads_filter hregular hcalm₂ hperm
  obtain ⟨-, hrelinks₃, -, -, -, -, hclean₃⟩ := linkCalls_ok _ hcalls hreads₂
  obtain ⟨hkept₃, hcurrent₃⟩ := linkCalls_current _ hcalls hreads₂ ht₂
  -- exactly the stale files are linked, unless they are blocked
  have hstale : ∀ f, Progress.needsCalls { p with report := report, blocked := p.blocked.join failed }
      (callersOf others p.affected) w.checkpoints.state f = true →
        Stale work p w.store.graph w.checkpoints.state f := by
    intro f hf
    simp only [Progress.needsCalls, Bool.or_eq_true, Bool.and_eq_true, bne_iff_ne] at hf
    rcases hf with hf | ⟨-, (hf | hf) | hf⟩
    · exact Or.inl hf
    · exact Or.inr (Or.inl hf)
    · obtain ⟨s, hs, hpath, hn⟩ := contains_callersOf.mp hf
      obtain ⟨f', hf', hs⟩ := honly s hs
      have hkey := hkeyed _ _ hs
      rw [← hkey, hpath] at hs
      exact Or.inr (Or.inr (Or.inl ⟨⟨f', hf', by rw [← hkey, hpath]⟩, s, hs, hn⟩))
    · exact Or.inr (Or.inr (Or.inr hf))
  have hneeds : ∀ f, (∀ q, p.blocked.contains q = false) → (∀ q, failed.contains q = false) →
      Stale work p w.store.graph w.checkpoints.state f →
      Progress.needsCalls { p with report := report, blocked := p.blocked.join failed }
        (callersOf others p.affected) w.checkpoints.state f = true := by
    intro f hfree hfailed hf
    simp only [Progress.needsCalls, not_blocked_join hfree hfailed, Bool.or_eq_true, Bool.and_eq_true,
      bne_iff_ne, Bool.not_false, true_and]
    rcases hf with hf | hf | ⟨⟨f', hf', hpath⟩, s, hs, n, hn, haffected⟩ | hf
    · exact Or.inl hf
    · exact Or.inr (Or.inl (Or.inl hf))
    · refine Or.inr (Or.inl (Or.inr (contains_callersOf.mpr ⟨s, ?_, hkeyed _ _ hs, n, hn, haffected⟩)))
      rw [← hpath] at hs
      exact hall (Or.inr ⟨n, haffected⟩) f' hf' (hfree _) s hs
    · exact Or.inr (Or.inr hf)
  constructor
  case toLinkLog => exact link_log hregular hp h
  case tidy => exact hrelinks₃.tidy 𝒟 ht₂
  case imports_kept => exact hkept
  case imports_edge => exact hedge
  case imports_current =>
    exact fun hf hfree q hq hin => hcurrent q hq hin ((link_log hregular hp h).free hf hfree q)
  case calls_kept =>
    intro D hD hcurrent
    refine hkept₃ D (hcalm₂.reads (hcalm.reads hD)) (callsCurrent_relinks hcurrent hrelinks₂ ?_)
    exact fun _ _ _ _ he => by cases he.1
  case calls_edge =>
    intro i u b hu hno
    have himports : w₂.store.graph.hasEdge ⟨.calls, .unit i, b⟩ = true ↔
        w.store.graph.hasEdge ⟨.calls, .unit i, b⟩ = true := hrelinks₂.edge _ fun he => by cases he.1
    rw [← himports]
    refine hrelinks₃.edge _ ?_
    rintro ⟨-, hlisted⟩
    obtain ⟨i', u', f, hi, hu', hf, hpath⟩ := hlisted.unitNode ht₂
    cases hi
    rw [hrelinks₂.units, hu] at hu'
    cases hu'
    obtain ⟨hf, hneeds⟩ := List.mem_filter.mp (hperm.mem_iff.mp hf)
    exact hno f hf hpath.symm (hstale f hneeds)
  case calls_current =>
    intro hf hfree D hD hread hDstale
    have hmem := List.mem_filter.mpr
      ⟨mem_onDisk hp.sorts hread, hneeds _ hfree (hclean₂ (hclean₃ hf).1).2 hDstale⟩
    exact hcurrent₃ hf D (hperm.mem_iff.mpr hmem) (hcalm₂.reads (hcalm.reads hD.reads))

end RepoAtlas.Sync
