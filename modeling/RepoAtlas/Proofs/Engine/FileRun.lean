import RepoAtlas.Proofs.Engine.FullRun

/-!
# Runs for one file

A run for one file removes it or stores it by one batch. It then links the imports that may have changed
and clears the checkpoints of calls that may be out of date. This is what such runs do if they complete,
whatever the graph holds besides; an event leads to at most one of them.
-/

namespace RepoAtlas.Sync

open KnowledgeGraph

variable {w w' : World} {D : Document} {path : String}

/-! ### Removing a file -/

/-- Stored files are listed under their paths. -/
lemma storedFiles_filePaths {l : List SourceFile} {paths : List String}
    (hkeyed : KeyedBy SourceFile.path w.store.graph.files) (h : storedFiles paths w = (.ok l, w')) :
    Quiet w w' ∧ (∀ s ∈ l, s.path ∈ paths ∧ w.store.graph.files[s.path]? = some s) ∧
      ∀ q ∈ paths, ∀ s, w.store.graph.files[q]? = some s → s ∈ l := by
  obtain ⟨hq, hmem⟩ := storedFiles_ok _ h
  refine ⟨hq, fun s hs => ?_, fun q hq s hs => (hmem s).mpr ⟨q, hq, hs⟩⟩
  obtain ⟨q, hq, hs⟩ := (hmem s).mp hs
  rw [hkeyed q s hs]
  exact ⟨hq, hs⟩

/-- Counting embeddings anew changes nothing else. -/
lemma quiet_startRun : Act.Keeps Quiet startRun := fun _ => ⟨⟨rfl, rfl, rfl, rfl, rfl, fun _ h => h⟩, rfl⟩

/-- Updates that clear checkpoints. -/
def clears (keys : List CheckpointKey) : List CheckpointUpdate := keys.map fun k => (k, none)

/-- Checkpoints that are cleared, among updates that clear only. -/
lemma get?_setAll_clears (c : Checkpoints) (keys : List CheckpointKey) (k : CheckpointKey) :
    (c.setAll (clears keys)).get? k = if k ∈ keys then none else c.get? k := by
  split
  · rename_i hk
    refine Checkpoints.get?_setAll_of_mem (List.mem_map.mpr ⟨k, hk, rfl⟩) fun u hu _ => ?_
    obtain ⟨k', -, rfl⟩ := List.mem_map.mp hu
    rfl
  · rename_i hk
    refine Checkpoints.get?_setAll_of_forall_ne fun u hu hkey => ?_
    obtain ⟨k', hk', rfl⟩ := List.mem_map.mp hu
    exact hk (hkey ▸ hk')

/-- Linking the other files after one was removed. -/
lemma linkOthers_ok {units : List CodeUnit} {callers : NameSet} {report : SyncReport}
    (hkeyed : KeyedBy SourceFile.path w.store.graph.files)
    (h : linkOthers units w = (.ok (callers, report), w')) (hfailures : report.failures = []) : Calm w w' ∧
      (∃ moved, Relinks .imports moved w.store.graph w'.store.graph) ∧
      (∀ q, w.store.graph.files.contains q = true → w'.store.graph.ImportsCurrent q) ∧
      ∀ (q : String) (s : SourceFile), w.store.graph.files[q]? = some s →
        (∃ n ∈ s.callees, ∃ u ∈ units, u.name = n) → callers.contains q = true := by
  simp only [linkOthers] at h
  obtain ⟨paths, w₁, hpaths, h⟩ := Act.bind_ok h
  obtain ⟨rfl, hq₁⟩ := Act.ask_ok hpaths
  obtain ⟨others, w₂, hothers, h⟩ := Act.bind_ok h
  obtain ⟨hq₂, honly, hall⟩ := storedFiles_filePaths (by rw [hq₁.store]; exact hkeyed) hothers
  have hq := Quiet.trans _ _ _ hq₁ hq₂
  rw [hq₁.store] at honly hall
  have hgraph : w₂.store.graph = w.store.graph := by rw [hq.store]
  rw [Act.bind_of_ok (Act.inTurn_apply _ _)] at h
  obtain ⟨⟨failed, report'⟩, w₃, himports, h⟩ := Act.bind_ok h
  obtain ⟨hcalm, hrelinks, -, -, hclean⟩ := linkImports_ok _ _ himports
  obtain ⟨-, hcurrent⟩ := linkImports_current _ _ himports (by rw [hgraph]) fun j hj => by
    obtain ⟨s, hs, rfl⟩ := List.mem_map.mp (Schedule.mem_arrange.mp hj)
    rw [hgraph]
    exact ⟨s, (honly s hs).2, rfl⟩
  cases h
  rw [hgraph] at hrelinks
  have hlisted : ∀ (q : String) (s : SourceFile), w.store.graph.files[q]? = some s → s ∈ others := fun q s hs =>
    hall q (mem_filePaths.mpr (contains_iff_getElem?.mpr ⟨s, hs⟩)) s hs
  refine ⟨Calm.trans _ _ _ hq.toCalm hcalm, ⟨_, hrelinks⟩, fun q hstored => ?_, fun q s hs hn => ?_⟩
  · obtain ⟨s, hs⟩ := contains_iff_getElem?.mp hstored
    rw [← hkeyed q s hs]
    exact hcurrent (importJob s) (Schedule.mem_arrange.mpr (List.mem_map.mpr ⟨s, hlisted q s hs, rfl⟩))
      ((hclean hfailures).2 _)
  · obtain ⟨n, hmem, hu⟩ := hn
    exact contains_callersOf.mpr ⟨s, hlisted q s hs, hkeyed q s hs, n, hmem,
      NameSet.contains_ofList.mpr (List.mem_map.mpr hu)⟩

/-- What removing a file did if it completed: the batch that removes it, links, and checkpoints that are
cleared. -/
structure RemovalRun (path : String) (stale : NameSet) (w w' : World) : Prop where
  relinks : ∃ moved, Relinks .imports moved (w.store.graph.applyBatch [.removeFile path]).graph w'.store.graph
  /-- All imports are linked again if a file went. -/
  imports : 0 < (w.store.graph.applyBatch [.removeFile path]).summary.nodesRemoved → ∀ q,
    (w.store.graph.applyBatch [.removeFile path]).graph.files.contains q = true →
      w'.store.graph.ImportsCurrent q
  unlinked : ¬0 < (w.store.graph.applyBatch [.removeFile path]).summary.nodesRemoved →
    w'.store.graph = (w.store.graph.applyBatch [.removeFile path]).graph
  orphans : ∀ q, (w.store.graph.applyBatch [.removeFile path]).Orphaned q → stale.contains q = true
  callers : 0 < (w.store.graph.applyBatch [.removeFile path]).summary.nodesRemoved →
    ∀ (q : String) (s : SourceFile),
      (w.store.graph.applyBatch [.removeFile path]).graph.files[q]? = some s →
        (∃ n ∈ s.callees, ∃ u ∈ w.store.graph.unitsInFile path, u.name = n) → stale.contains q = true
  file_checkpoint : ∀ q, w'.checkpoints.state.get? (.file q) =
    if q = path then none else w.checkpoints.state.get? (.file q)
  call_checkpoint : ∀ q, w'.checkpoints.state.get? (.callGraph q) =
    if q = path ∨ stale.contains q = true then none else w.checkpoints.state.get? (.callGraph q)

lemma keyedBy_removeFile {g : KnowledgeGraph} (h : KeyedBy SourceFile.path g.files) :
    KeyedBy SourceFile.path (g.applyBatch [.removeFile path]).graph.files := by
  intro q s hs
  change (Draft.removeFile { graph := g } path).graph.files[q]? = some s at hs
  by_cases hq : q = path
  · rw [hq, Draft.file_removeFile] at hs
    cases hs
  · rw [Draft.files_removeFile _ _ hq] at hs
    exact h q s hs

lemma removeFile_run (hkeyed : KeyedBy SourceFile.path w.store.graph.files)
    (h : Completes (removeFile path) w w') : ∃ stale, RemovalRun path stale w w' := by
  obtain ⟨r, hrun, hclean⟩ := h
  simp only [Sync.removeFile, startRun] at hrun
  obtain ⟨⟨⟩, w₁, hstart, hrun⟩ := Act.bind_ok hrun
  cases hstart
  obtain ⟨⟨units, summary⟩, w₂, hremove, hrun⟩ := Act.bind_ok hrun
  have hends := remove_ends path { w with embedder := w.embedder.forRun }
  rw [hremove] at hends
  obtain ⟨hcalm₂, hunits, hgraph₂, hsummary⟩ := hends
  simp only at hunits hgraph₂ hsummary hrun
  obtain ⟨⟨callers, report⟩, w₃, hlink, hrun⟩ := Act.bind_ok hrun
  obtain ⟨⟨⟩, w₄, hfinish, hrun⟩ := Act.bind_ok hrun
  obtain ⟨hsaved, hget⟩ := finish_ok hfinish
  cases hrun
  have hfailures : report.failures = [] := by
    have := hclean.failures
    split at this <;> exact this
  have hlinked : Calm w₂ w₃ ∧ (∃ moved, Relinks .imports moved w₂.store.graph w₃.store.graph) ∧
      (0 < summary.nodesRemoved → (∀ q, w₂.store.graph.files.contains q = true →
        w₃.store.graph.ImportsCurrent q) ∧
      ∀ (q : String) (s : SourceFile), w₂.store.graph.files[q]? = some s →
        (∃ n ∈ s.callees, ∃ u ∈ units, u.name = n) → callers.contains q = true) ∧
      (¬0 < summary.nodesRemoved → w₃.store.graph = w₂.store.graph) := by
    split at hlink
    · rename_i hpos
      obtain ⟨hcalm, hrelinks, himports, hcallers⟩ :=
        linkOthers_ok (by rw [hgraph₂]; exact keyedBy_removeFile hkeyed) hlink hfailures
      exact ⟨hcalm, hrelinks, fun _ => ⟨himports, hcallers⟩, fun h => absurd hpos h⟩
    · rename_i hzero
      cases hlink
      exact ⟨Calm.refl _, ⟨fun _ => False, Relinks.refl _⟩, fun h => absurd h hzero, fun _ => rfl⟩
  obtain ⟨hcalm₃, hrelinks, hpos, hzero⟩ := hlinked
  rw [hgraph₂, ← hsaved.graph] at hrelinks hpos hzero
  rw [hsummary, hunits] at hpos
  rw [hsummary] at hzero
  have hget : ∀ k, w'.checkpoints.state.get? k =
      if k ∈ [.file path, .callGraph path] ++
          (NameSet.join summary.orphanedCallers callers).toList.map CheckpointKey.callGraph
        then none else w.checkpoints.state.get? k := by
    intro k
    rw [hget, ← get?_setAll_clears, hcalm₃.checkpoints, hcalm₂.checkpoints]
    simp [clears, Function.comp_def]
  refine ⟨NameSet.join summary.orphanedCallers callers, hrelinks, fun h => (hpos h).1, hzero, fun q hq => ?_,
    fun h q s hs hn => ?_, fun q => ?_, fun q => ?_⟩
  · rw [NameSet.contains_join, hsummary]
    exact Or.inl hq
  · rw [NameSet.contains_join]
    exact Or.inr ((hpos h).2 q s hs hn)
  · rw [hget]
    simp
  · rw [hget]
    simp

/-! ### Storing a file -/

/-- What is linked after a file was stored, and which checkpoints change. -/
lemma linkFile_ok {isNew : Bool} {f : IngestedFile} {s : SourceFile} {report report' : SyncReport}
    {updates : List CheckpointUpdate} (hkeyed : KeyedBy SourceFile.path w.store.graph.files)
    (hs : w.store.graph.files[path]? = some s) (himports : f.imports = s.imports)
    (h : linkFile path isNew f report w = (.ok (updates, report'), w')) (hfailures : report'.failures = []) :
    report.failures = [] ∧ w'.checkpoints = w.checkpoints ∧
      (∃ moved, Relinks .imports moved w.store.graph w'.store.graph) ∧
      (∀ q, w.store.graph.ImportsCurrent q → w'.store.graph.ImportsCurrent q) ∧
      (∀ q, w.store.graph.files.contains q = true → q = path ∨ isNew = true →
        w'.store.graph.ImportsCurrent q) ∧
      ∃ stale : NameSet,
        updates = (if f.isComplete then [(.file path, some f.fingerprint)] else []) ++
          clears (stale.toList.map CheckpointKey.callGraph) ∧
        stale.contains path = true ∧
        (∀ q, f.orphanedCallers.contains q = true → stale.contains q = true) ∧
        ∀ (q : String) (s : SourceFile), q ≠ path → w.store.graph.files[q]? = some s →
          (∃ n ∈ s.callees, f.unitNames.contains n = true) → stale.contains q = true := by
  simp only [linkFile] at h
  obtain ⟨paths, w₁, hpaths, h⟩ := Act.bind_ok h
  obtain ⟨rfl, hq₁⟩ := Act.ask_ok hpaths
  obtain ⟨others, w₂, hothers, h⟩ := Act.bind_ok h
  obtain ⟨hq₂, honly, hall⟩ := storedFiles_filePaths (by rw [hq₁.store]; exact hkeyed) hothers
  have hq := Quiet.trans _ _ _ hq₁ hq₂
  rw [hq₁.store] at honly hall
  have hgraph : w₂.store.graph = w.store.graph := by rw [hq.store]
  have hlisted : ∀ (q : String) (s : SourceFile), q ≠ path → w.store.graph.files[q]? = some s →
      s ∈ others := by
    intro q s hne hs
    refine hall q (List.mem_filter.mpr ⟨mem_filePaths.mpr (contains_iff_getElem?.mpr ⟨s, hs⟩), ?_⟩) s hs
    simpa using hne
  rw [Act.bind_of_ok (Act.inTurn_apply _ _)] at h
  obtain ⟨⟨failed, report₁⟩, w₃, hlink, h⟩ := Act.bind_ok h
  obtain ⟨hcalm, hrelinks, -, -, hclean⟩ := linkImports_ok _ _ hlink
  obtain ⟨hkeeps, hcurrent⟩ := linkImports_current _ _ hlink (by rw [hgraph]) fun j hj => by
    rw [hgraph]
    rcases List.mem_cons.mp (Schedule.mem_arrange.mp hj) with rfl | hj
    · exact ⟨s, hs, himports.symm⟩
    · split at hj
      · obtain ⟨s, hs, rfl⟩ := List.mem_map.mp hj
        exact ⟨s, (honly s hs).2, rfl⟩
      · cases hj
  obtain ⟨⟨⟩, w₄, hcommit, h⟩ := Act.bind_ok h
  have hcommitted := Act.committed_commit.of_ok hcommit
  cases h
  obtain ⟨hreport, hfailed⟩ := hclean hfailures
  rw [hgraph] at hrelinks hkeeps
  rw [← hcommitted.graph] at hrelinks hkeeps hcurrent
  refine ⟨hreport, ?_, ⟨_, hrelinks⟩, hkeeps, fun q hstored hq => ?_,
    ((callersOf others f.unitNames).join f.orphanedCallers).insert path, ?_, ?_, fun q hq => ?_,
    fun q s hne hs hn => ?_⟩
  · rw [hcommitted.checkpoints, hcalm.checkpoints, hq.checkpoints]
  · by_cases hp : q = path
    · subst hp
      exact hcurrent (q, f.imports) (Schedule.mem_arrange.mpr (by simp)) (hfailed _)
    · have hnew := hq.resolve_left hp
      obtain ⟨s, hs⟩ := contains_iff_getElem?.mp hstored
      rw [← hkeyed q s hs]
      refine hcurrent (importJob s) (Schedule.mem_arrange.mpr (List.mem_cons_of_mem _ ?_)) (hfailed _)
      rw [if_pos hnew]
      exact List.mem_map.mpr ⟨s, hlisted q s hp hs, rfl⟩
  · rw [hfailed]
    simp only [clears, List.map_map, Function.comp_def, Bool.not_false, Bool.and_true]
  · rw [contains_insert_iff]
    exact Or.inl rfl
  · rw [contains_insert_iff, NameSet.contains_join]
    exact Or.inr (Or.inr hq)
  · rw [contains_insert_iff, NameSet.contains_join]
    exact Or.inr (Or.inl (contains_callersOf.mpr ⟨s, hlisted q s hne hs, hkeyed q s hs, hn⟩))

/-- What storing a document did if it completed: the batch that stores it, links, and checkpoints. -/
structure StorageRun (D : Document) (isNew : Bool) (f : IngestedFile) (w₁ : World) (stale : NameSet)
    (w w' : World) : Prop where
  stores : Ingest.Stores D f w w₁
  complete : f.isComplete = true
  relinks : ∃ moved, Relinks .imports moved w₁.store.graph w'.store.graph
  imports_kept : ∀ q, w₁.store.graph.ImportsCurrent q → w'.store.graph.ImportsCurrent q
  /-- All imports are linked again if the file is new. -/
  imports : ∀ q, w₁.store.graph.files.contains q = true → q = D.path ∨ isNew = true →
    w'.store.graph.ImportsCurrent q
  self : stale.contains D.path = true
  orphans : ∀ q, f.orphanedCallers.contains q = true → stale.contains q = true
  callers : ∀ (q : String) (s : SourceFile), q ≠ D.path → w₁.store.graph.files[q]? = some s →
    (∃ n ∈ s.callees, f.unitNames.contains n = true) → stale.contains q = true
  file_checkpoint : ∀ q, w'.checkpoints.state.get? (.file q) =
    if q = D.path then some D.fingerprint else w.checkpoints.state.get? (.file q)
  call_checkpoint : ∀ q, w'.checkpoints.state.get? (.callGraph q) =
    if stale.contains q = true then none else w.checkpoints.state.get? (.callGraph q)

lemma keyedBy_stores {f : IngestedFile} (h : Ingest.Stores D f w w')
    (hkeyed : KeyedBy SourceFile.path w.store.graph.files) :
    KeyedBy SourceFile.path w'.store.graph.files := by
  obtain ⟨t, ht⟩ := h.files
  rw [ht]
  exact hkeyed.insert rfl

lemma storeFile_run {isNew : Bool} {report : SyncReport} (hkeyed : KeyedBy SourceFile.path w.store.graph.files)
    (hreads : w.Reads D) (h : Completes (storeFile D.scanned isNew report) w w') :
    ∃ f w₁ stale, StorageRun D isNew f w₁ stale w w' := by
  obtain ⟨r, hrun, hclean⟩ := h
  simp only [Sync.storeFile] at hrun
  obtain ⟨o, w₁, hingest, hbecomes⟩ := Ingest.file_becomes hreads
  rw [Act.bind_of_ok hingest] at hrun
  obtain ⟨⟨updates, report'⟩, w₂, hlink, hrun⟩ := Act.bind_ok hrun
  obtain ⟨⟨⟩, w₃, hset, hrun⟩ := Act.bind_ok hrun
  obtain ⟨hsaved, hget⟩ := Act.setCheckpoints_ok hset
  cases hrun
  have hfailures : report'.failures = [] := hclean.failures
  cases o with
  | failed f =>
    cases hlink
    simp [SyncReport.fail] at hfailures
  | ingested f =>
    have hstores : Ingest.Stores D f w w₁ := hbecomes
    obtain ⟨t, hfile⟩ := hstores.file_self
    obtain ⟨hreport, hcheckpoints, hrelinks, hkeeps, himports, stale, hupdates, hself, horphans,
      hcallers⟩ := linkFile_ok (keyedBy_stores hstores hkeyed) hfile (hstores.imports t) hlink hfailures
    have hcomplete : f.isComplete = true := by
      simp only [SyncReport.addIngested, List.append_eq_nil_iff, Option.toList_eq_nil_iff] at hreport
      simp [IngestedFile.isComplete, hreport.2]
    rw [← hsaved.graph] at hrelinks hkeeps himports
    have hget : ∀ k, w'.checkpoints.state.get? k =
        if k ∈ stale.toList.map CheckpointKey.callGraph then none
        else if k = .file D.path then some D.fingerprint else w.checkpoints.state.get? k := by
      intro k
      rw [hget, hupdates, if_pos hcomplete, hcheckpoints, hstores.calm.checkpoints, hstores.fingerprint,
        Checkpoints.setAll, List.foldl_append]
      exact (get?_setAll_clears _ _ k).trans (by rw [List.foldl_cons, List.foldl_nil, Checkpoints.get?_set])
    refine ⟨f, w₁, stale, hstores, hcomplete, hrelinks, hkeeps, himports, hself, horphans, hcallers,
      fun q => ?_, fun q => ?_⟩
    · rw [hget]
      simp
    · rw [hget]
      simp

/-! ### Events -/

/-- A run for one file that completes did nothing but ask, or removed the file, or stored a document that
is read there. A file without a checkpoint is stored as a new one. -/
lemma file_cases (h : Completes (file path) w w') : Quiet w w' ∨ ∃ w₁, Quiet w w₁ ∧
    (Completes (removeFile path) w₁ w' ∨ ∃ D isNew report, w.Reads D ∧ D.path = path ∧
      (w.checkpoints.state.get? (.file path) = none → isNew = true) ∧
      Completes (storeFile D.scanned isNew report) w₁ w') := by
  obtain ⟨r, hrun, hclean⟩ := h
  simp only [Sync.file] at hrun
  obtain ⟨⟨⟩, w₁, hstart, hrun⟩ := Act.bind_ok hrun
  obtain ⟨f, w₂, hfilter, hrun⟩ := Act.bind_ok hrun
  have hq : Quiet w w₂ := Quiet.trans _ _ _ (quiet_startRun.of_ok hstart) (Act.asks_quiet.filter.of_ok hfilter)
  simp only [Act.bind_apply, Act.get_apply, hq.readFile, hq.registry, hq.checkpoints] at hrun
  split at hrun
  · cases hrun
  split at hrun
  · cases hrun
    exact Or.inl hq
  cases hread : w.readFile path with
  | error e =>
    rw [hread] at hrun
    cases e with
    | notFound => exact Or.inr ⟨w₂, hq, Or.inl ⟨r, hrun, hclean⟩⟩
    | _ => cases hrun
  | ok content =>
    rw [hread] at hrun
    simp only at hrun
    cases hdetect : w.registry.detect? path with
    | none =>
      rw [hdetect] at hrun
      cases hrun
      exact Or.inl hq
    | some language =>
      rw [hdetect] at hrun
      simp only at hrun
      -- the file is that of a document
      obtain ⟨x, hx⟩ := Registry.exists_extraction hdetect (Text.lossy content)
      have hreads : w.Reads ⟨path, language, fingerprintBytes content, x⟩ :=
        ⟨hdetect, content, World.readAt_of_readFile hread, rfl, hx⟩
      cases hcheck : w.checkpoints.state.get? (.file path) with
      | none =>
        rw [hcheck] at hrun
        exact Or.inr ⟨w₂, hq, Or.inr ⟨_, true, _, hreads, rfl, fun _ => rfl, r, hrun, hclean⟩⟩
      | some v =>
        rw [hcheck] at hrun
        simp only at hrun
        split at hrun
        · cases hrun
          exact Or.inl hq
        · exact Or.inr ⟨w₂, hq, Or.inr ⟨_, false, _, hreads, rfl, fun h => (by cases h), r, hrun, hclean⟩⟩

/-- An event that completes is such a run. -/
lemma event_cases {e : FileEvent} (h : Completes (event e) w w') : Quiet w w' ∨ ∃ w₁, Quiet w w₁ ∧
    (Completes (removeFile e.path) w₁ w' ∨ ∃ D isNew report, w.Reads D ∧ D.path = e.path ∧
      (w.checkpoints.state.get? (.file e.path) = none → isNew = true) ∧
      Completes (storeFile D.scanned isNew report) w₁ w') := by
  simp only [Sync.event] at h
  split at h
  · exact file_cases h
  · exact file_cases h
  · exact Or.inr ⟨w, Quiet.refl w, Or.inl h⟩

end RepoAtlas.Sync
