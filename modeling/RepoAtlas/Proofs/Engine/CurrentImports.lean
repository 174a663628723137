import RepoAtlas.Proofs.Engine.FileRun
import RepoAtlas.Proofs.Engine.Intact
import RepoAtlas.Proofs.Links.Resolution

/-!
# Import edges are current

Adding or removing one file can change what any import of any file refers to. A full run links all imports
again if a file appeared or disappeared, and an event if its file is new or went; otherwise the same files
are stored as before, and only the file that was stored can refer to others. So along histories of runs
that complete, the import edges of every stored file are what its imports refer to, whatever the documents
are.
-/

namespace RepoAtlas

open KnowledgeGraph

variable {g : KnowledgeGraph} {w w' : World} {D : Document} {f : IngestedFile}

/-! ### Import edges -/

/-- An operation on a graph that leaves import edges alone. -/
def SparesImports (g g' : KnowledgeGraph) : Prop :=
  g.Mirrored → g'.Mirrored ∧ ∀ p q, g'.hasEdge ⟨.imports, .file p, .file q⟩ = true ↔
    g.hasEdge ⟨.imports, .file p, .file q⟩ = true

namespace SparesImports

variable {g' g'' : KnowledgeGraph}

lemma trans (h : SparesImports g g') (h' : SparesImports g' g'') : SparesImports g g'' := by
  intro hm
  obtain ⟨hm', hedge⟩ := h hm
  obtain ⟨hm'', hedge'⟩ := h' hm'
  exact ⟨hm'', fun p q => (hedge' p q).trans (hedge p q)⟩

lemma foldl {β : Type} {op : Draft → β → Draft} (hop : ∀ d b, SparesImports d.graph (op d b).graph)
    (l : List β) : ∀ d : Draft, SparesImports d.graph (l.foldl op d).graph := by
  induction l with
  | nil => exact fun d hm => ⟨hm, fun _ _ => Iff.rfl⟩
  | cons b l ih => exact fun d => (hop d b).trans (ih (op d b))

end SparesImports

namespace Draft

lemma sparesImports_clearFile (d : Draft) (path : String) :
    SparesImports d.graph (d.clearFile path).graph := by
  intro hm
  have hr := removes_clearFile hm path
  refine ⟨hr.mirrored, fun p q => ?_⟩
  rw [hr.edge]
  simp [goneWithContents_file]

lemma sparesImports_upsertFile (d : Draft) (s : SourceFile) :
    SparesImports d.graph (d.upsertFile s).graph :=
  fun hm => ⟨mirrored_upsertFile hm, fun _ _ => hasEdge_upsertFile_of_ne (by simp)⟩

lemma sparesImports_upsertUnit (d : Draft) (u : CodeUnit) :
    SparesImports d.graph (d.upsertUnit u).graph :=
  fun hm => ⟨mirrored_upsertUnit hm, fun _ _ => hasEdge_upsertUnit_of_ne (by simp)⟩

lemma sparesImports_upsertChunk (d : Draft) (c : SemanticChunk) :
    SparesImports d.graph (d.upsertChunk c).graph :=
  fun hm => ⟨mirrored_upsertChunk hm, fun _ _ => hasEdge_upsertChunk_of_ne (by simp)⟩

end Draft

/-- Storing a document leaves import edges alone. -/
lemma Ingest.Stores.sparesImports (h : Ingest.Stores D f w w') :
    SparesImports w.store.graph w'.store.graph := by
  obtain ⟨t, cs, -, hgraph, -⟩ := h.batch
  rw [hgraph, applyBatch_contents]
  have hcleared := Draft.sparesImports_clearFile { graph := w.store.graph } (D.node t).path
  refine hcleared.trans ((Draft.sparesImports_upsertFile _ (D.node t)).trans ?_)
  exact (SparesImports.foldl Draft.sparesImports_upsertUnit D.units _).trans
    (SparesImports.foldl Draft.sparesImports_upsertChunk cs _)

/-- Removing a file drops the import edges to it and from it. -/
lemma hasEdge_imports_removeFile (hm : g.Mirrored) {path p q : String} :
    (g.applyBatch [.removeFile path]).graph.hasEdge ⟨.imports, .file p, .file q⟩ = true ↔
      g.hasEdge ⟨.imports, .file p, .file q⟩ = true ∧ p ≠ path ∧ q ≠ path := by
  have hr := Draft.removes_removeFile (d := { graph := g }) hm path
  refine (hr.edge ⟨.imports, .file p, .file q⟩).trans ?_
  simp [Draft.goneWithContents_file]

namespace Sync

variable {𝒟 : Document → Prop} {w₀ w₁ : World} {work : Worklist} {p : Progress} {path : String}

/-! ### Full runs -/

/-- The files are as the progress of a run says, and import edges went with removed files only. -/
structure Wired (w₀ : World) (p : Progress) (w : World) : Prop extends Recorded w₀ p w where
  mirrored : w.store.graph.Mirrored
  edge : ∀ a b, w.store.graph.hasEdge ⟨.imports, .file a, .file b⟩ = true ↔
    w₀.store.graph.hasEdge ⟨.imports, .file a, .file b⟩ = true ∧ ¬p.Removed a ∧ ¬p.Removed b

lemma carries_wired (hm : w.store.graph.Mirrored) : Carries w (Wired w) where
  calm _ _ h := h.calm
  begin work w₁ hq := by
    refine ⟨Recorded.begin work hq, ?_, fun a b => ?_⟩
    · rw [hq.store]
      exact hm
    · rw [hq.store]
      refine (and_iff_left ⟨?_, ?_⟩).symm <;> exact fun h => by cases h
  quiet p w₁ w₂ h hq := by
    refine ⟨h.toRecorded.quiet hq, ?_, ?_⟩
    · rw [hq.store]
      exact h.mirrored
    · rw [hq.store]
      exact h.edge
  mark p w₁ report blocked h hf hd := ⟨h.toRecorded.mark report blocked hf hd, h.mirrored, h.edge⟩
  removes p w₁ w₂ path units s h hnew hcalm _ hgraph _ := by
    refine ⟨h.toRecorded.addRemoved hnew hcalm hgraph, ?_, fun a b => ?_⟩
    · rw [hgraph]
      exact (Draft.removes_removeFile (d := { graph := w₁.store.graph }) h.mirrored path).mirrored
    · rw [hgraph, hasEdge_imports_removeFile h.mirrored, h.edge, Progress.removed_addRemoved,
        Progress.removed_addRemoved]
      tauto
  stores p w₁ w₂ D f h hD hs := by
    obtain ⟨hm, hedge⟩ := hs.sparesImports h.mirrored
    exact ⟨h.toRecorded.addIngested hD hs, hm, fun a b => (hedge a b).trans (h.edge a b)⟩

/-- Checkpoints tell which files are stored, and their imports are current. -/
structure ImportsInSync (w : World) : Prop where
  tracked : ∀ q v, w.checkpoints.state.get? (.file q) = some v → w.store.graph.files.contains q = true
  current : ∀ q, w.store.graph.files.contains q = true → w.store.graph.ImportsCurrent q

lemma importsInSync_empty (hgraph : w.store.graph = {}) (hcheckpoints : w.checkpoints.state = {}) :
    ImportsInSync w := by
  constructor
  case tracked =>
    intro q v hv
    rw [hcheckpoints] at hv
    have : (∅ : TextMap)[q]? = some v := hv
    simp at this
  case current =>
    intro q hq
    rw [hgraph] at hq
    have : (∅ : Std.ExtTreeMap String SourceFile).contains q = true := hq
    simp at this

/-- A file is stored after the first part of a run without failures if it is shown. -/
lemma Prepared.stored_of_shows (hp : Prepared (Recorded w) w work p w₁)
    (hfinds : ∀ f, w.Collects f → w.Finds f)
    (hingested : ∀ f ∈ work.toIngest, p.ingested.contains f.path = true) (hsync : ImportsInSync w)
    (hD : w.Shows D) : w₁.store.graph.files.contains D.path = true := by
  rcases found_cases hp.sorts (hfinds _ hD.collected) with hmem | ⟨-, hcheck⟩
  · obtain ⟨i, hi⟩ := contains_iff_getElem?.mp (hingested _ hmem)
    obtain ⟨D', t, -, -, -, -, hfile, -⟩ := hp.carried.stored _ i hi
    exact contains_iff_getElem?.mpr ⟨_, hfile⟩
  · rw [contains_iff_getElem?, hp.carried.kept _ (hp.not_touched hD hcheck), ← contains_iff_getElem?]
    exact hsync.tracked _ _ hcheck

/-- A full run that completes keeps imports current. -/
lemma ImportsInSync.full (hsync : ImportsInSync w) (hw : w.store.graph.WellFormed)
    (hregular : w.tree.Regular) (h : Completes full w w') : ImportsInSync w' := by
  have hsettled := full_settled hregular h
  obtain ⟨work, p, w₁, p', w₂, hprepare, hwired, hlink, hgraph, -, hclean⟩ :=
    full_run hregular (carries_wired hw.adjacent.mirrored) h
  have hp := hwired.mono fun _ _ h => h.toRecorded
  have hl := link_log hregular hp hlink
  have hkeyed := (intact_prepare.of_ok hprepare hw).indexed.files
  obtain ⟨-, hfinds, -, hingested, hfree⟩ := hl.done hp hclean
  obtain ⟨hkept, -, hcurrent⟩ := link_imports hregular hp hlink hkeyed
  have hstored : ∀ D, w.Shows D → w₁.store.graph.files.contains D.path = true :=
    fun D hD => hp.stored_of_shows hfinds hingested hsync hD
  constructor
  case tracked =>
    intro q v hv
    obtain ⟨D, hD, rfl⟩ := hsettled.tracked q v hv
    rw [hgraph, hl.files]
    exact hstored D hD
  case current =>
    intro q hq
    obtain ⟨D, hD, rfl⟩ := hsettled.stored q hq
    rw [hgraph]
    by_cases hrelinked : Relinked work p D.path
    · exact hcurrent _ hrelinked (hstored D hD) (hl.free hclean.failures hfree _)
    -- otherwise the file was left alone, and no file appeared or disappeared
    rw [Relinked, not_or, not_and] at hrelinked
    obtain ⟨hnew, hset⟩ := hrelinked
    have hunchanged := (found_cases hp.sorts (hfinds _ hD.collected)).resolve_left fun hmem => hnew (hingested _ hmem)
    obtain ⟨hremoved, hfiles⟩ := hp.stored_of_fileSet (fun f v _ => hsync.tracked f.path v)
      (by rw [← Bool.not_eq_true]; exact fun h => hset h ⟨_, hunchanged.1, rfl⟩)
    refine hkept _ ((importsCurrent_congr ?_ hfiles fun r => ?_).mpr
      (hsync.current _ (hsync.tracked _ _ hunchanged.2)))
    · exact hp.carried.kept _ (hp.not_touched hD hunchanged.2)
    · rw [hwired.carried.edge]
      exact and_iff_left ⟨hremoved _, hremoved _⟩

/-! ### Events -/

/-- Removing a file keeps imports current if it completes. -/
lemma ImportsInSync.removeFile (hsync : ImportsInSync w) (hm : w.store.graph.Mirrored)
    (hkeyed : KeyedBy SourceFile.path w.store.graph.files) (h : Completes (removeFile path) w w') :
    ImportsInSync w' := by
  obtain ⟨stale, hrun⟩ := removeFile_run hkeyed h
  obtain ⟨moved, hrelinks⟩ := hrun.relinks
  have hgone : (w.store.graph.applyBatch [.removeFile path]).graph.files[path]? = none :=
    Draft.file_removeFile { graph := w.store.graph } path
  have hother : ∀ q, q ≠ path → (w.store.graph.applyBatch [.removeFile path]).graph.files[q]? =
      w.store.graph.files[q]? := fun q hq => Draft.files_removeFile { graph := w.store.graph } path hq
  constructor
  case tracked =>
    intro q v hv
    rw [hrun.file_checkpoint] at hv
    split at hv
    · cases hv
    · rename_i hq
      rw [hrelinks.files, contains_iff_getElem?, hother q hq, ← contains_iff_getElem?]
      exact hsync.tracked q v hv
  case current =>
    intro q hq
    rw [hrelinks.files] at hq
    by_cases hpos : 0 < (w.store.graph.applyBatch [.removeFile path]).summary.nodesRemoved
    · exact hrun.imports hpos q hq
    -- otherwise the file was not stored, and no import referred to it
    have hnone : w.store.graph.files[path]? = none := by
      rw [Option.eq_none_iff_forall_ne_some]
      exact fun f hf => hpos (nodesRemoved_removeFile hm (contains_iff_getElem?.mpr ⟨f, hf⟩))
    have hfiles : ∀ r : String, (w.store.graph.applyBatch [.removeFile path]).graph.files[r]? =
        w.store.graph.files[r]? := by
      intro r
      by_cases hr : r = path
      · rw [hr, hgone, hnone]
      · exact hother r hr
    have hstored : ∀ r, (w.store.graph.applyBatch [.removeFile path]).graph.files.contains r = true ↔
        w.store.graph.files.contains r = true := by
      intro r
      rw [contains_iff_getElem?, contains_iff_getElem?, hfiles]
    have hcurrent := hsync.current q ((hstored q).mp hq)
    rw [hrun.unlinked hpos]
    refine (importsCurrent_congr (hfiles q) hstored fun r => ?_).mpr hcurrent
    rw [hasEdge_imports_removeFile hm]
    refine and_iff_left_of_imp fun he => ⟨?_, ?_⟩
    · rintro rfl
      obtain ⟨f, hf⟩ := contains_iff_getElem?.mp hq
      rw [hgone] at hf
      cases hf
    · rintro rfl
      obtain ⟨f, -, t, -, hres⟩ := (hcurrent r).mp he
      obtain ⟨s, hs⟩ := contains_iff_getElem?.mp (mem_filePaths.mp (RepoAtlas.Imports.mem_of_resolve? hres))
      rw [hnone] at hs
      cases hs

/-- Storing a file keeps imports current if it completes. -/
lemma ImportsInSync.storeFile {isNew : Bool} {report : SyncReport} (hsync : ImportsInSync w)
    (hm : w.store.graph.Mirrored) (hkeyed : KeyedBy SourceFile.path w.store.graph.files) (hreads : w.Reads D)
    (hnew : w.checkpoints.state.get? (.file D.path) = none → isNew = true)
    (h : Completes (storeFile D.scanned isNew report) w w') : ImportsInSync w' := by
  obtain ⟨f, w₁, stale, hrun⟩ := storeFile_run hkeyed hreads h
  obtain ⟨moved, hrelinks⟩ := hrun.relinks
  obtain ⟨t, hself⟩ := hrun.stores.file_self
  have hin : w₁.store.graph.files.contains D.path = true := contains_iff_getElem?.mpr ⟨_, hself⟩
  constructor
  case tracked =>
    intro q v hv
    rw [hrun.file_checkpoint] at hv
    rw [hrelinks.files]
    split at hv
    · rename_i hq
      rw [hq]
      exact hin
    · rename_i hq
      rw [contains_iff_getElem?, hrun.stores.file_other hq, ← contains_iff_getElem?]
      exact hsync.tracked q v hv
  case current =>
    intro q hq
    rw [hrelinks.files] at hq
    by_cases hp : q = D.path ∨ isNew = true
    · exact hrun.imports q hq hp
    rw [not_or] at hp
    -- the file was stored before, so that the same files are stored
    have hbefore : w.store.graph.files.contains D.path = true := by
      cases hcheck : w.checkpoints.state.get? (.file D.path) with
      | none => exact absurd (hnew hcheck) hp.2
      | some v => exact hsync.tracked _ v hcheck
    have hfiles : ∀ r, w₁.store.graph.files.contains r = true ↔ w.store.graph.files.contains r = true := by
      intro r
      by_cases hr : r = D.path
      · rw [hr]
        exact iff_of_true hin hbefore
      · rw [contains_iff_getElem?, contains_iff_getElem?, hrun.stores.file_other hr]
    obtain ⟨-, hedge⟩ := hrun.stores.sparesImports hm
    exact hrun.imports_kept q ((importsCurrent_congr (hrun.stores.file_other hp.1) hfiles (hedge q)).mpr
      (hsync.current q ((hfiles q).mp hq)))

/-- An event that completes keeps imports current. -/
lemma ImportsInSync.event {e : FileEvent} (hsync : ImportsInSync w) (hw : w.store.graph.WellFormed)
    (h : Completes (event e) w w') : ImportsInSync w' := by
  have hquiet : ∀ w₁, Quiet w w₁ → ImportsInSync w₁ ∧ w₁.store.graph.WellFormed := by
    intro w₁ hq
    refine ⟨⟨?_, ?_⟩, hq.saved.intact hw⟩
    · rw [hq.checkpoints, hq.store]
      exact hsync.tracked
    · rw [hq.store]
      exact hsync.current
  rcases event_cases h with hq | ⟨w₁, hq, h⟩
  · exact (hquiet w' hq).1
  obtain ⟨hsync₁, hw₁⟩ := hquiet w₁ hq
  rcases h with h | ⟨D, isNew, report, hD, hpath, hnew, h⟩
  · exact hsync₁.removeFile hw₁.adjacent.mirrored hw₁.indexed.files h
  · refine hsync₁.storeFile hw₁.adjacent.mirrored hw₁.indexed.files (hq.toCalm.reads hD) ?_ h
    rw [hq.checkpoints, hpath]
    exact hnew

/-! ### Histories -/

/-- Along a history imports are current. -/
lemma Synced.importsInSync (h : Synced 𝒟 w) : ImportsInSync w := by
  induction h with
  | start hgraph hcheckpoints => exact importsInSync_empty hgraph hcheckpoints
  | edit _ hgraph hcheckpoints ih =>
    refine ⟨?_, ?_⟩
    · rw [hgraph, hcheckpoints]
      exact ih.tracked
    · rw [hgraph]
      exact ih.current
  | full hbefore hregular _ hrun ih => exact ih.full hbefore.visited.wellFormed hregular hrun
  | event e hbefore _ hrun ih => exact ih.event hbefore.visited.wellFormed hrun

/-- After every step of a history the import edges that leave a stored file lead exactly to the other files
that its imports refer to among all stored ones. -/
theorem hasEdge_imports_iff (h : Synced 𝒟 w) {path : String} {s : SourceFile}
    (hs : w.store.graph.files[path]? = some s) (k : NodeKey) :
    w.store.graph.hasEdge ⟨.imports, .file path, k⟩ = true ↔ ∃ q, k = .file q ∧ q ≠ path ∧
      ∃ t ∈ s.imports,
        RepoAtlas.Imports.resolve? path t (FileIndex.ofPaths w.store.graph.filePaths) = some q := by
  have hcurrent := h.importsInSync.current path (contains_iff_getElem?.mpr ⟨s, hs⟩)
  constructor
  · intro he
    have htype := h.visited.wellFormed.adjacent.typed _ he
    cases k with
    | file q =>
      obtain ⟨s', hs', t, ht, hres⟩ := (hcurrent q).mp he
      rw [hs] at hs'
      cases hs'
      exact ⟨q, rfl, ne_of_resolve? hres, t, ht, hres⟩
    | _ => cases htype
  · rintro ⟨q, rfl, -, t, ht, hres⟩
    exact (hcurrent q).mpr ⟨s, hs, t, ht, hres⟩

/-- A file appears that an import refers to rather than to the one before. -/
def overtaken : World :=
  (World.ofTexts [("main.py", "import util\n"), ("lib/util.py", "x = 1\n"), ("util.py", "x = 1\n")]).withStateOf
    (full (.ofTexts [("main.py", "import util\n"), ("lib/util.py", "x = 1\n")])).2

theorem hasEdge_imports_iff_overtaken :
    (event ⟨"util.py", .created⟩ overtaken).2.store.graph.hasEdge
      ⟨.imports, .file "main.py", .file "util.py"⟩ = true ∧
    ¬(event ⟨"util.py", .created⟩ overtaken).2.store.graph.hasEdge
      ⟨.imports, .file "main.py", .file "lib/util.py"⟩ = true := by
  set before := World.ofTexts [("main.py", "import util\n"), ("lib/util.py", "x = 1\n")] with hbefore
  set after := (event ⟨"util.py", .created⟩ overtaken).2 with hafter
  obtain ⟨hregular, hfull, hevent, himports, hresolve⟩ : before.tree.Regular ∧
      Completes full before (full before).2 ∧ Completes (event ⟨"util.py", .created⟩) overtaken after ∧
      after.store.graph.files["main.py"]?.map (·.imports) = some ["util"] ∧
      RepoAtlas.Imports.resolve? "main.py" "util" (FileIndex.ofPaths after.store.graph.filePaths) =
        some "util.py" := by
    rw [hafter, hbefore]
    decide +kernel
  have hsynced : Synced (fun _ => True) after :=
    .event _ ((Synced.full (.start rfl rfl) hregular (fun _ _ => trivial) hfull).withStateOf _)
      (fun _ _ _ => trivial) hevent
  obtain ⟨s, hs, hlist⟩ := Option.map_eq_some_iff.mp himports
  constructor
  · refine (hasEdge_imports_iff hsynced hs (.file "util.py")).mpr ⟨"util.py", rfl, by decide, "util", ?_, hresolve⟩
    rw [hlist]
    simp
  · intro he
    obtain ⟨q, hq, -, t, ht, hres⟩ := (hasEdge_imports_iff hsynced hs (.file "lib/util.py")).mp he
    cases hq
    rw [hlist, List.mem_singleton] at ht
    rw [ht, hresolve] at hres
    exact absurd hres (by decide)

end Sync

end RepoAtlas
