import RepoAtlas.Proofs.Engine.FileRun
import RepoAtlas.Proofs.Engine.Intact
import RepoAtlas.Proofs.Engine.Mirror

/-!
# Checkpoints of calls are sound

A call may refer to a unit of any file, so a change of one file can change what the calls of any other
refer to. A run links the calls of a file again, or clears their checkpoint, if a unit that they led to
went, if the file calls a name that units of the changed file have or had, or if the content of the file
is new. So along histories of runs that complete, the call edges of a file are what its calls refer to
wherever the checkpoint of its calls is its fingerprint.
-/

namespace RepoAtlas.Sync

open KnowledgeGraph

variable {𝒟 : Document → Prop} {vec : String → Embedding} {w w₁ w' : World} {work : Worklist}
  {p : Progress} {D : Document} {path : String}

/-- Where the checkpoint of the calls of a file is its fingerprint, its calls are current. -/
structure CallsInSync (𝒟 : Document → Prop) (w : World) : Prop where
  tidy : Tidy 𝒟 w.store.graph
  current : ∀ D t, 𝒟 D → w.store.graph.files[D.path]? = some (D.node t) →
    w.checkpoints.state.get? (.callGraph D.path) = some D.fingerprint → w.store.graph.CallsCurrent D

lemma callsInSync_empty (hgraph : w.store.graph = {}) (hcheckpoints : w.checkpoints.state = {}) :
    CallsInSync 𝒟 w := by
  refine ⟨?_, fun D t _ _ hcheck => ?_⟩
  · rw [hgraph]
    exact tidy_empty
  · rw [hcheckpoints] at hcheck
    have : (∅ : TextMap)[D.path]? = some D.fingerprint := hcheck
    simp at this

/-- The relation is about the graph and the checkpoints only. -/
lemma CallsInSync.congr (h : CallsInSync 𝒟 w) (hgraph : w'.store.graph = w.store.graph)
    (hcheckpoints : ∀ k, w'.checkpoints.state.get? k = w.checkpoints.state.get? k) : CallsInSync 𝒟 w' := by
  obtain ⟨htidy, hcurrent⟩ := h
  simp only [← hgraph, ← hcheckpoints] at htidy hcurrent
  exact ⟨htidy, hcurrent⟩

/-! ### Full runs -/

/-- Calls that a run has no reason to link again are as current as they were before. -/
lemma Prepared.callsCurrent_iff (hp : Prepared (Traced vec 𝒟 w) w work p w₁) (ht : Tidy 𝒟 w.store.graph)
    (hD : w.Shows D) (hfinds : w.Finds D.scanned)
    (hcheck : w.checkpoints.state.get? (.file D.path) = some D.fingerprint)
    (hfile : ∃ t, w₁.store.graph.files[D.path]? = some (D.node t))
    (hfresh : ¬Stale work p w₁.store.graph w.checkpoints.state D.scanned) :
    w₁.store.graph.CallsCurrent D ↔ w.store.graph.CallsCurrent D := by
  simp only [Stale, not_or] at hfresh
  obtain ⟨-, horphan, haffected, -⟩ := hfresh
  refine hp.carried.evolves.callsCurrent_iff ht (hp.not_touched hD hcheck) horphan fun c hcall hn => ?_
  -- a call of an affected name would have the calls linked again
  obtain ⟨t, hfile⟩ := hfile
  have hmem : D.scanned ∈ work.unchanged := (hp.sorts.unchanged _).mpr ⟨hfinds, hcheck⟩
  exact haffected ⟨⟨_, hmem, rfl⟩, _, hfile, c.name, Document.mem_callees.mpr ⟨c, hcall, rfl⟩, hn⟩

/-- A full run that completes keeps checkpoints of calls sound. -/
lemma CallsInSync.full (ha : Apart 𝒟) (hsync : CallsInSync 𝒟 w) (hregular : w.tree.Regular)
    (hshown : ∀ D, w.Shows D → 𝒟 D) (h : Completes full w w') : CallsInSync 𝒟 w' := by
  have hsettled := full_settled hregular h
  obtain ⟨work, p, w₁, p', w₂, -, hp, hlink, hgraph, -, hclean⟩ :=
    full_run hregular (carries_traced (fun _ => []) ha hshown hsync.tidy) h
  have hl := link_ok hregular (hp.mono fun _ _ h => h.toRecorded) hp.carried.evolves.tidy hlink
  obtain ⟨-, hfinds, -, hingested, hfree⟩ := hl.done hp hclean
  refine ⟨by rw [hgraph]; exact hl.tidy, fun D t hD hfile hcheck => ?_⟩
  -- what is stored was shown
  obtain ⟨D', hD', hpath⟩ := hsettled.stored D.path (contains_iff_getElem?.mpr ⟨_, hfile⟩)
  have hprint := hsettled.call_checkpoint D' hD'
  rw [hpath, hcheck] at hprint
  obtain rfl := ha.content D' D (hshown D' hD') hD hpath (Option.some.inj hprint).symm
  rw [hgraph]
  rw [hgraph, hl.files] at hfile
  by_cases hstale : Stale work p w₁.store.graph w₁.checkpoints.state D'.scanned
  · exact hl.calls_current hclean.failures hfree D' hD' (hfinds _ hD'.collected) hstale
  refine hl.calls_kept D' hD'.reads ?_
  rw [hp.carried.calm.checkpoints] at hstale
  rcases found_cases hp.sorts (hfinds _ hD'.collected) with hmem | ⟨-, hunchanged⟩
  · exact absurd (Or.inl (hingested _ hmem)) hstale
  rw [hp.callsCurrent_iff hsync.tidy hD' (hfinds _ hD'.collected) hunchanged ⟨t, hfile⟩ hstale]
  refine hsync.current D' t hD ?_ ?_
  · rw [← hp.carried.kept _ (hp.not_touched hD' hunchanged)]
    exact hfile
  · by_contra hne
    exact hstale (Or.inr (Or.inr (Or.inr hne)))

/-! ### Events -/

/-- A change under one path keeps checkpoints of calls sound if they are cleared where they have to be. -/
lemma CallsInSync.step {removed names orphans : String → Prop} {moved : NodeKey → Prop} {g : KnowledgeGraph}
    (hsync : CallsInSync 𝒟 w) (hevolves : Evolves vec 𝒟 (· = path) removed names orphans w.store.graph g)
    (hrelinks : Relinks .imports moved g w'.store.graph)
    (hcleared : w'.checkpoints.state.get? (.callGraph path) = none)
    (hcalls : ∀ (D : Document) t v, D.path ≠ path → g.files[D.path]? = some (D.node t) →
      w'.checkpoints.state.get? (.callGraph D.path) = some v →
        w.checkpoints.state.get? (.callGraph D.path) = some v ∧ ¬orphans D.path ∧
          ∀ c ∈ D.extraction.calls, ¬names c.name) : CallsInSync 𝒟 w' := by
  refine ⟨hrelinks.tidy 𝒟 hevolves.tidy, fun D t hD hfile hcheck => ?_⟩
  rw [hrelinks.files] at hfile
  by_cases hp : D.path = path
  · rw [hp, hcleared] at hcheck
    cases hcheck
  · obtain ⟨hbefore, ho, hn⟩ := hcalls D t _ hp hfile hcheck
    rw [hevolves.file _ hp] at hfile
    have hcurrent := (hevolves.callsCurrent_iff hsync.tidy hp ho hn).mpr (hsync.current D t hD hfile hbefore)
    exact callsCurrent_relinks hcurrent hrelinks fun _ _ _ _ he => by cases he.1

/-- Removing a file keeps checkpoints of calls sound if it completes. -/
lemma CallsInSync.removeFile (ha : Apart 𝒟) (hsync : CallsInSync 𝒟 w)
    (h : Completes (removeFile path) w w') : CallsInSync 𝒟 w' := by
  obtain ⟨stale, hrun⟩ := removeFile_run hsync.tidy.keyedBy h
  obtain ⟨moved, hrelinks⟩ := hrun.relinks
  have hevolves := (hsync.tidy.evolves_removeFile (fun _ => []) path ha
    (fun n => ∃ u ∈ w.store.graph.unitsInFile path, u.name = n)
    fun i u hu hp => ⟨u, hsync.tidy.mem_unitsInFile.mpr ⟨i, hu, hp⟩, rfl⟩).1
  refine hsync.step hevolves hrelinks ?_ fun D t v hpath hfile hv => ?_
  · rw [hrun.call_checkpoint, if_pos (Or.inl rfl)]
  · rw [hrun.call_checkpoint] at hv
    split at hv
    · cases hv
    rename_i hfresh
    rw [not_or] at hfresh
    refine ⟨hv, fun ho => hfresh.2 (hrun.orphans _ ho), fun c hc hn => hfresh.2 ?_⟩
    refine hrun.callers ?_ _ _ hfile ⟨c.name, Document.mem_callees.mpr ⟨c, hc, rfl⟩, hn⟩
    -- a file with units was stored
    obtain ⟨u, hu, -⟩ := hn
    obtain ⟨i, hi, rfl⟩ := hsync.tidy.mem_unitsInFile.mp hu
    exact nodesRemoved_removeFile hsync.tidy.mirrored (hsync.tidy.unit_known i u hi).2.1

/-- Storing a file keeps checkpoints of calls sound if it completes. -/
lemma CallsInSync.storeFile {isNew : Bool} {report : SyncReport} (ha : Apart 𝒟) (hsync : CallsInSync 𝒟 w)
    (hD : 𝒟 D) (hreads : w.Reads D) (h : Completes (storeFile D.scanned isNew report) w w') :
    CallsInSync 𝒟 w' := by
  obtain ⟨f, w₁, stale, hrun⟩ := storeFile_run hsync.tidy.keyedBy hreads h
  obtain ⟨moved, hrelinks⟩ := hrun.relinks
  refine hsync.step (hrun.stores.evolves ha hsync.tidy hD fun _ => []) hrelinks ?_
    fun D' t v hpath hfile hv => ?_
  · rw [hrun.call_checkpoint, if_pos hrun.self]
  · rw [hrun.call_checkpoint] at hv
    split at hv
    · cases hv
    rename_i hfresh
    refine ⟨hv, fun ho => hfresh (hrun.orphans _ ho), fun c hc hn => hfresh ?_⟩
    exact hrun.callers _ _ hpath hfile ⟨c.name, Document.mem_callees.mpr ⟨c, hc, rfl⟩, hn⟩

/-- An event that completes keeps checkpoints of calls sound. -/
lemma CallsInSync.event {e : FileEvent} (ha : Apart 𝒟) (hsync : CallsInSync 𝒟 w)
    (hknown : ∀ D, w.Reads D → D.path = e.path → 𝒟 D) (h : Completes (event e) w w') :
    CallsInSync 𝒟 w' := by
  have hquiet : ∀ w₁, Quiet w w₁ → CallsInSync 𝒟 w₁ :=
    fun w₁ hq => hsync.congr (by rw [hq.store]) fun k => by rw [hq.checkpoints]
  rcases event_cases h with hq | ⟨w₁, hq, h | ⟨D, isNew, report, hD, hpath, -, h⟩⟩
  · exact hquiet w' hq
  · exact (hquiet w₁ hq).removeFile ha h
  · exact (hquiet w₁ hq).storeFile ha (hknown D hD hpath) (hq.toCalm.reads hD) h

/-! ### Histories -/

/-- Along a history checkpoints of calls are sound. -/
lemma Synced.callsInSync (ha : Apart 𝒟) (h : Synced 𝒟 w) : CallsInSync 𝒟 w := by
  induction h with
  | start hgraph hcheckpoints => exact callsInSync_empty hgraph hcheckpoints
  | edit _ hgraph hcheckpoints ih => exact ih.congr hgraph fun k => by rw [hcheckpoints]
  | full _ hregular hshown hrun ih => exact ih.full ha hregular hshown hrun
  | event e _ hknown hrun ih => exact ih.event ha hknown hrun

/-- After every step of a history, if the checkpoint of the calls of a stored file is its fingerprint, the
call edges that leave its units lead exactly where the calls of its document refer to among all stored
units. -/
theorem hasEdge_calls_iff (h𝒟 : Unambiguous 𝒟) (h : Synced 𝒟 w) {s : SourceFile}
    (hs : w.store.graph.files[path]? = some s)
    (hcheck : w.checkpoints.state.get? (.callGraph path) = some s.fingerprint) :
    ∃ D t, 𝒟 D ∧ D.path = path ∧ D.node t = s ∧
      ∀ (i : String) (u : CodeUnit) (k : NodeKey), w.store.graph.units[i]? = some u → u.path = path →
        (w.store.graph.hasEdge ⟨.calls, .unit i, k⟩ = true ↔
          ∃ j, k = .unit j ∧ ∃ c ∈ D.extraction.calls, w.store.graph.CallsBy path c i j) := by
  have hsync := h.callsInSync h𝒟.apart
  obtain ⟨D, t, hD, rfl, rfl⟩ := hsync.tidy.file_known path s hs
  refine ⟨D, t, hD, rfl, rfl, fun i u k hu hpath => ?_⟩
  have hcurrent := hsync.current D t hD hs hcheck
  constructor
  · intro he
    obtain ⟨i', j, hi, rfl, -, -⟩ := hsync.tidy.calls _ _ he
    exact ⟨j, rfl, (hcurrent i j u hu hpath).mp he⟩
  · rintro ⟨j, rfl, hc⟩
    exact (hcurrent i j u hu hpath).mpr hc

/-- A function calls one of another file, which was stored by an event before. -/
def answered : World := World.withStateOf
  (.ofTexts [("a.py", "def alpha():\n    return beta()\n"), ("b.py", "def beta():\n    return 1\n")])
  (event ⟨"b.py", .created⟩ (.ofTexts [("b.py", "def beta():\n    return 1\n")])).2

theorem hasEdge_calls_iff_answered : ∃ D ∈ answered.documents, D.path = "a.py" ∧
    ∃ c ∈ D.extraction.calls, (full answered).2.store.graph.CallsBy "a.py" c "a.py:alpha" "b.py:beta" := by
  set before := World.ofTexts [("b.py", "def beta():\n    return 1\n")] with hbefore
  set after := (full answered).2 with hafter
  obtain ⟨hunambiguous, hsame, hregular, hmem, hevent, hfull, hfile, hunit, hedge⟩ :
      Unambiguous (· ∈ answered.documents) ∧ (∀ D ∈ before.documents, D ∈ answered.documents) ∧
      answered.tree.Regular ∧ "b.py" ∈ before.tree.paths ∧
      Completes (event ⟨"b.py", .created⟩) before (event ⟨"b.py", .created⟩ before).2 ∧
      Completes full answered after ∧ after.store.graph.files["a.py"]?.map (·.fingerprint) =
        after.checkpoints.state.get? (.callGraph "a.py") ∧
      after.store.graph.units["a.py:alpha"]?.map (·.path) = some "a.py" ∧
      after.store.graph.hasEdge ⟨.calls, .unit "a.py:alpha", .unit "b.py:beta"⟩ = true := by
    rw [hafter, hbefore]
    decide +kernel
  have hsynced : Synced (· ∈ answered.documents) after := by
    refine .full ((Synced.event ⟨"b.py", .created⟩ (.start rfl rfl) (fun D hD hpath => ?_) hevent).withStateOf _)
      hregular (fun D hD => hD.mem_documents) hfull
    rw [World.reads_iff, hpath] at hD
    exact hsame D (List.mem_filterMap.mpr ⟨"b.py", hmem, hD⟩)
  obtain ⟨u, hu, hpath⟩ := Option.map_eq_some_iff.mp hunit
  have hstored := (hsynced.callsInSync hunambiguous.apart).tidy.unit_known _ u hu
  obtain ⟨s, hs⟩ := contains_iff_getElem?.mp hstored.2.1
  rw [hpath] at hs
  rw [hs] at hfile
  obtain ⟨D, t, hD, hDpath, -, hcalls⟩ := hasEdge_calls_iff hunambiguous hsynced hs hfile.symm
  obtain ⟨j, hj, hc⟩ := (hcalls "a.py:alpha" u (.unit "b.py:beta") hu hpath).mp hedge
  cases hj
  exact ⟨D, hD, hDpath, hc⟩

end RepoAtlas.Sync
