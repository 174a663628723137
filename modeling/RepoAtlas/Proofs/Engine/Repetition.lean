import RepoAtlas.Proofs.Engine.FullRun

/-!
# Running again

After a full run that completes, every file that it collected has its fingerprint as the checkpoint of its
contents and of its calls, nothing else is tracked or stored, and the graph is saved. A run over the same
files then has nothing to do in any of its stages: it asks the store which files there are, and reports
all files as unchanged, also if it is cancelled. Nothing is assumed of the graph and of the checkpoints
before the first run.
-/

namespace RepoAtlas

open KnowledgeGraph

variable {α β : Type} {w w' : World} {files : List ScannedFile}

/-! ### Actions that do nothing -/

/-- Nothing happened but that time passed and planned failures of the store were met. -/
def Waits (w w' : World) : Prop :=
  ∃ faults clock, w' = { w with faults := faults, embedder := { w.embedder with clock := clock } }

lemma Waits.refl (w : World) : Waits w w := ⟨w.faults, w.embedder.clock, rfl⟩

lemma Waits.trans (u v w : World) (h : Waits u v) (h' : Waits v w) : Waits u w := by
  obtain ⟨_, _, rfl⟩ := h
  obtain ⟨faults, clock, rfl⟩ := h'
  exact ⟨faults, clock, rfl⟩

lemma Waits.heed (h : Waits w w') : Waits w.heed w'.heed := by
  obtain ⟨faults, clock, rfl⟩ := h
  refine ⟨faults, clock, ?_⟩
  simp only [World.heed]
  split <;> rfl

namespace Act

lemma Ends.imp {P P' : World → α → World → Prop} {R R' : World → World → Prop} {u v : World}
    {x : Except SyncError α × World} (hP : ∀ a w', P u a w' → P' v a w') (hR : ∀ w', R u w' → R' v w')
    (h : Ends P R u x) : Ends P' R' v x := by
  rcases x with ⟨e | a, w'⟩
  · exact hR w' h
  · exact hP a w' h

/-- An action does nothing and answers a given value, unless a guarded store fails. -/
def Idles (a : α) (w : World) (m : Act α) : Prop :=
  Ends (fun w b w' => b = a ∧ Waits w w') (fun w w' => Waits w w' ∧ w.guarded = true) w (m w)

lemma idles_pure (a : α) (w : World) : Idles a w (pure a) := ⟨rfl, Waits.refl w⟩

lemma Idles.bind {a : α} {b : β} {m : Act α} {f : α → Act β} (hm : Idles a w m)
    (hf : ∀ w', Waits w w' → Idles b w' (f a)) : Idles b w (m >>= f) := by
  simp only [Idles] at hm ⊢
  rcases hrun : m w with ⟨e | a', w₁⟩
  · rw [hrun] at hm
    rw [bind_of_error hrun]
    exact hm
  · rw [hrun] at hm
    obtain ⟨rfl, hw⟩ := hm
    rw [bind_of_ok hrun]
    have hrest := hf w₁ hw
    simp only [Idles] at hrest
    rcases hrun' : f a' w₁ with ⟨e | b', w₂⟩
    · rw [hrun'] at hrest
      refine ⟨Waits.trans _ _ _ hw hrest.1, ?_⟩
      obtain ⟨faults, clock, rfl⟩ := hw
      exact hrest.2
    · rw [hrun'] at hrest
      exact ⟨hrest.1, Waits.trans _ _ _ hw hrest.2⟩

/-- Looking at the state does nothing. -/
lemma Idles.get_bind {b : β} {f : World → Act β} (h : Idles b w (f w)) : Idles b w (get >>= f) := h

/-- The guard of a store lets calls pass, or is planned to fail. -/
lemma guardStore_waits (method : String) (w : World) : ∃ r w', guardStore method w = (.ok r, w') ∧
    Waits w w' ∧ ∀ e, r = .error e → w.guarded = true := by
  by_cases hg : w.guarded = true
  · have hrun : ∃ r w', guardStore method w = (.ok r, w') ∧ Waits w w' := by
      simp only [guardStore, bind_apply, get_apply, if_pos hg, set_apply]
      cases (World.meetFault method w.faults).1 with
      | none => exact ⟨_, _, rfl, _, _, rfl⟩
      | some e => exact ⟨_, _, rfl, _, _, rfl⟩
    obtain ⟨r, w', hrun, hw⟩ := hrun
    exact ⟨r, w', hrun, hw, fun _ _ => hg⟩
  · have hrun : guardStore method w = (.ok (.ok ()), w) := by
      simp only [guardStore, bind_apply, get_apply, hg, if_false, Bool.false_eq_true]
      rfl
    exact ⟨_, _, hrun, Waits.refl w, fun e he => by cases he⟩

lemma query_waits (method : String) (question : KnowledgeGraph → α) (w : World) :
    ∃ r w', query method question w = (.ok r, w') ∧ Waits w w' ∧
      (∀ a, r = .ok a → a = question w.store.graph) ∧ ∀ e, r = .error e → w.guarded = true := by
  obtain ⟨r, w₁, hguard, ⟨faults, clock, rfl⟩, herror⟩ := guardStore_waits method w
  simp only [query]
  rw [bind_of_ok hguard]
  cases r with
  | error e => exact ⟨_, _, rfl, ⟨faults, clock, rfl⟩, fun a ha => (by cases ha), fun _ _ => herror e rfl⟩
  | ok _ =>
    refine ⟨_, _, rfl, ⟨faults, clock, rfl⟩, fun a ha => ?_, fun e he => by cases he⟩
    cases ha
    rfl

/-- No jobs have no order. -/
lemma idles_inTurn (stage : Stage) (w : World) : Idles ([] : List α) w (inTurn stage []) := by
  rw [Idles, inTurn_apply, Schedule.arrange_nil]
  exact ⟨rfl, Waits.refl w⟩

lemma idles_ask (method : String) (question : KnowledgeGraph → α) (w : World) :
    Idles (question w.store.graph) w (ask method question) := by
  obtain ⟨r, w₁, hquery, hw, hok, herror⟩ := query_waits method question w
  simp only [Idles, ask]
  rw [bind_of_ok hquery]
  cases r with
  | error e => exact ⟨hw, herror e rfl⟩
  | ok a => exact ⟨hok a rfl, hw⟩

end Act

/-! ### Saving nothing -/

/-- The graph has no file, or did not change since it was saved. -/
def GraphStore.Saved (s : GraphStore) : Prop := s.location = none ∨ s.dirty = false

/-- A graph that is saved is not saved again. -/
lemma GraphStore.commit_of_saved {s : GraphStore} (h : s.Saved) (tree : FileTree) :
    s.commit tree = (s, tree, none) := by
  simp only [GraphStore.commit]
  cases hlocation : s.location with
  | none => rfl
  | some path =>
    have hdirty : s.dirty = false := h.resolve_left fun h => by rw [hlocation] at h; cases h
    simp only [hdirty]
    rfl

/-- A graph that was committed is saved. -/
lemma GraphStore.saved_commit {s : GraphStore} {tree : FileTree} (h : (s.commit tree).2.2 = none) :
    (s.commit tree).1.Saved := by
  simp only [GraphStore.commit] at h ⊢
  split
  · rename_i hlocation
    exact Or.inl hlocation
  · split
    · rename_i path hlocation hdirty
      cases hreplace : tree.replace path (Text.bytes (toJson s.graph.snapshot).compact) with
      | mk tree' error =>
        simp only [hlocation, hdirty, if_true, hreplace] at h
        cases error with
        | none => exact Or.inr rfl
        | some e => cases h
    · rename_i hdirty
      exact Or.inr (by simpa using hdirty)

namespace Act

/-- Saving once: a success leaves a saved graph, and what is saved is left alone. -/
lemma commitOnce_apply (w : World) : ∃ r w', commitOnce w = (.ok r, w') ∧ (r = .ok () → w'.store.Saved) ∧
    (w.store.Saved → Waits w w' ∧ (r = .ok () ∨ w.guarded = true)) := by
  obtain ⟨r, w₁, hguard, hwaits, hr⟩ := guardStore_waits "commit" w
  simp only [commitOnce]
  rw [bind_of_ok hguard]
  cases r with
  | error e => exact ⟨_, _, rfl, fun h => (by cases h), fun _ => ⟨hwaits, Or.inr (hr e rfl)⟩⟩
  | ok _ =>
    simp only [bind_apply, get_apply, set_apply]
    have hsaved : w.store.Saved → w₁.store.commit w₁.tree = (w₁.store, w₁.tree, none) := by
      intro hsaved
      obtain ⟨faults, clock, rfl⟩ := hwaits
      exact GraphStore.commit_of_saved hsaved _
    cases herror : (w₁.store.commit w₁.tree).2.2 with
    | some e =>
      refine ⟨_, _, rfl, fun h => (by cases h), fun h => ?_⟩
      rw [hsaved h] at herror
      cases herror
    | none =>
      refine ⟨_, _, rfl, fun _ => GraphStore.saved_commit herror, fun h => ⟨?_, Or.inl rfl⟩⟩
      rw [hsaved h]
      exact hwaits

/-- After saving, the graph is saved. -/
lemma saved_of_commit (h : commit w = (.ok (), w')) : w'.store.Saved := by
  have hends : Ends (fun _ _ w' => w'.store.Saved) (fun _ _ => True) w (commit w) := by
    refine retrying_ends (fun _ _ _ _ _ => trivial) (fun _ _ => trivial) (fun _ _ _ _ _ h => h) (fun w => ?_)
      2 200 w
    obtain ⟨r, w₁, hrun, hsaved, -⟩ := commitOnce_apply w
    exact ⟨r, w₁, hrun, fun _ hr => hsaved hr, fun _ _ => trivial⟩
  exact hends.of_ok h

/-- Saving a graph that is saved does nothing. -/
lemma idles_commit (h : w.store.Saved) : Idles () w commit := by
  unfold Idles
  by_cases hg : w.guarded = true
  · have htrans : ∀ u v w : World, (u.store.Saved → Waits u v) → (v.store.Saved → Waits v w) →
        u.store.Saved → Waits u w := by
      intro u v w h h' hu
      have hv := h hu
      refine Waits.trans _ _ _ hv (h' ?_)
      obtain ⟨faults, clock, rfl⟩ := hv
      exact hu
    have hends : Ends (fun w _ w' => w.store.Saved → Waits w w') (fun w w' => w.store.Saved → Waits w w')
        w (commit w) := by
      refine retrying_ends htrans (fun ms w _ => ⟨w.faults, w.clock + ms, rfl⟩)
        (fun u v _ w => htrans u v w) (fun w => ?_) 2 200 w
      obtain ⟨r, w₁, hrun, -, hwaits⟩ := commitOnce_apply w
      exact ⟨r, w₁, hrun, fun _ _ hw => (hwaits hw).1, fun _ _ hw => (hwaits hw).1⟩
    rcases hrun : commit w with ⟨e | ⟨⟩, w'⟩
    · rw [hrun] at hends
      exact ⟨hends h, hg⟩
    · rw [hrun] at hends
      exact ⟨rfl, hends h⟩
  · -- a store without a guard saves at the first attempt
    obtain ⟨r, w', hrun, -, hidle⟩ := commitOnce_apply w
    obtain ⟨hwaits, hr⟩ := hidle h
    cases hr.resolve_right hg
    have hcommit : commit w = (.ok (), w') := by
      simp only [commit, retrying]
      rw [bind_of_ok hrun]
      rfl
    rw [hcommit]
    exact ⟨rfl, hwaits⟩

lemma store_of_setCheckpoints {updates : List CheckpointUpdate}
    (h : setCheckpoints updates w = (.ok (), w')) : w'.store = w.store := by
  simp only [setCheckpoints, bind_apply, get_apply, set_apply] at h
  cases herror : (w.checkpoints.setBatch w.tree updates).2.2 with
  | some e =>
    rw [herror] at h
    cases h
  | none =>
    rw [herror] at h
    cases h
    rfl

/-- Updating no checkpoints does nothing. -/
lemma idles_setCheckpoints (w : World) : Idles () w (setCheckpoints []) := by
  have hset : w.checkpoints.setBatch w.tree [] = (w.checkpoints, w.tree, none) := by
    simp [CheckpointStore.setBatch, Checkpoints.setAll, Checkpoints.same]
  have hrun : setCheckpoints [] w = (.ok (), w) := by
    simp only [setCheckpoints, bind_apply, get_apply, set_apply, hset]
    rfl
  unfold Idles
  rw [hrun]
  exact ⟨rfl, Waits.refl w⟩

end Act

/-! ### Runs with nothing to do -/

/-- What the scan of the repository finds, if its patterns can be read. -/
def World.scanned? (w : World) : Option Collected :=
  (ScanFilter.build? w.settings.indexing w.registry w.tree).map (·.survey w.tree w.denied)

/-- All files can be read that the scan of the repository collects. -/
lemma World.scanned?_eq_some : w.scanned? = some { files } ↔
    (∃ filter, ScanFilter.build? w.settings.indexing w.registry w.tree = some filter ∧
      filter.collect w.tree = files) ∧ ∀ f ∈ files, w.denied.contains f.path = false := by
  simp only [scanned?, Option.map_eq_some_iff, ScanFilter.survey, Collected.mk.injEq, List.map_eq_nil_iff,
    List.filter_eq_nil_iff, Bool.not_eq_true]
  constructor
  · rintro ⟨filter, hbuild, hfiles, hread⟩
    rw [List.filter_eq_self.mpr fun f hf => by simp [hread f hf]] at hfiles
    exact ⟨⟨filter, hbuild, hfiles⟩, hfiles ▸ hread⟩
  · rintro ⟨⟨filter, hbuild, rfl⟩, hread⟩
    exact ⟨filter, hbuild, List.filter_eq_self.mpr fun f hf => by simp [hread f hf], hread⟩

lemma World.collected_of_scanned (h : w.scanned? = some { files }) : w.collected = files := by
  obtain ⟨⟨filter, hbuild, hfiles⟩, -⟩ := scanned?_eq_some.mp h
  rw [collected, hbuild, ← hfiles]
  rfl

namespace Sync

/-- A run over some files has nothing to do: they are checkpointed, no other files are tracked or stored,
and the graph is saved. -/
structure UpToDate (files : List ScannedFile) (w : World) : Prop where
  scanned : w.scanned? = some { files }
  file_checkpoint : ∀ f ∈ files, w.checkpoints.state.get? (.file f.path) = some f.fingerprint
  call_checkpoint : ∀ f ∈ files, w.checkpoints.state.get? (.callGraph f.path) = some f.fingerprint
  tracked : ∀ q v, w.checkpoints.state.get? (.file q) = some v → ∃ f ∈ files, f.path = q
  stored : ∀ q, w.store.graph.files.contains q = true → ∃ f ∈ files, f.path = q
  saved : w.store.Saved

lemma UpToDate.of_waits (h : UpToDate files w) (hw : Waits w w') : UpToDate files w' := by
  obtain ⟨faults, clock, rfl⟩ := hw
  exact ⟨h.scanned, h.file_checkpoint, h.call_checkpoint, h.tracked, h.stored, h.saved⟩

lemma UpToDate.heed (h : UpToDate files w) : UpToDate files w.heed := by
  obtain ⟨cancelled, cancelAfter, hheed⟩ := w.heed_eq
  rw [hheed]
  exact ⟨h.scanned, h.file_checkpoint, h.call_checkpoint, h.tracked, h.stored, h.saved⟩

/-- All files are unchanged. -/
lemma UpToDate.detectChanges (h : UpToDate files w) :
    detectChanges { files } (w.checkpoints.state.get? ∘ .file)
      (NameSet.ofList (w.checkpoints.trackedFiles ++ w.store.graph.filePaths)) = { unchanged := files } := by
  simp only [RepoAtlas.detectChanges, Worklist.mk.injEq, List.map_nil, List.append_nil, and_true]
  refine ⟨?_, ?_, ?_, ?_⟩
  · exact List.filter_eq_nil_iff.mpr fun f hf => by simp [h.file_checkpoint f hf]
  · exact List.filter_eq_nil_iff.mpr fun f hf => by simp [h.file_checkpoint f hf]
  · exact List.filter_eq_self.mpr fun f hf => by simp [h.file_checkpoint f hf]
  · refine List.eq_nil_iff_forall_not_mem.mpr fun q hq => ?_
    rw [Std.ExtTreeSet.mem_toList, ← Std.ExtTreeSet.contains_iff_mem, contains_foldl_erase,
      NameSet.contains_ofList, List.mem_append, CheckpointStore.mem_trackedFiles, mem_filePaths] at hq
    obtain ⟨hno, ⟨v, hv⟩ | hq⟩ := hq
    · obtain ⟨f, hf, hpath⟩ := h.tracked q v hv
      exact hno (List.mem_map.mpr ⟨f, hf, hpath⟩)
    · obtain ⟨f, hf, hpath⟩ := h.stored q hq
      exact hno (List.mem_map.mpr ⟨f, hf, hpath⟩)

lemma UpToDate.idles_scan (h : UpToDate files w) : Act.Idles { unchanged := files } w scan := by
  have hscanned := h.scanned
  simp only [World.scanned?, Option.map_eq_some_iff] at hscanned
  obtain ⟨filter, hbuild, hfiles⟩ := hscanned
  have hfilter : Sync.filter w = (.ok filter, w) := by
    simp only [Sync.filter, Act.bind_apply, Act.get_apply, hbuild]
    rfl
  unfold Act.Idles
  rw [Sync.scan, Act.bind_of_ok hfilter]
  refine Act.Idles.get_bind (Act.Idles.bind (Act.idles_ask _ _ w) fun w₁ hw => Act.Idles.get_bind ?_)
  obtain ⟨faults, clock, rfl⟩ := hw
  rw [show filter.survey w.tree w.denied = { files } from hfiles]
  change Act.Idles _ _ (pure (RepoAtlas.detectChanges { files } (w.checkpoints.state.get? ∘ .file)
    (NameSet.ofList (w.checkpoints.trackedFiles ++ w.store.graph.filePaths))))
  rw [h.detectChanges]
  exact Act.idles_pure _ _

/-- Nothing is linked. -/
lemma UpToDate.idles_link (h : UpToDate files w) :
    Act.Idles (begin { unchanged := files }) w (link { unchanged := files } (begin { unchanged := files })) := by
  have huntouched : untouched { unchanged := files } (begin { unchanged := files }) = pure [] := by
    simp [untouched, fileSetChanged, Sync.begin]
  have hjobs : importJobs { unchanged := files } (begin { unchanged := files }) [] = [] := by
    simp [importJobs, Sync.begin]
  have hjoin : NameSet.join (begin { unchanged := files }).blocked ∅ = (begin { unchanged := files }).blocked := by
    have hempty : (∅ : Std.ExtTreeSet String).toList = [] := by simp
    show (∅ : Std.ExtTreeSet String).toList.foldl (·.insert ·) (begin { unchanged := files }).blocked = _
    rw [hempty]
    rfl
  have hcalls : (Worklist.onDisk { unchanged := files }).filter ((begin { unchanged := files }).needsCalls
      (callersOf [] (begin { unchanged := files }).affected) w.checkpoints.state) = [] := by
    refine List.filter_eq_nil_iff.mpr fun f hf => ?_
    have hf : f ∈ files := by simpa [Worklist.onDisk] using hf
    simp [Progress.needsCalls, Sync.begin, callersOf, h.call_checkpoint f hf]
  simp only [link, huntouched]
  refine Act.Idles.bind (Act.idles_pure [] w) fun w₁ hw₁ => ?_
  refine Act.Idles.bind (Act.idles_ask _ _ w₁) fun w₂ hw₂ => ?_
  change Act.Idles _ w₂ (Act.inTurn _ (importJobs _ _ []) >>= _)
  rw [hjobs]
  refine (Act.idles_inTurn _ w₂).bind fun w₃ hw₃ => ?_
  refine Act.Idles.bind (Act.idles_pure _ w₃) fun w₄ hw₄ => Act.Idles.get_bind ?_
  have hw := Waits.trans _ _ _ (Waits.trans _ _ _ (Waits.trans _ _ _ hw₁ hw₂) hw₃) hw₄
  obtain ⟨faults, clock, rfl⟩ := hw
  simp only [hjoin]
  rw [hcalls]
  exact (Act.idles_inTurn _ _).bind fun w₅ _ => Act.idles_pure _ w₅

/-- The report of a run that found some files and had nothing to do. -/
def idleReport (files : List ScannedFile) (w : World) : SyncReport :=
  { filesScanned := files.length
    filesUnchanged := files.length
    cancelled := w.cancelAfter == some 0
    pricePerMillion := w.settings.embedding.pricePerMillionTokens }

/-- Nothing is saved, and no checkpoint is updated. -/
lemma UpToDate.idles_finish (h : UpToDate files w) : Act.Idles () w (finish []) :=
  (Act.idles_commit h.saved).bind fun w₁ _ => Act.idles_setCheckpoints w₁

lemma idles_withUsage (r : SyncReport) (w : World) : Act.Idles
    { r with usage := w.embedder.usage, pricePerMillion := w.settings.embedding.pricePerMillionTokens } w
    (withUsage r) := Act.Idles.get_bind (Act.idles_pure _ w)

/-- The scan finds nothing to do, and then the run asks once whether it is to stop. -/
lemma UpToDate.prepare_ends (h : UpToDate files w) :
    Act.Ends (fun v x w' => x = ({ unchanged := files }, begin { unchanged := files }) ∧
        UpToDate files w' ∧ Waits v.heed w')
      (fun v w' => Waits v w' ∧ w.guarded = true)
      { w with cancelled := false, embedder := w.embedder.forRun } (prepare w) := by
  set v : World := { w with cancelled := false, embedder := w.embedder.forRun }
  have hv : UpToDate files v :=
    ⟨h.scanned, h.file_checkpoint, h.call_checkpoint, h.tracked, h.stored, h.saved⟩
  have hscan := hv.idles_scan
  unfold Act.Idles at hscan
  rcases hrun : scan v with ⟨e | work, w₁⟩
  · rw [hrun] at hscan
    have hprepare : prepare w = (.error e, w₁) := (Act.bind_of_error hrun : (scan >>= _) v = _)
    rw [hprepare]
    exact hscan
  · rw [hrun] at hscan
    obtain ⟨rfl, hw₁⟩ := hscan
    have hremove : removeAll (begin { unchanged := files }) [] w₁ = (.ok (begin { unchanged := files }), w₁) := rfl
    have hprepare : prepare w = (.ok ({ unchanged := files }, begin { unchanged := files }), w₁.heed) := by
      refine (Act.bind_of_ok hrun : (scan >>= _) v = _).trans ((Act.bind_of_ok hremove).trans ?_)
      refine (Act.bind_of_ok (Act.inTurn_apply .write ([] : List ScannedFile))).trans ?_
      rw [Schedule.arrange_nil]
      rfl
    rw [hprepare]
    exact ⟨rfl, (hv.of_waits hw₁).heed, hw₁.heed⟩

/-- After the preparation the run only reports, whether it was cancelled or not. -/
lemma UpToDate.idles_rest (h : UpToDate files w) : Act.Idles
    { (begin { unchanged := files }).report with
      cancelled := w.cancelled
      usage := w.embedder.usage
      pricePerMillion := w.settings.embedding.pricePerMillionTokens } w
    (if w.cancelled = true then do
        finish (begin { unchanged := files }).updates
        withUsage { (begin { unchanged := files }).report with cancelled := true }
      else do
        let p ← link { unchanged := files } (begin { unchanged := files })
        finish (p.updates ++ p.advances)
        withUsage p.report) := by
  split
  · rename_i hstop
    refine h.idles_finish.bind fun w₁ hw₁ => ?_
    obtain ⟨faults, clock, rfl⟩ := hw₁
    rw [hstop]
    exact idles_withUsage _ _
  · rename_i hstop
    have hnone : (begin { unchanged := files }).updates ++ (begin { unchanged := files }).advances = [] := by
      simp [Progress.advances, Sync.begin]
    refine h.idles_link.bind fun w₁ hw₁ => ?_
    rw [hnone]
    refine (h.of_waits hw₁).idles_finish.bind fun w₂ hw₂ => ?_
    obtain ⟨faults, clock, rfl⟩ := Waits.trans _ _ _ hw₁ hw₂
    rw [(Bool.not_eq_true _).mp hstop]
    exact idles_withUsage _ _

/-- A full run has nothing to do but to count files, whether it is cancelled or not. -/
lemma UpToDate.full_ends (h : UpToDate files w) :
    Act.Ends (fun v r w' => r = idleReport files w ∧ Waits v.heed w')
      (fun v w' => (Waits v w' ∨ Waits v.heed w') ∧ w.guarded = true)
      { w with cancelled := false, embedder := w.embedder.forRun } (full w) := by
  have hprepare := h.prepare_ends
  set v : World := { w with cancelled := false, embedder := w.embedder.forRun }
  obtain ⟨c, n, hheed⟩ := v.heed_eq
  rcases hrun : prepare w with ⟨e | x, w₁⟩
  · rw [hrun] at hprepare
    rw [full, Act.bind_of_error hrun]
    exact ⟨Or.inl hprepare.1, hprepare.2⟩
  · rw [hrun] at hprepare
    obtain ⟨rfl, hdate, hw₁⟩ := hprepare
    rw [full, Act.bind_of_ok hrun]
    have hreport : idleReport files w = { (begin { unchanged := files }).report with
        cancelled := w₁.cancelled
        usage := w₁.embedder.usage
        pricePerMillion := w₁.settings.embedding.pricePerMillionTokens } := by
      obtain ⟨faults, clock, rfl⟩ := hw₁
      rw [World.cancelled_heed (w := v) rfl, hheed]
      simp [idleReport, Sync.begin, Worklist.scanned, v, Embedder.forRun]
    refine Act.Ends.imp (fun r w' hr => ?_) (fun w' hw' => ?_) hdate.idles_rest
    · exact ⟨hr.1.trans hreport.symm, Waits.trans _ _ _ hw₁ hr.2⟩
    · refine ⟨Or.inr (Waits.trans _ _ _ hw₁ hw'.1), ?_⟩
      obtain ⟨faults, clock, rfl⟩ := hw₁
      rw [hheed] at hw'
      exact hw'.2

/-! ### After a run that completes -/

/-- The graph is saved before a full run succeeds. -/
lemma saved_of_full (h : Completes full w w') : w'.store.Saved := by
  obtain ⟨work, p, w₁, p', w₂, -, -, hfinish, -⟩ := full_parts h
  obtain ⟨⟨⟩, w₃, hcommit, hset⟩ := Act.bind_ok hfinish
  rw [Act.store_of_setCheckpoints hset]
  exact Act.saved_of_commit hcommit

/-- The patterns and the files of the repository can be read if a full run completes. -/
lemma scanned_of_full (hregular : w.tree.Regular) (h : Completes full w w') :
    w.scanned? = some { files := w.collected } := by
  obtain ⟨work, p, w₁, p', w₂, hprepare, hp, hlink, -, -, hclean⟩ :=
    full_run hregular (carries_recorded w) h
  have hfinds := ((link_log hregular hp hlink).done hp hclean).2.1
  obtain ⟨⟨⟩, w₃, hstart, hprepare⟩ := Act.bind_ok hprepare
  obtain ⟨⟨⟩, w₄, hstart', hprepare⟩ := Act.bind_ok hprepare
  cases hstart
  cases hstart'
  obtain ⟨work', w₅, hscan, -⟩ := Act.bind_ok hprepare
  obtain ⟨filter, w₆, hfilter, -⟩ := Act.bind_ok hscan
  simp only [Sync.filter, Act.bind_apply, Act.get_apply] at hfilter
  cases hbuild : ScanFilter.build? w.settings.indexing w.registry w.tree with
  | some filter =>
    have hcollected : w.collected = filter.collect w.tree := by
      rw [World.collected, hbuild]
      rfl
    exact World.scanned?_eq_some.mpr
      ⟨⟨filter, hbuild, hcollected.symm⟩, fun f hf => (hfinds f (World.collects_iff.mpr hf)).allowed⟩
  | none =>
    rw [hbuild] at hfilter
    cases hfilter

/-- A full run that completes leaves nothing to do over the files that it collected. -/
lemma Completes.upToDate {v : World} (h : Completes full w w') (hregular : w.tree.Regular)
    (hstore : v.store = w'.store) (hcheckpoints : v.checkpoints = w'.checkpoints)
    (hscan : v.scanned? = w.scanned?) : UpToDate v.collected v := by
  have hsettled := full_settled hregular h
  have hscanned := hscan.trans (scanned_of_full hregular h)
  have hcollected : v.collected = w.collected := World.collected_of_scanned hscanned
  have hshown : ∀ f ∈ w.collected, ∃ D, w.Shows D ∧ D.scanned = f :=
    fun f hf => (World.collects_iff.mpr hf).shows hregular
  rw [hcollected]
  constructor
  case scanned => exact hscanned
  case file_checkpoint =>
    intro f hf
    obtain ⟨D, hD, rfl⟩ := hshown f hf
    rw [hcheckpoints]
    exact hsettled.file_checkpoint D hD
  case call_checkpoint =>
    intro f hf
    obtain ⟨D, hD, rfl⟩ := hshown f hf
    rw [hcheckpoints]
    exact hsettled.call_checkpoint D hD
  case tracked =>
    intro q v hv
    rw [hcheckpoints] at hv
    obtain ⟨D, hD, hpath⟩ := hsettled.tracked q v hv
    exact ⟨D.scanned, World.collects_iff.mp hD.collected, hpath⟩
  case stored =>
    intro q hq
    rw [hstore] at hq
    obtain ⟨D, hD, hpath⟩ := hsettled.stored q hq
    exact ⟨D.scanned, World.collects_iff.mp hD.collected, hpath⟩
  case saved =>
    rw [hstore]
    exact saved_of_full h

/-- After a full run that completes, another one over the same files changes nothing: it leaves the graph
and the checkpoints as they are, asks for no embedding, and reports every file as unchanged. It can fail
only if a guarded store fails. A cancellation from outside is heeded and reported, and changes nothing
else. -/
theorem full_idle_of_completes {v : World} (hregular : w.tree.Regular) (h : Completes full w w')
    (hstore : v.store = w'.store) (hcheckpoints : v.checkpoints = w'.checkpoints)
    (hscan : v.scanned? = w.scanned?) :
    (∃ u faults clock, (u = { v with cancelled := false } ∨ u = { v with cancelled := false }.heed) ∧
      (full v).2 = { u with
        faults := faults
        embedder := { v.embedder.forRun with clock := clock } }) ∧
    (∀ r, (full v).1 = .ok r → r = idleReport v.collected v) ∧
    (v.guarded = false → ∃ r, (full v).1 = .ok r) := by
  have hends := (h.upToDate hregular hstore hcheckpoints hscan).full_ends
  have hembedder : { v with cancelled := false, embedder := v.embedder.forRun }.heed =
      { { v with cancelled := false }.heed with embedder := v.embedder.forRun } := by
    simp only [World.heed]
    split <;> rfl
  rcases hrun : full v with ⟨e | r, v'⟩
  · rw [hrun] at hends
    obtain ⟨hwaits, hguarded⟩ := hends
    refine ⟨?_, fun r hr => (by cases hr), fun hg => ?_⟩
    · rcases hwaits with ⟨faults, clock, rfl⟩ | ⟨faults, clock, rfl⟩
      · exact ⟨_, faults, clock, Or.inl rfl, rfl⟩
      · exact ⟨_, faults, clock, Or.inr rfl, by rw [hembedder]⟩
    · rw [show v.guarded = true from hguarded] at hg
      cases hg
  · rw [hrun] at hends
    obtain ⟨hr, faults, clock, rfl⟩ := hends
    refine ⟨⟨_, faults, clock, Or.inr rfl, by rw [hembedder]⟩, fun r' hr' => ?_, fun _ => ⟨r, rfl⟩⟩
    cases hr'
    exact hr

theorem full_idle_of_completes_rewritten : ∃ r, (full (full .rewritten).2).1 = .ok r ∧
    r.filesUnchanged = 1 ∧ r.filesNew = 0 ∧ r.usage.calls = 0 ∧
    (full (full .rewritten).2).2.store.graph = (full .rewritten).2.store.graph := by
  obtain ⟨hregular, hrun, hscan, hcount, hguarded⟩ : World.rewritten.tree.Regular ∧
      Completes full .rewritten (full .rewritten).2 ∧
      (full .rewritten).2.scanned? = World.rewritten.scanned? ∧
      (full .rewritten).2.collected.length = 1 ∧ (full .rewritten).2.guarded = false := by
    decide +kernel
  obtain ⟨⟨u, faults, clock, hu, hstate⟩, hreport, hok⟩ := full_idle_of_completes hregular hrun rfl rfl hscan
  obtain ⟨r, hr⟩ := hok hguarded
  refine ⟨r, hr, ?_, ?_, ?_, ?_⟩
  · rw [hreport r hr]
    exact hcount
  · rw [hreport r hr]
    rfl
  · rw [hreport r hr]
    rfl
  · rw [hstate]
    rcases hu with rfl | rfl
    · rfl
    · exact congrArg GraphStore.graph (World.store_heed _)

end Sync

end RepoAtlas
