import RepoAtlas.Engine.Sync
import RepoAtlas.Proofs.Engine.Act
import RepoAtlas.Proofs.Engine.Document

/-!
# What runs keep

Runs ask the graph, replace the contents, the imports or the calls of a file, and save the graph and the
checkpoints. A relation of states that holds across each of these steps holds between the start of a run
and its end, whatever becomes of the run. Storing a file also embeds texts: what it keeps may depend on the
file and on the state that it is stored in.
-/

namespace RepoAtlas

/-- What a batch of a run replaces. -/
inductive Touch where
  | contents (path : String)
  | imports (path : String)
  | calls (path : String)

namespace Act

variable {S : Touch → Prop} {R : World → World → Prop} {α : Type}

/-- Asking keeps a relation. -/
structure Asks (R : World → World → Prop) : Prop where
  refl : ∀ w, R w w
  trans : ∀ u v w, R u v → R v w → R u w
  query : ∀ {α : Type} (method : String) (question : KnowledgeGraph → α), Keeps R (query method question)
  now : Keeps R now

/-- Asking and writing keep a relation, where the writes replace only what is in a set. -/
structure Writes (S : Touch → Prop) (R : World → World → Prop) : Prop extends Asks R where
  cancel : ∀ (w : World) (c : Bool) (n : Option Nat), R w { w with cancelled := c, cancelAfter := n }
  count : Keeps R Sync.startRun
  remove : ∀ path, S (.contents path) → Keeps R (applyBatch [.removeFile path])
  imports : ∀ path targets, S (.imports path) → Keeps R (applyBatch [.replaceImports path targets])
  calls : ∀ path calls, S (.calls path) → Keeps R (applyBatch [.replaceCalls path calls])

/-- Embedding the units of a document and storing it keep a relation. -/
structure Stores (R : World → World → Prop) (D : Document) : Prop where
  embed : Keeps R (embedAll (D.units.map CodeUnit.chunkText))
  write : ∀ t results,
    Keeps R (applyBatch (Ingest.contents (D.node t) D.units (Ingest.chunks t D.units results)))

/-- Saving keeps a relation. -/
structure Saves (R : World → World → Prop) : Prop where
  commit : Keeps R commit
  setCheckpoints : ∀ updates, Keeps R (setCheckpoints updates)

/-- What holds across every saving. -/
lemma Saves.of_saved (h : ∀ w w', Saved w w' → R w w') : Saves R where
  commit := committed_commit.mono fun _ _ hc => h _ _ hc.toSaved
  setCheckpoints updates := by
    intro w
    rcases hrun : Act.setCheckpoints updates w with ⟨e | ⟨⟩, w'⟩
    · exact h _ _ (setCheckpoints_error hrun).toSaved
    · exact h _ _ (setCheckpoints_ok hrun).1

/-- What a write keeps if every attempt that fails leaves the state alone. -/
lemma Writes.of_applyBatch (hasks : Asks R)
    (hcancel : ∀ (w : World) (c : Bool) (n : Option Nat), R w { w with cancelled := c, cancelAfter := n })
    (hcount : Keeps R Sync.startRun) (happly : ∀ b, Keeps R (applyBatch b)) : Writes S R where
  toAsks := hasks
  cancel := hcancel
  count := hcount
  remove _ _ := happly _
  imports _ _ _ := happly _
  calls _ _ _ := happly _

/-- A coarser relation is kept too. -/
lemma Writes.mono {R' : World → World → Prop} (hR : Writes S R) (hrefl : ∀ w, R' w w)
    (htrans : ∀ u v w, R' u v → R' v w → R' u w) (h : ∀ u v, R u v → R' u v) : Writes S R' where
  refl := hrefl
  trans := htrans
  query method question := (hR.query method question).mono h
  now := hR.now.mono h
  cancel w c n := h _ _ (hR.cancel w c n)
  count := hR.count.mono h
  remove path hS := (hR.remove path hS).mono h
  imports path targets hS := (hR.imports path targets hS).mono h
  calls path calls hS := (hR.calls path calls hS).mono h

/-- Two relations are kept together. -/
lemma Writes.and {R' : World → World → Prop} (hR : Writes S R) (hR' : Writes S R') :
    Writes S fun w w' => R w w' ∧ R' w w' where
  refl w := ⟨hR.refl w, hR'.refl w⟩
  trans u v w h h' := ⟨hR.trans u v w h.1 h'.1, hR'.trans u v w h.2 h'.2⟩
  query method question w := ⟨hR.query method question w, hR'.query method question w⟩
  now w := ⟨hR.now w, hR'.now w⟩
  cancel w c n := ⟨hR.cancel w c n, hR'.cancel w c n⟩
  count w := ⟨hR.count w, hR'.count w⟩
  remove path hS w := ⟨hR.remove path hS w, hR'.remove path hS w⟩
  imports path targets hS w := ⟨hR.imports path targets hS w, hR'.imports path targets hS w⟩
  calls path calls hS w := ⟨hR.calls path calls hS w, hR'.calls path calls hS w⟩

namespace Asks

variable (hR : Asks R)
include hR

lemma pure (a : α) : Keeps R (Pure.pure a : Act α) := Keeps.pure hR.refl a

lemma throw (e : SyncError) : Keeps R (MonadExcept.throw e : Act α) := Keeps.throw hR.refl e

lemma get : Keeps R (MonadState.get : Act World) := hR.refl

lemma inTurn (stage : Stage) (jobs : List α) : Keeps R (inTurn stage jobs) := hR.refl

lemma bind {β : Type} {m : Act α} {f : α → Act β} (hm : Keeps R m) (hf : ∀ a, Keeps R (f a)) :
    Keeps R (m >>= f) := hm.bind hR.trans hf

lemma ask (method : String) (question : KnowledgeGraph → α) : Keeps R (ask method question) := by
  refine hR.bind (hR.query method question) fun r => ?_
  cases r with
  | error e => exact hR.throw _
  | ok a => exact hR.pure a

lemma visitAll (path : String) (units : List CodeUnit) (cs : List CallSite) :
    ∀ s, Keeps R (Linking.CallScan.visitAll path units s cs) := by
  have hcandidates : ∀ (s : Linking.CallScan) name, Keeps R (s.candidates name) := by
    intro s name
    simp only [Linking.CallScan.candidates]
    cases s.named.lookup name with
    | some found => exact hR.pure _
    | none => exact hR.bind (hR.ask _ _) fun _ => hR.pure _
  have hvisit : ∀ (s : Linking.CallScan) c, Keeps R (s.visit path units c) := by
    intro s c
    simp only [Linking.CallScan.visit]
    cases Linking.CallScan.caller? units c with
    | none => exact hR.pure _
    | some caller =>
      refine hR.bind (hcandidates s c.name) fun r => ?_
      cases resolveCallee? path r.1 with
      | none => exact hR.pure _
      | some callee =>
        simp only
        split <;> exact hR.pure _
  induction cs with
  | nil => exact fun s => hR.pure _
  | cons c cs ih => exact fun s => hR.bind (hvisit s c) ih

lemma storedFiles (paths : List String) : Keeps R (Sync.storedFiles paths) := by
  induction paths with
  | nil => exact hR.pure _
  | cons path paths ih =>
    refine hR.bind (hR.ask _ _) fun node => ?_
    split
    · exact hR.bind ih fun _ => hR.pure _
    · exact ih

lemma filter : Keeps R Sync.filter := by
  refine hR.bind hR.get fun w => ?_
  split
  · exact hR.pure _
  · exact hR.throw _

lemma scan : Keeps R Sync.scan := by
  refine hR.bind hR.filter fun f => hR.bind hR.get fun w => ?_
  exact hR.bind (hR.ask _ _) fun stored => hR.bind hR.get fun w => hR.pure _

lemma untouched (work : Worklist) (p : Sync.Progress) : Keeps R (Sync.untouched work p) := by
  simp only [Sync.untouched]
  split
  · exact hR.storedFiles _
  · exact hR.pure _

lemma withUsage (report : SyncReport) : Keeps R (Sync.withUsage report) := hR.bind hR.get fun _ => hR.pure _

/-- Storing a file keeps what storing the document that it is read as keeps. -/
lemma ingest {f : ScannedFile} {w : World} (hstores : ∀ content x, w.tree.readAt f.path = .ok content →
      w.registry.extract? (Text.lossy content) f.language = some x →
      Stores R ⟨f.path, f.language, fingerprintBytes content, x⟩) : R w (Ingest.file f w).2 := by
  simp only [Ingest.file, bind_apply (m := MonadState.get), get_apply]
  cases hread : w.readFile f.path with
  | error e => exact hR.refl w
  | ok content =>
    have hread := World.readAt_of_readFile hread
    simp only
    cases hx : w.registry.extract? (Text.lossy content) f.language with
    | none => exact hR.refl w
    | some x =>
      have hD := hstores content x hread hx
      have hstore : Keeps R (Ingest.store f (fingerprintBytes content) x) := by
        refine hR.bind (hR.query _ _) fun previous => ?_
        cases previous with
        | error e => exact hR.pure _
        | ok previous =>
          refine hR.bind hD.embed fun results => hR.bind hR.now fun now => ?_
          refine hR.bind (hD.write now results).attempt fun r => ?_
          cases r <;> exact hR.pure _
      exact hstore w

end Asks

lemma asks_quiet : Asks Quiet := ⟨Quiet.refl, Quiet.trans, quiet_query, quiet_now⟩

namespace Writes

variable (hR : Writes S R)
include hR

/-! ### Linking -/

lemma linkingImports (path : String) (targets : List String) (files : FileIndex) (hS : S (.imports path)) :
    Keeps R (Linking.imports path targets files) :=
  hR.bind (hR.imports path _ hS) fun _ => hR.pure _

lemma linkingCalls (file : ScannedFile) (hS : S (.calls file.path)) : Keeps R (Linking.calls file) := by
  refine hR.bind hR.get fun w => ?_
  cases w.readFile file.path with
  | error e => exact hR.throw _
  | ok content =>
    simp only
    cases w.registry.extract? (Text.lossy content) file.language with
    | none => exact hR.throw _
    | some x =>
      refine hR.bind (hR.ask _ _) fun units => hR.bind (hR.visitAll _ _ _ _) fun scan => ?_
      exact hR.bind (hR.calls file.path _ hS) fun _ => hR.pure _

lemma linkImports (files : FileIndex) (jobs : List Sync.ImportJob) (hS : ∀ job ∈ jobs, S (.imports job.1)) :
    ∀ report, Keeps R (Sync.linkImports files report jobs) := by
  induction jobs with
  | nil => exact fun _ => hR.pure _
  | cons job jobs ih =>
    intro report
    have ih := ih fun job hjob => hS job (by simp [hjob])
    refine hR.bind (hR.linkingImports job.1 job.2 files (hS job (by simp))).attempt fun r => ?_
    cases r with
    | ok outcome => exact ih _
    | error e => exact hR.bind (ih _) fun _ => hR.pure _

lemma linkCalls (files : List ScannedFile) (hS : ∀ f ∈ files, S (.calls f.path)) :
    ∀ p, Keeps R (Sync.linkCalls p files) := by
  induction files with
  | nil => exact fun _ => hR.pure _
  | cons file files ih =>
    intro p
    have ih := ih fun f hf => hS f (by simp [hf])
    refine hR.bind (hR.linkingCalls file (hS file (by simp))).attempt fun r => ?_
    cases r <;> exact ih _

lemma link (work : Worklist) (p : Sync.Progress) (hS : ∀ q, S (.imports q) ∧ S (.calls q)) :
    Keeps R (Sync.link work p) := by
  refine hR.bind (hR.untouched work p) fun others => hR.bind (hR.ask _ _) fun paths => ?_
  refine hR.bind (hR.inTurn _ _) fun jobs => hR.bind (hR.linkImports _ _ (fun job _ => (hS job.1).1) _) fun r => ?_
  refine hR.bind hR.get fun w => hR.bind (hR.inTurn _ _) fun stale => ?_
  exact hR.linkCalls _ (fun f _ => (hS f.path).2) _

lemma linkOthers (units : List CodeUnit) (hS : ∀ q, S (.imports q)) : Keeps R (Sync.linkOthers units) := by
  refine hR.bind (hR.ask _ _) fun paths => hR.bind (hR.storedFiles _) fun others => ?_
  exact hR.bind (hR.inTurn _ _) fun jobs =>
    hR.bind (hR.linkImports _ _ (fun job _ => hS job.1) _) fun _ => hR.pure _

/-! ### Removing and storing -/

lemma syncRemove (path : String) (hS : S (.contents path)) : Keeps R (Sync.remove path) :=
  hR.bind (hR.ask _ _) fun _ => hR.bind (hR.remove path hS) fun _ => hR.pure _

lemma removeAll (paths : List String) (hS : ∀ q ∈ paths, S (.contents q)) :
    ∀ p, Keeps R (Sync.removeAll p paths) := by
  induction paths with
  | nil => exact fun _ => hR.pure _
  | cons path paths ih =>
    intro p
    have ih := ih fun q hq => hS q (by simp [hq])
    refine hR.bind (hR.syncRemove path (hS path (by simp))).attempt fun r => ?_
    cases r <;> exact ih _

variable {w : World}

lemma heed : Keeps R heed := by
  intro v
  obtain ⟨c, n, hv⟩ := v.heed_eq
  rw [heed_apply, hv]
  exact hR.cancel v c n

lemma ingestAll (files : List ScannedFile) (hfile : ∀ f ∈ files, ∀ v, R w v → R v (Ingest.file f v).2) :
    ∀ (p : Sync.Progress) (v : World), R w v → R v (Sync.ingestAll p files v).2 := by
  induction files with
  | nil => exact fun _ v _ => hR.refl v
  | cons file files ih =>
    intro p v hv
    have ih := ih fun f hf => hfile f (by simp [hf])
    have hheed : R v v.heed := hR.heed v
    have hv := hR.trans _ _ _ hv hheed
    refine relates_bind hR.trans hheed fun cancelled v' hrun => ?_
    cases hrun
    split
    · exact ih _ _ hv
    · have hstored := hfile file (by simp) _ hv
      refine relates_bind hR.trans hstored fun o v' hrun => ?_
      rw [hrun] at hstored
      have hrest := fun p => ih p v' (hR.trans _ _ _ hv hstored)
      cases o <;> exact hrest _

/-- The first part of a full run keeps what its removals and its stores keep. -/
lemma prepare (hwork : ∀ work v, Sync.scan { w with cancelled := false, embedder := w.embedder.forRun } =
      (.ok work, v) → (∀ q ∈ work.deleted, S (.contents q)) ∧
        ∀ f ∈ work.toIngest, ∀ u, R w u → R u (Ingest.file f u).2) : R w (Sync.prepare w).2 := by
  have hstart : R w { w with cancelled := false, embedder := w.embedder.forRun } :=
    hR.trans _ _ _ (hR.cancel w false w.cancelAfter) (hR.count _)
  have hrun : Sync.prepare w = (do
      let work ← Sync.scan
      let p ← Sync.removeAll (Sync.begin work) work.deleted
      let p ← Sync.ingestAll p (← inTurn .write work.toIngest)
      Act.heed
      return (work, p)) { w with cancelled := false, embedder := w.embedder.forRun } := rfl
  rw [hrun]
  refine hR.trans _ _ _ hstart (relates_bind hR.trans (hR.scan _) fun work w₁ hscan => ?_)
  obtain ⟨hdeleted, hfile⟩ := hwork work w₁ hscan
  have hremove := hR.removeAll work.deleted hdeleted (Sync.begin work) w₁
  refine relates_bind hR.trans hremove fun p w₂ hrun => ?_
  rw [hrun] at hremove
  rw [bind_of_ok (inTurn_apply .write work.toIngest)]
  refine relates_bind hR.trans (hR.ingestAll _ (fun f hf => hfile f (Schedule.mem_arrange.mp hf)) p w₂ ?_)
    fun _ w₃ _ => hR.bind hR.heed (fun _ => hR.pure _) w₃
  exact hR.trans _ _ _ hstart (hR.trans _ _ _ (hR.scan.of_ok hscan) hremove)

/-! ### Whole runs -/

variable (hsave : Saves R)
include hsave

lemma finish (updates : List CheckpointUpdate) : Keeps R (Sync.finish updates) :=
  hR.bind hsave.commit fun _ => hsave.setCheckpoints updates

lemma full (hprepare : R w (Sync.prepare w).2) (hS : ∀ q, S (.imports q) ∧ S (.calls q)) :
    R w (Sync.full w).2 := by
  refine relates_bind hR.trans hprepare fun ⟨work, p⟩ w₁ _ => ?_
  refine hR.bind hR.get (fun v => ?_) w₁
  split
  · exact hR.bind (hR.finish hsave _) fun _ => hR.withUsage _
  · refine hR.bind (hR.link work p hS) fun p => ?_
    exact hR.bind (hR.finish hsave _) fun _ => hR.withUsage _

lemma removeFile (path : String) (hS : ∀ t, S t) : Keeps R (Sync.removeFile path) := by
  refine hR.bind hR.count fun _ => hR.bind (hR.syncRemove path (hS _)) fun gone => ?_
  have hlink : Keeps R (if 0 < gone.2.nodesRemoved then Sync.linkOthers gone.1 else Pure.pure (∅, {})) := by
    split
    · exact hR.linkOthers _ fun _ => hS _
    · exact hR.pure _
  exact hR.bind hlink fun _ => hR.bind (hR.finish hsave _) fun _ => hR.pure _

lemma linkOutcome (path : String) (isNew : Bool) (report : SyncReport) (o : FileOutcome) (hS : ∀ t, S t) :
    Keeps R (Sync.linkOutcome path isNew report o) := by
  cases o with
  | failed failure => exact hR.pure _
  | ingested i =>
    refine hR.bind (hR.ask _ _) fun paths => hR.bind (hR.storedFiles _) fun others => ?_
    refine hR.bind (hR.inTurn _ _) fun jobs => hR.bind (hR.linkImports _ _ (fun _ _ => hS _) _) fun r => ?_
    exact hR.bind hsave.commit fun _ => hR.pure _

lemma storeFile {f : ScannedFile} {isNew : Bool} {report : SyncReport} (hfile : R w (Ingest.file f w).2)
    (hS : ∀ t, S t) : R w (Sync.storeFile f isNew report w).2 := by
  refine relates_bind hR.trans hfile fun o w₁ _ => ?_
  refine hR.bind (hR.linkOutcome hsave _ _ _ o hS) (fun r => ?_) w₁
  exact hR.bind (hsave.setCheckpoints _) fun _ => hR.withUsage _

lemma file {path : String} (hS : ∀ t, S t) (hfile : ∀ language fingerprint v, Quiet w v →
      w.registry.detect? path = some language → R v (Ingest.file ⟨path, language, fingerprint⟩ v).2) :
    R w (Sync.file path w).2 := by
  refine relates_bind hR.trans (hR.count w) fun _ w₁ hcount => ?_
  refine relates_bind hR.trans (hR.filter w₁) fun f w₂ hfilter => ?_
  have hq : Quiet w w₂ := by
    refine Quiet.trans _ _ _ ?_ (asks_quiet.filter.of_ok hfilter)
    cases hcount
    exact ⟨⟨rfl, rfl, rfl, rfl, rfl, fun _ h => h⟩, rfl⟩
  simp only [bind_apply (m := MonadState.get), get_apply]
  split
  · exact hR.refl w₂
  split
  · exact hR.refl w₂
  cases w₂.readFile path with
  | error err => cases err <;> first | exact hR.removeFile hsave path hS w₂ | exact hR.refl w₂
  | ok content =>
    cases hlanguage : w₂.registry.detect? path with
    | none => exact hR.refl w₂
    | some language =>
      have hstored := hfile language (fingerprintBytes content) w₂ hq (hq.registry ▸ hlanguage)
      cases w₂.checkpoints.state.get? (.file path) with
      | none => exact hR.storeFile hsave hstored hS
      | some fingerprint =>
        simp only
        split
        · exact hR.refl w₂
        · exact hR.storeFile hsave hstored hS

lemma event {e : FileEvent} (hS : ∀ t, S t) (hfile : ∀ language fingerprint v, Quiet w v →
      w.registry.detect? e.path = some language → R v (Ingest.file ⟨e.path, language, fingerprint⟩ v).2) :
    R w (Sync.event e w).2 := by
  simp only [Sync.event]
  cases e.kind with
  | deleted => exact hR.removeFile hsave e.path hS w
  | _ => exact hR.file hsave hS hfile

end Writes

end Act

end RepoAtlas
