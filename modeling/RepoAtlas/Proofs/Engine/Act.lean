import RepoAtlas.Engine.World
import RepoAtlas.Proofs.Embedding.Steady

/-!
# What actions of the engine leave alone

A run that succeeds is taken apart into the successes of its steps by `bind_ok`. Most steps only ask:
they leave the files, the graph and the checkpoints alone and keep the embedder steady. The graph changes
by admitted batches only; a batch that fails, and one that is tried again, changes nothing before.
-/

namespace RepoAtlas

/-! ### The order of jobs -/

namespace Schedule

variable {α : Type} {s : Schedule} {stage : Stage} {jobs : List α} {job : α}

lemma filterMap_range_getElem? (jobs : List α) : (List.range jobs.length).filterMap (jobs[·]?) = jobs := by
  induction jobs with
  | nil => rfl
  | cons job jobs ih => simpa [List.range_succ_eq_map, List.filterMap_map, Function.comp_def] using ih

/-- Each job has its turn, and no other. -/
lemma arrange_perm (s : Schedule) (stage : Stage) (jobs : List α) : (s.arrange stage jobs).Perm jobs :=
  ((s.perm stage jobs.length).filterMap _).trans (.of_eq (filterMap_range_getElem? jobs))

@[simp] lemma mem_arrange : job ∈ s.arrange stage jobs ↔ job ∈ jobs := (s.arrange_perm stage jobs).mem_iff

@[simp] lemma arrange_nil : s.arrange stage ([] : List α) = [] := (s.arrange_perm stage []).eq_nil

end Schedule

/-! ### Cancellation and reading -/

namespace World

variable {w : World} {path : String} {content : Bytes}

/-- Cancellation changes nothing else. -/
lemma heed_eq (w : World) : ∃ c n, w.heed = { w with cancelled := c, cancelAfter := n } := by
  rw [heed]
  split
  · exact ⟨w.cancelled, w.cancelAfter, rfl⟩
  · exact ⟨true, none, rfl⟩
  · exact ⟨w.cancelled, _, rfl⟩

lemma store_heed (w : World) : w.heed.store = w.store := by
  obtain ⟨c, n, h⟩ := w.heed_eq
  rw [h]

/-- A run that was not cancelled is cancelled by the last question before the cancellation. -/
lemma cancelled_heed (h : w.cancelled = false) : w.heed.cancelled = (w.cancelAfter == some 0) := by
  rw [heed]
  split <;> simp_all

lemma readAt_of_readFile (h : w.readFile path = .ok content) : w.tree.readAt path = .ok content := by
  rw [readFile] at h
  split at h
  · cases h
  · exact h

/-- A file that is there is read, unless it may not be. -/
lemma readFile_of_readAt (h : w.tree.readAt path = .ok content) :
    w.readFile path = .ok content ∨ w.readFile path = .error .denied := by
  rw [readFile]
  split
  · exact Or.inr rfl
  · exact Or.inl h

end World

/-! ### Steps of a run -/

namespace Act

variable {α β : Type} {w w' : World}

@[simp] lemma pure_apply (a : α) : (pure a : Act α) w = (.ok a, w) := rfl

@[simp] lemma throw_apply (e : SyncError) : (throw e : Act α) w = (.error e, w) := rfl

@[simp] lemma get_apply : (get : Act World) w = (.ok w, w) := rfl

@[simp] lemma set_apply (v : World) : (set v : Act Unit) w = (.ok (), v) := rfl

@[simp] lemma modify_apply (f : World → World) : (modify f : Act Unit) w = (.ok (), f w) := rfl

@[simp] lemma heed_apply : heed w = (.ok (), w.heed) := rfl

@[simp] lemma isCancelled_apply : isCancelled w = (.ok w.heed.cancelled, w.heed) := rfl

@[simp] lemma inTurn_apply (stage : Stage) (jobs : List α) :
    inTurn stage jobs w = (.ok (w.schedule.arrange stage jobs), w) := rfl

@[simp] lemma attempt_apply (m : Act α) : m.attempt w = (.ok (m w).1, (m w).2) := rfl

/-- An attempt answers with what became of the action. -/
lemma attempt_ok {m : Act α} {r : Except SyncError α} (h : m.attempt w = (.ok r, w')) : m w = (r, w') := by
  cases h
  rfl

lemma bind_apply (m : Act α) (f : α → Act β) :
    (m >>= f) w = match m w with
      | (.ok a, w₁) => f a w₁
      | (.error e, w₁) => (.error e, w₁) := by
  show (m >>= f) w = _
  simp only [bind, ExceptT.bind, ExceptT.mk, StateT.bind]
  rcases m w with ⟨_ | _, _⟩ <;> rfl

/-- A step that succeeded. -/
lemma bind_ok {m : Act α} {f : α → Act β} {b : β} (h : (m >>= f) w = (.ok b, w')) :
    ∃ a w₁, m w = (.ok a, w₁) ∧ f a w₁ = (.ok b, w') := by
  rw [bind_apply] at h
  rcases hm : m w with ⟨_ | a, w₁⟩
  · rw [hm] at h
    cases h
  · rw [hm] at h
    exact ⟨a, w₁, rfl, h⟩

lemma bind_of_ok {m : Act α} {f : α → Act β} {a : α} {w₁ : World} (h : m w = (.ok a, w₁)) :
    (m >>= f) w = f a w₁ := by
  rw [bind_apply, h]

lemma bind_of_error {m : Act α} {f : α → Act β} {e : SyncError} {w₁ : World}
    (h : m w = (.error e, w₁)) : (m >>= f) w = (.error e, w₁) := by
  rw [bind_apply, h]

/-- Whatever becomes of an action, the state before and the state after it are related. -/
def Keeps (R : World → World → Prop) (m : Act α) : Prop := ∀ w, R w (m w).2

section

variable {R : World → World → Prop}

lemma Keeps.pure (hrefl : ∀ w, R w w) (a : α) : Keeps R (pure a : Act α) := fun w => hrefl w

lemma Keeps.throw (hrefl : ∀ w, R w w) (e : SyncError) : Keeps R (throw e : Act α) := fun w => hrefl w

/-- The state after two steps, if the second one is followed from what the first one answered. -/
lemma relates_bind (htrans : ∀ u v w, R u v → R v w → R u w) {m : Act α} {f : α → Act β}
    (hm : R w (m w).2) (hf : ∀ a w', m w = (.ok a, w') → R w' (f a w').2) : R w ((m >>= f) w).2 := by
  rw [bind_apply]
  rcases hrun : m w with ⟨_ | a, w₁⟩
  · rw [hrun] at hm
    exact hm
  · rw [hrun] at hm
    exact htrans _ _ _ hm (hf a w₁ hrun)

lemma Keeps.bind (htrans : ∀ u v w, R u v → R v w → R u w) {m : Act α} {f : α → Act β}
    (hm : Keeps R m) (hf : ∀ a, Keeps R (f a)) : Keeps R (m >>= f) :=
  fun w => relates_bind htrans (hm w) fun a w' _ => hf a w'

lemma Keeps.mono {S : World → World → Prop} {m : Act α} (hm : Keeps R m) (h : ∀ u v, R u v → S u v) :
    Keeps S m := fun w => h _ _ (hm w)

lemma Keeps.attempt {m : Act α} (hm : Keeps R m) : Keeps R m.attempt := fun w => hm w

lemma Keeps.of_ok {m : Act α} (hm : Keeps R m) {a : α} (h : m w = (.ok a, w')) : R w w' := by
  have := hm w
  rwa [h] at this

lemma Keeps.of_error {m : Act α} (hm : Keeps R m) {e : SyncError} (h : m w = (.error e, w')) : R w w' := by
  have := hm w
  rwa [h] at this

end

end Act

/-! ### Asking -/

/-- What everything but saving leaves alone. -/
structure Calm (w w' : World) : Prop where
  settings : w'.settings = w.settings
  registry : w'.registry = w.registry
  tree : w'.tree = w.tree
  denied : w'.denied = w.denied
  checkpoints : w'.checkpoints = w.checkpoints
  steady : ∀ vec, w.embedder.Steady vec → w'.embedder.Steady vec

/-- What asking leaves alone. -/
structure Quiet (w w' : World) : Prop extends Calm w w' where
  store : w'.store = w.store

lemma Calm.refl (w : World) : Calm w w := ⟨rfl, rfl, rfl, rfl, rfl, fun _ h => h⟩

lemma Calm.trans (u v w : World) (h : Calm u v) (h' : Calm v w) : Calm u w where
  settings := h'.settings.trans h.settings
  registry := h'.registry.trans h.registry
  tree := h'.tree.trans h.tree
  denied := h'.denied.trans h.denied
  checkpoints := h'.checkpoints.trans h.checkpoints
  steady vec hs := h'.steady vec (h.steady vec hs)

lemma Calm.readFile {w w' : World} (h : Calm w w') (path : String) : w'.readFile path = w.readFile path := by
  rw [World.readFile, World.readFile, h.denied, h.tree]

lemma Quiet.refl (w : World) : Quiet w w := ⟨Calm.refl w, rfl⟩

lemma Quiet.trans (u v w : World) (h : Quiet u v) (h' : Quiet v w) : Quiet u w :=
  ⟨Calm.trans u v w h.toCalm h'.toCalm, h'.store.trans h.store⟩

namespace Act

variable {α : Type} {w w' : World}

lemma quiet_sleep (ms : Nat) : Keeps Quiet (sleep ms) :=
  fun _ => ⟨⟨rfl, rfl, rfl, rfl, rfl, fun _ h => h⟩, rfl⟩

lemma quiet_cancel (w : World) (c : Bool) (n : Option Nat) :
    Quiet w { w with cancelled := c, cancelAfter := n } := ⟨⟨rfl, rfl, rfl, rfl, rfl, fun _ h => h⟩, rfl⟩

lemma quiet_heed (w : World) : Quiet w w.heed := by
  obtain ⟨c, n, h⟩ := w.heed_eq
  rw [h]
  exact quiet_cancel w c n

lemma quiet_now : Keeps Quiet now := fun _ => ⟨⟨rfl, rfl, rfl, rfl, rfl, fun _ h => h⟩, rfl⟩

/-- Without a guard every call goes through. -/
lemma guardStore_of_unguarded (method : String) (h : w.guarded = false) :
    guardStore method w = (.ok (.ok ()), w) := by
  simp only [guardStore, bind_apply, get_apply, h, if_false, Bool.false_eq_true]
  rfl

/-- The guard of the store only counts off its plan. -/
lemma guardStore_apply (method : String) (w : World) :
    ∃ r w', guardStore method w = (.ok r, w') ∧ Quiet w w' := by
  by_cases hg : w.guarded = true
  · simp only [guardStore, bind_apply, get_apply, hg, if_true, set_apply]
    cases (World.meetFault method w.faults).1 with
    | none => exact ⟨_, _, rfl, ⟨⟨rfl, rfl, rfl, rfl, rfl, fun _ h => h⟩, rfl⟩⟩
    | some e => exact ⟨_, _, rfl, ⟨⟨rfl, rfl, rfl, rfl, rfl, fun _ h => h⟩, rfl⟩⟩
  · exact ⟨_, _, guardStore_of_unguarded method ((Bool.not_eq_true _).mp hg), Quiet.refl w⟩

/-- The answer to a question, if there is one, is that of the graph. -/
lemma query_apply (method : String) (question : KnowledgeGraph → α) (w : World) :
    ∃ r w', query method question w = (.ok r, w') ∧ Quiet w w' ∧
      ∀ a, r = .ok a → a = question w.store.graph := by
  obtain ⟨r, w₁, hguard, hq⟩ := guardStore_apply method w
  simp only [query]
  rw [bind_of_ok hguard]
  cases r with
  | error e => exact ⟨_, _, rfl, hq, fun a ha => by cases ha⟩
  | ok _ =>
    refine ⟨_, _, rfl, hq, fun a ha => ?_⟩
    cases ha
    rw [hq.store]

lemma quiet_query (method : String) (question : KnowledgeGraph → α) :
    Keeps Quiet (query method question) := by
  intro w
  obtain ⟨r, w', hrun, hq, -⟩ := query_apply method question w
  rw [hrun]
  exact hq

lemma quiet_ask (method : String) (question : KnowledgeGraph → α) : Keeps Quiet (ask method question) := by
  refine (quiet_query method question).bind Quiet.trans fun r => ?_
  cases r with
  | error e => exact Keeps.throw Quiet.refl _
  | ok a => exact Keeps.pure Quiet.refl a

lemma ask_ok {method : String} {question : KnowledgeGraph → α} {a : α}
    (h : ask method question w = (.ok a, w')) : a = question w.store.graph ∧ Quiet w w' := by
  refine ⟨?_, (quiet_ask method question).of_ok h⟩
  obtain ⟨r, w₁, hquery, hrest⟩ := bind_ok h
  obtain ⟨r', w₂, hrun, -, hanswer⟩ := query_apply method question w
  rw [hrun] at hquery
  cases hquery
  cases r with
  | error e => cases hrest
  | ok b =>
    cases hrest
    exact hanswer a rfl

/-- A question fails for the store alone. -/
lemma ask_error {method : String} {question : KnowledgeGraph → α} {e : SyncError}
    (h : ask method question w = (.error e, w')) : ∃ failure, e = .store failure := by
  obtain ⟨r, w₁, hquery, -, -⟩ := query_apply method question w
  rw [ask, bind_of_ok hquery] at h
  cases r with
  | error failure =>
    cases h
    exact ⟨failure, rfl⟩
  | ok a => cases h

/-- A store that cannot fail answers at once. -/
lemma ask_of_unguarded (hunguarded : w.guarded = false) (method : String) (question : KnowledgeGraph → α) :
    ask method question w = (.ok (question w.store.graph), w) := by
  have hquery : query method question w = (.ok (.ok (question w.store.graph)), w) :=
    bind_of_ok (guardStore_of_unguarded method hunguarded)
  exact bind_of_ok hquery

/-- Embedding texts together answers each in its place. -/
lemma embedAll_ok {texts : List String} {results : List (Except EmbeddingError Embedding)}
    (h : embedAll texts w = (.ok results, w')) : Quiet w w' ∧
      (w.cancelled = true → w'.cancelled = true) ∧ results.length = texts.length ∧
      ∀ vec, w.embedder.Steady vec →
        ∀ (i : Nat) t v, texts[i]? = some t → results[i]? = some (.ok v) → v = vec t := by
  cases h
  refine ⟨⟨⟨rfl, rfl, rfl, rfl, rfl, fun vec hs => ?_⟩, rfl⟩, fun hc => ?_, w.embedder.length_embedAll texts,
    fun vec hs => ?_⟩
  · exact (hs.embedAll texts).1
  · show (w.cancelled || _) = true
    rw [hc]
    rfl
  · exact (hs.embedAll texts).2

lemma quiet_embedAll (texts : List String) : Keeps Quiet (embedAll texts) := by
  intro w
  rcases h : embedAll texts w with ⟨_ | results, w'⟩
  · cases h
  · exact (embedAll_ok h).1

end Act

/-! ### Writing -/

namespace Act

variable {α : Type} {w w' : World}

/-- How an action ends: `P` relates the states and the answer of a success, `R` those of a failure. -/
def Ends (P : World → α → World → Prop) (R : World → World → Prop) (w : World) :
    Except SyncError α × World → Prop
  | (.ok a, w') => P w a w'
  | (.error _, w') => R w w'

lemma Ends.of_ok {P : World → α → World → Prop} {R : World → World → Prop} {m : Act α} {a : α}
    (h : Ends P R w (m w)) (hrun : m w = (.ok a, w')) : P w a w' := by
  rwa [hrun] at h

lemma Ends.of_error {P : World → α → World → Prop} {R : World → World → Prop} {m : Act α} {e : SyncError}
    (h : Ends P R w (m w)) (hrun : m w = (.error e, w')) : R w w' := by
  rwa [hrun] at h

/-- An operation of the store that is tried again while its failures may pass. What every attempt that
fails preserves, and what the one that succeeds does, hold of the whole. -/
lemma retrying_ends {operation : Act (Except StoreError α)} {R : World → World → Prop}
    {P : World → α → World → Prop} (htrans : ∀ u v w, R u v → R v w → R u w)
    (hsleep : ∀ ms, Keeps R (sleep ms)) (hP : ∀ u v a w, R u v → P v a w → P u a w)
    (hop : ∀ w, ∃ r w', operation w = (.ok r, w') ∧ (∀ a, r = .ok a → P w a w') ∧
      ∀ e, r = .error e → R w w') (retries : Nat) :
    ∀ delay w, Ends P R w (retrying operation delay retries w) := by
  induction retries with
  | zero =>
    intro delay w
    obtain ⟨r, w₁, hrun, hok, herr⟩ := hop w
    simp only [retrying]
    rw [bind_of_ok hrun]
    cases r with
    | ok a => exact hok a rfl
    | error e => exact herr e rfl
  | succ retries ih =>
    intro delay w
    obtain ⟨r, w₁, hrun, hok, herr⟩ := hop w
    simp only [retrying]
    rw [bind_of_ok hrun]
    cases r with
    | ok a => exact hok a rfl
    | error e =>
      simp only
      split
      · have hslept : R w (sleep delay w₁).2 := htrans _ _ _ (herr e rfl) (hsleep delay w₁)
        have hsleep : sleep delay w₁ = (.ok (), (sleep delay w₁).2) := rfl
        rw [bind_of_ok hsleep]
        have hrest := ih (2 * delay) (sleep delay w₁).2
        rcases hrun' : retrying operation (2 * delay) retries (sleep delay w₁).2 with ⟨_ | a, w'⟩
        · rw [hrun'] at hrest
          exact htrans _ _ _ hslept hrest
        · rw [hrun'] at hrest
          exact hP _ _ _ _ hslept hrest
      · exact herr e rfl

/-- A batch is applied, or nothing is changed. -/
lemma applyBatch_ends (b : WriteBatch) (w : World) :
    Ends (fun w s w' => Calm w w' ∧ w.store.apply b = .ok (w'.store, s)) Quiet w (applyBatch b w) := by
  refine retrying_ends Quiet.trans quiet_sleep (fun u v s w h h' => ?_) (fun w => ?_) 2 200 w
  · exact ⟨Calm.trans _ _ _ h.toCalm h'.1, by rw [← h.store]; exact h'.2⟩
  · obtain ⟨r, w₁, hguard, hq⟩ := guardStore_apply "apply" w
    simp only [applyOnce]
    rw [bind_of_ok hguard]
    cases r with
    | error e => exact ⟨_, _, rfl, fun a ha => (by cases ha), fun _ _ => hq⟩
    | ok _ =>
      simp only [bind_apply, get_apply]
      rw [← hq.store]
      cases happly : w₁.store.apply b with
      | error e => exact ⟨_, _, rfl, fun a ha => (by cases ha), fun _ _ => hq⟩
      | ok r =>
        refine ⟨_, _, rfl, fun a ha => ?_, fun e he => by cases he⟩
        cases ha
        exact ⟨Calm.trans _ _ _ hq.toCalm ⟨rfl, rfl, rfl, rfl, rfl, fun _ h => h⟩, rfl⟩

lemma applyBatch_ok {b : WriteBatch} {summary : WriteSummary}
    (h : applyBatch b w = (.ok summary, w')) :
    Calm w w' ∧ w.store.apply b = .ok (w'.store, summary) := by
  have hends := applyBatch_ends b w
  rw [h] at hends
  exact hends

lemma applyBatch_error {b : WriteBatch} {e : SyncError} (h : applyBatch b w = (.error e, w')) :
    Quiet w w' := by
  have hends := applyBatch_ends b w
  rw [h] at hends
  exact hends

end Act

/-! ### Saving -/

/-- What saving leaves alone: it may write files and advance checkpoints. -/
structure Saved (w w' : World) : Prop where
  settings : w'.settings = w.settings
  registry : w'.registry = w.registry
  graph : w'.store.graph = w.store.graph
  steady : ∀ vec, w.embedder.Steady vec → w'.embedder.Steady vec

lemma Saved.trans (u v w : World) (h : Saved u v) (h' : Saved v w) : Saved u w where
  settings := h'.settings.trans h.settings
  registry := h'.registry.trans h.registry
  graph := h'.graph.trans h.graph
  steady vec hs := h'.steady vec (h.steady vec hs)

lemma Quiet.saved {w w' : World} (h : Quiet w w') : Saved w w' where
  settings := h.settings
  registry := h.registry
  graph := by rw [h.store]
  steady := h.steady

/-- Saved, and no checkpoint was touched. -/
structure Committed (w w' : World) : Prop extends Saved w w' where
  checkpoints : w'.checkpoints = w.checkpoints

lemma Committed.trans (u v w : World) (h : Committed u v) (h' : Committed v w) : Committed u w :=
  ⟨Saved.trans _ _ _ h.toSaved h'.toSaved, h'.checkpoints.trans h.checkpoints⟩

lemma Quiet.committed {w w' : World} (h : Quiet w w') : Committed w w' := ⟨h.saved, h.checkpoints⟩

lemma GraphStore.graph_commit (s : GraphStore) (tree : FileTree) : (s.commit tree).1.graph = s.graph := by
  simp only [GraphStore.commit]
  split
  · rfl
  · split
    · split <;> rfl
    · rfl

namespace Checkpoints

/-- Checkpoints that hold the same answer the same. -/
lemma get?_of_same {a b : Checkpoints} (h : a.same b = true) (k : CheckpointKey) :
    a.get? k = b.get? k := by
  simp only [same, Bool.and_eq_true, beq_iff_eq, Std.ExtTreeMap.toList_inj] at h
  obtain ⟨⟨hf, hc⟩, hr⟩ := h
  cases k <;> simp only [get?, hf, hc, hr]

end Checkpoints

namespace Act

variable {w w' : World}

/-- Saving the graph, whatever becomes of it. -/
lemma committed_commit : Keeps Committed commit := by
  intro w
  have hends : Ends (fun w _ w' => Committed w w') Committed w (commit w) := by
    refine retrying_ends (P := fun w _ w' => Committed w w') Committed.trans
      (fun ms w => (quiet_sleep ms w).committed) (fun u v _ w h h' => Committed.trans u v w h h')
      (fun w => ?_) 2 200 w
    obtain ⟨r, w₁, hguard, hq⟩ := guardStore_apply "commit" w
    simp only [commitOnce]
    rw [bind_of_ok hguard]
    cases r with
    | error e => exact ⟨_, _, rfl, fun a ha => (by cases ha), fun _ _ => hq.committed⟩
    | ok _ =>
      have hsaved : Committed w₁
          { w₁ with store := (w₁.store.commit w₁.tree).1, tree := (w₁.store.commit w₁.tree).2.1 } :=
        ⟨⟨rfl, rfl, GraphStore.graph_commit _ _, fun _ h => h⟩, rfl⟩
      simp only [bind_apply, get_apply, set_apply]
      cases (w₁.store.commit w₁.tree).2.2 with
      | some e =>
        refine ⟨_, _, rfl, fun a ha => (by cases ha), fun _ _ => ?_⟩
        exact Committed.trans _ _ _ hq.committed hsaved
      | none =>
        refine ⟨_, _, rfl, fun _ _ => ?_, fun e he => by cases he⟩
        exact Committed.trans _ _ _ hq.committed hsaved
  rcases h : commit w with ⟨e | u, w'⟩
  · rw [h] at hends
    exact hends
  · rw [h] at hends
    exact hends

/-- Checkpoints that were updated are updated all. -/
lemma setCheckpoints_ok {updates : List CheckpointUpdate}
    (h : setCheckpoints updates w = (.ok (), w')) : Saved w w' ∧
      ∀ k, w'.checkpoints.state.get? k = (w.checkpoints.state.setAll updates).get? k := by
  simp only [setCheckpoints, bind_apply, get_apply, set_apply] at h
  cases hset : w.checkpoints.setBatch w.tree updates with
  | mk checkpoints rest =>
    obtain ⟨tree, error⟩ := rest
    rw [hset] at h
    cases error with
    | some e => cases h
    | none =>
      cases h
      refine ⟨⟨rfl, rfl, rfl, fun _ h => h⟩, fun k => ?_⟩
      simp only [CheckpointStore.setBatch] at hset
      split at hset
      · rename_i hsame
        cases hset
        exact (Checkpoints.get?_of_same hsame k).symm
      · split at hset
        · cases hset
          rfl
        · split at hset
          · cases hset
            rfl
          · cases hset

/-- Updating checkpoints leaves the graph alone, and the checkpoints too if it fails. -/
lemma setCheckpoints_error {updates : List CheckpointUpdate} {e : SyncError}
    (h : setCheckpoints updates w = (.error e, w')) : Committed w w' := by
  simp only [setCheckpoints, bind_apply, get_apply, set_apply] at h
  cases hset : w.checkpoints.setBatch w.tree updates with
  | mk checkpoints rest =>
    obtain ⟨tree, error⟩ := rest
    rw [hset] at h
    cases error with
    | none => cases h
    | some e =>
      cases h
      refine ⟨⟨rfl, rfl, rfl, fun _ h => h⟩, ?_⟩
      simp only [CheckpointStore.setBatch] at hset
      split at hset
      · cases hset
      · split at hset
        · cases hset
        · split at hset
          · cases hset
          · cases hset
            rfl

end Act

namespace Checkpoints

variable {c : Checkpoints} {k : CheckpointKey} {updates : List CheckpointUpdate}

lemma get?_put (m : TextMap) (id id' : String) (v : Option String) :
    (put m id v)[id']? = if id' = id then v else m[id']? := by
  by_cases hid : id' = id
  · subst hid
    cases v <;> simp [put]
  · have hne : compare id id' ≠ .eq := fun h => hid (Std.LawfulEqCmp.eq_of_compare h).symm
    cases v <;> simp [put, Std.ExtTreeMap.getElem?_insert, Std.ExtTreeMap.getElem?_erase, hne, hid]

lemma get?_set (u : CheckpointUpdate) : (c.set u).get? k = if k = u.1 then u.2 else c.get? k := by
  obtain ⟨key, v⟩ := u
  cases key <;> cases k <;> simp [set, get?, get?_put]

/-- A checkpoint that no update is about stays. -/
lemma get?_setAll_of_forall_ne (h : ∀ u ∈ updates, u.1 ≠ k) :
    (c.setAll updates).get? k = c.get? k := by
  simp only [setAll]
  induction updates generalizing c with
  | nil => rfl
  | cons u us ih =>
    rw [List.foldl_cons, ih fun u' hu' => h u' (by simp [hu']), get?_set,
      if_neg (h u (by simp)).symm]

/-- A checkpoint whose updates all agree. -/
lemma get?_setAll_of_mem {v : Option String} (hmem : (k, v) ∈ updates)
    (hall : ∀ u ∈ updates, u.1 = k → u.2 = v) : (c.setAll updates).get? k = v := by
  simp only [setAll]
  induction updates generalizing c with
  | nil => cases hmem
  | cons u us ih =>
    rw [List.foldl_cons]
    by_cases hlater : ∃ u' ∈ us, u'.1 = k
    · obtain ⟨⟨key, v'⟩, hu', rfl⟩ := hlater
      have : v' = v := hall _ (by simp [hu']) rfl
      subst this
      exact ih hu' fun u'' hu'' => hall u'' (by simp [hu''])
    · have hrest : ∀ u' ∈ us, u'.1 ≠ k := fun u' hu' hk => hlater ⟨u', hu', hk⟩
      have hhead : (k, v) = u := by
        rcases List.mem_cons.mp hmem with rfl | hmem
        · rfl
        · exact absurd rfl (hrest _ hmem)
      have hset := get?_setAll_of_forall_ne (c := c.set u) hrest
      simp only [setAll] at hset
      rw [hset, get?_set, ← hhead, if_pos rfl]

end Checkpoints

end RepoAtlas
