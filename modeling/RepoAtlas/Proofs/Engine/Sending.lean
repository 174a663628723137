import RepoAtlas.Proofs.Engine.Running

/-!
# What runs send for embedding

Asking, writing and saving send nothing to the provider of embeddings, whatever becomes of them. Embedding
sends the texts that are to be embedded, cut to length, and no others.
-/

namespace RepoAtlas

variable {S : Touch → Prop} {w w' : World} {P : String → Prop}

/-- The provider of embeddings received some texts and no others. -/
def World.Sends (P : String → Prop) (w w' : World) : Prop := Embedder.Sends P w.embedder w'.embedder

/-- Nothing was embedded. -/
structure Silent (w w' : World) : Prop where
  maxChars : w'.embedder.maxChars = w.embedder.maxChars
  received : w'.embedder.received = w.embedder.received

lemma Silent.refl (w : World) : Silent w w := ⟨rfl, rfl⟩

lemma Silent.trans (u v w : World) (h : Silent u v) (h' : Silent v w) : Silent u w :=
  ⟨h'.maxChars.trans h.maxChars, h'.received.trans h.received⟩

lemma Silent.sends (h : Silent w w') : w.Sends P w' := ⟨h.maxChars, [], by simp [h.received], by simp⟩

lemma World.Sends.trans (u v w : World) (h : u.Sends P v) (h' : v.Sends P w) : u.Sends P w :=
  Embedder.Sends.trans h h'

namespace Act

variable {α : Type}

lemma silent_sleep (ms : Nat) : Keeps Silent (sleep ms) := fun _ => ⟨rfl, rfl⟩

lemma silent_guardStore (method : String) : Keeps Silent (guardStore method) := by
  intro w
  by_cases hg : w.guarded = true
  · simp only [guardStore, bind_apply, get_apply, hg, if_true, set_apply]
    cases (World.meetFault method w.faults).1 <;> exact ⟨rfl, rfl⟩
  · simp only [guardStore, bind_apply, get_apply, hg, if_false, Bool.false_eq_true]
    exact Silent.refl w

lemma silent_query (method : String) (question : KnowledgeGraph → α) : Keeps Silent (query method question) := by
  refine (silent_guardStore method).bind Silent.trans fun r => ?_
  cases r with
  | error e => exact Keeps.pure Silent.refl _
  | ok _ => exact fun w => Silent.refl w

lemma silent_retrying {operation : Act (Except StoreError α)} (hop : Keeps Silent operation) (retries : Nat) :
    ∀ delay, Keeps Silent (retrying operation delay retries) := by
  induction retries with
  | zero =>
    refine fun delay => hop.bind Silent.trans fun r => ?_
    cases r with
    | ok a => exact Keeps.pure Silent.refl _
    | error e => exact Keeps.throw Silent.refl _
  | succ retries ih =>
    refine fun delay => hop.bind Silent.trans fun r => ?_
    cases r with
    | ok a => exact Keeps.pure Silent.refl _
    | error e =>
      simp only
      split
      · exact (silent_sleep delay).bind Silent.trans fun _ => ih (2 * delay)
      · exact Keeps.throw Silent.refl _

lemma silent_applyBatch (b : WriteBatch) : Keeps Silent (applyBatch b) := by
  refine silent_retrying ((silent_guardStore "apply").bind Silent.trans fun r => ?_) 2 200
  cases r with
  | error e => exact Keeps.pure Silent.refl _
  | ok _ =>
    intro w
    simp only [bind_apply, get_apply]
    cases w.store.apply b <;> exact ⟨rfl, rfl⟩

lemma silent_commit : Keeps Silent commit := by
  refine silent_retrying ((silent_guardStore "commit").bind Silent.trans fun r => ?_) 2 200
  cases r with
  | error e => exact Keeps.pure Silent.refl _
  | ok _ =>
    intro w
    simp only [bind_apply, get_apply, set_apply]
    cases (w.store.commit w.tree).2.2 <;> exact ⟨rfl, rfl⟩

lemma silent_setCheckpoints (updates : List CheckpointUpdate) : Keeps Silent (setCheckpoints updates) := by
  intro w
  simp only [setCheckpoints, bind_apply, get_apply, set_apply]
  cases (w.checkpoints.setBatch w.tree updates).2.2 <;> exact ⟨rfl, rfl⟩

lemma Keeps.sends {m : Act α} (h : m.Keeps Silent) : m.Keeps (World.Sends P) := h.mono fun _ _ => Silent.sends

lemma writes_sends : Writes S (World.Sends P) :=
  have hasks : Asks (World.Sends P) :=
    ⟨fun w => (Silent.refl w).sends, World.Sends.trans, fun _ _ => (silent_query _ _).sends,
      fun _ => Silent.sends ⟨rfl, rfl⟩⟩
  .of_applyBatch hasks (fun _ _ _ => Silent.sends ⟨rfl, rfl⟩) (fun _ => Silent.sends ⟨rfl, rfl⟩)
    fun b => (silent_applyBatch b).sends

lemma saves_sends : Saves (World.Sends P) :=
  ⟨silent_commit.sends, fun updates => (silent_setCheckpoints updates).sends⟩

/-- Embedding sends the texts that are to be embedded. -/
lemma sends_embedAll {texts : List String} (h : ∀ t ∈ texts, P t) : Keeps (World.Sends P) (embedAll texts) := by
  intro w
  have hsends := (w.embedder.sends_embedAll texts).mono h
  exact ⟨hsends.maxChars, hsends.received⟩

end Act

end RepoAtlas
