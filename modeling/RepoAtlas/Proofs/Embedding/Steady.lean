import RepoAtlas.Proofs.Embedding.Flights

/-!
# Requests to a steady provider

A provider is steady if whatever it answers is a function of the text. Requests that run together keep
their texts and their order, and each of them that ends well ends with the value of this function,
however the requests are queued, delayed and tried again.
-/

namespace RepoAtlas

/-! ### Providers -/

namespace Provider

/-- The provider after it was asked for some texts. -/
def afterTexts (p : Provider) (asked : List String) : Provider :=
  asked.foldl (fun p t => (p.answer t).2.2) p

/-- Whatever the provider answers, after any texts that it was asked for, is a function of the text. -/
def Steady (vec : String → Embedding) (p : Provider) : Prop :=
  ∀ asked t v, ((p.afterTexts asked).answer t).1.result = .ok v → v = vec t

variable {p : Provider} {vec : String → Embedding} {vocabulary : List String} {rules rest : List ProviderRule}
  {text : String} {a : RuleAction}

lemma Steady.answer (h : p.Steady vec) (text : String) :
    (p.answer text).2.2.Steady vec ∧ ∀ v, (p.answer text).1.result = .ok v → v = vec text :=
  ⟨fun asked => h (text :: asked), h [] text⟩

/-- A provider is steady if it stays among providers that answer the next text rightly. -/
lemma steady_of_closed {S : Provider → Prop} (hanswer : ∀ q, S q → ∀ t, S (q.answer t).2.2 ∧
    ∀ v, (q.answer t).1.result = .ok v → v = vec t) (h : S p) : p.Steady vec := by
  intro asked
  induction asked generalizing p with
  | nil => exact fun t => (hanswer p h t).2
  | cons s asked ih => exact ih (hanswer p h s).1

/-- Rules keep what they do when they are used. -/
lemma useRule_action (h : useRule text rules = some (a, rest)) :
    (∃ r ∈ rules, r.action = a) ∧ ∀ r' ∈ rest, ∃ r ∈ rules, r.action = r'.action := by
  induction rules generalizing rest with
  | nil => cases h
  | cons r rs ih =>
    simp only [useRule] at h
    split at h
    · cases h
      refine ⟨⟨r, by simp, rfl⟩, ?_⟩
      rintro r' (_ | ⟨_, hr'⟩)
      · exact ⟨r, by simp, rfl⟩
      · exact ⟨r', List.mem_cons_of_mem r hr', rfl⟩
    · simp only [Option.map_eq_some_iff, Prod.mk.injEq, Prod.exists] at h
      obtain ⟨a', rest', hrs, rfl, rfl⟩ := h
      obtain ⟨⟨s, hs, hact⟩, hrest⟩ := ih hrs
      refine ⟨⟨s, by simp [hs], hact⟩, ?_⟩
      rintro r' (_ | ⟨_, hr'⟩)
      · exact ⟨r, by simp, rfl⟩
      · obtain ⟨s', hs', hact'⟩ := hrest r' hr'
        exact ⟨s', by simp [hs'], hact'⟩

/-- A provider is steady if what its service answers is a function of the text, and its rules answer no
vectors of their own. -/
theorem steady_of_respond (hrespond : ∀ asked t v, (p.respond asked t).1.result = .ok v → v = vec t)
    (hrules : ∀ r ∈ p.rules, ∀ v, r.action ≠ .vector v) : p.Steady vec := by
  refine steady_of_closed (S := fun q => (∀ asked t v, (q.respond asked t).1.result = .ok v → v = vec t) ∧
    ∀ r ∈ q.rules, ∀ v, r.action ≠ .vector v) ?_ ⟨hrespond, hrules⟩
  rintro q ⟨hrespond, hrules⟩ t
  simp only [answer]
  cases huse : useRule t q.rules with
  | none => exact ⟨⟨hrespond, hrules⟩, hrespond _ t⟩
  | some used =>
    obtain ⟨action, rest⟩ := used
    obtain ⟨⟨r, hr, rfl⟩, hrest⟩ := useRule_action huse
    have hvectors : ∀ r' ∈ rest, ∀ v, r'.action ≠ .vector v := by
      intro r' hr' v
      obtain ⟨s, hs, hact⟩ := hrest r' hr'
      rw [← hact]
      exact hrules s hs v
    cases hact : r.action with
    | fail e => exact ⟨⟨hrespond, hvectors⟩, fun v hv => by cases hv⟩
    | vector v => exact absurd hact (hrules r hr v)
    | sleep ms => exact ⟨⟨hrespond, hvectors⟩, hrespond _ t⟩
    | cancel => exact ⟨⟨hrespond, hvectors⟩, hrespond _ t⟩

/-- A provider that counts words is steady as long as its rules answer no vectors of their own. -/
lemma steady_countWords (hrules : ∀ r ∈ rules, ∀ v, r.action ≠ .vector v) :
    (scripted vocabulary rules).Steady (countWords vocabulary) :=
  steady_of_respond (fun _ _ _ hv => (Except.ok.inj hv).symm) hrules

/-- Rules that never run out stay as they are. -/
lemma useRule_lasting (hlasting : ∀ r ∈ rules, r.uses = none) (h : useRule text rules = some (a, rest)) :
    rest = rules := by
  induction rules generalizing rest with
  | nil => cases h
  | cons r rs ih =>
    obtain ⟨hr, hrs⟩ := List.forall_mem_cons.mp hlasting
    simp only [useRule] at h
    split at h
    · have hused : r.used = r := by
        cases r
        cases hr
        rfl
      cases h
      rw [hused]
    · simp only [Option.map_eq_some_iff, Prod.mk.injEq, Prod.exists] at h
      obtain ⟨a', rest', huse, rfl, rfl⟩ := h
      rw [ih hrs huse]

/-- A provider whose rules never run out is steady, whatever vectors they answer, if its service takes no
account of what it was asked before. -/
theorem steady_of_lasting (hrespond : ∀ asked t, p.respond asked t = p.respond [] t)
    (hlasting : ∀ r ∈ p.rules, r.uses = none) :
    p.Steady fun t => (p.answer t).1.result.toOption.getD [] := by
  refine steady_of_closed (S := fun q => q.respond = p.respond ∧ q.rules = p.rules) ?_ ⟨rfl, rfl⟩
  rintro ⟨n, respond, asked, rules⟩ ⟨rfl, rfl⟩ t
  have hanswer : ({ p with dimensions := n, asked := asked }.answer t).1 = (p.answer t).1 ∧
      ({ p with dimensions := n, asked := asked }.answer t).2.2.respond = p.respond ∧
      ({ p with dimensions := n, asked := asked }.answer t).2.2.rules = p.rules := by
    simp only [answer, ask, hrespond asked t, hrespond p.asked t]
    cases huse : useRule t p.rules with
    | none => exact ⟨rfl, rfl, rfl⟩
    | some used =>
      obtain ⟨action, rest⟩ := used
      obtain rfl := useRule_lasting hlasting huse
      cases action <;> exact ⟨rfl, rfl, rfl⟩
  refine ⟨hanswer.2, fun v hv => ?_⟩
  rw [← hanswer.1, hv]
  rfl

end Provider

/-- The embeddings of texts are a function of them: that of the provider, of what is left of a text
after it is cut to length. -/
def Embedder.Steady (vec : String → Embedding) (e : Embedder) : Prop :=
  ∃ raw, e.provider.Steady raw ∧ ∀ t, vec t = raw (truncateInput t e.maxChars)

lemma Embedder.Steady.call {vec : String → Embedding} {e : Embedder} (h : e.Steady vec)
    (text : String) : (e.call (truncateInput text e.maxChars)).2.Steady vec ∧
      ∀ v, (e.call (truncateInput text e.maxChars)).1.result = .ok v → v = vec text := by
  obtain ⟨raw, hsteady, hvec⟩ := h
  obtain ⟨hsteady', hanswer⟩ := hsteady.answer (truncateInput text e.maxChars)
  refine ⟨⟨raw, hsteady', hvec⟩, fun v hv => ?_⟩
  rw [hvec]
  exact hanswer v hv

namespace Embedder

/-- Embedding texts answers each of them in its place and leaves the embedder steady. -/
theorem Steady.embedAll {vec : String → Embedding} {e : Embedder} (h : e.Steady vec)
    (texts : List String) : (e.embedAll texts).2.Steady vec ∧
        ∀ (i : Nat) t v, texts[i]? = some t → (e.embedAll texts).1[i]? = some (.ok v) → v = vec t := by
  have hkept : Kept texts (Steady vec) fun t v => v = vec t :=
    ⟨fun _ _ h => h, fun _ _ h => h, fun _ _ _ h => h, fun _ text _ h => h.call text⟩
  exact hkept.embedAll h

end Embedder

end RepoAtlas
