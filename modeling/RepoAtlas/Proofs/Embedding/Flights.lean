import Mathlib.Logic.Relation
import RepoAtlas.Embedding.Embedder
import RepoAtlas.Proofs.Embedding.Spacing

/-!
# Requests that run together

However requests are queued, delayed and tried again, each keeps its text and its place, and the embedder
they share changes by a few kinds of steps: a text is sent to the provider, the breaker is told of a
request, something is counted, or time passes. So what these steps keep holds of every flight, and what an
answer of the provider says of its text holds of the outcomes. In particular the calls that a flight makes
of the breaker are a history at times that do not decrease, and it sends nothing but its texts, cut to
length.
-/

namespace RepoAtlas

/-- What requests for some texts keep of the embedder, and of a text with its answer. -/
structure Embedder.Kept (texts : List String) (E : Embedder → Prop) (A : String → Embedding → Prop) : Prop where
  told : ∀ (e : Embedder) (c : BreakerCall), E e → E { e with breaker := e.breaker.after (e.clock, c) }
  counted : ∀ (e : Embedder) (usage : EmbeddingUsage), E e → E { e with usage }
  waited : ∀ (e : Embedder) (t : Nat), e.clock ≤ t → E e → E { e with clock := t }
  called : ∀ (e : Embedder) (text : String), text ∈ texts → E e →
    E (e.call (truncateInput text e.maxChars)).2 ∧
      ∀ v, (e.call (truncateInput text e.maxChars)).1.result = .ok v → A text v

/-- A request that has its answer, or will have it, has a right one. -/
def Request.Right (A : String → Embedding → Prop) (r : Request) : Prop :=
  match r.phase with
  | .calling _ _ (.ok v) => A r.text v
  | .done (.ok v) => A r.text v
  | _ => True

/-- The requests are those for some texts, in order, and none has a wrong answer. -/
structure Flight.Answers (texts : List String) (E : Embedder → Prop) (A : String → Embedding → Prop)
    (f : Flight) : Prop where
  embedder : E f.embedder
  texts : f.requests.toList.map (·.text) = texts
  right : ∀ r ∈ f.requests.toList, r.Right A

namespace Flight

variable {texts : List String} {E : Embedder → Prop} {A : String → Embedding → Prop} {f : Flight}

lemma Answers.getElem? (h : f.Answers texts E A) {i : Nat} {r : Request} (hr : f.requests[i]? = some r) :
    texts[i]? = some r.text ∧ r.Right A := by
  rw [← Array.getElem?_toList] at hr
  refine ⟨?_, h.right r (List.mem_of_getElem? hr)⟩
  rw [← h.texts, List.getElem?_map, hr]
  rfl

/-- Changing one request. -/
lemma Answers.update (h : f.Answers texts E A) {i : Nat} {change : Request → Request}
    (hchange : ∀ r, texts[i]? = some r.text → r.Right A →
      (change r).text = r.text ∧ (change r).Right A) : (f.update i change).Answers texts E A where
  embedder := h.embedder
  texts := by
    rw [← h.texts]
    simp only [Flight.update]
    apply List.ext_getElem?
    intro j
    simp only [List.getElem?_map, Array.getElem?_toList, Array.getElem?_modify]
    split
    · rename_i hj
      subst hj
      cases hr : f.requests[i]? with
      | none => rfl
      | some r =>
        obtain ⟨ht, hright⟩ := h.getElem? hr
        simp [(hchange r ht hright).1]
    · rfl
  right r' hr' := by
    obtain ⟨j, hj⟩ := List.getElem?_of_mem hr'
    simp only [Flight.update, Array.getElem?_toList, Array.getElem?_modify] at hj
    split at hj
    · rename_i hij
      subst hij
      cases hr : f.requests[i]? with
      | none => simp [hr] at hj
      | some r =>
        obtain ⟨ht, hright⟩ := h.getElem? hr
        rw [hr] at hj
        cases hj
        exact (hchange r ht hright).2
    · exact (h.getElem? hj).2

lemma Answers.setPhase (h : f.Answers texts E A) {i : Nat} {p : Phase}
    (hp : ∀ t, texts[i]? = some t → Request.Right A { text := t, phase := p }) :
    (f.setPhase i p).Answers texts E A :=
  h.update fun r ht _ => ⟨rfl, hp r.text ht⟩

/-- Only the embedder and the requests count. -/
lemma Answers.congr {f' : Flight} (h : f.Answers texts E A) (he : E f'.embedder)
    (hr : f'.requests = f.requests) : f'.Answers texts E A where
  embedder := he
  texts := by rw [hr, h.texts]
  right := by rw [hr]; exact h.right

lemma Answers.release (h : f.Answers texts E A) : f.release.Answers texts E A := by
  simp only [Flight.release]
  split
  · exact h.congr h.embedder rfl
  · refine Answers.setPhase (h.congr ?_ ?_) fun t _ => ?_
    · exact h.embedder
    · rfl
    · trivial

section

variable (hkept : Embedder.Kept texts E A)
include hkept

lemma Answers.succeed (h : f.Answers texts E A) {i : Nat} {v : Embedding}
    (hv : ∀ t, texts[i]? = some t → A t v) : (f.succeed i v).Answers texts E A := by
  simp only [Flight.succeed]
  refine Answers.setPhase (h.congr ?_ ?_) fun t ht => ?_
  · exact hkept.told _ .succeeded h.embedder
  · rfl
  · exact hv t ht

lemma Answers.giveUp (h : f.Answers texts E A) {i : Nat} {err : EmbeddingError} :
    (f.giveUp i err).Answers texts E A := by
  simp only [Flight.giveUp]
  refine Answers.setPhase (h.congr ?_ ?_) fun t _ => ?_
  · cases err with
    | permanent reason => exact hkept.counted _ _ (hkept.told _ .succeeded h.embedder)
    | _ => exact hkept.counted _ _ (hkept.told _ .failed h.embedder)
  · rfl
  · trivial

/-- A way to go on with the `i`-th request that keeps the answers right. -/
def Safe (texts : List String) (E : Embedder → Prop) (A : String → Embedding → Prop) (i : Nat)
    (again : Flight → Request → Flight) : Prop :=
  ∀ (f : Flight) (r : Request), f.Answers texts E A → texts[i]? = some r.text → r.Right A →
    (again f r).Answers texts E A

section

variable {i : Nat} {r : Request} {again : Flight → Request → Flight}

lemma Answers.conclude (h : f.Answers texts E A) {result : Except EmbeddingError Embedding}
    (hr : texts[i]? = some r.text) (hright : r.Right A)
    (hresult : ∀ v, result = .ok v → A r.text v) (hagain : Safe texts E A i again) :
    (conclude again f i r result).Answers texts E A := by
  have hsame : ∀ t, texts[i]? = some t → r.text = t := by
    intro t ht
    rw [hr] at ht
    exact Option.some.inj ht
  cases result with
  | ok v =>
    refine h.succeed hkept fun t ht => ?_
    rw [← hsame t ht]
    exact hresult v rfl
  | error err =>
    have hcounted : (f.update i fun _ => { r with attempts := r.attempts + 1 }).Answers texts E A :=
      h.update fun r' hr' _ => ⟨hsame _ hr', hright⟩
    simp only [Flight.conclude]
    split
    · exact hcounted.giveUp hkept
    · split
      · exact hagain _ _ hcounted hr hright
      · exact hcounted.setPhase fun t _ => trivial

lemma Answers.attempt (h : f.Answers texts E A) (hr : texts[i]? = some r.text)
    (hright : r.Right A) (hagain : Safe texts E A i again) :
    (attempt again f i r).Answers texts E A := by
  obtain ⟨hcalled, hanswer⟩ := hkept.called _ r.text (List.mem_of_getElem? hr) h.embedder
  simp only [Flight.attempt]
  split
  · refine (h.congr ?_ ?_).release.conclude hkept hr hright hanswer hagain
    · exact hcalled
    · rfl
  · split
    · refine (h.congr ?_ ?_).release.conclude hkept hr hright (fun v hv => ?_) hagain
      · exact hcalled
      · rfl
      · cases hv
    · refine Answers.setPhase (h.congr ?_ ?_) fun t ht => ?_
      · exact hcalled
      · rfl
      · rw [hr] at ht
        cases ht
        cases hresult : (f.embedder.call (truncateInput r.text f.embedder.maxChars)).1.result with
        | ok v => exact hanswer v hresult
        | error err => trivial

end

/-- Requests go on with right answers, by induction on the bound of the attempts that may follow. -/
lemma safe_acquire (i n : Nat) : Safe texts E A i (acquire i n) := by
  induction n with
  | zero => exact fun f r h hr hright => h
  | succ n ih =>
    intro f r h hr hright
    simp only [acquire]
    split
    · refine Answers.attempt hkept (h.congr ?_ ?_) hr hright ih
      · exact h.embedder
      · rfl
    · refine Answers.setPhase (h.congr ?_ ?_) fun t _ => ?_
      · exact h.embedder
      · rfl
      · trivial

lemma Answers.poll (h : f.Answers texts E A) (i : Nat) : (f.poll i).Answers texts E A := by
  simp only [Flight.poll]
  cases hget : f.requests[i]? with
  | none => exact h
  | some r =>
    obtain ⟨hr, hright⟩ := h.getElem? hget
    have hagain : Safe texts E A i (acquire i f.attemptBound) := safe_acquire hkept i f.attemptBound
    simp only
    cases hphase : r.phase with
    | fresh =>
      have htold := hkept.told _ .asked h.embedder
      simp only [CircuitBreaker.after] at htold
      simp only
      cases hallow : f.embedder.breaker.allow f.embedder.clock with
      | error wait =>
        refine Answers.setPhase (h.congr ?_ ?_) fun t _ => ?_
        · exact hkept.counted _ _ h.embedder
        · rfl
        · trivial
      | ok breaker =>
        rw [hallow] at htold
        exact hagain _ r (h.congr htold rfl) hr hright
    | permitted => exact h.attempt hkept hr hright hagain
    | calling until_ deadline result =>
      simp only
      split
      · refine h.release.conclude hkept hr hright (fun v hv => ?_) hagain
        subst hv
        simpa [Request.Right, hphase] using hright
      · split
        · exact h.release.conclude hkept hr hright (fun v hv => by cases hv) hagain
        · exact h
    | resting until_ =>
      simp only
      split
      · exact hagain f r h hr hright
      · exact h
    | queued => exact h
    | done result => exact h

lemma Answers.pass (h : f.Answers texts E A) : f.pass.Answers texts E A := by
  simp only [Flight.pass]
  generalize List.range f.requests.size = l
  induction l generalizing f with
  | nil => exact h
  | cons i l ih => exact ih (h.poll hkept i)

lemma Answers.run (h : f.Answers texts E A) (n : Nat) (stop : Option Nat) :
    (f.run n stop).Answers texts E A := by
  induction n generalizing f with
  | zero => exact h
  | succ n ih =>
    have hpass := h.pass hkept
    have hwait : ∀ t, ({ f.pass with
        embedder := { f.pass.embedder with clock := max f.pass.embedder.clock t } }).Answers texts E A :=
      fun t => hpass.congr (hkept.waited _ _ (Nat.le_max_left ..) hpass.embedder) rfl
    simp only [Flight.run]
    split
    · exact ih hpass
    · split
      · exact hpass
      · split
        · split
          · exact hwait _
          · exact ih (hwait _)
        · exact ih (hwait _)

end

lemma answers_ofTexts {e : Embedder} (h : E e) (texts : List String) :
    (ofTexts e texts).Answers texts E A where
  embedder := h
  texts := by
    simp only [ofTexts, List.map_map]
    exact List.map_id texts
  right := by
    intro r hr
    simp only [ofTexts, List.mem_map] at hr
    obtain ⟨t, -, rfl⟩ := hr
    trivial

lemma Answers.length_results (h : f.Answers texts E A) : f.results.length = texts.length := by
  rw [← h.texts]
  simp [Flight.results]

/-- The outcomes stand for the texts, in order. -/
lemma Answers.results (h : f.Answers texts E A) :
    ∀ (i : Nat) t v, texts[i]? = some t → f.results[i]? = some (.ok v) → A t v := by
  intro i t v ht hv
  simp only [Flight.results, List.getElem?_map, Array.getElem?_toList, Option.map_eq_some_iff] at hv
  obtain ⟨r, hget, hout⟩ := hv
  obtain ⟨hr, hright⟩ := h.getElem? hget
  rw [ht] at hr
  cases hr
  cases hphase : r.phase with
  | done result =>
    simp only [Request.outcome, Request.result?, hphase, Option.getD_some] at hout
    subst hout
    simpa [Request.Right, hphase] using hright
  | _ => simp [Request.outcome, Request.result?, hphase] at hout

end Flight

namespace Embedder

variable {texts : List String} {E : Embedder → Prop} {A : String → Embedding → Prop} {e e' : Embedder}

/-- What steps keep is kept when texts are embedded, and each outcome is right for its text. -/
theorem Kept.embedAll (hkept : Kept texts E A) (h : E e) : E (e.embedAll texts).2 ∧
    ∀ (i : Nat) t v, texts[i]? = some t → (e.embedAll texts).1[i]? = some (.ok v) → A t v := by
  have hrun := (Flight.answers_ofTexts h texts).run hkept (Flight.ofTexts e texts).passBound none
  exact ⟨hrun.embedder, hrun.results⟩

/-- Each text has an outcome, whatever the provider does. -/
lemma length_embedAll (e : Embedder) (texts : List String) :
    (e.embedAll texts).1.length = texts.length := by
  have hkept : Kept texts (fun _ => True) fun _ _ => True :=
    ⟨fun _ _ _ => trivial, fun _ _ _ => trivial, fun _ _ _ _ => trivial, fun _ _ _ _ => ⟨trivial, fun _ _ => trivial⟩⟩
  exact ((Flight.answers_ofTexts trivial texts).run hkept (Flight.ofTexts e texts).passBound none).length_results

/-! ### The breaker -/

/-- The embedder has called its breaker at times that do not decrease, from some moment on. -/
def Called (start : Embedder) (e : Embedder) : Prop :=
  ∃ h : BreakerHistory, h.Pairwise (·.1 ≤ ·.1) ∧ (∀ c ∈ h, start.clock ≤ c.1 ∧ c.1 ≤ e.clock) ∧
    start.clock ≤ e.clock ∧ e.breaker = start.breaker.afterAll h

lemma Called.refl (e : Embedder) : Called e e := ⟨[], .nil, by simp, le_rfl, rfl⟩

lemma Called.tell {start : Embedder} (h : Called start e) (c : BreakerCall) :
    Called start { e with breaker := e.breaker.after (e.clock, c) } := by
  obtain ⟨h, hsorted, htimes, hle, hbreaker⟩ := h
  refine ⟨h ++ [(e.clock, c)], ?_, ?_, hle, ?_⟩
  · rw [List.pairwise_append]
    refine ⟨hsorted, List.pairwise_singleton .., fun c hc c' hc' => ?_⟩
    cases List.mem_singleton.mp hc'
    exact (htimes c hc).2
  · intro c hc
    rcases List.mem_append.mp hc with hc | hc
    · exact htimes c hc
    · cases List.mem_singleton.mp hc
      exact ⟨hle, le_rfl⟩
  · rw [CircuitBreaker.afterAll_concat, ← hbreaker]

/-- Requests that run together call the breaker at times that do not decrease. -/
theorem called_embedAll (e : Embedder) (texts : List String) : Called e (e.embedAll texts).2 := by
  have hkept : Kept texts (Called e) fun _ _ => True := by
    constructor
    · exact fun _ c h => h.tell c
    · exact fun _ _ h => h
    · rintro e' t ht ⟨h, hsorted, htimes, hle, hbreaker⟩
      exact ⟨h, hsorted, fun c hc => ⟨(htimes c hc).1, (htimes c hc).2.trans ht⟩, hle.trans ht, hbreaker⟩
    · exact fun _ _ _ h => ⟨h, fun _ _ => trivial⟩
  exact (hkept.embedAll (Called.refl e)).1

/-! ### What is sent -/

/-- The provider received some more texts, of which each is one of some others that was cut to length. -/
structure Sends (P : String → Prop) (start e : Embedder) : Prop where
  maxChars : e.maxChars = start.maxChars
  received : ∃ l, e.received.toList = start.received.toList ++ l ∧
    ∀ s ∈ l, ∃ text, P text ∧ s = truncateInput text start.maxChars

variable {P : String → Prop} {e'' : Embedder}

lemma Sends.refl (e : Embedder) : Sends P e e := ⟨rfl, [], by simp, by simp⟩

lemma Sends.trans (h : Sends P e e') (h' : Sends P e' e'') : Sends P e e'' := by
  obtain ⟨hmax, l, hl, htexts⟩ := h
  obtain ⟨hmax', l', hl', htexts'⟩ := h'
  refine ⟨hmax'.trans hmax, l ++ l', by rw [hl', hl, List.append_assoc], fun s hs => ?_⟩
  rcases List.mem_append.mp hs with hs | hs
  · exact htexts s hs
  · rw [← hmax]
    exact htexts' s hs

lemma Sends.mono {Q : String → Prop} (h : Sends P e e') (hPQ : ∀ t, P t → Q t) : Sends Q e e' := by
  obtain ⟨hmax, l, hl, htexts⟩ := h
  refine ⟨hmax, l, hl, fun s hs => ?_⟩
  obtain ⟨text, htext, heq⟩ := htexts s hs
  exact ⟨text, hPQ text htext, heq⟩

/-- Requests that run together send their own texts only. -/
theorem sends_embedAll (e : Embedder) (texts : List String) : Sends (· ∈ texts) e (e.embedAll texts).2 := by
  have hkept : Kept texts (Sends (· ∈ texts) e) fun _ _ => True := by
    constructor
    · exact fun _ _ h => ⟨h.maxChars, h.received⟩
    · exact fun _ _ h => ⟨h.maxChars, h.received⟩
    · exact fun _ _ _ h => ⟨h.maxChars, h.received⟩
    · refine fun e' text htext h => ⟨h.trans ⟨rfl, [truncateInput text e'.maxChars], ?_, ?_⟩, fun _ _ => trivial⟩
      · simp [call]
      · simpa using ⟨text, htext, rfl⟩
  exact (hkept.embedAll (Sends.refl e)).1

end Embedder

end RepoAtlas
