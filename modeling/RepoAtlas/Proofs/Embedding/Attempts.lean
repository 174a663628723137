import Mathlib.Algebra.Ring.Nat
import Mathlib.Data.List.Basic
import Mathlib.Tactic.Common
import RepoAtlas.Embedding.Embedder

/-!
# The attempts of a request

A request that is alone has the permits to itself, so what it does follows from what the provider answers to
one call after another: it calls until an outcome ends it or no retry is left, and rests between two calls for
the time that the provider asks for or that the policy gives.
-/

namespace RepoAtlas

namespace Embedder

variable (e : Embedder) (text : String)

/-! ### Calls and pauses -/

/-- What a request sends for a text. -/
def input : String := truncateInput text e.maxChars

/-- The provider after some calls of a request. -/
def providerAfter : Nat → Provider
  | 0 => e.provider
  | n + 1 => ((providerAfter n).answer (e.input text)).2.2

/-- The answer to a call; calls are counted from zero. -/
def replyTo (n : Nat) : Reply := ((e.providerAfter text n).answer (e.input text)).1

/-- Whether a call makes the provider ask for cancellation. -/
def cancels (n : Nat) : Bool := ((e.providerAfter text n).answer (e.input text)).2.1

/-- The outcome of a call: the answer of the provider if it comes before the deadline is over. -/
def outcomeOf (n : Nat) : Except EmbeddingError Embedding :=
  if (e.replyTo text n).delay ≤ e.policy.deadline.millis then (e.replyTo text n).result
  else .error (.timeout e.policy.deadline)

/-- The milliseconds that a call takes. -/
def lasting (n : Nat) : Nat := min (e.replyTo text n).delay e.policy.deadline.millis

/-- The pause before the retry that follows a call: the time that the provider asks for, or else the base
delay, doubled with each retry up to sixteen times and at most the longest length of time. -/
def pauseAfter (n : Nat) : Duration :=
  match e.outcomeOf text n with
  | .error (.rateLimited (some after)) => after
  | _ => ⟨min (e.policy.baseDelay.nanos * 2 ^ min n 16) Duration.max.nanos⟩

/-- The moment at which a call starts, if the request comes to it. -/
def startOf : Nat → Nat
  | 0 => e.clock
  | n + 1 => startOf n + e.lasting text n + (e.pauseAfter text n).millis

/-- The moment at which a call ends. -/
def endOf (n : Nat) : Nat := e.startOf text n + e.lasting text n

/-- The outcome of a call is an error after which a request tries again: it is transient, or the provider
limits the rate. -/
def Retried (n : Nat) : Prop := ∃ err, e.outcomeOf text n = .error err ∧ err.isTransient = true

/-- A call is the first whose outcome is not tried again, or the last that the policy allows. -/
structure Last (n : Nat) : Prop where
  before : ∀ i < n, e.Retried text i
  bound : n ≤ e.policy.maxRetries
  ends : n < e.policy.maxRetries → ¬e.Retried text n

/-- The embedder after some calls of a request that was admitted. -/
def afterCalls (b : CircuitBreaker) (n clock : Nat) : Embedder :=
  { e with
    breaker := b
    usage := ⟨e.usage.calls + n, e.usage.failures, e.usage.chars + n * (e.input text).length⟩
    provider := e.providerAfter text n
    clock := clock
    received := e.received ++ Array.replicate n (e.input text)
    cancelAsked := e.cancelAsked || (List.range n).any (e.cancels text) }

/-- What a breaker is told of the outcome of a request: the provider works if it answered with a vector, or
rejected the text. -/
def tell (b : CircuitBreaker) (now : Nat) : Except EmbeddingError Embedding → CircuitBreaker
  | .ok _ => b.succeeded
  | .error (.permanent _) => b.succeeded
  | .error _ => b.failed now

/-- The embedder after a request whose last call is the given one. -/
def afterRequest (b : CircuitBreaker) (n : Nat) : Embedder :=
  let used := e.afterCalls text (tell b (e.endOf text n) (e.outcomeOf text n)) (n + 1) (e.endOf text n)
  { used with
    usage := { used.usage with failures := e.usage.failures + if (e.outcomeOf text n).isOk then 0 else 1 } }

variable {e : Embedder} {text : String} {b : CircuitBreaker} {n k c : Nat}

lemma Last.le (hn : e.Last text n) (hbefore : ∀ i < k, e.Retried text i) (hk : k ≤ e.policy.maxRetries) :
    k ≤ n := by
  by_contra hlt
  rw [Nat.not_le] at hlt
  exact hn.ends (by omega) (hbefore n hlt)

lemma Last.unique (hn : e.Last text n) (hk : e.Last text k) : n = k :=
  Nat.le_antisymm (hk.le hn.before hn.bound) (hn.le hk.before hk.bound)

/-- The pause is the one that the policy gives. -/
lemma delayAfter_eq {err : EmbeddingError} (h : e.outcomeOf text n = .error err) :
    e.policy.delayAfter (n + 1) err = e.pauseAfter text n := by
  have hdelay : e.policy.delay (n + 1) = ⟨min (e.policy.baseDelay.nanos * 2 ^ min n 16) Duration.max.nanos⟩ := by
    rw [RetryPolicy.delay, Duration.times, Nat.add_sub_cancel, Nat.one_shiftLeft]
    split
    · rename_i hle
      rw [Nat.min_eq_left hle]
    · rename_i hlt
      rw [Nat.min_eq_right (by omega)]
  rw [pauseAfter, h]
  cases err with
  | rateLimited after =>
    cases after with
    | some after => rfl
    | none => exact hdelay
  | _ => exact hdelay

lemma call_afterCalls :
    (e.afterCalls text b n c).call (e.input text) = (e.replyTo text n, e.afterCalls text b (n + 1) c) := by
  simp only [call, afterCalls, replyTo, providerAfter, Prod.mk.injEq, true_and]
  simp [Nat.add_mul, Nat.add_assoc, List.range_succ, Bool.or_assoc, Array.replicate_succ, cancels.eq_def]

end Embedder

/-! ### A request that is alone -/

namespace Flight

/-- A flight of one request, for which nobody waits. -/
def lone (e : Embedder) (free : Nat) (r : Request) : Flight := { embedder := e, free, requests := #[r] }

variable {e : Embedder} {free : Nat} {r : Request} {p : Phase}

@[simp] lemma embedder_lone : (lone e free r).embedder = e := rfl

@[simp] lemma requests_lone : (lone e free r).requests = #[r] := rfl

@[simp] lemma update_lone (change : Request → Request) :
    (lone e free r).update 0 change = lone e free (change r) := by
  simp [lone, update, Array.modify, Array.modifyM]

@[simp] lemma setPhase_lone : (lone e free r).setPhase 0 p = lone e free { r with phase := p } :=
  update_lone _

@[simp] lemma release_lone : (lone e free r).release = lone e (free + 1) r := rfl

lemma succeed_lone (v : Embedding) : (lone e free r).succeed 0 v =
    lone { e with breaker := e.breaker.succeeded } free { r with phase := .done (.ok v) } :=
  setPhase_lone (e := { e with breaker := e.breaker.succeeded })

lemma giveUp_lone (err : EmbeddingError) : (lone e free r).giveUp 0 err =
    lone { e with
      breaker := Embedder.tell e.breaker e.clock (.error err)
      usage := { e.usage with failures := e.usage.failures + 1 } } free
      { r with phase := .done (.error err) } := by
  cases err with
  | permanent reason =>
    exact setPhase_lone (e := { e with
      breaker := e.breaker.succeeded
      usage := { e.usage with failures := e.usage.failures + 1 } })
  | _ =>
    exact setPhase_lone (e := { e with
      breaker := e.breaker.failed e.clock
      usage := { e.usage with failures := e.usage.failures + 1 } })

lemma conclude_error_lone (again : Flight → Request → Flight) (err : EmbeddingError) :
    conclude again (lone e free r) 0 r (.error err) =
      if err.isTransient = true ∧ r.attempts + 1 ≤ e.policy.maxRetries then
        if (e.policy.delayAfter (r.attempts + 1) err).millis = 0 then
          again (lone e free { r with attempts := r.attempts + 1 }) { r with attempts := r.attempts + 1 }
        else lone e free { r with
          phase := .resting (e.clock + (e.policy.delayAfter (r.attempts + 1) err).millis)
          attempts := r.attempts + 1 }
      else lone { e with
        breaker := Embedder.tell e.breaker e.clock (.error err)
        usage := { e.usage with failures := e.usage.failures + 1 } } free
        { r with phase := .done (.error err), attempts := r.attempts + 1 } := by
  have hend : (!err.isTransient || e.policy.maxRetries < r.attempts + 1) = true ↔
      ¬(err.isTransient = true ∧ r.attempts + 1 ≤ e.policy.maxRetries) := by
    rw [not_and_or, Nat.not_le]
    simp
  rw [conclude, update_lone, giveUp_lone]
  simp only [setPhase_lone, embedder_lone]
  by_cases htry : err.isTransient = true ∧ r.attempts + 1 ≤ e.policy.maxRetries
  · rw [if_pos htry]
    exact if_neg fun h => hend.mp h htry
  · rw [if_neg htry]
    exact if_pos (hend.mpr htry)

@[simp] lemma nextTimer?_lone : (lone e free r).nextTimer? = r.timer? := by
  simp only [nextTimer?, requests_lone]
  cases h : r.timer? <;> simp [h]

@[simp] lemma pass_lone : (lone e free r).pass = (lone e free r).poll 0 := rfl

/-- The flight when the clock has moved to a moment. -/
def waitUntil (f : Flight) (t : Nat) : Flight :=
  { f with embedder := { f.embedder with clock := max f.embedder.clock t } }

/-- Where a request that is alone and was admitted has come to at a moment, with the number of the place: it
waits for a call, it waits between two calls, or it has ended. -/
inductive Halted (e : Embedder) (text : String) (b : CircuitBreaker) : Nat → Nat → Flight → Prop
  | calling {n} (hbefore : ∀ i < n, e.Retried text i) (hbound : n ≤ e.policy.maxRetries)
      (hlasting : 0 < e.lasting text n) :
      Halted e text b (e.startOf text n) (2 * n + 1)
        (lone (e.afterCalls text b (n + 1) (e.startOf text n)) (e.permits - 1)
          ⟨text, .calling (e.startOf text n + (e.replyTo text n).delay)
            (e.startOf text n + e.policy.deadline.millis) (e.replyTo text n).result, n⟩)
  | resting {n} (hbefore : ∀ i < n + 1, e.Retried text i) (hbound : n + 1 ≤ e.policy.maxRetries)
      (hpause : 0 < (e.pauseAfter text n).millis) :
      Halted e text b (e.endOf text n) (2 * n + 2)
        (lone (e.afterCalls text b (n + 1) (e.endOf text n)) e.permits
          ⟨text, .resting (e.startOf text (n + 1)), n + 1⟩)
  | done {n a} (hlast : e.Last text n) :
      Halted e text b (e.endOf text n) (2 * n + 3)
        (lone (e.afterRequest text b n) e.permits ⟨text, .done (e.outcomeOf text n), a⟩)

section

variable {text : String} {b : CircuitBreaker} {n : Nat} {again : Flight → Request → Flight}

/-- From the start of a call a request comes to a place that is not before the call. -/
def GoesOn (e : Embedder) (text : String) (b : CircuitBreaker) (n : Nat) (again : Flight → Request → Flight) :
    Prop :=
  ∀ p, (∀ i < n, e.Retried text i) → n ≤ e.policy.maxRetries →
    ∃ i, 2 * n + 1 ≤ i ∧ Halted e text b (e.startOf text n) i
      (again (lone (e.afterCalls text b n (e.startOf text n)) e.permits ⟨text, p, n⟩) ⟨text, p, n⟩)

/-- When a call has ended the request rests, tries again, or has ended too. -/
lemma halted_conclude (hagain : GoesOn e text b (n + 1) again) (hbefore : ∀ i < n, e.Retried text i)
    (hbound : n ≤ e.policy.maxRetries) :
    ∃ i, 2 * n + 2 ≤ i ∧ Halted e text b (e.endOf text n) i
      (conclude again (lone (e.afterCalls text b (n + 1) (e.endOf text n)) e.permits ⟨text, p, n⟩) 0
        ⟨text, p, n⟩ (e.outcomeOf text n)) := by
  cases hresult : e.outcomeOf text n with
  | ok v =>
    have hlast : e.Last text n := ⟨hbefore, hbound, fun _ ⟨err, herr, _⟩ => by simp [hresult] at herr⟩
    refine ⟨2 * n + 3, by omega, ?_⟩
    have hdone := Halted.done (b := b) (a := n) hlast
    rw [Embedder.afterRequest, hresult] at hdone
    rw [conclude, succeed_lone]
    exact hdone
  | error err =>
    rw [conclude_error_lone]
    have hdelay : (e.afterCalls text b (n + 1) (e.endOf text n)).policy.delayAfter (n + 1) err =
        e.pauseAfter text n := Embedder.delayAfter_eq hresult
    split
    · rename_i htry
      obtain ⟨htransient, hle⟩ := htry
      have hretried : ∀ i < n + 1, e.Retried text i := fun i hi =>
        (Nat.lt_succ_iff_lt_or_eq.mp hi).elim (hbefore i) fun hin => hin ▸ ⟨err, hresult, htransient⟩
      rw [hdelay]
      split
      · rename_i hzero
        obtain ⟨i, hi, hhalted⟩ := hagain p hretried hle
        rw [Embedder.startOf, hzero, Nat.add_zero] at hhalted
        exact ⟨i, by omega, hhalted⟩
      · rename_i hpos
        exact ⟨2 * n + 2, Nat.le_refl _, .resting hretried hle (Nat.pos_of_ne_zero hpos)⟩
    · rename_i htry
      have hlast : e.Last text n := by
        refine ⟨hbefore, hbound, fun hlt ⟨err', herr, htransient⟩ => htry ?_⟩
        rw [hresult] at herr
        cases herr
        exact ⟨htransient, hlt⟩
      have hdone := Halted.done (b := b) (a := n + 1) hlast
      rw [Embedder.afterRequest, hresult] at hdone
      exact ⟨2 * n + 3, by omega, hdone⟩

lemma attempt_afterCalls (hpermits : 0 < e.permits) {c : Nat} :
    attempt again (lone (e.afterCalls text b n c) (e.permits - 1) ⟨text, p, n⟩) 0 ⟨text, p, n⟩ =
      if (e.replyTo text n).delay = 0 then
        conclude again (lone (e.afterCalls text b (n + 1) c) e.permits ⟨text, p, n⟩) 0 ⟨text, p, n⟩
          (e.replyTo text n).result
      else if e.policy.deadline.millis = 0 then
        conclude again (lone (e.afterCalls text b (n + 1) c) e.permits ⟨text, p, n⟩) 0 ⟨text, p, n⟩
          (.error (.timeout e.policy.deadline))
      else lone (e.afterCalls text b (n + 1) c) (e.permits - 1)
        ⟨text, .calling (c + (e.replyTo text n).delay) (c + e.policy.deadline.millis)
          (e.replyTo text n).result, n⟩ := by
  have hcall : (e.afterCalls text b n c).call (truncateInput text (e.afterCalls text b n c).maxChars) =
    (e.replyTo text n, e.afterCalls text b (n + 1) c) := Embedder.call_afterCalls
  have hcalled : ({ lone (e.afterCalls text b n c) (e.permits - 1) ⟨text, p, n⟩ with
      embedder := e.afterCalls text b (n + 1) c } : Flight) =
    lone (e.afterCalls text b (n + 1) c) (e.permits - 1) ⟨text, p, n⟩ := rfl
  simp only [attempt, embedder_lone, hcall]
  rw [hcalled, release_lone, Nat.sub_add_cancel hpermits, setPhase_lone]
  rfl

/-- An attempt ends at once, or the request waits for the call. -/
lemma halted_attempt (hpermits : 0 < e.permits) (hagain : GoesOn e text b (n + 1) again)
    (hbefore : ∀ i < n, e.Retried text i) (hbound : n ≤ e.policy.maxRetries) :
    ∃ i, 2 * n + 1 ≤ i ∧ Halted e text b (e.startOf text n) i
      (attempt again (lone (e.afterCalls text b n (e.startOf text n)) (e.permits - 1) ⟨text, p, n⟩) 0
        ⟨text, p, n⟩) := by
  rw [attempt_afterCalls hpermits]
  by_cases hlasting : e.lasting text n = 0
  · have hend : e.endOf text n = e.startOf text n := by rw [Embedder.endOf, hlasting, Nat.add_zero]
    obtain ⟨i, hi, hhalted⟩ := halted_conclude (p := p) hagain hbefore hbound
    refine ⟨i, by omega, ?_⟩
    rw [hend, Embedder.outcomeOf] at hhalted
    rw [Embedder.lasting] at hlasting
    by_cases hdelay : (e.replyTo text n).delay = 0
    · rw [if_pos hdelay]
      rwa [if_pos (by omega)] at hhalted
    · rw [if_neg hdelay, if_pos (by omega)]
      rwa [if_neg (by omega)] at hhalted
  · have hpos : (e.replyTo text n).delay ≠ 0 ∧ e.policy.deadline.millis ≠ 0 := by
      rw [Embedder.lasting] at hlasting
      omega
    rw [if_neg hpos.1, if_neg hpos.2]
    exact ⟨2 * n + 1, Nat.le_refl _, .calling hbefore hbound (Nat.pos_of_ne_zero hlasting)⟩

/-- The attempts that may follow at one moment suffice, as each uses up a retry. -/
lemma goesOn_acquire (hpermits : 0 < e.permits) {m : Nat} (hm : e.policy.maxRetries < n + m) :
    GoesOn e text b n (acquire 0 m) := by
  induction m generalizing n with
  | zero => exact fun _ _ hbound => absurd hbound (by omega)
  | succ m ih =>
    intro p hbefore hbound
    rw [acquire, if_pos (by exact hpermits)]
    exact halted_attempt hpermits (ih (by omega)) hbefore hbound

/-! ### Passes -/

variable {c i t : Nat} {f : Flight}

lemma Halted.le (h : Halted e text b c i f) : i ≤ 2 * e.policy.maxRetries + 3 := by
  cases h with
  | calling _ hbound _ => omega
  | resting _ hbound _ => omega
  | done hlast =>
    have hbound := hlast.bound
    omega

lemma waitUntil_lone {free : Nat} {r : Request} (hct : c ≤ t) :
    (lone (e.afterCalls text b n c) free r).waitUntil t = lone (e.afterCalls text b n t) free r := by
  rw [waitUntil, show max (lone (e.afterCalls text b n c) free r).embedder.clock t = t from Nat.max_eq_right hct]
  rfl

/-- When the call of a request is over, it has the outcome of the call. -/
lemma pass_calling (hpermits : 0 < e.permits) {r : Request}
    (hr : r.phase = .calling (e.startOf text n + (e.replyTo text n).delay)
      (e.startOf text n + e.policy.deadline.millis) (e.replyTo text n).result) :
    (lone (e.afterCalls text b (n + 1) (e.endOf text n)) (e.permits - 1) r).pass =
      conclude (acquire 0 (e.policy.maxRetries + 2))
        (lone (e.afterCalls text b (n + 1) (e.endOf text n)) e.permits r) 0 r (e.outcomeOf text n) := by
  have hclock : (e.afterCalls text b (n + 1) (e.endOf text n)).clock = e.endOf text n := rfl
  have hfree : e.permits - 1 + 1 = e.permits := Nat.sub_add_cancel hpermits
  rw [pass_lone, poll]
  simp only [requests_lone, List.getElem?_toArray, List.getElem?_cons_zero, hr, embedder_lone, hclock]
  rw [release_lone, hfree, Embedder.outcomeOf]
  by_cases hdelay : (e.replyTo text n).delay ≤ e.policy.deadline.millis
  · rw [if_pos hdelay, if_pos (by rw [Embedder.endOf, Embedder.lasting]; omega)]
    rfl
  · rw [if_neg hdelay, if_neg (by rw [Embedder.endOf, Embedder.lasting]; omega),
      if_pos (by rw [Embedder.endOf, Embedder.lasting]; omega)]
    rfl

/-- When the pause of a request is over, it tries again. -/
lemma pass_resting {r : Request} (hr : r.phase = .resting t) :
    (lone (e.afterCalls text b n t) e.permits r).pass =
      acquire 0 (e.policy.maxRetries + 2) (lone (e.afterCalls text b n t) e.permits r) r := by
  have hclock : (e.afterCalls text b n t).clock = t := rfl
  rw [pass_lone, poll]
  simp only [requests_lone, List.getElem?_toArray, List.getElem?_cons_zero, hr, embedder_lone, hclock,
    Nat.le_refl, if_true]
  rfl

/-- When the time of a request that waits has come, it goes on. -/
lemma Halted.next (hpermits : 0 < e.permits) (h : Halted e text b c i f) (ht : f.nextTimer? = some t) :
    ∃ j, i < j ∧ Halted e text b t j (f.waitUntil t).pass := by
  cases h with
  | @calling n hbefore hbound hlasting =>
    have hend : e.endOf text n = t := by
      rw [nextTimer?_lone, Request.timer?, Option.some.injEq, Nat.add_min_add_left] at ht
      exact ht
    subst hend
    obtain ⟨j, hj, hhalted⟩ := halted_conclude (b := b) (goesOn_acquire (m := e.policy.maxRetries + 2) hpermits
      (by omega)) hbefore hbound
    rw [waitUntil_lone (by rw [Embedder.endOf]; omega), pass_calling hpermits rfl]
    exact ⟨j, by omega, hhalted⟩
  | @resting n hbefore hbound hpause =>
    have hstart : e.startOf text (n + 1) = t := by
      rw [nextTimer?_lone, Request.timer?, Option.some.injEq] at ht
      exact ht
    subst hstart
    obtain ⟨j, hj, hhalted⟩ := goesOn_acquire (b := b) (m := e.policy.maxRetries + 2) hpermits (by omega) _
      hbefore hbound
    rw [waitUntil_lone (by rw [Embedder.startOf, Embedder.endOf]; omega), pass_resting rfl]
    exact ⟨j, by omega, hhalted⟩
  | done hlast => cases ht

/-! ### Runs -/

/-- How the run of a request that is alone and was admitted can end: the request has ended, or the run is
stopped at a moment before that. -/
inductive Finished (e : Embedder) (text : String) (b : CircuitBreaker) (stop : Option Nat) : Flight → Prop
  | ended {n a} (hlast : e.Last text n) (hstop : ∀ s, stop = some s → e.endOf text n ≤ s) :
      Finished e text b stop
        (lone (e.afterRequest text b n) e.permits ⟨text, .done (e.outcomeOf text n), a⟩)
  | stopped {n s free r} (hstop : stop = some s) (hbefore : ∀ i < n, e.Retried text i)
      (hbound : n ≤ e.policy.maxRetries) (hstart : e.startOf text n ≤ s) (hnext : s < e.startOf text (n + 1))
      (hend : e.Last text n → s < e.endOf text n) (hnone : r.result? = none) :
      Finished e text b stop (lone (e.afterCalls text b (n + 1) s) free r)

/-- A run stops a request that still waits. -/
lemma Halted.stopped {s : Nat} (h : Halted e text b c i f) (ht : f.nextTimer? = some t) (hc : c ≤ s)
    (hs : s < t) : Finished e text b (some s) (f.waitUntil s) := by
  cases h with
  | @calling n hbefore hbound hlasting =>
    rw [nextTimer?_lone, Request.timer?, Option.some.injEq, Nat.add_min_add_left] at ht
    have hend : s < e.endOf text n := Nat.lt_of_lt_of_eq hs ht.symm
    rw [waitUntil_lone hc]
    refine .stopped rfl hbefore hbound hc ?_ (fun _ => hend) rfl
    rw [Embedder.startOf]
    exact Nat.lt_of_lt_of_le hend (Nat.le_add_right _ _)
  | @resting n hbefore hbound hpause =>
    rw [nextTimer?_lone, Request.timer?, Option.some.injEq] at ht
    subst ht
    rw [waitUntil_lone hc]
    refine .stopped rfl (fun i hi => hbefore i (by omega)) (by omega) ?_ hs
      (fun hlast => absurd (hbefore n (by omega)) (hlast.ends hbound)) rfl
    exact Nat.le_trans (Nat.le_add_right _ _) hc
  | done hlast => cases ht

end

end Flight

end RepoAtlas
