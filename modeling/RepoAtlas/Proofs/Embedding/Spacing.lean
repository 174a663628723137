import Mathlib.Data.List.DropRight
import Mathlib.Tactic.Common
import RepoAtlas.Embedding.Breaker

/-!
# How a breaker spaces requests

Requests ask a breaker to let them through and tell it how they ended, in any order: a request that was let
through long ago may fail in the middle of a trial. A history lists these calls. What the breaker does at a
moment follows from the history alone: it is open if enough requests failed since one succeeded, and while
it is open a request goes through only when the latest failure and the latest trial are both long enough
ago.
-/

namespace RepoAtlas

/-- A call of a breaker: a request asks to go through, or tells how it ended. -/
inductive BreakerCall where
  | asked
  | succeeded
  | failed
deriving DecidableEq

/-- The calls of all requests with their times, in their order. -/
abbrev BreakerHistory := List (Nat × BreakerCall)

namespace BreakerHistory

/-- The calls after the last request that succeeded. -/
def sinceSuccess (h : BreakerHistory) : BreakerHistory := h.rtakeWhile (·.2 ≠ .succeeded)

/-- How many requests failed since one succeeded. -/
def failures (h : BreakerHistory) : Nat := h.sinceSuccess.countP (·.2 = .failed)

variable (h : BreakerHistory) (t : Nat)

@[simp] lemma failures_nil : failures [] = 0 := by simp [failures, sinceSuccess]

@[simp] lemma failures_asked : failures (h ++ [(t, .asked)]) = failures h := by
  simp [failures, sinceSuccess]

@[simp] lemma failures_succeeded : failures (h ++ [(t, .succeeded)]) = 0 := by
  simp [failures, sinceSuccess]

@[simp] lemma failures_failed : failures (h ++ [(t, .failed)]) = failures h + 1 := by
  simp [failures, sinceSuccess]

end BreakerHistory

namespace CircuitBreaker

/-- Whether a request that asks at a moment goes through. -/
def admits (b : CircuitBreaker) (now : Nat) : Bool := (b.allow now).isOk

/-- The breaker after a call; a request that is refused changes nothing. -/
def after (b : CircuitBreaker) : Nat × BreakerCall → CircuitBreaker
  | (t, .asked) =>
    match b.allow t with
    | .ok b' => b'
    | .error _ => b
  | (_, .succeeded) => b.succeeded
  | (t, .failed) => b.failed t

/-- The breaker after a history. -/
def afterAll (b : CircuitBreaker) (h : BreakerHistory) : CircuitBreaker := h.foldl after b

@[simp] lemma afterAll_nil (b : CircuitBreaker) : b.afterAll [] = b := rfl

@[simp] lemma afterAll_concat (b : CircuitBreaker) (h : BreakerHistory) (c : Nat × BreakerCall) :
    b.afterAll (h ++ [c]) = (b.afterAll h).after c := by
  simp [afterAll]

variable {b b₀ : CircuitBreaker} {h : BreakerHistory} {s t o threshold cooldown : Nat}

/-! ### One request -/

lemma isOpen_iff : b.isOpen = true ↔ ∃ o, b.openedAt = some o := by
  rw [isOpen, Option.isSome_iff_exists]

lemma not_isOpen_iff : b.isOpen = false ↔ b.openedAt = none := by
  rw [isOpen, Option.isSome_eq_false_iff, Option.isNone_iff_eq_none]

lemma allow_of_closed (hclosed : b.openedAt = none) (t : Nat) : b.allow t = .ok b := by
  simp [allow, hclosed]

/-- The moments that an open breaker keeps are not ahead of the clock, and a trial was sent only after the
cooldown. -/
structure OpenAt (b : CircuitBreaker) (o t : Nat) : Prop where
  opened : b.openedAt = some o
  opened_le : o ≤ t
  trial : ∀ u, b.trialAt = some u → o + b.cooldown ≤ u ∧ u ≤ t

/-- An open breaker waits for the cooldown after the latest trial or, without one, after it opened. -/
lemma OpenAt.allow (hb : b.OpenAt o t) : b.allow t =
    if b.trialAt.getD o + b.cooldown ≤ t then .ok { b with trialAt := some t }
    else .error (b.trialAt.getD o + b.cooldown - t) := by
  obtain ⟨hopened, hle, htrial⟩ := hb
  simp only [CircuitBreaker.allow, hopened]
  cases hu : b.trialAt with
  | none =>
    simp only [Option.getD_none]
    split_ifs <;> first | rfl | omega | (congr 1; omega)
  | some u =>
    obtain ⟨hou, hut⟩ := htrial u hu
    simp only [Option.getD_some]
    split_ifs <;> first | rfl | omega | (congr 1; omega)

lemma OpenAt.mono {t' : Nat} (hb : b.OpenAt o t) (hle : t ≤ t') : b.OpenAt o t' where
  opened := hb.opened
  opened_le := hb.opened_le.trans hle
  trial u hu := ⟨(hb.trial u hu).1, (hb.trial u hu).2.trans hle⟩

lemma OpenAt.admits_iff (hb : b.OpenAt o t) : b.admits t = true ↔ b.trialAt.getD o + b.cooldown ≤ t := by
  rw [admits, hb.allow]
  split_ifs with hwait
  · simpa [Except.isOk, Except.toBool] using hwait
  · simpa [Except.isOk, Except.toBool] using hwait

lemma OpenAt.allow_eq_error {r : Nat} (hb : b.OpenAt o t) (hr : b.allow t = .error r) :
    0 < r ∧ t + r = b.trialAt.getD o + b.cooldown := by
  rw [hb.allow] at hr
  split_ifs at hr with hwait
  cases hr
  omega

/-! ### Histories -/

/-- A request was let through at a moment, and the breaker was open from before it until now. -/
def Tried (b₀ : CircuitBreaker) (h : BreakerHistory) (s : Nat) : Prop :=
  ∃ h₁ h₂, h = h₁ ++ (s, .asked) :: h₂ ∧ (b₀.afterAll h₁).admits s = true ∧
    ∀ l, h₁ <+: l → l <+: h → (b₀.afterAll l).isOpen = true

lemma Tried.isOpen (hs : Tried b₀ h s) : (b₀.afterAll h).isOpen = true := by
  obtain ⟨h₁, h₂, rfl, -, hopen⟩ := hs
  exact hopen _ (List.prefix_append ..) List.prefix_rfl

/-- A trial before the last call, or the last call itself. -/
lemma Tried.of_concat {c : Nat × BreakerCall} (hs : Tried b₀ (h ++ [c]) s) :
    Tried b₀ h s ∨ (c = (s, .asked) ∧ (b₀.afterAll h).admits s = true ∧ (b₀.afterAll h).isOpen = true) := by
  obtain ⟨h₁, h₂, heq, hadmits, hopen⟩ := hs
  rcases List.eq_nil_or_concat h₂ with rfl | ⟨h₂, c', rfl⟩
  · obtain ⟨rfl, hc⟩ := List.append_inj' heq rfl
    refine Or.inr ⟨(List.cons.inj hc).1, hadmits, ?_⟩
    exact hopen _ List.prefix_rfl (List.prefix_append ..)
  · rw [List.concat_eq_append, ← List.cons_append, ← List.append_assoc] at heq
    obtain ⟨rfl, -⟩ := List.append_inj' heq rfl
    exact Or.inl ⟨h₁, h₂, rfl, hadmits, fun l hl hl' => hopen l hl (hl'.trans (List.prefix_append ..))⟩

/-- What a breaker remembers of its history. -/
structure Remembers (threshold cooldown : Nat) (h : BreakerHistory) (b : CircuitBreaker) : Prop where
  threshold_eq : b.threshold = max threshold 1
  cooldown_eq : b.cooldown = cooldown
  failures_eq : b.failures = h.failures
  isOpen : b.isOpen = true ↔ max threshold 1 ≤ h.failures
  opened : ∀ o, b.openedAt = some o → (o, .failed) ∈ h ∧ ∀ s, (s, .failed) ∈ h → s ≤ o
  trial : ∀ u, b.trialAt = some u → (u, .asked) ∈ h ∧ ∃ o, b.openedAt = some o ∧ o + cooldown ≤ u
  tried : ∀ s, Tried (ofLimits threshold cooldown) h s → ∃ o, b.openedAt = some o ∧ s ≤ b.trialAt.getD o

namespace Remembers

/-- What an open breaker knows at a moment that is not before its history. -/
lemma openAt (hb : Remembers threshold cooldown h b) (ht : ∀ c ∈ h, c.1 ≤ t) (ho : b.openedAt = some o) :
    b.OpenAt o t where
  opened := ho
  opened_le := ht _ (hb.opened o ho).1
  trial u hu := by
    obtain ⟨hmem, o', ho', hwait⟩ := hb.trial u hu
    rw [ho] at ho'
    cases ho'
    exact ⟨hb.cooldown_eq.symm ▸ hwait, ht _ hmem⟩

lemma start (threshold cooldown : Nat) : Remembers threshold cooldown [] (ofLimits threshold cooldown) where
  threshold_eq := rfl
  cooldown_eq := rfl
  failures_eq := by simp [ofLimits]
  isOpen := by
    simp only [ofLimits, CircuitBreaker.isOpen, BreakerHistory.failures_nil]
    simp
  opened o ho := by cases ho
  trial u hu := by cases hu
  tried s hs := by
    have hopen := hs.isOpen
    cases hopen

/-- A request succeeded. -/
lemma succeeded (hb : Remembers threshold cooldown h b) (hafter : b = (ofLimits threshold cooldown).afterAll h) :
    Remembers threshold cooldown (h ++ [(t, .succeeded)]) b.succeeded where
  threshold_eq := hb.threshold_eq
  cooldown_eq := hb.cooldown_eq
  failures_eq := by simp [CircuitBreaker.succeeded]
  isOpen := by
    rw [BreakerHistory.failures_succeeded]
    simp [CircuitBreaker.succeeded, CircuitBreaker.isOpen]
  opened o ho := by cases ho
  trial u hu := by cases hu
  tried s hs := by
    have hopen := hs.isOpen
    rw [afterAll_concat, ← hafter] at hopen
    cases hopen

/-- A request failed. -/
lemma failed (hb : Remembers threshold cooldown h b) (hafter : b = (ofLimits threshold cooldown).afterAll h)
    (ht : ∀ c ∈ h, c.1 ≤ t) : Remembers threshold cooldown (h ++ [(t, .failed)]) (b.failed t) := by
  have hopened : (b.failed t).openedAt = if max threshold 1 ≤ h.failures + 1 then some t else none := by
    have hopen := hb.isOpen
    rw [CircuitBreaker.isOpen] at hopen
    simp only [CircuitBreaker.failed, hb.failures_eq, hb.threshold_eq, Bool.or_eq_true, decide_eq_true_eq, hopen]
    congr 1
    exact propext ⟨fun h => by omega, Or.inr⟩
  have hlast : ∀ s, (s, BreakerCall.failed) ∈ h ++ [(t, .failed)] → s ≤ t := by
    intro s hs
    rcases List.mem_append.mp hs with hs | hs
    · exact ht _ hs
    · cases List.mem_singleton.mp hs
      exact le_rfl
  constructor
  case threshold_eq => exact hb.threshold_eq
  case cooldown_eq => exact hb.cooldown_eq
  case failures_eq =>
    rw [BreakerHistory.failures_failed, ← hb.failures_eq]
    rfl
  case isOpen =>
    rw [isOpen_iff, hopened, BreakerHistory.failures_failed]
    simp
  case opened =>
    intro o ho
    rw [hopened] at ho
    split_ifs at ho
    cases ho
    exact ⟨by simp, hlast⟩
  case trial =>
    intro u hu
    cases hu
  case tried =>
    intro s hs
    have hopen := hs.isOpen
    rw [afterAll_concat, ← hafter] at hopen
    change (b.failed t).isOpen = true at hopen
    obtain ⟨o, ho⟩ := isOpen_iff.mp hopen
    refine ⟨o, ho, ?_⟩
    rw [hopened] at ho
    split_ifs at ho
    cases ho
    -- a trial of before is not later than the failure
    rcases hs.of_concat with ⟨h₁, h₂, rfl, -⟩ | ⟨hc, -⟩
    · exact ht (s, .asked) (by simp)
    · cases hc

/-- A request asks to go through. -/
lemma asked (hb : Remembers threshold cooldown h b) (hafter : b = (ofLimits threshold cooldown).afterAll h)
    (ht : ∀ c ∈ h, c.1 ≤ t) : Remembers threshold cooldown (h ++ [(t, .asked)]) (b.after (t, .asked)) := by
  have hfailed : ∀ s, (s, BreakerCall.failed) ∈ h ++ [(t, .asked)] ↔ (s, BreakerCall.failed) ∈ h := by simp
  cases ho : b.openedAt with
  | none =>
    -- a closed breaker lets every request through and remembers nothing of it
    have hsame : b.after (t, .asked) = b := by simp only [after, allow_of_closed ho]
    rw [hsame]
    refine { hb with failures_eq := ?_, isOpen := ?_, opened := ?_, trial := ?_, tried := ?_ }
    · rw [BreakerHistory.failures_asked, hb.failures_eq]
    · rw [BreakerHistory.failures_asked, hb.isOpen]
    · intro o ho'
      rw [ho] at ho'
      cases ho'
    · intro u hu
      obtain ⟨-, o, ho', -⟩ := hb.trial u hu
      rw [ho] at ho'
      cases ho'
    · intro s hs
      have hopen := hs.isOpen
      rw [afterAll_concat, ← hafter, hsame, not_isOpen_iff.mpr ho] at hopen
      cases hopen
  | some o =>
    have hopenAt := hb.openAt ht ho
    -- it keeps the trial if it lets the request through, and nothing otherwise
    obtain ⟨u?, hafter', hlate⟩ : ∃ u?, b.after (t, .asked) = { b with trialAt := u? } ∧
        (u? = b.trialAt ∧ b.admits t = false ∨ u? = some t ∧ o + cooldown ≤ t) := by
      by_cases hwait : b.trialAt.getD o + b.cooldown ≤ t
      · refine ⟨some t, by simp only [after, hopenAt.allow, if_pos hwait], Or.inr ⟨rfl, ?_⟩⟩
        rw [← hb.cooldown_eq]
        cases hu : b.trialAt with
        | none => simpa [hu] using hwait
        | some u =>
          have := hopenAt.trial u hu
          omega
      · refine ⟨b.trialAt, by simp only [after, hopenAt.allow, if_neg hwait], Or.inl ⟨rfl, ?_⟩⟩
        rw [← Bool.not_eq_true, hopenAt.admits_iff]
        exact hwait
    rw [hafter']
    constructor
    case threshold_eq => exact hb.threshold_eq
    case cooldown_eq => exact hb.cooldown_eq
    case failures_eq => exact hb.failures_eq.trans (BreakerHistory.failures_asked ..).symm
    case isOpen => exact hb.isOpen.trans (by rw [BreakerHistory.failures_asked])
    case opened =>
      intro o' ho'
      obtain ⟨hmem, hlast⟩ := hb.opened o' ho'
      exact ⟨(hfailed _).mpr hmem, fun s hs => hlast s ((hfailed s).mp hs)⟩
    case trial =>
      intro u hu
      rcases hlate with ⟨rfl, -⟩ | ⟨rfl, hwait⟩
      · obtain ⟨hmem, hrest⟩ := hb.trial u hu
        exact ⟨by simp [hmem], hrest⟩
      · cases hu
        exact ⟨by simp, o, ho, hwait⟩
    case tried =>
      intro s hs
      refine ⟨o, ho, ?_⟩
      rcases hs.of_concat with hs | ⟨hc, hadmits, -⟩
      · obtain ⟨o', ho', hle⟩ := hb.tried s hs
        rw [ho] at ho'
        cases ho'
        rcases hlate with ⟨rfl, -⟩ | ⟨rfl, -⟩
        · exact hle
        · obtain ⟨h₁, h₂, rfl, -⟩ := hs
          exact ht (s, .asked) (by simp)
      · cases hc
        rw [← hafter] at hadmits
        rcases hlate with ⟨-, hrefused⟩ | ⟨rfl, -⟩
        · rw [hadmits] at hrefused
          cases hrefused
        · exact le_rfl

end Remembers

/-- A breaker remembers every history, by induction on its calls. -/
theorem remembers_afterAll (threshold cooldown : Nat) (h : BreakerHistory) (hsorted : h.Pairwise (·.1 ≤ ·.1)) :
    Remembers threshold cooldown h ((ofLimits threshold cooldown).afterAll h) := by
  induction h using List.reverseRecOn with
  | nil => exact .start threshold cooldown
  | append_singleton h c ih =>
    rw [List.pairwise_append] at hsorted
    obtain ⟨hsorted, -, hlast⟩ := hsorted
    have ih := ih hsorted
    have ht : ∀ c' ∈ h, c'.1 ≤ c.1 := fun c' hc' => hlast c' hc' c (by simp)
    rw [afterAll_concat]
    obtain ⟨t, _ | _ | _⟩ := c
    · exact ih.asked rfl ht
    · exact ih.succeeded rfl
    · exact ih.failed rfl ht

/-- What a breaker does after any history: it is open exactly if at least as many requests failed since one
succeeded as its threshold says. While it is open, a request goes through only a cooldown after every
failure and after every other request that went through since it opened. A request that is refused is told
when to come back: never later than after a cooldown, and until another call is made the breaker refuses
every request before that moment and none from it on. -/
theorem spaces_requests (threshold cooldown : Nat) (h : BreakerHistory) (hsorted : h.Pairwise (·.1 ≤ ·.1)) :
    (((ofLimits threshold cooldown).afterAll h).isOpen = true ↔ max threshold 1 ≤ h.failures) ∧
    ∀ t, (∀ c ∈ h, c.1 ≤ t) →
      (((ofLimits threshold cooldown).afterAll h).isOpen = true →
        ((ofLimits threshold cooldown).afterAll h).admits t = true →
          (∀ s, (s, .failed) ∈ h → s + cooldown ≤ t) ∧
          ∀ s, Tried (ofLimits threshold cooldown) h s → s + cooldown ≤ t) ∧
      ∀ r, ((ofLimits threshold cooldown).afterAll h).allow t = .error r →
        0 < r ∧ r ≤ cooldown ∧
        ∀ t', t ≤ t' → (((ofLimits threshold cooldown).afterAll h).admits t' = true ↔ t + r ≤ t') := by
  have hb := remembers_afterAll threshold cooldown h hsorted
  set b := (ofLimits threshold cooldown).afterAll h
  refine ⟨hb.isOpen, fun t ht => ⟨fun hopen hadmits => ?_, fun r hr => ?_⟩⟩
  · obtain ⟨o, ho⟩ := isOpen_iff.mp hopen
    have hopenAt := hb.openAt ht ho
    have hwait := hopenAt.admits_iff.mp hadmits
    rw [hb.cooldown_eq] at hwait
    have hlatest : o ≤ b.trialAt.getD o := by
      cases hu : b.trialAt with
      | none => exact le_rfl
      | some u =>
        have := (hopenAt.trial u hu).1
        simp only [Option.getD_some]
        omega
    refine ⟨fun s hs => ?_, fun s hs => ?_⟩
    · have := (hb.opened o ho).2 s hs
      omega
    · obtain ⟨o', ho', hle⟩ := hb.tried s hs
      rw [ho] at ho'
      cases ho'
      omega
  · cases ho : b.openedAt with
    | none =>
      rw [allow_of_closed ho] at hr
      cases hr
    | some o =>
      have hopenAt := hb.openAt ht ho
      obtain ⟨hpos, hsum⟩ := hopenAt.allow_eq_error hr
      have hle : b.trialAt.getD o ≤ t := by
        cases hu : b.trialAt with
        | none => exact hopenAt.opened_le
        | some u => exact (hopenAt.trial u hu).2
      have hcooldown := hb.cooldown_eq
      refine ⟨hpos, by omega, fun t' ht' => ?_⟩
      rw [(hopenAt.mono ht').admits_iff, hsum]

/-- A failure opens a breaker, and a trial goes through after the cooldown. The request that comes right
after it is refused, and the next one goes through a cooldown after the trial. -/
theorem spaces_requests_trial :
    ((ofLimits 1 30).afterAll [(0, .failed), (40, .asked)]).isOpen = true ∧
    ((ofLimits 1 30).afterAll [(0, .failed), (40, .asked)]).allow 50 = .error 20 ∧
    (∀ t', 50 ≤ t' →
      (((ofLimits 1 30).afterAll [(0, .failed), (40, .asked)]).admits t' = true ↔ 50 + 20 ≤ t')) ∧
    Tried (ofLimits 1 30) [(0, .failed), (40, .asked)] 40 ∧
    ∀ s, Tried (ofLimits 1 30) [(0, .failed), (40, .asked)] s → s + 30 ≤ 70 := by
  obtain ⟨hopen, hlater⟩ := spaces_requests 1 30 [(0, .failed), (40, .asked)] (by decide)
  have hopen := hopen.mpr (by decide)
  have hrefused := (hlater 50 (by decide)).2 20 (by decide)
  have htrial : Tried (ofLimits 1 30) [(0, .failed), (40, .asked)] 40 := by
    refine ⟨[(0, .failed)], [], rfl, by decide, fun l hl hl' => ?_⟩
    change l <+: [(0, .failed)] ++ [(40, .asked)] at hl'
    rcases List.prefix_concat_iff.mp hl' with rfl | hl'
    · exact hopen
    · rw [hl'.eq_of_length_le hl.length_le]
      decide
  exact ⟨hopen, by decide, hrefused.2.2, htrial, ((hlater 70 (by decide)).1 hopen (by decide)).2⟩

end CircuitBreaker

end RepoAtlas
