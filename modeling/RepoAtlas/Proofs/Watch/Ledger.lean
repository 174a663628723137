import Mathlib.Data.List.Nodup
import Mathlib.Data.List.Perm.Basic
import RepoAtlas.Watch.Debounce

/-!
# Ledgers of events

A ledger lists what happened to events: one was received, or one was applied. If of each path only the event
that was received last can wait, and only an event that waits is applied, then each received event is replaced
by the next one of its path, or applied once, or still waits, and nothing else is ever applied.
-/

namespace RepoAtlas

/-- What stands at a place of a list to which one more element is added. -/
lemma getElem?_concat_iff {α : Type} {l : List α} {i : Nat} {x y : α} :
    (l ++ [y])[i]? = some x ↔ l[i]? = some x ∨ i = l.length ∧ y = x := by
  rcases Nat.lt_trichotomy i l.length with hlt | rfl | hlt
  · simp [List.getElem?_append_left hlt, Nat.ne_of_lt hlt]
  · simp
  · have hnone : (l ++ [y])[i]? = none := by simp; omega
    have hnone' : l[i]? = none := by simp; omega
    simp [hnone, hnone', Nat.ne_of_gt hlt]

lemma lt_length {α : Type} {l : List α} {i : Nat} {x : α} (hi : l[i]? = some x) : i < l.length :=
  (List.getElem?_eq_some_iff.mp hi).1

/-- One entry of a ledger. -/
inductive LedgerEntry where
  | received (e : FileEvent)
  | applied (e : FileEvent)

abbrev Ledger := List LedgerEntry

namespace LedgerEntry

def path : LedgerEntry → String
  | received e | applied e => e.path

def received? : LedgerEntry → Option FileEvent
  | received e => some e
  | applied _ => none

def applied? : LedgerEntry → Option FileEvent
  | received _ => none
  | applied e => some e

@[simp] lemma path_received (e : FileEvent) : (received e).path = e.path := rfl

@[simp] lemma path_applied (e : FileEvent) : (applied e).path = e.path := rfl

end LedgerEntry

namespace Ledger

open LedgerEntry

variable {h : Ledger} {i j k : Nat} {x y z : LedgerEntry} {e e' : FileEvent} {w w' : List FileEvent} {p : String}

/-! ### Entries of one path -/

/-- The events that were received, in order. -/
def receipts (h : Ledger) : List FileEvent := h.filterMap received?

/-- The events that were applied, in order. -/
def applications (h : Ledger) : List FileEvent := h.filterMap applied?

/-- The last event of a path. -/
def lastOf (p : String) (l : List FileEvent) : Option FileEvent := (l.filter (·.path = p)).getLast?

/-- The entries at two places are of one path, and none in between is. -/
structure Next (h : Ledger) (i j : Nat) (x y : LedgerEntry) : Prop where
  first : h[i]? = some x
  second : h[j]? = some y
  lt : i < j
  path : y.path = x.path
  between : ∀ k z, i < k → k < j → h[k]? = some z → z.path ≠ x.path

/-- The event that was received at a place still waits: no later entry is of its path. -/
structure Pending (h : Ledger) (i : Nat) (e : FileEvent) : Prop where
  received : h[i]? = some (.received e)
  last : ∀ k z, i < k → h[k]? = some z → z.path ≠ e.path

lemma Next.right_unique (hj : Next h i j x y) (hk : Next h i k x z) : j = k := by
  rcases Nat.lt_trichotomy j k with hlt | heq | hlt
  · exact absurd hj.path (hk.between j y hj.lt hlt hj.second)
  · exact heq
  · exact absurd hk.path (hj.between k z hk.lt hlt hk.second)

lemma Next.left_unique (hi : Next h i k x z) (hj : Next h j k y z) : i = j := by
  have hpath : x.path = y.path := hi.path.symm.trans hj.path
  rcases Nat.lt_trichotomy i j with hlt | heq | hlt
  · exact absurd hpath.symm (hi.between j y hlt hj.lt hj.first)
  · exact heq
  · exact absurd hpath (hj.between i x hlt hi.lt hi.first)

lemma Pending.unique (hi : Pending h i e) (hj : Pending h j e') (hpath : e.path = e'.path) : e = e' := by
  have hplace : i = j := by
    rcases Nat.lt_trichotomy i j with hlt | heq | hlt
    · exact absurd hpath.symm (hi.last j _ hlt hj.received)
    · exact heq
    · exact absurd hpath (hj.last i _ hlt hi.received)
  subst hplace
  have := hi.received.symm.trans hj.received
  simpa using this

/-! ### One more entry -/

lemma Next.concat (hnext : Next h i j x y) : Next (h ++ [z]) i j x y := by
  refine ⟨getElem?_concat_iff.mpr (.inl hnext.first), getElem?_concat_iff.mpr (.inl hnext.second), hnext.lt,
    hnext.path, fun k v hik hkj hv => ?_⟩
  rcases getElem?_concat_iff.mp hv with hv | ⟨rfl, -⟩
  · exact hnext.between k v hik hkj hv
  · exact absurd hkj (Nat.not_lt.mpr (Nat.le_of_lt (lt_length hnext.second)))

/-- An entry of its path follows on an event that waits. -/
lemma Pending.next (hpending : Pending h i e) (hpath : y.path = e.path) :
    Next (h ++ [y]) i h.length (.received e) y := by
  refine ⟨getElem?_concat_iff.mpr (.inl hpending.received), by simp, lt_length hpending.received, hpath,
    fun k z hik hk hz => ?_⟩
  rcases getElem?_concat_iff.mp hz with hz | ⟨rfl, -⟩
  · exact hpending.last k z hik hz
  · exact absurd hk (Nat.lt_irrefl _)

lemma pending_concat_iff : Pending (h ++ [y]) i e ↔
    Pending h i e ∧ y.path ≠ e.path ∨ i = h.length ∧ y = .received e := by
  constructor
  · intro hpending
    rcases getElem?_concat_iff.mp hpending.received with hi | hi
    · refine .inl ⟨⟨hi, fun k z hik hz => ?_⟩, hpending.last h.length y (lt_length hi) (by simp)⟩
      exact hpending.last k z hik (getElem?_concat_iff.mpr (.inl hz))
    · exact .inr hi
  · rintro (⟨hpending, hpath⟩ | ⟨rfl, rfl⟩)
    · refine ⟨getElem?_concat_iff.mpr (.inl hpending.received), fun k z hik hz => ?_⟩
      rcases getElem?_concat_iff.mp hz with hz | ⟨-, rfl⟩
      · exact hpending.last k z hik hz
      · exact hpath
    · refine ⟨by simp, fun k z hik hz => ?_⟩
      rcases getElem?_concat_iff.mp hz with hz | ⟨rfl, -⟩
      · exact absurd hik (Nat.not_lt.mpr (Nat.le_of_lt (lt_length hz)))
      · exact absurd hik (Nat.lt_irrefl _)

@[simp] lemma receipts_received : receipts (h ++ [.received e]) = receipts h ++ [e] := by
  simp [receipts, received?]

@[simp] lemma receipts_applied : receipts (h ++ [.applied e]) = receipts h := by
  simp [receipts, received?]

@[simp] lemma applications_received : applications (h ++ [.received e]) = applications h := by
  simp [applications, applied?]

@[simp] lemma applications_applied : applications (h ++ [.applied e]) = applications h ++ [e] := by
  simp [applications, applied?]

lemma lastOf_concat (l : List FileEvent) : lastOf p (l ++ [e]) = if e.path = p then some e else lastOf p l := by
  by_cases hp : e.path = p <;> simp [lastOf, hp]

/-! ### Accounts -/

/-- A ledger that accounts for all events: those that wait are given, of different paths. -/
structure Accounts (h : Ledger) (w : List FileEvent) : Prop where
  distinct : (w.map (·.path)).Nodup
  pending : ∀ e, e ∈ w ↔ ∃ i, Pending h i e
  /-- What became of each received event. -/
  fate : ∀ i e, h[i]? = some (.received e) →
    (∃ j e', Next h i j (.received e) (.received e')) ∨ (∃ j, Next h i j (.received e) (.applied e)) ∨
      Pending h i e
  /-- Where each applied event came from. -/
  source : ∀ j e, h[j]? = some (.applied e) → ∃ i, Next h i j (.received e) (.applied e)
  newest : ∀ e ∈ w, lastOf e.path (receipts h) = some e
  settled : ∀ p, (∀ e ∈ w, e.path ≠ p) → lastOf p (applications h) = lastOf p (receipts h)

namespace Accounts

lemma nil : Accounts [] [] := by
  refine ⟨by simp, fun e => ?_, by simp, by simp, by simp, by simp [lastOf, applications, receipts]⟩
  simp only [List.not_mem_nil, false_iff, not_exists]
  rintro i ⟨hi, -⟩
  simp at hi

/-- The order in which events wait does not matter. -/
lemma perm (ha : Accounts h w) (hw : w.Perm w') : Accounts h w' where
  distinct := (hw.map _).nodup_iff.mp ha.distinct
  pending e := hw.mem_iff.symm.trans (ha.pending e)
  fate := ha.fate
  source := ha.source
  newest e he := ha.newest e (hw.mem_iff.mpr he)
  settled p hp := ha.settled p fun e he => hp e (hw.mem_iff.mp he)

/-- A received event takes the place of the one of its path that waits. -/
lemma receive (ha : Accounts h w) (hdistinct : (w'.map (·.path)).Nodup)
    (hw : ∀ x, x ∈ w' ↔ x = e ∨ x ∈ w ∧ x.path ≠ e.path) : Accounts (h ++ [.received e]) w' where
  distinct := hdistinct
  pending x := by
    simp only [pending_concat_iff, exists_or, exists_and_right, ← ha.pending, hw]
    constructor
    · rintro (rfl | ⟨hx, hpath⟩)
      · exact .inr ⟨⟨_, rfl⟩, rfl⟩
      · exact .inl ⟨hx, Ne.symm hpath⟩
    · rintro (⟨hx, hpath⟩ | ⟨-, hx⟩)
      · exact .inr ⟨hx, Ne.symm hpath⟩
      · cases hx
        exact .inl rfl
  fate i x hx := by
    rcases getElem?_concat_iff.mp hx with hi | ⟨rfl, hentry⟩
    · rcases ha.fate i x hi with ⟨j, e', hnext⟩ | ⟨j, hnext⟩ | hpending
      · exact .inl ⟨j, e', hnext.concat⟩
      · exact .inr (.inl ⟨j, hnext.concat⟩)
      · by_cases hpath : e.path = x.path
        · exact .inl ⟨_, e, hpending.next hpath⟩
        · exact .inr (.inr (pending_concat_iff.mpr (.inl ⟨hpending, hpath⟩)))
    · exact .inr (.inr (pending_concat_iff.mpr (.inr ⟨rfl, hentry⟩)))
  source j x hx := by
    rcases getElem?_concat_iff.mp hx with hj | ⟨-, hentry⟩
    · obtain ⟨i, hnext⟩ := ha.source j x hj
      exact ⟨i, hnext.concat⟩
    · cases hentry
  newest x hx := by
    rw [receipts_received, lastOf_concat]
    rcases (hw x).mp hx with rfl | ⟨hx, hpath⟩
    · simp
    · rw [if_neg (Ne.symm hpath), ha.newest x hx]
  settled p hp := by
    have hother : e.path ≠ p := hp e ((hw e).mpr (.inl rfl))
    rw [applications_received, receipts_received, lastOf_concat, if_neg hother]
    refine ha.settled p fun x hx hpath => ?_
    exact hp x ((hw x).mpr (.inr ⟨hx, hpath ▸ Ne.symm hother⟩)) hpath

/-- An event that waits is applied. -/
lemma apply (ha : Accounts h (e :: w)) : Accounts (h ++ [.applied e]) w := by
  have hdistinct := ha.distinct
  simp only [List.map_cons, List.nodup_cons, List.mem_map, not_exists, not_and] at hdistinct
  obtain ⟨hother, hrest⟩ := hdistinct
  obtain ⟨place, hplace⟩ := (ha.pending e).mp (by simp)
  refine ⟨hrest, fun x => ?_, fun i x hx => ?_, fun j x hx => ?_, fun x hx => ?_, fun p hp => ?_⟩
  · have hpending := ha.pending x
    simp only [pending_concat_iff, exists_and_right, ← hpending, List.mem_cons, reduceCtorEq, and_false,
      or_false]
    constructor
    · exact fun hx => ⟨.inr hx, fun hpath => hother x hx hpath.symm⟩
    · rintro ⟨rfl | hx, hpath⟩
      · exact absurd rfl hpath
      · exact hx
  · rcases getElem?_concat_iff.mp hx with hi | ⟨-, hentry⟩
    · rcases ha.fate i x hi with ⟨j, e', hnext⟩ | ⟨j, hnext⟩ | hpending
      · exact .inl ⟨j, e', hnext.concat⟩
      · exact .inr (.inl ⟨j, hnext.concat⟩)
      · by_cases hpath : e.path = x.path
        · obtain rfl : e = x := hplace.unique hpending hpath
          exact .inr (.inl ⟨_, hpending.next rfl⟩)
        · exact .inr (.inr (pending_concat_iff.mpr (.inl ⟨hpending, hpath⟩)))
    · cases hentry
  · rcases getElem?_concat_iff.mp hx with hj | ⟨rfl, hentry⟩
    · obtain ⟨i, hnext⟩ := ha.source j x hj
      exact ⟨i, hnext.concat⟩
    · cases hentry
      exact ⟨place, hplace.next rfl⟩
  · rw [receipts_applied]
    exact ha.newest x (by simp [hx])
  · rw [applications_applied, receipts_applied, lastOf_concat]
    by_cases hpath : e.path = p
    · rw [if_pos hpath, ← hpath, ha.newest e (by simp)]
    · rw [if_neg hpath]
      exact ha.settled p (by simpa [hpath] using hp)

end Accounts

end Ledger

end RepoAtlas
