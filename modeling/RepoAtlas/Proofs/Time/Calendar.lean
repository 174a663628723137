import Mathlib.Order.Monotone.Basic
import Mathlib.Tactic.Common
import RepoAtlas.Time.Instant

/-!
# Years of the calendar

The date of a day is computed from eras of four hundred years, whose years begin in March. What matters of it here is
the year: it is the last one that has begun, so years compare as their first days do.
-/

namespace RepoAtlas.Instant

variable {d m n : Nat} {y days : Int} {t : Instant}

/-! ### Years of an era -/

/-- The days of some whole years of an era. -/
def daysOfYears (n : Nat) : Nat := 365 * n + n / 4 - n / 100

/-- The year of an era in which one of its days lies. -/
def yearOfDay (d : Nat) : Nat := (d - d / 1460 + d / 36524 - d / 146096) / 365

lemma daysOfYears_mono : Monotone daysOfYears := by
  refine monotone_nat_of_le_succ fun n => ?_
  unfold daysOfYears
  omega

lemma yearOfDay_mono : Monotone yearOfDay := by
  refine monotone_nat_of_le_succ fun d => Nat.div_le_div_right ?_
  omega

/-- The first day of a year, and the last day of the year before. -/
lemma yearOfDay_edges : ∀ n < 400, yearOfDay (daysOfYears n) = n ∧
    (0 < n → yearOfDay (daysOfYears n - 1) < n) := by
  decide +kernel

lemma yearOfDay_lt (hd : d < 146097) : yearOfDay d < 400 :=
  (yearOfDay_mono (Nat.le_of_lt_succ hd)).trans_lt (by decide)

/-- A day lies in the last year of its era that has begun. -/
lemma le_yearOfDay_iff (hn : n < 400) : n ≤ yearOfDay d ↔ daysOfYears n ≤ d := by
  obtain ⟨hfirst, hbefore⟩ := yearOfDay_edges n hn
  constructor
  · intro h
    by_contra hlt
    have hpos : 0 < n := by
      rcases Nat.eq_zero_or_pos n with rfl | hpos
      · exact absurd (Nat.zero_le d) hlt
      · exact hpos
    have hle : yearOfDay d ≤ yearOfDay (daysOfYears n - 1) := yearOfDay_mono (by omega)
    have := hbefore hpos
    omega
  · intro h
    exact hfirst ▸ yearOfDay_mono h

/-- A year has at most 366 days. -/
lemma sub_daysOfYears_le (hd : d < 146097) : d - daysOfYears (yearOfDay d) ≤ 365 := by
  have hlt := yearOfDay_lt hd
  rcases Nat.lt_or_ge (yearOfDay d + 1) 400 with hnext | hlast
  · have hnot : ¬ daysOfYears (yearOfDay d + 1) ≤ d := fun h => by
      have := (le_yearOfDay_iff hnext).mpr h
      omega
    unfold daysOfYears at *
    omega
  · have hyear : yearOfDay d = 399 := by omega
    have hfinal : daysOfYears 399 = 145731 := rfl
    rw [hyear]
    omega

/-! ### Years of the calendar -/

/-- The era of a day, its place there, and its year: the last months of a year that began in March belong to the next
one. -/
lemma exists_era (days : Int) : ∃ (era : Int) (d : Nat), d < 146097 ∧ days + 719468 = era * 146097 + d ∧
    (dateOfDays days).1 =
      era * 400 + yearOfDay d + if 306 ≤ d - daysOfYears (yearOfDay d) then 1 else 0 := by
  have hera : Int.fdiv (days + 719468) 146097 = (days + 719468) / 146097 :=
    Int.fdiv_eq_ediv_of_nonneg _ (by decide)
  have hd : (days + 719468 - (days + 719468) / 146097 * 146097).toNat < 146097 := by omega
  refine ⟨(days + 719468) / 146097, (days + 719468 - (days + 719468) / 146097 * 146097).toNat, hd, by omega, ?_⟩
  simp only [dateOfDays, hera]
  generalize (days + 719468 - (days + 719468) / 146097 * 146097).toNat = d at hd ⊢
  have hlength := sub_daysOfYears_le hd
  change (if (if (5 * (d - daysOfYears (yearOfDay d)) + 2) / 153 < 10 then
    (5 * (d - daysOfYears (yearOfDay d)) + 2) / 153 + 3 else
    (5 * (d - daysOfYears (yearOfDay d)) + 2) / 153 - 9) ≤ 2 then
      (yearOfDay d + (days + 719468) / 146097 * 400 + 1 : Int) else
      yearOfDay d + (days + 719468) / 146097 * 400) = _
  split_ifs <;> omega

/-- The first of January lies late in the year that began in March. -/
lemma daysOfDate_first (era : Int) (hn : n < 400) :
    daysOfDate (era * 400 + n + 1) 1 1 + 719468 = era * 146097 + daysOfYears n + 306 := by
  have hera : Int.fdiv (era * 400 + n + 1 - 1) 400 = era := by
    rw [Int.fdiv_eq_ediv_of_nonneg _ (by decide)]
    omega
  have hday : ((153 * ((1 + 9) % 12) + 2) / 5 + ((1 : Nat) : Int) - 1 : Int) = 306 := by decide
  simp only [daysOfDate, if_pos (by decide : 1 ≤ 2), hera, daysOfYears]
  omega

/-- A year has begun on a day exactly if its first day is not later. -/
theorem le_year_iff : y ≤ (dateOfDays days).1 ↔ daysOfDate y 1 1 ≤ days := by
  obtain ⟨era, d, hd, hdays, hyear⟩ := exists_era days
  obtain ⟨era', n, hn, rfl⟩ : ∃ (era' : Int) (n : Nat), n < 400 ∧ y = era' * 400 + n + 1 :=
    ⟨(y - 1) / 400, ((y - 1) % 400).toNat, by omega, by omega⟩
  have hfirst := daysOfDate_first era' hn
  have hlt := yearOfDay_lt hd
  have hgalois := le_yearOfDay_iff (d := d) hn
  have hbegun : daysOfYears (yearOfDay d) ≤ d := (le_yearOfDay_iff hlt).mp le_rfl
  have hlast : daysOfYears n ≤ daysOfYears 399 := daysOfYears_mono (by omega)
  have hfinal : daysOfYears 399 = 145731 := rfl
  rcases lt_trichotomy era' era with hera | rfl | hera
  · refine iff_of_true ?_ ?_
    · split at hyear <;> omega
    · omega
  · have hfirstday : daysOfYears n ≤ d → daysOfYears n ≤ daysOfYears (yearOfDay d) := fun h =>
      daysOfYears_mono (hgalois.mpr h)
    split at hyear
    · constructor
      · intro h
        have := daysOfYears_mono (show n ≤ yearOfDay d by omega)
        omega
      · intro h
        have := hgalois.mpr (by omega)
        omega
    · constructor
      · intro h
        have := daysOfYears_mono (show n + 1 ≤ yearOfDay d by omega)
        unfold daysOfYears at *
        omega
      · intro h
        have := hgalois.mpr (by omega)
        have : n ≠ yearOfDay d := by
          rintro rfl
          omega
        omega
  · refine iff_of_false ?_ ?_
    · split at hyear <;> omega
    · omega

end RepoAtlas.Instant
