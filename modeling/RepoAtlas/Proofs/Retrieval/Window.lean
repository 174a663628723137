import RepoAtlas.Proofs.Engine.Act
import RepoAtlas.Proofs.Time.Calendar
import RepoAtlas.Retrieval.Basic

/-!
# The window of a ranking

A ranking counts the commits since the beginning of a window of days. Nothing checks how many days these are, and
the calendar ends. A ranking overflows exactly if the window begins on no day of the calendar; the limit on lengths of
time lies further out. Otherwise the ranking only asks the graph, which answers.
-/

namespace RepoAtlas

namespace Instant

variable {t : Instant} {n : Int}

/-- The days of the years that the calendar reaches. -/
def OnCalendar (d : Int) : Prop := daysOfDate firstYear 1 1 ≤ d ∧ d < daysOfDate (lastYear + 1) 1 1

instance : DecidablePred OnCalendar := fun d =>
  inferInstanceAs (Decidable (daysOfDate firstYear 1 1 ≤ d ∧ d < daysOfDate (lastYear + 1) 1 1))

/-- The day on which a point in time lies. -/
def day (t : Instant) : Int := Int.fdiv t.seconds 86400

/-- The year in which a point in time lies. -/
def year (t : Instant) : Int := (dateOfDays t.day).1

lemma day_eq (t : Instant) : t.day = t.seconds / 86400 := Int.fdiv_eq_ediv_of_nonneg _ (by decide)

lemma year_lt_iff {y : Int} : t.year < y ↔ t.day < daysOfDate y 1 1 := by
  rw [← not_le, year, le_year_iff, not_le]

lemma inRange_iff : t.inRange = true ↔ OnCalendar t.day := by
  have hlast : t.year ≤ lastYear ↔ t.day < daysOfDate (lastYear + 1) 1 1 := Int.lt_add_one_iff.symm.trans year_lt_iff
  rw [OnCalendar, ← hlast, ← le_year_iff]
  simp only [inRange, Bool.and_eq_true, decide_eq_true_eq]
  rfl

/-- Whole days before a point in time lies a day by so many earlier. -/
lemma before?_days : t.before? (n * 86400) =
    if OnCalendar (t.day - n) then some ⟨t.seconds - n * 86400, t.nanos⟩ else none := by
  have hday : (⟨t.seconds - n * 86400, t.nanos⟩ : Instant).day = t.day - n := by
    rw [day_eq, day_eq]
    dsimp only
    omega
  rw [← hday]
  simp only [before?, inRange_iff]

/-- From the years of four digits, a window that begins on a day of the calendar is no longer than a length of time
can be. -/
lemma windowDays?_of_onCalendar (hfirst : 1970 ≤ t.year) (hlast : t.year ≤ 9999) (h : OnCalendar (t.day - n)) :
    windowDays? n = some (n * 86400) := by
  have hstart : 0 ≤ t.day := le_year_iff.mp hfirst
  have hend : t.day < 2932897 := year_lt_iff.mp (Int.lt_add_one_of_le hlast)
  obtain ⟨hlow, hhigh⟩ : -96465292 ≤ t.day - n ∧ t.day - n < 95026237 := h
  rw [windowDays?, windowSeconds?, if_pos]
  change _ ≤ 9223372036854775
  omega

end Instant

namespace Retrieval

open Act

variable {hits : List SearchHit} {days : Option Int} {since now : Instant} {w w' : World} {e : SyncError}

/-- The signals of files can be missed for failures of the store alone. -/
lemma signals_error {paths : List String} {s : FileSignals} (h : signals since now s paths w = (.error e, w')) :
    ∃ failure, e = .store failure := by
  induction paths generalizing s w with
  | nil => cases h
  | cons path paths ih =>
    rw [signals] at h
    rcases himporters : Act.neighbors (.file path) .imports .incoming w with ⟨e' | importers, w₁⟩
    · rw [bind_of_error himporters] at h
      cases h
      exact ask_error himporters
    · rw [bind_of_ok himporters] at h
      rcases hhistory : Act.fileHistory path (some since) w₁ with ⟨e' | history, w₂⟩
      · rw [bind_of_error hhistory] at h
        cases h
        exact ask_error hhistory
      · rw [bind_of_ok hhistory] at h
        exact ih h

lemma signals_of_unguarded (hw : w.guarded = false) (since now : Instant) :
    ∀ (paths : List String) (s : FileSignals), ∃ s', signals since now s paths w = (.ok s', w)
  | [], s => ⟨s, rfl⟩
  | path :: paths, s => by
    have himporters := ask_of_unguarded hw "neighbors" (·.neighbors (.file path) .imports .incoming)
    have hhistory := ask_of_unguarded hw "file_history" (·.history path (some since))
    obtain ⟨s', hrest⟩ := signals_of_unguarded hw since now paths _
    exact ⟨s', (bind_of_ok himporters).trans ((bind_of_ok hhistory).trans hrest)⟩

lemma rankAt_of_none {window : Option Int} (h : window.bind now.before? = none) :
    rankAt hits window now w = (.error .overflow, w) := by
  rw [rankAt, h]
  rfl

/-- Where the window begins, a ranking fails for the store alone. -/
lemma rankAt_error {window : Option Int} (h : window.bind now.before? = some since)
    (hrun : rankAt hits window now w = (.error e, w')) : ∃ failure, e = .store failure := by
  rw [rankAt, h] at hrun
  dsimp only at hrun
  generalize (hits.foldl (fun s h => s.insert h.path) ∅ : Std.ExtTreeSet String).toList = paths at hrun
  rcases hsignals : signals since now {} paths w with ⟨e' | s, w₁⟩
  · rw [bind_of_error hsignals] at hrun
    cases hrun
    exact signals_error hsignals
  · rw [bind_of_ok hsignals] at hrun
    cases hrun

lemma rankAt_of_unguarded {window : Option Int} (hw : w.guarded = false)
    (h : window.bind now.before? = some since) : ∃ ranked, rankAt hits window now w = (.ok ranked, w) := by
  obtain ⟨s, hsignals⟩ := signals_of_unguarded hw since now
    (hits.foldl (fun s h => s.insert h.path) ∅ : Std.ExtTreeSet String).toList {}
  rw [rankAt, h]
  exact ⟨_, bind_of_ok hsignals⟩

lemma rank_apply : rank hits days w =
    rankAt hits (windowDays? (days.getD w.settings.retrieval.churnWindowDays)) w.now.1 w.now.2 := rfl

/-- Whether a window begins on the calendar decides over a ranking in the years of four digits: it overflows exactly if
the window does not, and otherwise it answers unless the store fails. -/
theorem rank_overflow_iff (hfirst : 1970 ≤ w.now.1.year) (hlast : w.now.1.year ≤ 9999) :
    ((rank hits days w).1 = .error .overflow ↔
      ¬Instant.OnCalendar (w.now.1.day - days.getD w.settings.retrieval.churnWindowDays)) ∧
    (w.guarded = false →
      Instant.OnCalendar (w.now.1.day - days.getD w.settings.retrieval.churnWindowDays) →
        ∃ ranked, (rank hits days w).1 = .ok ranked) := by
  rw [rank_apply]
  generalize days.getD w.settings.retrieval.churnWindowDays = n
  by_cases hday : Instant.OnCalendar (w.now.1.day - n)
  · have hsince : (windowDays? n).bind w.now.1.before? =
        some ⟨w.now.1.seconds - n * 86400, w.now.1.nanos⟩ := by
      rw [Instant.windowDays?_of_onCalendar hfirst hlast hday, Option.bind_some, Instant.before?_days, if_pos hday]
    refine ⟨iff_of_false (fun h => ?_) (not_not.mpr hday), fun hw _ => ?_⟩
    · obtain ⟨failure, hfailure⟩ := rankAt_error hsince (Prod.ext h rfl)
      cases hfailure
    · obtain ⟨ranked, hranked⟩ := rankAt_of_unguarded (w := w.now.2) hw hsince
      exact ⟨ranked, congrArg Prod.fst hranked⟩
  · have hnone : (windowDays? n).bind w.now.1.before? = none := by
      rw [windowDays?, windowSeconds?]
      split
      · rw [Option.bind_some, Instant.before?_days, if_neg hday]
      · rfl
    rw [rankAt_of_none hnone]
    exact ⟨iff_of_true rfl hday, fun _ h => absurd h hday⟩

/-- An engine in 2026 whose settings have some window. -/
def withWindow (days : Nat) : World where
  root := "/r"
  settings := { retrieval := { churnWindowDays := days } }
  embedder := { provider := .offline 1 }

theorem rank_overflow_iff_ninetyDays :
    (1970 ≤ (withWindow 90).now.1.year ∧ (withWindow 90).now.1.year ≤ 9999) ∧ (withWindow 90).guarded = false ∧
      Instant.OnCalendar ((withWindow 90).now.1.day - 90) ∧
      (rank [] none (withWindow 90)).1 ≠ .error .overflow ∧
      ∃ ranked, (rank [] none (withWindow 90)).1 = .ok ranked := by
  have hfirst : 1970 ≤ (withWindow 90).now.1.year := by decide
  have hlast : (withWindow 90).now.1.year ≤ 9999 := by decide
  have hday : Instant.OnCalendar ((withWindow 90).now.1.day - 90) := by decide
  obtain ⟨hiff, hok⟩ := @rank_overflow_iff [] none (withWindow 90) hfirst hlast
  exact ⟨⟨hfirst, hlast⟩, rfl, hday, fun h => hiff.mp h hday, hok rfl hday⟩

/-- Every window of 32 bits passes the check of the settings, and every window of 64 bits the command line; the widest
ones overflow. -/
theorem rank_overflow_widest :
    (withWindow 4294967295).settings.validate = Settings.validate {} ∧ 4294967295 < UInt32.size ∧
      (1970 ≤ (withWindow 4294967295).now.1.year ∧ (withWindow 4294967295).now.1.year ≤ 9999) ∧
      (rank [] none (withWindow 4294967295)).1 = .error .overflow ∧
      (rank [] (some 9223372036854775807) (withWindow 90)).1 = .error .overflow := by
  refine ⟨rfl, by decide, by decide, ?_, ?_⟩
  · rw [rank_apply, rankAt_of_none (by decide)]
  · rw [rank_apply, rankAt_of_none (by decide)]

end Retrieval

end RepoAtlas
