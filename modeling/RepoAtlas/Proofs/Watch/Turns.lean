import Mathlib.Data.List.Nodup
import Mathlib.Data.List.Perm.Basic
import RepoAtlas.Watch.Synchronizer

/-!
# Turns of the synchronizer

Of each path one event waits in the debouncer, the last one that was pushed. A turn of the synchronizer wakes up
for something: the run ends, an event is received, or an event that waits is ready and is taken out. So the turns
are bounded by the events that are still to come.
-/

namespace RepoAtlas

namespace Debouncer

variable {d : Debouncer} {e x : FileEvent} {now : Nat}

/-- The events that wait. -/
def events (d : Debouncer) : List FileEvent := d.pending.map (·.event)

lemma mem_pending_push {p : PendingEvent} :
    p ∈ (d.push e now).pending ↔ p = ⟨e, now⟩ ∨ p ∈ d.pending ∧ p.event.path ≠ e.path := by
  simp only [push]
  split
  · rename_i hwaits
    obtain ⟨q, hq, hpath⟩ := List.any_eq_true.mp hwaits
    simp only [List.mem_map]
    constructor
    · rintro ⟨r, hr, rfl⟩
      by_cases hpath : r.event.path = e.path
      · exact .inl (by simp [hpath])
      · exact .inr ⟨by simpa [hpath] using hr, by simp [hpath]⟩
    · rintro (rfl | ⟨hp, hother⟩)
      · exact ⟨q, hq, by rw [if_pos hpath]⟩
      · exact ⟨p, hp, by simp [hother]⟩
  · rename_i hnone
    simp only [List.any_eq_true, not_exists, not_and, beq_iff_eq] at hnone
    rw [List.mem_append, List.mem_singleton]
    constructor
    · rintro (hp | rfl)
      · exact .inr ⟨hp, hnone p hp⟩
      · exact .inl rfl
    · rintro (rfl | ⟨hp, -⟩)
      · exact .inr rfl
      · exact .inl hp

lemma mem_events_push : x ∈ (d.push e now).events ↔ x = e ∨ x ∈ d.events ∧ x.path ≠ e.path := by
  simp only [events, List.mem_map, mem_pending_push]
  constructor
  · rintro ⟨p, rfl | ⟨hp, hother⟩, rfl⟩
    · exact .inl rfl
    · exact .inr ⟨⟨p, hp, rfl⟩, hother⟩
  · rintro (rfl | ⟨⟨p, hp, rfl⟩, hother⟩)
    · exact ⟨_, .inl rfl, rfl⟩
    · exact ⟨p, .inr ⟨hp, hother⟩, rfl⟩

lemma nodup_events_push (h : (d.events.map (·.path)).Nodup) : ((d.push e now).events.map (·.path)).Nodup := by
  simp only [events, push] at h ⊢
  split
  · -- a replaced event has the path of the one before
    have hpaths : ∀ p : PendingEvent,
        (if p.event.path = e.path then (⟨e, now⟩ : PendingEvent) else p).event.path = p.event.path := by
      intro p
      split
      · rename_i hpath
        exact hpath.symm
      · rfl
    simpa [List.map_map, Function.comp_def, hpaths] using h
  · rename_i hnone
    simp only [List.any_eq_true, not_exists, not_and, beq_iff_eq] at hnone
    simp only [List.map_append, List.map_cons, List.map_nil]
    refine List.nodup_append.mpr ⟨h, by simp, fun path hpath other hother => ?_⟩
    simp only [List.map_map, List.mem_map, Function.comp_apply] at hpath
    obtain ⟨p, hp, rfl⟩ := hpath
    cases List.mem_singleton.mp hother
    exact hnone p hp

lemma length_push_le (d : Debouncer) (e : FileEvent) (now : Nat) :
    (d.push e now).pending.length ≤ d.pending.length + 1 := by
  simp only [push]
  split <;> simp

lemma length_drainReady_le (d : Debouncer) (now : Nat) :
    (d.drainReady now).2.pending.length ≤ d.pending.length :=
  List.length_filter_le _ _

/-- What becomes ready is taken out of the events that wait. -/
lemma drainReady_perm : ((d.drainReady now).1 ++ (d.drainReady now).2.events).Perm d.events := by
  rw [drainReady, events, events, ← List.map_append]
  exact (List.filter_append_perm (d.isReady now) d.pending).map _

end Debouncer

namespace SynchronizerState

variable {σ : Type} {t : SyncTarget σ} {s : SynchronizerState σ} {e : FileEvent} {es : List FileEvent}

/-- An event is received. -/
def receive (s : SynchronizerState σ) (e : FileEvent) (rest : List (Nat × FileEvent)) : SynchronizerState σ :=
  { s with
    debouncer := s.debouncer.push e s.now
    stats := { s.stats with received := s.stats.received + 1 }
    feed := { s.feed with events := rest } }

@[simp] lemma target_receive {rest : List (Nat × FileEvent)} : (s.receive e rest).target = s.target := rfl

@[simp] lemma events_receive {rest : List (Nat × FileEvent)} : (s.receive e rest).feed.events = rest := rfl

@[simp] lemma now_receive {rest : List (Nat × FileEvent)} : (s.receive e rest).now = s.now := rfl

@[simp] lemma debouncer_receive {rest : List (Nat × FileEvent)} :
    (s.receive e rest).debouncer = s.debouncer.push e s.now := rfl

@[simp] lemma stats_receive {rest : List (Nat × FileEvent)} :
    (s.receive e rest).stats = { s.stats with received := s.stats.received + 1 } := rfl

/-- The run is cancelled. -/
def cancel (s : SynchronizerState σ) : SynchronizerState σ :=
  { s with stats := { s.stats with dropped := s.debouncer.pending.length } }

lemma applyAll_cons : applyAll t s (e :: es) = applyAll t (applyAll t s [e]) es := rfl

@[simp] lemma debouncer_applyAll : (applyAll t s es).debouncer = s.debouncer := by
  induction es generalizing s with
  | nil => rfl
  | cons e es ih => rw [applyAll, ih]

@[simp] lemma feed_applyAll : (applyAll t s es).feed = s.feed := by
  induction es generalizing s with
  | nil => rfl
  | cons e es ih => rw [applyAll, ih]

/-- One call of the target counts as a success or as a failure. -/
lemma stats_apply : (applyAll t s [e]).stats.received = s.stats.received ∧
    (applyAll t s [e]).stats.dropped = s.stats.dropped ∧
    (applyAll t s [e]).stats.applied + (applyAll t s [e]).stats.failed = s.stats.applied + s.stats.failed + 1 := by
  simp only [applyAll]
  split <;> simp <;> omega

/-- What became ready is taken out and applied. -/
def drain (t : SyncTarget σ) (s : SynchronizerState σ) : SynchronizerState σ :=
  applyAll t { s with debouncer := (s.debouncer.drainReady s.now).2 } (s.debouncer.drainReady s.now).1

@[simp] lemma feed_drain : (s.drain t).feed = s.feed := feed_applyAll

@[simp] lemma debouncer_drain : (s.drain t).debouncer = (s.debouncer.drainReady s.now).2 := debouncer_applyAll

/-- The run sleeps until it can go on. -/
def wake (s : SynchronizerState σ) : SynchronizerState σ := { s with now := max s.now s.wakeAt }

lemma wakeAt_wake_le (s : SynchronizerState σ) : s.wake.wakeAt ≤ s.wake.now := Nat.le_max_right s.now s.wakeAt

lemma run_succ (t : SyncTarget σ) (n : Nat) (s : SynchronizerState σ) : run t (n + 1) s =
    match s.wake.step with
    | .cancel => s.wake.cancel
    | .close => applyAll t { s.wake with debouncer := s.wake.debouncer.drainAll.2 } s.wake.debouncer.drainAll.1
    | .receive e rest => run t n ((s.wake.receive e rest).drain t)
    | .fire => run t n (s.wake.drain t) := rfl

/-- When the next event arrives, or else the feed closes. -/
def nextMoment (s : SynchronizerState σ) : Nat :=
  match s.feed.events with
  | (moment, _) :: _ => moment
  | [] => s.feed.closeAt

lemma wakeAt_eq (s : SynchronizerState σ) : s.wakeAt =
    (s.nextMoment :: (s.feed.cancelAt.toList ++ s.debouncer.nextDeadline.toList)).foldl min s.nextMoment := rfl

/-- What the feed and the clock say when a step is chosen. -/
lemma step_spec (s : SynchronizerState σ) :
    match s.step with
    | .cancel => ∃ moment, s.feed.cancelAt = some moment ∧ moment ≤ s.now
    | .receive e rest => ∃ moment, s.feed.events = (moment, e) :: rest ∧ moment ≤ s.now
    | .close => s.feed.events = [] ∧ s.feed.closeAt ≤ s.now
    | .fire => (∀ moment, s.feed.cancelAt = some moment → s.now < moment) ∧ s.now < s.nextMoment := by
  by_cases hcancel : s.feed.cancelAt.any (· ≤ s.now)
  · have hstep : s.step = .cancel := by simp [step, hcancel]
    rw [hstep]
    simpa [Option.any_eq_true] using hcancel
  have hlater : ∀ moment, s.feed.cancelAt = some moment → s.now < moment := by
    intro moment hmoment
    simpa [hmoment] using hcancel
  cases hfeed : s.feed.events with
  | cons next rest =>
    obtain ⟨moment, e⟩ := next
    by_cases hmoment : moment ≤ s.now
    · have hstep : s.step = .receive e rest := by simp [step, hcancel, hfeed, hmoment]
      rw [hstep]
      exact ⟨moment, rfl, hmoment⟩
    · have hstep : s.step = .fire := by simp [step, hcancel, hfeed, hmoment]
      rw [hstep]
      exact ⟨hlater, by simpa [nextMoment, hfeed] using hmoment⟩
  | nil =>
    by_cases hclose : s.feed.closeAt ≤ s.now
    · have hstep : s.step = .close := by simp [step, hcancel, hfeed, hclose]
      rw [hstep]
      exact ⟨rfl, hclose⟩
    · have hstep : s.step = .fire := by simp [step, hcancel, hfeed, hclose]
      rw [hstep]
      exact ⟨hlater, by simpa [nextMoment, hfeed] using hclose⟩

lemma exists_le_of_foldl_min_le {a b : Nat} {l : List Nat} (h : l.foldl min a ≤ b) : ∃ c ∈ a :: l, c ≤ b := by
  induction l generalizing a with
  | nil => exact ⟨a, by simp, h⟩
  | cons c l ih =>
    obtain ⟨d, hd, hle⟩ := ih h
    rcases List.mem_cons.mp hd with rfl | hd
    · rcases Nat.le_total a c with hac | hca
      · exact ⟨a, by simp, by simpa [Nat.min_eq_left hac] using hle⟩
      · exact ⟨c, by simp, by simpa [Nat.min_eq_right hca] using hle⟩
    · exact ⟨d, by simp [hd], hle⟩

/-- The events that did not arrive yet will be received and then leave the debouncer, those that wait will only
leave it. -/
def potential (s : SynchronizerState σ) : Nat := 2 * s.feed.events.length + s.debouncer.pending.length

lemma potential_receive_lt {moment : Nat} {rest : List (Nat × FileEvent)}
    (hfeed : s.feed.events = (moment, e) :: rest) : ((s.receive e rest).drain t).potential < s.potential := by
  have hdrain := (s.debouncer.push e s.now).length_drainReady_le s.now
  have hpush := s.debouncer.length_push_le e s.now
  simp only [potential, feed_drain, debouncer_drain, events_receive, debouncer_receive, now_receive, hfeed,
    List.length_cons]
  omega

/-- Where the run wakes up and finds nothing else to do, an event is ready. -/
lemma potential_drain_lt (hnow : s.wakeAt ≤ s.now) (hfire : s.step = .fire) :
    (s.drain t).potential < s.potential := by
  have hspec := s.step_spec
  simp only [hfire] at hspec
  obtain ⟨hcancel, hnext⟩ := hspec
  have hready : ∃ p ∈ s.debouncer.pending, s.debouncer.isReady s.now p = true := by
    rw [wakeAt_eq] at hnow
    obtain ⟨moment, hmem, hmoment⟩ := exists_le_of_foldl_min_le hnow
    simp only [List.mem_cons, List.mem_append, Option.mem_toList, or_self_left] at hmem
    rcases hmem with rfl | hmem | hmem
    · exact absurd hmoment (Nat.not_le_of_lt hnext)
    · exact absurd hmoment (Nat.not_le_of_lt (hcancel moment hmem))
    · obtain ⟨p, hp, hdeadline⟩ := List.mem_map.mp (List.min?_mem hmem)
      exact ⟨p, hp, by simp only [Debouncer.isReady, decide_eq_true_eq]; omega⟩
  obtain ⟨p, hp, hisReady⟩ := hready
  have hlt : (s.debouncer.drainReady s.now).2.pending.length < s.debouncer.pending.length :=
    List.length_filter_lt_length_iff_exists.mpr ⟨p, hp, by simp [hisReady]⟩
  simp only [potential, feed_drain, debouncer_drain]
  omega

end SynchronizerState

end RepoAtlas
