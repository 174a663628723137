import Mathlib.Data.List.Induction
import Mathlib.Data.Nat.Find
import RepoAtlas.Proofs.Watch.Ledger
import RepoAtlas.Proofs.Watch.Turns

/-!
# What a debouncer gives back

A debouncer answers a call from the events it keeps. What it should answer is a matter of the calls before. Of each
path the pushes count that were made since an event of the path was last given back: the latest of them says which
event is given back and when it is due, the first of them says in which order. The two agree for all calls on a
clock that never goes back.
-/

namespace RepoAtlas

/-- A call on a debouncer. -/
inductive DebounceCall where
  | push (e : FileEvent)
  | drainReady
  | drainAll
deriving DecidableEq

/-- A call, the moment it was made, and the events it gave back. -/
structure DebounceEntry where
  moment : Nat
  call : DebounceCall
  drained : List FileEvent
deriving DecidableEq

/-- The calls on a debouncer, in the order they were made. -/
abbrev DebounceLog := List DebounceEntry

/-- Make a call. -/
def Debouncer.serve (d : Debouncer) (now : Nat) : DebounceCall → List FileEvent × Debouncer
  | .push e => ([], d.push e now)
  | .drainReady => d.drainReady now
  | .drainAll => d.drainAll

namespace DebounceLog

variable {log : DebounceLog} {d : Debouncer} {e x : FileEvent} {y : DebounceEntry} {p q : String}
  {i j t u now window : Nat}

/-! ### The pushes that count -/

/-- No call was made after a moment. -/
def Until (log : DebounceLog) (now : Nat) : Prop := ∀ y ∈ log, y.moment ≤ now

/-- An event was pushed at a place of the log, and its path was not given back since. -/
structure Open (log : DebounceLog) (i : Nat) (e : FileEvent) (t : Nat) : Prop where
  pushed : log[i]? = some ⟨t, .push e, []⟩
  undrained : ∀ j y, i < j → log[j]? = some y → ∀ x ∈ y.drained, x.path ≠ e.path

/-- The latest push of a path that counts. -/
def Latest (log : DebounceLog) (e : FileEvent) (t : Nat) : Prop :=
  ∃ i, log.Open i e t ∧ ∀ j x u, log.Open j x u → x.path = e.path → j ≤ i

/-- The place of the first push of a path that counts. -/
structure First (log : DebounceLog) (i : Nat) (p : String) : Prop where
  isOpen : ∃ e t, log.Open i e t ∧ e.path = p
  first : ∀ j e t, log.Open j e t → e.path = p → i ≤ j

/-- The first push of one path came before the first push of another. -/
def Earlier (log : DebounceLog) (p q : String) : Prop := ∃ i j, log.First i p ∧ log.First j q ∧ i < j

lemma Open.unique (hx : log.Open i x t) (he : log.Open i e u) : x = e ∧ t = u := by
  have hsame := hx.pushed.symm.trans he.pushed
  simp only [Option.some.injEq, DebounceEntry.mk.injEq, DebounceCall.push.injEq] at hsame
  exact ⟨hsame.2.1, hsame.1⟩

lemma Latest.unique (hx : log.Latest x t) (he : log.Latest e u) (hpath : x.path = e.path) : x = e ∧ t = u := by
  obtain ⟨i, hi, hilast⟩ := hx
  obtain ⟨j, hj, hjlast⟩ := he
  obtain rfl : i = j := Nat.le_antisymm (hjlast i x t hi hpath) (hilast j e u hj hpath.symm)
  exact hi.unique hj

lemma First.unique (hi : log.First i p) (hj : log.First j p) : i = j := by
  obtain ⟨e, t, he, hpath⟩ := hi.isOpen
  obtain ⟨x, u, hx, hpath'⟩ := hj.isOpen
  exact Nat.le_antisymm (hi.first j x u hx hpath') (hj.first i e t he hpath)

lemma Earlier.irrefl : ¬ log.Earlier p p := by
  rintro ⟨i, j, hi, hj, hlt⟩
  exact absurd (hi.unique hj) (Nat.ne_of_lt hlt)

lemma Latest.le (h : log.Latest e t) (hnow : log.Until now) : t ≤ now := by
  obtain ⟨i, hopen, -⟩ := h
  exact hnow _ (List.mem_of_getElem? hopen.pushed)

lemma Open.exists_first (h : log.Open i e t) : ∃ j, log.First j e.path := by
  classical
  have hsome : ∃ j x u, log.Open j x u ∧ x.path = e.path := ⟨i, e, t, h, rfl⟩
  exact ⟨Nat.find hsome, Nat.find_spec hsome,
    fun j x u hx hpath => Nat.find_min' hsome ⟨x, u, hx, hpath⟩⟩

/-- A path that was pushed since it was last given back has a latest push. -/
lemma Open.exists_latest (h : log.Open i e t) : ∃ x u, log.Latest x u ∧ x.path = e.path := by
  classical
  let IsOpen (j : Nat) : Prop := ∃ x u, log.Open j x u ∧ x.path = e.path
  have hbound : ∀ j, IsOpen j → j ≤ log.length := by
    rintro j ⟨x, u, hx, -⟩
    exact Nat.le_of_lt (lt_length hx.pushed)
  have hi : IsOpen i := ⟨e, t, h, rfl⟩
  obtain ⟨x, u, hx, hpath⟩ := Nat.findGreatest_spec (hbound i hi) hi
  refine ⟨x, u, ⟨_, hx, fun j z v hz hzpath => ?_⟩, hpath⟩
  have hj : IsOpen j := ⟨z, v, hz, hzpath.trans hpath⟩
  exact Nat.le_findGreatest (hbound j hj) hj

/-! ### One more call -/

lemma open_concat_iff : Open (log ++ [y]) i e t ↔
    log.Open i e t ∧ (∀ x ∈ y.drained, x.path ≠ e.path) ∨ i = log.length ∧ y = ⟨t, .push e, []⟩ := by
  constructor
  · intro hopen
    rcases getElem?_concat_iff.mp hopen.pushed with hi | hi
    · refine .inl ⟨⟨hi, fun j z hij hz => ?_⟩, hopen.undrained log.length y (lt_length hi) (by simp)⟩
      exact hopen.undrained j z hij (getElem?_concat_iff.mpr (.inl hz))
    · exact .inr hi
  · rintro (⟨hopen, hother⟩ | ⟨rfl, rfl⟩)
    · refine ⟨getElem?_concat_iff.mpr (.inl hopen.pushed), fun j z hij hz => ?_⟩
      rcases getElem?_concat_iff.mp hz with hz | ⟨-, rfl⟩
      · exact hopen.undrained j z hij hz
      · exact hother
    · refine ⟨by simp, fun j z hij hz => ?_⟩
      rcases getElem?_concat_iff.mp hz with hz | ⟨rfl, -⟩
      · exact absurd hij (Nat.not_lt.mpr (Nat.le_of_lt (lt_length hz)))
      · exact absurd hij (Nat.lt_irrefl _)

lemma open_push_iff : Open (log ++ [⟨now, .push e, []⟩]) i x t ↔
    log.Open i x t ∨ i = log.length ∧ x = e ∧ t = now := by
  have hentry : (⟨now, .push e, []⟩ : DebounceEntry) = ⟨t, .push x, []⟩ ↔ x = e ∧ t = now := by
    simp [eq_comm, and_comm]
  simp only [open_concat_iff, List.not_mem_nil, false_implies, implies_true, and_true, hentry]

lemma latest_push_iff : Latest (log ++ [⟨now, .push e, []⟩]) x t ↔
    x = e ∧ t = now ∨ log.Latest x t ∧ x.path ≠ e.path := by
  constructor
  · rintro ⟨i, hopen, hlast⟩
    rcases open_push_iff.mp hopen with hopen | ⟨-, rfl, rfl⟩
    · have hother : x.path ≠ e.path := by
        intro hpath
        have hle : log.length ≤ i := hlast log.length e now (open_push_iff.mpr (.inr ⟨rfl, rfl, rfl⟩)) hpath.symm
        exact absurd (lt_length hopen.pushed) (Nat.not_lt.mpr hle)
      exact .inr ⟨⟨i, hopen, fun j z u hz => hlast j z u (open_push_iff.mpr (.inl hz))⟩, hother⟩
    · exact .inl ⟨rfl, rfl⟩
  · rintro (⟨rfl, rfl⟩ | ⟨⟨i, hopen, hlast⟩, hother⟩)
    · refine ⟨log.length, open_push_iff.mpr (.inr ⟨rfl, rfl, rfl⟩), fun j z u hz _ => ?_⟩
      rcases open_push_iff.mp hz with hz | ⟨rfl, -, -⟩
      · exact Nat.le_of_lt (lt_length hz.pushed)
      · exact Nat.le_refl _
    · refine ⟨i, open_push_iff.mpr (.inl hopen), fun j z u hz hpath => ?_⟩
      rcases open_push_iff.mp hz with hz | ⟨-, rfl, -⟩
      · exact hlast j z u hz hpath
      · exact absurd hpath.symm hother

lemma First.push (h : log.First i p) : First (log ++ [⟨now, .push e, []⟩]) i p := by
  obtain ⟨x, t, hx, hpath⟩ := h.isOpen
  refine ⟨⟨x, t, open_push_iff.mpr (.inl hx), hpath⟩, fun j z u hz hzpath => ?_⟩
  rcases open_push_iff.mp hz with hz | ⟨rfl, -, -⟩
  · exact h.first j z u hz hzpath
  · exact Nat.le_of_lt (lt_length hx.pushed)

lemma First.of_push (hnone : ∀ i x t, log.Open i x t → x.path ≠ e.path) :
    First (log ++ [⟨now, .push e, []⟩]) log.length e.path := by
  refine ⟨⟨e, now, open_push_iff.mpr (.inr ⟨rfl, rfl, rfl⟩), rfl⟩, fun j z u hz hzpath => ?_⟩
  rcases open_push_iff.mp hz with hz | ⟨rfl, -, -⟩
  · exact absurd hzpath (hnone j z u hz)
  · exact Nat.le_refl _

lemma open_drain_iff (hy : ∀ e, y.call ≠ .push e) :
    Open (log ++ [y]) i e t ↔ log.Open i e t ∧ ∀ x ∈ y.drained, x.path ≠ e.path := by
  rw [open_concat_iff]
  refine or_iff_left ?_
  rintro ⟨-, rfl⟩
  exact hy e rfl

lemma latest_drain_iff (hy : ∀ e, y.call ≠ .push e) :
    Latest (log ++ [y]) e t ↔ log.Latest e t ∧ ∀ x ∈ y.drained, x.path ≠ e.path := by
  constructor
  · rintro ⟨i, hopen, hlast⟩
    obtain ⟨hopen, hother⟩ := (open_drain_iff hy).mp hopen
    refine ⟨⟨i, hopen, fun j z u hz hpath => ?_⟩, hother⟩
    exact hlast j z u ((open_drain_iff hy).mpr ⟨hz, fun x hx => hpath ▸ hother x hx⟩) hpath
  · rintro ⟨⟨i, hopen, hlast⟩, hother⟩
    refine ⟨i, (open_drain_iff hy).mpr ⟨hopen, hother⟩, fun j z u hz => ?_⟩
    exact hlast j z u ((open_drain_iff hy).mp hz).1

lemma First.drain (hy : ∀ e, y.call ≠ .push e) (h : log.First i p) (hother : ∀ x ∈ y.drained, x.path ≠ p) :
    First (log ++ [y]) i p := by
  obtain ⟨x, t, hx, hpath⟩ := h.isOpen
  refine ⟨⟨x, t, (open_drain_iff hy).mpr ⟨hx, fun z hz => hpath ▸ hother z hz⟩, hpath⟩, fun j z u hz => ?_⟩
  exact h.first j z u ((open_drain_iff hy).mp hz).1

/-! ### The events that wait -/

/-- The events that wait are the latest pushes, in the order of the first ones. -/
structure Keeps (log : DebounceLog) (d : Debouncer) : Prop where
  mem : ∀ p : PendingEvent, p ∈ d.pending ↔ log.Latest p.event p.lastSeen
  ordered : d.pending.Pairwise fun p q => log.Earlier p.event.path q.event.path

/-- Of a path one event waits. -/
lemma Keeps.eq_of_path (h : log.Keeps d) {p q : PendingEvent} (hp : p ∈ d.pending) (hq : q ∈ d.pending)
    (hpath : p.event.path = q.event.path) : p = q := by
  obtain ⟨hevent, hseen⟩ := ((h.mem p).mp hp).unique ((h.mem q).mp hq) hpath
  cases p
  cases q
  simp_all

lemma Keeps.push (h : log.Keeps d) : Keeps (log ++ [⟨now, .push e, []⟩]) (d.push e now) := by
  have hmem (p : PendingEvent) :
      p ∈ (d.push e now).pending ↔ Latest (log ++ [⟨now, .push e, []⟩]) p.event p.lastSeen := by
    rw [Debouncer.mem_pending_push, latest_push_iff, h.mem p]
    cases p
    simp
  have hpush {p q : String} (hearlier : log.Earlier p q) : Earlier (log ++ [⟨now, .push e, []⟩]) p q := by
    obtain ⟨i, j, hi, hj, hlt⟩ := hearlier
    exact ⟨i, j, hi.push, hj.push, hlt⟩
  refine ⟨hmem, ?_⟩
  simp only [Debouncer.push]
  split
  · -- an event that is replaced keeps its place, and its path stays
    have hpaths (p : PendingEvent) :
        (if p.event.path == e.path then (⟨e, now⟩ : PendingEvent) else p).event.path = p.event.path := by
      split
      · rename_i hpath
        exact (beq_iff_eq.mp hpath).symm
      · rfl
    simp only [List.pairwise_map, hpaths]
    exact h.ordered.imp hpush
  · rename_i hnone
    simp only [List.any_eq_true, not_exists, not_and, beq_iff_eq] at hnone
    have hfirst : First (log ++ [⟨now, .push e, []⟩]) log.length e.path := by
      refine .of_push fun i x t hx hpath => ?_
      obtain ⟨z, u, hz, hzpath⟩ := hx.exists_latest
      exact hnone ⟨z, u⟩ ((h.mem ⟨z, u⟩).mpr hz) (hzpath.trans hpath)
    refine List.pairwise_append.mpr ⟨h.ordered.imp hpush, List.pairwise_singleton _ _, fun p hp q hq => ?_⟩
    obtain rfl := List.mem_singleton.mp hq
    obtain ⟨i, hopen, -⟩ := (h.mem p).mp hp
    obtain ⟨j, hj⟩ := hopen.exists_first
    have hlt : j < log.length := by
      obtain ⟨x, t, hx, -⟩ := hj.isOpen
      exact lt_length hx.pushed
    exact ⟨j, log.length, hj.push, hfirst, hlt⟩

/-! ### One drain -/

/-- The latest pushes that are due are given back: one event for each path, in the order of the first pushes. What
waits for the other paths stays as it is. -/
structure Gives (log : DebounceLog) (d : Debouncer) (due : Nat → Prop) (answer : List FileEvent × Debouncer) :
    Prop where
  mem : ∀ e, e ∈ answer.1 ↔ ∃ t, log.Latest e t ∧ due t
  once : (answer.1.map (·.path)).Nodup
  ordered : answer.1.Pairwise fun e x => log.Earlier e.path x.path
  rest : answer.2 = { d with pending := d.pending.filter fun p => ∀ e ∈ answer.1, e.path ≠ p.event.path }

/-- A drain that takes out what passes a test. -/
lemma Keeps.gives (h : log.Keeps d) {due : Nat → Prop} {ready : PendingEvent → Bool}
    (hready : ∀ p ∈ d.pending, ready p = true ↔ due p.lastSeen) :
    log.Gives d due ((d.pending.filter ready).map (·.event), { d with pending := d.pending.filter (!ready ·) }) := by
  have hordered : ((d.pending.filter ready).map (·.event)).Pairwise fun e x => log.Earlier e.path x.path :=
    List.pairwise_map.mpr (h.ordered.filter _)
  refine ⟨fun e => ?_, ?_, hordered, ?_⟩
  · simp only [List.mem_map, List.mem_filter]
    constructor
    · rintro ⟨p, ⟨hp, hdue⟩, rfl⟩
      exact ⟨p.lastSeen, (h.mem p).mp hp, (hready p hp).mp hdue⟩
    · rintro ⟨t, hlatest, hdue⟩
      have hp : (⟨e, t⟩ : PendingEvent) ∈ d.pending := (h.mem ⟨e, t⟩).mpr hlatest
      exact ⟨⟨e, t⟩, ⟨hp, (hready _ hp).mpr hdue⟩, rfl⟩
  · refine List.pairwise_map.mpr (hordered.imp fun hearlier hpath => ?_)
    rw [hpath] at hearlier
    exact hearlier.irrefl
  · refine congrArg (Debouncer.mk d.window) (List.filter_congr fun p hp => ?_)
    cases hp' : ready p with
    | true =>
      have htaken : p.event ∈ (d.pending.filter ready).map (·.event) :=
        List.mem_map.mpr ⟨p, List.mem_filter.mpr ⟨hp, hp'⟩, rfl⟩
      simp only [Bool.not_true, Bool.false_eq, decide_eq_false_iff_not]
      exact fun hnone => hnone _ htaken rfl
    | false =>
      simp only [Bool.not_false, Bool.true_eq, decide_eq_true_eq, List.mem_map, List.mem_filter]
      rintro _ ⟨q, ⟨hq, hq'⟩, rfl⟩ hpath
      rw [h.eq_of_path hq hp hpath, hp'] at hq'
      cases hq'

lemma Keeps.drainReady (h : log.Keeps d) (hnow : log.Until now) :
    log.Gives d (· + d.window ≤ now) (d.drainReady now) := by
  refine h.gives fun p hp => ?_
  have hle := ((h.mem p).mp hp).le hnow
  simp only [Debouncer.isReady, decide_eq_true_eq]
  omega

lemma Keeps.drainAll (h : log.Keeps d) : log.Gives d (fun _ => True) d.drainAll := by
  have hgives : log.Gives d (fun _ => True)
      ((d.pending.filter fun _ => true).map (·.event), { d with pending := d.pending.filter fun _ => !true }) :=
    h.gives fun _ _ => by simp
  simpa [Debouncer.drainAll] using hgives

/-- What was given back no longer waits. -/
lemma Gives.keeps {due : Nat → Prop} {answer : List FileEvent × Debouncer} (h : log.Keeps d)
    (hgives : log.Gives d due answer) {c : DebounceCall} (hc : ∀ e, c ≠ .push e) :
    Keeps (log ++ [⟨now, c, answer.1⟩]) answer.2 := by
  have hy : ∀ e, (⟨now, c, answer.1⟩ : DebounceEntry).call ≠ .push e := hc
  rw [hgives.rest]
  refine ⟨fun p => ?_, ?_⟩
  · simp only [List.mem_filter, decide_eq_true_eq, latest_drain_iff hy, h.mem p]
  · have hmem (p : PendingEvent) (hp : p ∈ d.pending.filter fun p => ∀ e ∈ answer.1, e.path ≠ p.event.path) :
        ∀ e ∈ answer.1, e.path ≠ p.event.path := by
      simpa using (List.mem_filter.mp hp).2
    refine (h.ordered.filter _).imp_of_mem fun hp hq hearlier => ?_
    obtain ⟨i, j, hi, hj, hlt⟩ := hearlier
    exact ⟨i, j, hi.drain hy (hmem _ hp), hj.drain hy (hmem _ hq), hlt⟩

/-! ### All calls -/

/-- Make a call and write it down. -/
def record (s : DebounceLog × Debouncer) (c : Nat × DebounceCall) : DebounceLog × Debouncer :=
  (s.1 ++ [⟨c.1, c.2, (s.2.serve c.1 c.2).1⟩], (s.2.serve c.1 c.2).2)

/-- The log of some calls on a new debouncer, and the debouncer after them. -/
def replay (window : Nat) (calls : List (Nat × DebounceCall)) : DebounceLog × Debouncer :=
  calls.foldl record ([], { window })

variable {calls : List (Nat × DebounceCall)} {c : Nat × DebounceCall}

lemma replay_concat : replay window (calls ++ [c]) = record (replay window calls) c := List.foldl_concat ..

lemma moments_replay : (replay window calls).1.map (·.moment) = calls.map (·.1) := by
  induction calls using List.reverseRecOn with
  | nil => rfl
  | append_singleton calls c ih => simp [replay_concat, record, ih]

lemma keeps_nil : Keeps [] { window } := by
  refine ⟨fun p => iff_of_false (by simp) ?_, by simp⟩
  rintro ⟨i, hopen, -⟩
  simpa using hopen.pushed

lemma Keeps.serve (h : log.Keeps d) (hnow : log.Until now) (c : DebounceCall) :
    Keeps (log ++ [⟨now, c, (d.serve now c).1⟩]) (d.serve now c).2 := by
  cases c with
  | push e => exact h.push
  | drainReady => exact (h.drainReady hnow).keeps h fun _ => by simp
  | drainAll => exact h.drainAll.keeps h fun _ => by simp

/-- The events that wait follow from the calls, if the clock does not go back. -/
lemma keeps_replay (hclock : calls.Pairwise fun c c' => c.1 ≤ c'.1) :
    (replay window calls).1.Keeps (replay window calls).2 := by
  induction calls using List.reverseRecOn with
  | nil => exact keeps_nil
  | append_singleton calls c ih =>
    obtain ⟨hcalls, -, hlast⟩ := List.pairwise_append.mp hclock
    have hnow : (replay window calls).1.Until c.1 := by
      intro y hy
      have hmoment : y.moment ∈ calls.map (·.1) := moments_replay ▸ List.mem_map_of_mem hy
      obtain ⟨c', hc', heq⟩ := List.mem_map.mp hmoment
      exact heq ▸ hlast c' hc' c (List.mem_singleton.mpr rfl)
    rw [replay_concat]
    exact (ih hcalls).serve hnow c.2

lemma window_replay : (replay window calls).2.window = window := by
  induction calls using List.reverseRecOn with
  | nil => rfl
  | append_singleton calls c ih =>
    rw [replay_concat, record]
    refine Eq.trans ?_ ih
    rcases c with ⟨now, e | _ | _⟩
    · simp only [Debouncer.serve, Debouncer.push]
      split <;> rfl
    · rfl
    · rfl

/-! ### The deadline -/

lemma nextDeadline_eq_none_iff : d.nextDeadline = none ↔ d.pending = [] := by
  simp [Debouncer.nextDeadline, List.min?_eq_none_iff]

/-- The deadline is the first moment at which an event is ready. -/
lemma nextDeadline_spec {m : Nat} (h : d.nextDeadline = some m) :
    (∃ p ∈ d.pending, p.lastSeen + d.window = m) ∧ ∀ p ∈ d.pending, m ≤ p.lastSeen + d.window := by
  obtain ⟨hmem, hle⟩ := List.min?_eq_some_iff.mp h
  simp only [List.mem_map, forall_exists_index, and_imp, forall_apply_eq_imp_iff₂] at hmem hle
  exact ⟨hmem, hle⟩

/-- The answers that are due after the calls of a log. -/
structure Meets (window : Nat) (log : DebounceLog) (d : Debouncer) : Prop where
  /-- What waits is the latest push of each path that was pushed since it was last given back. -/
  pending : ∀ e t, ⟨e, t⟩ ∈ d.pending ↔ log.Latest e t
  ready : ∀ now, log.Until now → log.Gives d (· + window ≤ now) (d.drainReady now)
  all : log.Gives d (fun _ => True) d.drainAll
  idle : d.nextDeadline = none ↔ ∀ i e t, ¬ log.Open i e t
  deadline : ∀ m, d.nextDeadline = some m → (d.drainReady m).1 ≠ []
  /-- With an empty window an event is ready even before it was pushed, so the clock must not go back there. -/
  early : ∀ m now, d.nextDeadline = some m → now < m → 0 < window ∨ log.Until now → (d.drainReady now).1 = []

lemma Keeps.meets (h : log.Keeps d) : log.Meets d.window d := by
  refine ⟨fun e t => h.mem ⟨e, t⟩, fun now hnow => h.drainReady hnow, h.drainAll, ?_, ?_, ?_⟩
  · rw [nextDeadline_eq_none_iff, List.eq_nil_iff_forall_not_mem]
    constructor
    · intro hnone i e t hopen
      obtain ⟨x, u, hlatest, -⟩ := hopen.exists_latest
      exact hnone ⟨x, u⟩ ((h.mem _).mpr hlatest)
    · intro hnone p hp
      obtain ⟨i, hopen, -⟩ := (h.mem p).mp hp
      exact hnone i _ _ hopen
  · intro m hm
    obtain ⟨⟨p, hp, hready⟩, -⟩ := nextDeadline_spec hm
    refine List.ne_nil_of_mem (List.mem_map.mpr ⟨p, List.mem_filter.mpr ⟨hp, ?_⟩, rfl⟩)
    simp only [Debouncer.isReady, decide_eq_true_eq]
    omega
  · intro m now hm hlt hclock
    obtain ⟨-, hle⟩ := nextDeadline_spec hm
    refine List.map_eq_nil_iff.mpr (List.filter_eq_nil_iff.mpr fun p hp => ?_)
    have hp' := hle p hp
    simp only [Debouncer.isReady, decide_eq_true_eq]
    rcases hclock with hwindow | hnow
    · omega
    · have hseen := ((h.mem p).mp hp).le hnow
      omega

/-- A debouncer gives back what the calls before ask for, if the clock does not go back. -/
theorem meets_replay (hclock : calls.Pairwise fun c c' => c.1 ≤ c'.1) :
    (replay window calls).1.Meets window (replay window calls).2 := by
  have hkeeps : (replay window calls).1.Keeps (replay window calls).2 := keeps_replay hclock
  have hmeets := hkeeps.meets
  rwa [window_replay] at hmeets

/-- Two files change while the other one is not yet quiet. -/
def twoFiles : List (Nat × DebounceCall) :=
  [(0, .push ⟨"a", .created⟩), (20, .push ⟨"b", .deleted⟩), (30, .push ⟨"b", .created⟩), (35, .push ⟨"a", .modified⟩),
    (80, .drainReady), (85, .drainReady), (90, .push ⟨"a", .deleted⟩)]

example : replay 50 twoFiles =
    ([⟨0, .push ⟨"a", .created⟩, []⟩, ⟨20, .push ⟨"b", .deleted⟩, []⟩, ⟨30, .push ⟨"b", .created⟩, []⟩,
      ⟨35, .push ⟨"a", .modified⟩, []⟩, ⟨80, .drainReady, [⟨"b", .created⟩]⟩, ⟨85, .drainReady, [⟨"a", .modified⟩]⟩,
      ⟨90, .push ⟨"a", .deleted⟩, []⟩],
    { window := 50, pending := [⟨⟨"a", .deleted⟩, 90⟩] }) := by
  decide

theorem meets_twoFiles : (replay 50 twoFiles).1.Meets 50 (replay 50 twoFiles).2 := meets_replay (by decide)

end DebounceLog

end RepoAtlas
