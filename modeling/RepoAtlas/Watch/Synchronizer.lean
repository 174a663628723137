import RepoAtlas.Watch.Debounce

/-!
# Applying events

A single consumer takes events from a feed, debounces them and applies them one after the other. When
the feed closes, what waits is applied; when the run is cancelled, it is dropped.
-/

namespace RepoAtlas

/-- When events arrive, in order, when the feed closes at the earliest, and when the run is
cancelled. -/
structure EventFeed where
  events : List (Nat × FileEvent)
  closeAt : Nat
  cancelAt : Option Nat := none

/-- What applies an event at a moment: whether it succeeded, and the moment at which it was done. -/
structure SyncTarget (σ : Type) where
  apply : FileEvent → Nat → σ → Bool × Nat × σ

/-- What a run did. -/
structure SynchronizerStats where
  received : Nat := 0
  applied : Nat := 0
  failed : Nat := 0
  /-- Events that waited when the run was cancelled. -/
  dropped : Nat := 0
deriving DecidableEq, Inhabited

instance : ToJson SynchronizerStats where
  toJson s := .obj [("received", toJson s.received), ("applied", toJson s.applied),
    ("failed", toJson s.failed), ("dropped", toJson s.dropped)]

/-- Where a run stands. -/
structure SynchronizerState (σ : Type) where
  now : Nat
  debouncer : Debouncer
  stats : SynchronizerStats := {}
  /-- The events that did not arrive yet or were not taken. -/
  feed : EventFeed
  target : σ

/-- What a run can do next. -/
inductive SynchronizerStep where
  | cancel
  | receive (e : FileEvent) (rest : List (Nat × FileEvent))
  | close
  | fire

namespace SynchronizerState

variable {σ : Type}

/-- Apply events one after the other. -/
def applyAll (t : SyncTarget σ) (s : SynchronizerState σ) : List FileEvent → SynchronizerState σ
  | [] => s
  | e :: es =>
    let (ok, now, target) := t.apply e s.now s.target
    let stats :=
      if ok then { s.stats with applied := s.stats.applied + 1 }
      else { s.stats with failed := s.stats.failed + 1 }
    applyAll t { s with now, target, stats } es

/-- The moment at which the run can go on. -/
def wakeAt (s : SynchronizerState σ) : Nat :=
  let next :=
    match s.feed.events with
    | (t, _) :: _ => t
    | [] => s.feed.closeAt
  let all := next :: (s.feed.cancelAt.toList ++ s.debouncer.nextDeadline.toList)
  all.foldl min next

/-- What the run does at a moment: cancellation comes first, then an event that arrived, then the end
of the feed, then an event that became ready. -/
def step (s : SynchronizerState σ) : SynchronizerStep :=
  if s.feed.cancelAt.any (· ≤ s.now) then .cancel
  else
    match s.feed.events with
    | (t, e) :: rest => if t ≤ s.now then .receive e rest else .fire
    | [] => if s.feed.closeAt ≤ s.now then .close else .fire

/-- Run until the feed closes or the run is cancelled. `n` bounds the steps. -/
def run (t : SyncTarget σ) : Nat → SynchronizerState σ → SynchronizerState σ
  | 0, s => s
  | n + 1, s =>
    let s := { s with now := max s.now s.wakeAt }
    match s.step with
    | .cancel => { s with stats := { s.stats with dropped := s.debouncer.pending.length } }
    | .close =>
      let (ready, debouncer) := s.debouncer.drainAll
      applyAll t { s with debouncer } ready
    | .receive e rest =>
      let s :=
        { s with
          debouncer := s.debouncer.push e s.now
          stats := { s.stats with received := s.stats.received + 1 }
          feed := { s.feed with events := rest } }
      let (ready, debouncer) := s.debouncer.drainReady s.now
      run t n (applyAll t { s with debouncer } ready)
    | .fire =>
      let (ready, debouncer) := s.debouncer.drainReady s.now
      run t n (applyAll t { s with debouncer } ready)

end SynchronizerState

/-- Take events from a feed until it closes or the run is cancelled. -/
def synchronize {σ : Type} (t : SyncTarget σ) (window : Nat) (feed : EventFeed) (now : Nat) (target : σ) :
    SynchronizerState σ :=
  SynchronizerState.run t (2 * feed.events.length + 2)
    { now, debouncer := { window }, feed, target }

end RepoAtlas
