import RepoAtlas.Proofs.Watch.Ledger
import RepoAtlas.Proofs.Watch.Turns

/-!
# No event is lost or applied twice

A run over a feed as single steps: time goes by, an event is received, what became ready is taken out, the feed
closes, or an event that was taken out is applied. Whatever order they are taken in, the ledger of a run accounts
for all events that it received; when the feed has closed all of them were received, and the last one that was
applied of each path is the last one of the feed. The synchronizer is one such run: it always comes to an end
before its bound.
-/

namespace RepoAtlas

open Ledger

/-- A run in progress. -/
structure FeedRun (σ : Type) where
  state : SynchronizerState σ
  /-- The events that were taken out to be applied. -/
  ready : List FileEvent := []
  hasClosed : Bool := false

/-- How a run ends. -/
inductive FeedOutcome where
  | closed
  | cancelled

namespace FeedRun

variable {σ : Type} {t : SyncTarget σ} {window now : Nat} {feed : EventFeed} {target : σ}
  {r r' : FeedRun σ} {h h' : Ledger} {o : FeedOutcome} {s : SynchronizerState σ}

def start (window : Nat) (feed : EventFeed) (now : Nat) (target : σ) : FeedRun σ :=
  { state := { now, debouncer := { window }, feed, target } }

/-- One step of a run and its entries. An event that was taken out is applied before anything else is done. -/
inductive Step (t : SyncTarget σ) : FeedRun σ → Ledger → FeedRun σ → Prop
  | wait {s : SynchronizerState σ} {now : Nat} (h : s.now ≤ now) :
      Step t ⟨s, [], false⟩ [] ⟨{ s with now }, [], false⟩
  | receive {s : SynchronizerState σ} {moment : Nat} {e : FileEvent} {rest : List (Nat × FileEvent)}
      (hfeed : s.feed.events = (moment, e) :: rest) (h : moment ≤ s.now) :
      Step t ⟨s, [], false⟩ [.received e] ⟨s.receive e rest, [], false⟩
  | drain {s : SynchronizerState σ} :
      Step t ⟨s, [], false⟩ []
        ⟨{ s with debouncer := (s.debouncer.drainReady s.now).2 }, (s.debouncer.drainReady s.now).1, false⟩
  | close {s : SynchronizerState σ} (hfeed : s.feed.events = []) (h : s.feed.closeAt ≤ s.now) :
      Step t ⟨s, [], false⟩ [] ⟨{ s with debouncer := s.debouncer.drainAll.2 }, s.debouncer.drainAll.1, true⟩
  | apply {s : SynchronizerState σ} {e : FileEvent} {es : List FileEvent} {hasClosed : Bool} :
      Step t ⟨s, e :: es, hasClosed⟩ [.applied e] ⟨SynchronizerState.applyAll t s [e], es, hasClosed⟩

/-- Where a run gets to, with its ledger. -/
inductive Reaches (t : SyncTarget σ) (r : FeedRun σ) : Ledger → FeedRun σ → Prop
  | refl : Reaches t r [] r
  | step {h entries : Ledger} {r' r'' : FeedRun σ} (hreaches : Reaches t r h r') (hstep : Step t r' entries r'') :
      Reaches t r (h ++ entries) r''

/-- A run is cancelled between two steps, or ends when the feed has closed and nothing is left to apply. -/
inductive Stops : FeedRun σ → FeedOutcome → SynchronizerState σ → Prop
  | cancelled {s : SynchronizerState σ} {moment : Nat} (hfeed : s.feed.cancelAt = some moment)
      (h : moment ≤ s.now) : Stops ⟨s, [], false⟩ .cancelled s.cancel
  | closed {s : SynchronizerState σ} : Stops ⟨s, [], true⟩ .closed s

/-- A run from start to end. -/
def Runs (t : SyncTarget σ) (r : FeedRun σ) (h : Ledger) (o : FeedOutcome) (s : SynchronizerState σ) : Prop :=
  ∃ r', Reaches t r h r' ∧ Stops r' o s

/-! ### What a run preserves -/

/-- The events that were received and neither replaced nor applied. -/
def waiting (r : FeedRun σ) : List FileEvent := r.ready ++ r.state.debouncer.events

/-- A target that keeps a record of the events that it was called with. -/
def Records (t : SyncTarget σ) (record : σ → List FileEvent) : Prop :=
  ∀ e now target, record (t.apply e now target).2.2 = record target ++ [e]

/-- The ledger of a run, its counts and the feed agree. -/
structure Tallies (t : SyncTarget σ) (feed : EventFeed) (target : σ) (h : Ledger) (r : FeedRun σ) : Prop where
  accounts : Accounts h r.waiting
  receipts : h.receipts ++ r.state.feed.events.map (·.2) = feed.events.map (·.2)
  cancelAt : r.state.feed.cancelAt = feed.cancelAt
  received : r.state.stats.received = h.receipts.length
  applied : r.state.stats.applied + r.state.stats.failed = h.applications.length
  dropped : r.state.stats.dropped = 0
  records : ∀ record, Records t record → record r.state.target = record target ++ h.applications
  closed : r.hasClosed = true → r.state.debouncer.pending = [] ∧ r.state.feed.events = []

lemma tallies_start : Tallies t feed target [] (start window feed now target) where
  accounts := .nil
  receipts := rfl
  cancelAt := rfl
  received := rfl
  applied := rfl
  dropped := rfl
  records _ _ := (List.append_nil _).symm
  closed := Bool.noConfusion

lemma Tallies.step {entries : Ledger} (ht : Tallies t feed target h r) (hstep : Step t r entries r') :
    Tallies t feed target (h ++ entries) r' := by
  cases hstep with
  | wait =>
    rw [List.append_nil]
    exact { ht with }
  | receive hfeed =>
    rename_i s moment e rest _
    have haccounts : Accounts h s.debouncer.events := ht.accounts
    have hreceived : s.stats.received = h.receipts.length := ht.received
    have hrecords : ∀ record, Records t record → record s.target = record target ++ h.applications := ht.records
    have hreceipts := ht.receipts
    simp only [hfeed] at hreceipts
    exact {
      accounts := haccounts.receive (Debouncer.nodup_events_push haccounts.distinct) fun _ =>
        Debouncer.mem_events_push
      receipts := by simpa using hreceipts
      cancelAt := ht.cancelAt
      received := by simp [hreceived]
      applied := by simpa using ht.applied
      dropped := ht.dropped
      records := by simpa using hrecords
      closed := Bool.noConfusion }
  | drain =>
    rw [List.append_nil]
    exact { ht with
      accounts := ht.accounts.perm Debouncer.drainReady_perm.symm
      closed := Bool.noConfusion }
  | close hfeed =>
    rw [List.append_nil]
    exact { ht with
      accounts := ht.accounts.perm (by simp [waiting, Debouncer.events, Debouncer.drainAll])
      closed := fun _ => ⟨rfl, hfeed⟩ }
  | apply =>
    rename_i s e es hasClosed
    have haccounts : Accounts h (e :: (es ++ s.debouncer.events)) := ht.accounts
    obtain ⟨hreceived, hdropped, happlied⟩ := SynchronizerState.stats_apply (t := t) (s := s) (e := e)
    exact {
      accounts := by simpa [waiting] using haccounts.apply
      receipts := by simpa using ht.receipts
      cancelAt := by simpa using ht.cancelAt
      received := by simpa [hreceived] using ht.received
      applied := by simpa [happlied] using ht.applied
      dropped := hdropped.trans ht.dropped
      records := fun record hrecord => by
        have hcall : record (SynchronizerState.applyAll t s [e]).target = record s.target ++ [e] := hrecord _ _ _
        have hbefore : record s.target = record target ++ h.applications := ht.records record hrecord
        simp [hcall, hbefore]
      closed := by simpa using ht.closed }

lemma Reaches.tallies (hr : Reaches t (start window feed now target) h r) : Tallies t feed target h r := by
  induction hr with
  | refl => exact tallies_start
  | step _ hstep ih => exact ih.step hstep

/-! ### The synchronizer -/

/-- Events that were taken out are applied one after the other. -/
lemma Reaches.applyAll {es : List FileEvent} {hasClosed : Bool} (hr : Reaches t r h ⟨s, es, hasClosed⟩) :
    ∃ h', Reaches t r h' ⟨s.applyAll t es, [], hasClosed⟩ := by
  induction es generalizing s h with
  | nil => exact ⟨h, hr⟩
  | cons e es ih =>
    rw [SynchronizerState.applyAll_cons]
    exact ih (hr.step .apply)

lemma Reaches.drain (hr : Reaches t r h ⟨s, [], false⟩) : ∃ h', Reaches t r h' ⟨s.drain t, [], false⟩ :=
  (hr.step .drain).applyAll

/-- Each turn of the synchronizer receives an event or applies one that waits, so that it ends before its bound. -/
lemma runs_run {n : Nat} (hr : Reaches t r h ⟨s, [], false⟩) (hn : s.potential < n) :
    ∃ h' o, Runs t r h' o (s.run t n) := by
  induction n generalizing s h with
  | zero => exact absurd hn (Nat.not_lt_zero _)
  | succ n ih =>
    have hr : Reaches t r (h ++ []) ⟨s.wake, [], false⟩ := hr.step (.wait (Nat.le_max_left s.now s.wakeAt))
    have hn : s.wake.potential < n + 1 := hn
    have hspec := s.wake.step_spec
    rw [SynchronizerState.run_succ]
    cases hstep : s.wake.step with
    | cancel =>
      simp only [hstep] at hspec
      obtain ⟨moment, hfeed, hmoment⟩ := hspec
      exact ⟨_, .cancelled, _, hr, .cancelled hfeed hmoment⟩
    | close =>
      simp only [hstep] at hspec
      obtain ⟨h', hr'⟩ := (hr.step (.close hspec.1 hspec.2)).applyAll
      exact ⟨h', .closed, _, hr', .closed⟩
    | receive e rest =>
      simp only [hstep] at hspec
      obtain ⟨moment, hfeed, hmoment⟩ := hspec
      obtain ⟨h', hr'⟩ := (hr.step (.receive hfeed hmoment)).drain
      have hlt := SynchronizerState.potential_receive_lt (t := t) hfeed
      exact ih hr' (by omega)
    | fire =>
      obtain ⟨h', hr'⟩ := hr.drain
      have hlt := SynchronizerState.potential_drain_lt (t := t) s.wakeAt_wake_le hstep
      exact ih hr' (by omega)

/-- The synchronizer is a run, from its start to its end. -/
lemma runs_synchronize (t : SyncTarget σ) (window : Nat) (feed : EventFeed) (now : Nat) (target : σ) :
    ∃ h o, Runs t (start window feed now target) h o (synchronize t window feed now target) :=
  runs_run .refl (by simp [SynchronizerState.potential])

/-! ### What becomes of events -/

/-- What a run that has ended did with the events of its feed. -/
structure Conserves (t : SyncTarget σ) (feed : EventFeed) (target : σ) (h : Ledger) (o : FeedOutcome)
    (s : SynchronizerState σ) : Prop where
  /-- The first events of the feed were received. -/
  receipts : h.receipts = (feed.events.map (·.2)).take s.stats.received
  /-- The target was called with the applied events. -/
  calls : ∀ record, Records t record → record s.target = record target ++ h.applications
  /-- A received event was replaced before it was applied, or applied once, or still waits at cancellation. -/
  fate : ∀ i e, h[i]? = some (.received e) →
    (∃ j e', Next h i j (.received e) (.received e')) ∨ (∃! j, Next h i j (.received e) (.applied e)) ∨
      o = .cancelled ∧ Pending h i e
  /-- An applied event is one that was received, with the kind that it had. -/
  source : ∀ j e, h[j]? = some (.applied e) → ∃! i, Next h i j (.received e) (.applied e)
  counted : s.stats.applied + s.stats.failed = h.applications.length
  /-- The debouncer holds the events that still wait, one for each path. -/
  pending : ∀ e, e ∈ s.debouncer.events ↔ ∃ i, Pending h i e
  distinct : (s.debouncer.events.map (·.path)).Nodup
  dropped : s.stats.dropped = s.debouncer.events.length
  closed : o = .closed → s.stats.dropped = 0 ∧ s.stats.received = feed.events.length ∧
    ∀ p, lastOf p h.applications = lastOf p (feed.events.map (·.2))
  cancelled : o = .cancelled → ∃ moment, feed.cancelAt = some moment ∧ moment ≤ s.now

lemma Tallies.conserves (ht : Tallies t feed target h r) (hstops : Stops r o s) :
    Conserves t feed target h o s := by
  have hreceipts : h.receipts = (feed.events.map (·.2)).take r.state.stats.received := by
    rw [← ht.receipts, ht.received, List.take_left]
  have hsource : ∀ j e, h[j]? = some (.applied e) → ∃! i, Next h i j (.received e) (.applied e) := by
    intro j e hj
    obtain ⟨i, hnext⟩ := ht.accounts.source j e hj
    exact ⟨i, hnext, fun _ hother => hother.left_unique hnext⟩
  have hfate : ∀ i e, h[i]? = some (.received e) → (∃ j e', Next h i j (.received e) (.received e')) ∨
      (∃! j, Next h i j (.received e) (.applied e)) ∨ Pending h i e := by
    intro i e hi
    rcases ht.accounts.fate i e hi with hreplaced | ⟨j, hnext⟩ | hpending
    · exact .inl hreplaced
    · exact .inr (.inl ⟨j, hnext, fun _ hother => hother.right_unique hnext⟩)
    · exact .inr (.inr hpending)
  cases hstops with
  | cancelled hfeed hmoment =>
    rename_i s moment
    have haccounts : Accounts h s.debouncer.events := ht.accounts
    exact {
      receipts := hreceipts
      calls := ht.records
      fate := fun i e hi => (hfate i e hi).imp_right (.imp_right (⟨rfl, ·⟩))
      source := hsource
      counted := ht.applied
      pending := haccounts.pending
      distinct := haccounts.distinct
      dropped := by simp [SynchronizerState.cancel, Debouncer.events]
      closed := FeedOutcome.noConfusion
      cancelled := fun _ => ⟨moment, ht.cancelAt.symm.trans hfeed, hmoment⟩ }
  | closed =>
    have hdropped : s.stats.dropped = 0 := ht.dropped
    obtain ⟨hpending, hevents⟩ := ht.closed rfl
    simp only at hpending hevents
    have hnone : s.debouncer.events = [] := by rw [Debouncer.events, hpending, List.map_nil]
    have haccounts : Accounts h s.debouncer.events := ht.accounts
    have hall : h.receipts = feed.events.map (·.2) := by simpa [hevents] using ht.receipts
    have hnonePending : ∀ i e, ¬Pending h i e := by
      intro i e hpending
      have hmem := (haccounts.pending e).mpr ⟨i, hpending⟩
      simp [hnone] at hmem
    exact {
      receipts := hreceipts
      calls := ht.records
      fate := fun i e hi => (hfate i e hi).imp_right (.imp_right (absurd · (hnonePending i e)))
      source := hsource
      counted := ht.applied
      pending := haccounts.pending
      distinct := haccounts.distinct
      dropped := by rw [hdropped, hnone, List.length_nil]
      closed := fun _ => ⟨hdropped, by simpa [hall] using ht.received, fun p => by
        rw [haccounts.settled p (by simp [hnone]), hall]⟩
      cancelled := FeedOutcome.noConfusion }

/-- Whatever order the steps of a run are taken in, no event is lost or applied twice: each received event is
replaced by a later one of its path, applied once, or waits at cancellation, the target is called with nothing
else, and the counts agree. If the feed closes, of each path the last event is the one that is applied last. The
synchronizer is such a run. -/
theorem conserves_events (t : SyncTarget σ) (window : Nat) (feed : EventFeed) (now : Nat) (target : σ) :
    (∃ h o, Runs t (start window feed now target) h o (synchronize t window feed now target)) ∧
      ∀ h o s, Runs t (start window feed now target) h o s → Conserves t feed target h o s := by
  refine ⟨runs_synchronize t window feed now target, ?_⟩
  rintro h o s ⟨r, hr, hstops⟩
  exact hr.tallies.conserves hstops

example :
    (synchronize ⟨fun e now calls => (true, now, calls ++ [e])⟩ 10
      ⟨[(0, ⟨"a.py", .created⟩), (5, ⟨"a.py", .modified⟩)], 20, none⟩ 0 []).target =
      [⟨"a.py", .modified⟩] := by
  decide

end FeedRun

end RepoAtlas
