import RepoAtlas.Embedding.Policy

/-!
# Circuit breaker

After some failed requests in a row the breaker opens, and requests fail at once. When it was open
for a while, a single trial goes through: its success closes the breaker, its failure keeps it open.
Times are milliseconds of one clock.
-/

namespace RepoAtlas

/-- A breaker. -/
structure CircuitBreaker where
  threshold : Nat := 5
  /-- How long requests are refused, in milliseconds. -/
  cooldown : Nat := 30000
  /-- Failed requests since the last one that succeeded. -/
  failures : Nat := 0
  openedAt : Option Nat := none
  /-- When the trial was sent. -/
  trialAt : Option Nat := none
deriving DecidableEq, Inhabited

namespace CircuitBreaker

/-- A closed breaker; it takes at least one failure to open it. -/
def ofLimits (threshold cooldown : Nat) : CircuitBreaker := { threshold := max threshold 1, cooldown }

def isOpen (b : CircuitBreaker) : Bool := b.openedAt.isSome

/-- Let a request through, or say how many milliseconds it would have to wait. A call has one time: the clock
is not read again for what is left of the cooldown, where a later reading could find the cooldown over and
nothing left to subtract it from, nor for the start of a trial. -/
def allow (b : CircuitBreaker) (now : Nat) : Except Nat CircuitBreaker :=
  match b.openedAt with
  | none => .ok b
  | some opened =>
    if now - opened < b.cooldown then .error (b.cooldown - (now - opened))
    else
      match b.trialAt with
      | some trial =>
        if now - trial < b.cooldown then .error (b.cooldown - (now - trial))
        else .ok { b with trialAt := some now }
      | none => .ok { b with trialAt := some now }

/-- A request succeeded. -/
def succeeded (b : CircuitBreaker) : CircuitBreaker :=
  { b with failures := 0, openedAt := none, trialAt := none }

/-- A request failed. -/
def failed (b : CircuitBreaker) (now : Nat) : CircuitBreaker :=
  let failures := b.failures + 1
  { b with
    failures
    trialAt := none
    openedAt := if b.openedAt.isSome || b.threshold ≤ failures then some now else none }

end CircuitBreaker

end RepoAtlas
