import RepoAtlas.Embedding.Breaker
import RepoAtlas.Embedding.Provider

/-!
# Embedding requests

A request is admitted by the breaker, cut to length, and tried until it has an answer. Several
requests run together: they share the breaker and a number of permits for calls, and wait for calls
and between attempts on one clock. Requests are polled in order; when all wait, the clock moves to the
next moment at which one of them can go on.
-/

namespace RepoAtlas

/-- What requests share. -/
structure Embedder where
  policy : RetryPolicy := {}
  maxChars : Nat := 24000
  /-- How many calls may be under way. -/
  permits : Nat := 8
  breaker : CircuitBreaker := {}
  usage : EmbeddingUsage := {}
  provider : Provider
  /-- The clock, in milliseconds. -/
  clock : Nat := 0
  /-- The texts that the provider received. -/
  received : Array String := #[]
  /-- Whether the provider asked for cancellation. -/
  cancelAsked : Bool := false

namespace Embedder

def ofSettings (s : EmbeddingSettings) (provider : Provider) : Embedder :=
  { policy := .ofSettings s
    maxChars := max s.maxChars 1
    permits := max s.maxConcurrency 1
    breaker := .ofLimits s.breakerThreshold (1000 * s.breakerCooldownSecs)
    provider }

/-- Begin a run with fresh counters. -/
def forRun (e : Embedder) : Embedder := { e with usage := {} }

/-- Send a text to the provider. -/
def call (e : Embedder) (text : String) : Reply × Embedder :=
  let (reply, cancels, provider) := e.provider.answer text
  (reply,
    { e with
      provider
      usage := { e.usage with calls := e.usage.calls + 1, chars := e.usage.chars + text.length }
      received := e.received.push text
      cancelAsked := e.cancelAsked || cancels })

end Embedder

/-- Where a request stands. -/
inductive Phase where
  | fresh
  /-- Waiting for a permit. -/
  | queued
  /-- A permit was handed over. -/
  | permitted
  /-- The provider answers at a moment, unless the deadline comes first. -/
  | calling (until_ deadline : Nat) (result : Except EmbeddingError Embedding)
  /-- Waiting to try again. -/
  | resting (until_ : Nat)
  | done (result : Except EmbeddingError Embedding)

/-- A request for a text. -/
structure Request where
  text : String
  phase : Phase := .fresh
  /-- How many attempts failed. -/
  attempts : Nat := 0

namespace Request

/-- The moments at which a waiting request can go on. -/
def timer? (r : Request) : Option Nat :=
  match r.phase with
  | .calling u d _ => some (min u d)
  | .resting u => some u
  | _ => none

def isPermitted (r : Request) : Bool :=
  match r.phase with
  | .permitted => true
  | _ => false

def result? (r : Request) : Option (Except EmbeddingError Embedding) :=
  match r.phase with
  | .done x => some x
  | _ => none

/-- The result of a request; one that did not end has failed. -/
def outcome (r : Request) : Except EmbeddingError Embedding :=
  r.result?.getD (.error (.permanent "embedder closed"))

end Request

/-- Requests that run together. -/
structure Flight where
  embedder : Embedder
  /-- Permits that nobody has. -/
  free : Nat
  /-- The requests that wait for a permit, first come first. -/
  queue : List Nat := []
  requests : Array Request

namespace Flight

/-- The requests for some texts. -/
def ofTexts (e : Embedder) (texts : List String) : Flight :=
  { embedder := e, free := e.permits, requests := (texts.map fun t => { text := t }).toArray }

/-- Change a request. -/
def update (f : Flight) (i : Nat) (change : Request → Request) : Flight :=
  { f with requests := f.requests.modify i change }

def setPhase (f : Flight) (i : Nat) (p : Phase) : Flight := f.update i ({ · with phase := p })

/-- Give a permit back: the first in the queue gets it. -/
def release (f : Flight) : Flight :=
  match f.queue with
  | [] => { f with free := f.free + 1 }
  | j :: rest => { f with queue := rest }.setPhase j .permitted

/-- A request ends with an answer. -/
def succeed (f : Flight) (i : Nat) (v : Embedding) : Flight :=
  let e := f.embedder
  { f with embedder := { e with breaker := e.breaker.succeeded } }.setPhase i (.done (.ok v))

/-- A request ends with an error. The provider answered if the text was rejected. -/
def giveUp (f : Flight) (i : Nat) (err : EmbeddingError) : Flight :=
  let e := f.embedder
  let breaker :=
    match err with
    | .permanent _ => e.breaker.succeeded
    | _ => e.breaker.failed e.clock
  { f with
    embedder := { e with breaker, usage := { e.usage with failures := e.usage.failures + 1 } } }.setPhase i
      (.done (.error err))

/-- What follows the outcome of a call. `again` lets the request try once more at the same moment. -/
def conclude (again : Flight → Request → Flight) (f : Flight) (i : Nat) (r : Request)
    (result : Except EmbeddingError Embedding) : Flight :=
  match result with
  | .ok v => f.succeed i v
  | .error err =>
    let e := f.embedder
    let r := { r with attempts := r.attempts + 1 }
    let f := f.update i fun _ => r
    if !err.isTransient || e.policy.maxRetries < r.attempts then f.giveUp i err
    else
      let delay := (e.policy.delayAfter r.attempts err).millis
      if delay = 0 then again f r else f.setPhase i (.resting (e.clock + delay))

/-- A request goes on with a permit. -/
def attempt (again : Flight → Request → Flight) (f : Flight) (i : Nat) (r : Request) : Flight :=
  let e := f.embedder
  let (reply, e') := e.call (truncateInput r.text e.maxChars)
  let f := { f with embedder := e' }
  if reply.delay = 0 then conclude again f.release i r reply.result
  else if e.policy.deadline.millis = 0 then
    conclude again f.release i r (.error (.timeout e.policy.deadline))
  else
    f.setPhase i
      (.calling (e.clock + reply.delay) (e.clock + e.policy.deadline.millis) reply.result)

/-- A request takes a permit, or waits for one. `n` bounds the attempts that may follow. -/
def acquire (i : Nat) : Nat → Flight → Request → Flight
  | 0, f, _ => f
  | n + 1, f, r =>
    if 0 < f.free then attempt (acquire i n) { f with free := f.free - 1 } i r
    else { f with queue := f.queue ++ [i] }.setPhase i .queued

/-- A bound on the attempts that a request may make at one moment. -/
def attemptBound (f : Flight) : Nat := f.embedder.policy.maxRetries + 2

/-- Let a request go on as far as it can. -/
def poll (f : Flight) (i : Nat) : Flight :=
  match f.requests[i]? with
  | none => f
  | some r =>
    let e := f.embedder
    let again := acquire i f.attemptBound
    match r.phase with
    | .fresh =>
      match e.breaker.allow e.clock with
      | .error wait =>
        { f with
          embedder := { e with usage := { e.usage with failures := e.usage.failures + 1 } } }.setPhase i
            (.done (.error (.circuitOpen (.ofMillis wait))))
      | .ok breaker => again { f with embedder := { e with breaker } } r
    | .permitted => attempt again f i r
    | .calling u d result =>
      if u ≤ e.clock then conclude again f.release i r result
      else if d ≤ e.clock then conclude again f.release i r (.error (.timeout e.policy.deadline))
      else f
    | .resting u => if u ≤ e.clock then again f r else f
    | .queued => f
    | .done _ => f

/-- Let every request go on, in order. -/
def pass (f : Flight) : Flight := (List.range f.requests.size).foldl poll f

/-- The next moment at which a request can go on. -/
def nextTimer? (f : Flight) : Option Nat :=
  f.requests.foldl (fun best r =>
    match best, r.timer? with
    | some a, some b => some (min a b)
    | none, t => t
    | best, none => best) none

/-- Let requests go on until all have ended, or until a moment. `n` bounds the passes. -/
def run : Nat → Option Nat → Flight → Flight
  | 0, _, f => f
  | n + 1, stop, f =>
    let f := f.pass
    if f.requests.any Request.isPermitted then run n stop f
    else
      match f.nextTimer? with
      | none => f
      | some t =>
        match stop with
        | some s =>
          if s < t then { f with embedder := { f.embedder with clock := max f.embedder.clock s } }
          else run n stop { f with embedder := { f.embedder with clock := max f.embedder.clock t } }
        | none => run n stop { f with embedder := { f.embedder with clock := max f.embedder.clock t } }

/-- A bound on the passes that requests can take. -/
def passBound (f : Flight) : Nat := 4 * (f.requests.size + 1) * (f.embedder.policy.maxRetries + 2)

/-- The outcomes of the requests, in order. -/
def results (f : Flight) : List (Except EmbeddingError Embedding) :=
  f.requests.toList.map Request.outcome

end Flight

namespace Embedder

/-- Embed texts together, each on its own. -/
def embedAll (e : Embedder) (texts : List String) : List (Except EmbeddingError Embedding) × Embedder :=
  let f := Flight.ofTexts e texts
  let f := f.run f.passBound none
  (f.results, f.embedder)

/-- Embed a text. -/
def embed (e : Embedder) (text : String) : Except EmbeddingError Embedding × Embedder :=
  let (results, e) := e.embedAll [text]
  (results.headD (.error (.permanent "embedder closed")), e)

/-- Embed a text, but drop the request if it still runs after some milliseconds. Says whether it was
dropped. -/
def abandonAfter (e : Embedder) (text : String) (ms : Nat) : Bool × Embedder :=
  let f := Flight.ofTexts e [text]
  let f := f.run f.passBound (some (e.clock + ms))
  (f.requests.all (·.result?.isNone), f.embedder)

/-- Ask the provider for several texts, one after the other and without retries; the first error ends
it. -/
def providerBatch (e : Embedder) : List String → Except EmbeddingError (List Embedding) × Embedder
  | [] => (.ok [], e)
  | text :: rest =>
    let (reply, cancels, provider) := e.provider.answer text
    let e :=
      { e with
        provider
        received := e.received.push text
        cancelAsked := e.cancelAsked || cancels
        clock := e.clock + reply.delay }
    match reply.result with
    | .error err => (.error err, e)
    | .ok v =>
      let (r, e) := e.providerBatch rest
      (r.map (v :: ·), e)

end Embedder

end RepoAtlas
