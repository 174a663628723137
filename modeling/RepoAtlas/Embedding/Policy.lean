import RepoAtlas.Graph.Vector
import RepoAtlas.Settings.Basic
import RepoAtlas.Time.Duration

/-!
# Limits of embedding requests

What can go wrong with a request, when it is tried again, how long its text may be, and what all
requests of a run cost.
-/

namespace RepoAtlas

/-- Why a text has no embedding. -/
inductive EmbeddingError where
  /-- Another attempt may succeed. -/
  | transient (reason : String)
  /-- Another attempt may succeed, after a while if one is given. -/
  | rateLimited (retryAfter : Option Duration)
  /-- The provider rejects the text. -/
  | permanent (reason : String)
  /-- The call took too long. -/
  | timeout (deadline : Duration)
  /-- No call was made, because the provider kept failing. -/
  | circuitOpen (retryIn : Duration)
deriving DecidableEq, Inhabited

namespace EmbeddingError

/-- Whether a request tries again after the error. -/
def isTransient : EmbeddingError → Bool
  | .transient _ | .rateLimited _ => true
  | _ => false

/-- The wording of an error. -/
def message : EmbeddingError → String
  | .transient reason => "Transient embedding failure: " ++ reason
  | .rateLimited (some d) => "Rate limited, retry after Some(" ++ d.text ++ ")"
  | .rateLimited none => "Rate limited, retry after None"
  | .permanent reason => "Embedding request rejected: " ++ reason
  | .timeout d => "Embedding call exceeded its " ++ d.text ++ " deadline"
  | .circuitOpen d => "Embedding provider unavailable, calls resume in " ++ d.text

end EmbeddingError

/-- The deadline of a call and the schedule of retries. -/
structure RetryPolicy where
  maxRetries : Nat := 3
  baseDelay : Duration := .ofSeconds 1
  deadline : Duration := .ofSeconds 30

namespace RetryPolicy

def ofSettings (s : EmbeddingSettings) : RetryPolicy :=
  ⟨s.maxRetries, .ofMillis s.backoffMs, .ofSeconds s.timeoutSecs⟩

/-- The wait before a retry, counted from one: it doubles each time, sixteen times at most. -/
def delay (p : RetryPolicy) (attempt : Nat) : Duration := p.baseDelay.times (1 <<< min (attempt - 1) 16)

/-- The wait after an error: the time that the provider asks for, or the scheduled one. -/
def delayAfter (p : RetryPolicy) (attempt : Nat) : EmbeddingError → Duration
  | .rateLimited (some after) => after
  | _ => p.delay attempt

end RetryPolicy

/-- What stands at the end of a text that was cut. -/
def truncationMark : String := "\n...[TRUNCATED]"

/-- A text cut to a number of characters, with a mark where it was cut. -/
def truncateInput (text : String) (maxChars : Nat) : String :=
  let cs := text.toList
  if maxChars < cs.length then .ofList (cs.take maxChars) ++ truncationMark else text

/-- What the requests of a run added up to. -/
structure EmbeddingUsage where
  calls : Nat := 0
  failures : Nat := 0
  chars : Nat := 0
deriving DecidableEq, Inhabited

namespace EmbeddingUsage

/-- A token is estimated as four characters. -/
def tokens (u : EmbeddingUsage) : Nat := (u.chars + 3) / 4

/-- The usage with its estimated cost. -/
def report (u : EmbeddingUsage) (pricePerMillion : Float) : Json :=
  .obj [("calls", toJson u.calls), ("failures", toJson u.failures), ("chars", toJson u.chars),
    ("estimated_tokens", toJson u.tokens),
    ("estimated_cost_usd", toJson (Float.ofNat u.tokens / 1000000.0 * pricePerMillion))]

end EmbeddingUsage

end RepoAtlas
