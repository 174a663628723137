import RepoAtlas.Embedding.Policy

/-!
# Providers of embeddings

A provider answers a text after a while with a vector or an error. It can be any function of what it was
asked before, and rules for texts that contain something can come before it. The scripted provider counts
the words of a vocabulary; the offline provider stands for a service that cannot be reached.
-/

namespace RepoAtlas

/-- The answer of a provider and the milliseconds that it takes. -/
structure Reply where
  delay : Nat := 0
  result : Except EmbeddingError Embedding

/-- What a rule makes of a text. -/
inductive RuleAction where
  | fail (e : EmbeddingError)
  /-- Answer as without the rule, after some milliseconds. -/
  | sleep (ms : Nat)
  | vector (v : Embedding)
  /-- Ask for the run to be cancelled, and answer as without the rule. -/
  | cancel

/-- A rule for texts that contain something. -/
structure ProviderRule where
  contains : String
  action : RuleAction
  /-- How often it can still be used; without a number, always. -/
  uses : Option Nat := none

namespace ProviderRule

/-- Whether the rule holds of a text. -/
def covers (r : ProviderRule) (text : String) : Bool := r.uses != some 0 && Text.occursIn r.contains text

/-- The rule after it was used. -/
def used (r : ProviderRule) : ProviderRule := { r with uses := r.uses.map (· - 1) }

end ProviderRule

/-- A provider: a service, whose answers may depend on all that it was asked before, and rules that come
before it. -/
structure Provider where
  /-- The length of the vectors. -/
  dimensions : Nat
  /-- What the service answers to a text after some others, and whether it asks for the run to be
  cancelled. -/
  respond : List String → String → Reply × Bool
  /-- The texts that the service was asked for, the last one first. -/
  asked : List String := []
  rules : List ProviderRule := []

namespace Provider

/-- The words of a text: letters and digits, in lower case. -/
def wordsOf (text : String) : List String :=
  ((Text.pieces (!·.isAlphanum) (Text.asciiLower text).toList).filter (!·.isEmpty)).map String.ofList

/-- How often each word of a vocabulary stands in a text; a repeated word counts where it stands
first. -/
def countWords (vocabulary : List String) (text : String) : Embedding :=
  let words := wordsOf text
  let rec go (before : List String) : List String → Embedding
    | [] => []
    | w :: ws =>
      (if before.contains w then 0 else Float32.ofNat (words.count w)) :: go (w :: before) ws
  go [] vocabulary

/-- Use the first rule that holds of a text. -/
def useRule (text : String) : List ProviderRule → Option (RuleAction × List ProviderRule)
  | [] => none
  | r :: rs =>
    if r.covers text then some (r.action, r.used :: rs)
    else (useRule text rs).map fun (a, rest) => (a, r :: rest)

/-- A provider that counts the words of a vocabulary, as long as its rules say nothing else. -/
def scripted (vocabulary : List String) (rules : List ProviderRule) : Provider where
  dimensions := vocabulary.length
  respond _ text := ({ result := .ok (countWords vocabulary text) }, false)
  rules := rules

/-- A service with vectors of some length that is out of reach. -/
def offline (dimensions : Nat) : Provider where
  dimensions := dimensions
  respond _ _ := ({ result := .error (.transient "network error") }, false)

/-- The answer of the service to a text, whether it asks for cancellation, and the provider after it. -/
def ask (p : Provider) (text : String) : Reply × Bool × Provider :=
  let (reply, cancels) := p.respond p.asked text
  (reply, cancels, { p with asked := text :: p.asked })

/-- The answer to a text, whether it asks for cancellation, and the provider after it. -/
def answer (p : Provider) (text : String) : Reply × Bool × Provider :=
  match useRule text p.rules with
  | none => p.ask text
  | some (.fail e, rules) => ({ result := .error e }, false, { p with rules })
  | some (.vector v, rules) => ({ result := .ok v }, false, { p with rules })
  | some (.sleep ms, rules) =>
    let (reply, cancels, p) := { p with rules }.ask text
    ({ reply with delay := reply.delay + ms }, cancels, p)
  | some (.cancel, rules) =>
    let (reply, _, p) := { p with rules }.ask text
    (reply, true, p)

/-- Follow other rules. -/
def withRules (rules : List ProviderRule) (p : Provider) : Provider := { p with rules }

/-- Why a service cannot be asked: it needs a key. -/
def keyError : EmbeddingError :=
  .permanent ("no API key configured (set embedding.api_key or " ++ apiKeyVariable ++ ")")

/-- The service of some settings. -/
def ofSettings (s : EmbeddingSettings) (environmentKey : Option String) : Except EmbeddingError Provider :=
  match s.resolveApiKey environmentKey with
  | some _ => .ok (.offline s.dimensions)
  | none => .error keyError

end Provider

end RepoAtlas
