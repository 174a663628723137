import RepoAtlas.Json.Basic
import RepoAtlas.Paths
import RepoAtlas.Time.Duration

/-!
# Settings

What a user can choose, in sections, with defaults for all of it.
-/

namespace RepoAtlas

/-- The directory of a repository that holds its graph, checkpoints and settings. -/
def dataDirectory : String := ".codemem"

/-- The name of the settings file in the data directory. -/
def settingsFile : String := "config.toml"

/-- The environment variable that is asked for the key of the embedding provider. -/
def apiKeyVariable : String := "OPENAI_API_KEY"

/-- Where the graph and the checkpoints are kept. -/
structure GraphSettings where
  dataDir : String := dataDirectory
  persist : Bool := true

/-- How texts are embedded. -/
structure EmbeddingSettings where
  provider : String := "openai"
  model : String := "text-embedding-3-large"
  dimensions : Nat := 3072
  apiKey : Option String := none
  baseUrl : String := "https://api.openai.com/v1/embeddings"
  timeoutSecs : Nat := 30
  maxRetries : Nat := 3
  backoffMs : Nat := 1000
  maxConcurrency : Nat := 8
  maxChars : Nat := 24000
  pricePerMillionTokens : Float := 0.13
  breakerThreshold : Nat := 5
  breakerCooldownSecs : Nat := 30

/-- Which files belong in the graph. -/
structure IndexingSettings where
  extensions : List String := ["py", "js", "jsx", "ts", "tsx", "rs", "go"]
  ignoreDirs : List String :=
    ["node_modules", "__pycache__", ".git", "dist", "build", ".venv", "venv", ".pytest_cache",
      ".mypy_cache", "target", "vendor", "bin", "obj", dataDirectory]
  ignorePatterns : List String := []
  respectGitignore : Bool := true
  workerLimit : Nat := 4

/-- How file events are collected. -/
structure WatchSettings where
  debounceMs : Nat := 1000

/-- Whether the history of commits is recorded. -/
structure HistorySettings where
  enabled : Bool := false

/-- The weights of the signals of a hybrid ranking. -/
structure HybridWeights where
  semantic : Float := 0.65
  structural : Float := 0.20
  recency : Float := 0.15

/-- Defaults of queries. -/
structure RetrievalSettings where
  defaultLimit : Nat := 5
  defaultMaxDepth : Nat := 3
  hybrid : HybridWeights := {}
  churnWindowDays : Nat := 90

/-- All settings. -/
structure Settings where
  graph : GraphSettings := {}
  embedding : EmbeddingSettings := {}
  indexing : IndexingSettings := {}
  watch : WatchSettings := {}
  history : HistorySettings := {}
  retrieval : RetrievalSettings := {}

/-! ### JSON -/

/-- Only objects are read as sections. -/
def Json.section? (j : Json) : Option Json := j.fields?.map fun _ => j

instance : ToJson GraphSettings where
  toJson s := .obj [("data_dir", toJson s.dataDir), ("persist", toJson s.persist)]

instance : OfJson GraphSettings where
  ofJson? j := do
    let j ← j.section?
    let d : GraphSettings := {}
    return ⟨← j.getD? String "data_dir" d.dataDir, ← j.getD? Bool "persist" d.persist⟩

/-- A member in the range of a 32-bit word that takes a default when it is missing. -/
def Json.word32D? (j : Json) (name : String) (default : Nat) : Option Nat :=
  match j.member? name with
  | none => some default
  | some v => v.word32?

instance : ToJson EmbeddingSettings where
  toJson s := .obj [("provider", toJson s.provider), ("model", toJson s.model),
    ("dimensions", toJson s.dimensions), ("api_key", toJson s.apiKey), ("base_url", toJson s.baseUrl),
    ("timeout_secs", toJson s.timeoutSecs), ("max_retries", toJson s.maxRetries),
    ("backoff_ms", toJson s.backoffMs), ("max_concurrency", toJson s.maxConcurrency),
    ("max_chars", toJson s.maxChars), ("price_per_million_tokens", .float s.pricePerMillionTokens),
    ("breaker_threshold", toJson s.breakerThreshold),
    ("breaker_cooldown_secs", toJson s.breakerCooldownSecs)]

instance : OfJson EmbeddingSettings where
  ofJson? j := do
    let j ← j.section?
    let d : EmbeddingSettings := {}
    return {
      provider := ← j.getD? String "provider" d.provider
      model := ← j.getD? String "model" d.model
      dimensions := ← j.getD? Nat "dimensions" d.dimensions
      apiKey := ← j.opt? String "api_key"
      baseUrl := ← j.getD? String "base_url" d.baseUrl
      timeoutSecs := ← j.getD? Nat "timeout_secs" d.timeoutSecs
      maxRetries := ← j.word32D? "max_retries" d.maxRetries
      backoffMs := ← j.getD? Nat "backoff_ms" d.backoffMs
      maxConcurrency := ← j.getD? Nat "max_concurrency" d.maxConcurrency
      maxChars := ← j.getD? Nat "max_chars" d.maxChars
      pricePerMillionTokens := ← j.getD? Float "price_per_million_tokens" d.pricePerMillionTokens
      breakerThreshold := ← j.word32D? "breaker_threshold" d.breakerThreshold
      breakerCooldownSecs := ← j.getD? Nat "breaker_cooldown_secs" d.breakerCooldownSecs }

instance : ToJson IndexingSettings where
  toJson s := .obj [("extensions", toJson s.extensions), ("ignore_dirs", toJson s.ignoreDirs),
    ("ignore_patterns", toJson s.ignorePatterns), ("respect_gitignore", toJson s.respectGitignore),
    ("worker_limit", toJson s.workerLimit)]

instance : OfJson IndexingSettings where
  ofJson? j := do
    let j ← j.section?
    let d : IndexingSettings := {}
    return {
      extensions := ← j.getD? (List String) "extensions" d.extensions
      ignoreDirs := ← j.getD? (List String) "ignore_dirs" d.ignoreDirs
      ignorePatterns := ← j.getD? (List String) "ignore_patterns" d.ignorePatterns
      respectGitignore := ← j.getD? Bool "respect_gitignore" d.respectGitignore
      workerLimit := ← j.getD? Nat "worker_limit" d.workerLimit }

instance : ToJson WatchSettings where
  toJson s := .obj [("debounce_ms", toJson s.debounceMs)]

instance : OfJson WatchSettings where
  ofJson? j := do return ⟨← (← j.section?).getD? Nat "debounce_ms" 1000⟩

instance : ToJson HistorySettings where
  toJson s := .obj [("enabled", toJson s.enabled)]

instance : OfJson HistorySettings where
  ofJson? j := do return ⟨← (← j.section?).getD? Bool "enabled" false⟩

instance : ToJson HybridWeights where
  toJson s := .obj [("semantic", toJson s.semantic), ("structural", toJson s.structural),
    ("recency", toJson s.recency)]

instance : OfJson HybridWeights where
  ofJson? j := do
    let j ← j.section?
    let d : HybridWeights := {}
    return ⟨← j.getD? Float "semantic" d.semantic, ← j.getD? Float "structural" d.structural,
      ← j.getD? Float "recency" d.recency⟩

instance : ToJson RetrievalSettings where
  toJson s := .obj [("default_limit", toJson s.defaultLimit),
    ("default_max_depth", toJson s.defaultMaxDepth), ("hybrid", toJson s.hybrid),
    ("churn_window_days", toJson s.churnWindowDays)]

instance : OfJson RetrievalSettings where
  ofJson? j := do
    let j ← j.section?
    let d : RetrievalSettings := {}
    return ⟨← j.getD? Nat "default_limit" d.defaultLimit,
      ← j.getD? Nat "default_max_depth" d.defaultMaxDepth,
      ← j.getD? HybridWeights "hybrid" d.hybrid,
      ← j.word32D? "churn_window_days" d.churnWindowDays⟩

instance : ToJson Settings where
  toJson s := .obj [("graph", toJson s.graph), ("embedding", toJson s.embedding),
    ("indexing", toJson s.indexing), ("watch", toJson s.watch), ("history", toJson s.history),
    ("retrieval", toJson s.retrieval)]

instance : OfJson Settings where
  ofJson? j := do
    let j ← j.section?
    return ⟨← j.getD? GraphSettings "graph" {}, ← j.getD? EmbeddingSettings "embedding" {},
      ← j.getD? IndexingSettings "indexing" {}, ← j.getD? WatchSettings "watch" {},
      ← j.getD? HistorySettings "history" {}, ← j.getD? RetrievalSettings "retrieval" {}⟩

/-! ### Validity -/

/-- Why settings cannot be used. -/
inductive SettingsError where
  /-- A file or an environment variable does not fit the settings. -/
  | load
  | invalid (reason : String)
  /-- An ignore pattern is malformed. -/
  | ignorePattern
  | io (reason : String)
  /-- A number is too large for a file. -/
  | serialize

/-- The wording of an error. -/
def SettingsError.message : SettingsError → String
  | .load => "Failed to load configuration"
  | .invalid reason => "Invalid configuration: " ++ reason
  | .ignorePattern => "Invalid configuration: ignore pattern"
  | .io reason => "IO error: " ++ reason
  | .serialize => "Failed to serialize configuration"

namespace HybridWeights

/-- Why weights cannot be used: each must be finite and not negative, and their sum positive. -/
def flaw? (w : HybridWeights) : Option String :=
  let all := [w.semantic, w.structural, w.recency]
  if all.any fun x => !x.isFinite || x < 0 then
    some "retrieval.hybrid weights must be finite and non-negative"
  else if all.foldl (· + ·) (-0.0) ≤ 0 then
    some "retrieval.hybrid weights must not all be zero"
  else none

end HybridWeights

namespace Settings

/-- Why settings cannot be used; the first reason counts. -/
def flaw? (s : Settings) : Option String :=
  if s.embedding.dimensions == 0 then some "embedding.dimensions must be > 0"
  else if s.embedding.breakerThreshold == 0 then some "embedding.breaker_threshold must be > 0"
  else if s.embedding.maxConcurrency == 0 then some "embedding.max_concurrency must be > 0"
  else if s.indexing.workerLimit == 0 then some "indexing.worker_limit must be > 0"
  else if s.indexing.extensions.isEmpty then some "indexing.extensions must not be empty"
  else s.retrieval.hybrid.flaw?

/-- Settings that can be used, or the reason why not. -/
def validate (s : Settings) : Except SettingsError Unit :=
  match s.flaw? with
  | some reason => .error (.invalid reason)
  | none => .ok ()

/-- The data directory of a repository; a tilde at the start stands for the home directory. -/
def dataDir (s : Settings) (home root : String) : String :=
  let dir := s.graph.dataDir
  let dir :=
    match Text.stripStart? dir "~" with
    | some rest => if rest.isEmpty || Text.startsWith rest "/" then home ++ rest else dir
    | none => dir
  Paths.join root dir

end Settings

namespace EmbeddingSettings

/-- The chosen key, else the one of the environment; blank keys do not count. -/
def resolveApiKey (s : EmbeddingSettings) (environment : Option String) : Option String :=
  (s.apiKey.filter (!Text.isBlankText ·)).or environment |>.filter (!Text.isBlankText ·)

end EmbeddingSettings

/-- The nearest directory at or above `start` that has a data directory, else one that has `.git`,
else `start` itself. -/
def repositoryRoot (isDirectory : String → Bool) (start : String) : String :=
  let marked (marker : String) : Option String :=
    (Paths.ancestors start).find? fun dir => isDirectory (Paths.join dir marker)
  (marked dataDirectory).or (marked ".git") |>.getD start

end RepoAtlas
