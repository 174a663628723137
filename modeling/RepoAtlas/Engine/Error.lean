import RepoAtlas.Checkpoint
import RepoAtlas.Embedding.Policy
import RepoAtlas.Extraction.Registry
import RepoAtlas.Graph.Store

/-!
# What can go wrong with a run or a query
-/

namespace RepoAtlas

/-- Why a run or a query failed. -/
inductive SyncError where
  /-- Something outside kept failing after all retries. -/
  | transientExternal (reason : String)
  /-- The recorded history does not lead to the current revision. -/
  | historyDivergence (recorded head : String)
  | store (e : StoreError)
  | checkpoint (e : CheckpointError)
  | embedding (e : EmbeddingError)
  | unsupportedLanguage (language : String)
  | vcs (reason : String)
  | io (e : FileError)
  | settings (e : SettingsError)
  /-- A number is too large for its kind. -/
  | overflow

namespace SyncError

/-- The wording of an error. -/
def message : SyncError → String
  | .transientExternal reason => "External dependency unavailable: " ++ reason
  | .historyDivergence recorded head =>
    "History diverged: checkpoint " ++ recorded ++ " is not an ancestor of " ++ head
  | .store e => "Graph store error: " ++ e.message
  | .checkpoint e => "Checkpoint error: " ++ e.message
  | .embedding e => "Embedding error: " ++ e.message
  | .unsupportedLanguage language => "Extraction error: " ++ Registry.unsupported language
  | .vcs reason => "Version control error: " ++ reason
  | .io e => "IO error: " ++ e.message
  | .settings e => "Configuration error: " ++ e.message
  | .overflow => "arithmetic overflow"

/-- Whether the whole operation may succeed later. -/
def isTransient : SyncError → Bool
  | .transientExternal _ | .io _ => true
  | .store e => e.isTransient
  | .embedding e =>
    match e with
    | .permanent _ => false
    | _ => true
  | _ => false

end SyncError

end RepoAtlas
