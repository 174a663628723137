import RepoAtlas.Engine.Ingest

/-!
# What a run did
-/

namespace RepoAtlas

/-- What a run over files did. -/
structure SyncReport where
  filesScanned : Nat := 0
  filesNew : Nat := 0
  filesChanged : Nat := 0
  filesDeleted : Nat := 0
  filesUnchanged : Nat := 0
  unitsWritten : Nat := 0
  chunksEmbedded : Nat := 0
  importEdgesWritten : Nat := 0
  callEdgesWritten : Nat := 0
  unresolvedImports : Nat := 0
  unresolvedCalls : Nat := 0
  failures : List FileFailure := []
  /-- The files that were stored though their syntax was not understood completely. -/
  parseWarnings : List String := []
  cancelled : Bool := false
  usage : EmbeddingUsage := {}
  pricePerMillion : Float := 0

namespace SyncReport

def hasFailures (r : SyncReport) : Bool := !r.failures.isEmpty

/-- Add a failure. -/
def fail (r : SyncReport) (f : FileFailure) : SyncReport := { r with failures := r.failures ++ [f] }

/-- Count a file that was stored. -/
def addIngested (r : SyncReport) (f : IngestedFile) : SyncReport :=
  { r with
    unitsWritten := r.unitsWritten + f.units
    chunksEmbedded := r.chunksEmbedded + f.chunks
    parseWarnings := r.parseWarnings ++ (if f.isPartial then [f.path] else [])
    failures := r.failures ++ f.embeddingFailure.toList }

instance : ToJson SyncReport where
  toJson r := .obj [
    ("files_scanned", toJson r.filesScanned), ("files_new", toJson r.filesNew),
    ("files_changed", toJson r.filesChanged), ("files_deleted", toJson r.filesDeleted),
    ("files_unchanged", toJson r.filesUnchanged), ("units_written", toJson r.unitsWritten),
    ("chunks_embedded", toJson r.chunksEmbedded), ("embedding_calls", toJson r.usage.calls),
    ("import_edges_written", toJson r.importEdgesWritten),
    ("call_edges_written", toJson r.callEdgesWritten),
    ("unresolved_imports", toJson r.unresolvedImports),
    ("unresolved_calls", toJson r.unresolvedCalls), ("failures", toJson r.failures),
    ("parse_warnings", toJson r.parseWarnings), ("cancelled", toJson r.cancelled),
    ("embedding_usage", r.usage.report r.pricePerMillion)]

end SyncReport

end RepoAtlas
