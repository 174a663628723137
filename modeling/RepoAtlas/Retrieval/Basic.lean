import RepoAtlas.Engine.World
import RepoAtlas.Retrieval.Hybrid
import RepoAtlas.Retrieval.Impact
import RepoAtlas.Text.Blank

/-!
# Queries

Searches by meaning, dependencies between files, and history. A question about a file or a commit that
the graph does not have gets no answer, which is not a failure.
-/

namespace RepoAtlas

/-- The import edges of a file in both directions. -/
structure Dependencies where
  path : String
  imports : List String
  importedBy : List String

instance : ToJson Dependencies where
  toJson d := .obj [("path", toJson d.path), ("imports", toJson d.imports),
    ("imported_by", toJson d.importedBy)]

/-- The files that depend on a file. -/
structure ImpactReport where
  path : String
  maxDepth : Nat
  affected : List ImpactEntry

instance : ToJson ImpactReport where
  toJson r := .obj [("path", toJson r.path), ("max_depth", toJson r.maxDepth),
    ("affected", toJson r.affected)]

/-- What is told of a commit in the history of a file. -/
def HistoryEntry.summary (e : HistoryEntry) : Json :=
  .obj [("revision", toJson e.commit.revision), ("committed_at", toJson e.commit.committedAt),
    ("author_email", toJson e.commit.authorEmail), ("subject", toJson e.commit.subject),
    ("change", toJson e.revision.change), ("previous_path", toJson e.revision.previousPath),
    ("additions", toJson e.revision.additions), ("deletions", toJson e.revision.deletions)]

/-- A commit with its author and the files that it touched. -/
structure CommitContext where
  commit : Commit
  author : Option Author
  files : List FileRevision

instance : ToJson CommitContext where
  toJson c := .obj [("commit", toJson c.commit), ("author", toJson c.author), ("files", toJson c.files)]

/-- What is told of a unit of a file. -/
def CodeUnit.summary (u : CodeUnit) : Json :=
  .obj [("id", toJson u.id), ("qualified_name", toJson u.qualifiedName),
    ("line_start", toJson u.span.lineStart), ("line_end", toJson u.span.lineEnd),
    ("signature", toJson u.signature)]

/-- A file with its units and its import edges. -/
structure FileInfo where
  file : SourceFile
  dependencies : Dependencies
  units : List CodeUnit

/-- The units of a kind, in the order of the file. -/
def FileInfo.unitsOf (i : FileInfo) (k : UnitKind) : List CodeUnit := i.units.filter (·.kind == k)

instance : ToJson FileInfo where
  toJson i :=
    let group (k : UnitKind) : Json := .arr ((i.unitsOf k).map CodeUnit.summary)
    .obj [("path", toJson i.file.path), ("language", toJson i.file.language),
      ("fingerprint", toJson i.file.fingerprint), ("synced_at", toJson i.file.syncedAt),
      ("classes", group .classUnit), ("functions", group .function), ("methods", group .method),
      ("imports", toJson i.dependencies.imports), ("imported_by", toJson i.dependencies.importedBy)]

/-- The seconds of a window of time; `none` if its milliseconds need more than 64 bits. -/
def windowSeconds? (n : Int) : Option Int :=
  if n.natAbs ≤ Int64.maxValue.toInt.toNat / 1000 then some n else none

/-- The seconds of a window of days. -/
def windowDays? (n : Int) : Option Int := windowSeconds? (n * 86400)

/-- The moment some seconds before another; `none` outside of the calendar. -/
def Instant.before? (t : Instant) (seconds : Int) : Option Instant :=
  let earlier : Instant := ⟨t.seconds - seconds, t.nanos⟩
  if earlier.inRange then some earlier else none

namespace Retrieval

/-- The nearest chunks to a vector. -/
def searchVector (vector : Embedding) (limit : Nat) : Act (List SearchHit) := do
  return (← Act.nearestChunks vector limit).map SearchHit.ofMatch

/-- The nearest chunks to a text. A blank text finds nothing. -/
def search (text : String) (limit : Nat) : Act (List SearchHit) := do
  if limit == 0 || (Text.trim text).isEmpty then return []
  else searchVector (← Act.embed text) limit

/-- The import edges of a file. -/
def dependencies (path : String) : Act (Option Dependencies) := do
  if !(← Act.contains (.file path)) then return none
  let imports ← Act.neighbors (.file path) .imports .outgoing
  let importedBy ← Act.neighbors (.file path) .imports .incoming
  return some ⟨path, imports.filterMap NodeKey.file?, importedBy.filterMap NodeKey.file?⟩

/-- A file with its units and its import edges. -/
def fileInfo (path : String) : Act (Option FileInfo) := do
  match ← Act.node (.file path) with
  | some (.sourceFile file) =>
    match ← dependencies path with
    | none => return none
    | some d => return some ⟨file, d, ← Act.unitsInFile path⟩
  | _ => return none

/-- The files that import a file. -/
def importers (path : String) : Act (List String) := do
  return (← Act.neighbors (.file path) .imports .incoming).filterMap NodeKey.file?

/-- The files that depend on a file over some steps, at least one. -/
def impact (path : String) (maxDepth : Nat) : Act (Option ImpactReport) := do
  if !(← Act.contains (.file path)) then return none
  let maxDepth := max maxDepth 1
  return some ⟨path, maxDepth, ← Impact.dependents importers path maxDepth⟩

/-- The importers of files, and their commits in a span of time. -/
def signals (since now : Instant) (s : FileSignals) : List String → Act FileSignals
  | [] => return s
  | path :: paths => do
    let importers ← Act.neighbors (.file path) .imports .incoming
    let history ← Act.fileHistory path (some since)
    let recent := history.countP fun e => decide (e.commit.committedAt ≤ now)
    signals since now
      { fanIn := s.fanIn.insert path importers.length, churn := s.churn.insert path recent } paths

/-- Rank hits by meaning, importers, and commits in a window that ends at a moment. -/
def rankAt (hits : List SearchHit) (window : Option Int) (now : Instant) : Act (List RankedHit) := do
  match window.bind now.before? with
  | none => throw .overflow
  | some since =>
    let paths : Std.ExtTreeSet String := hits.foldl (fun s h => s.insert h.path) ∅
    let s ← signals since now {} paths.toList
    return Hybrid.rank hits s (← get).settings.retrieval.hybrid

/-- Rank hits with a window of days that ends now; without days it is the one of the settings. -/
def rank (hits : List SearchHit) (days : Option Int) : Act (List RankedHit) := do
  let days : Int := days.getD (← get).settings.retrieval.churnWindowDays
  rankAt hits (windowDays? days) (← Act.now)

/-- The commits that touched a file, newest first; `none` for a file that neither the code nor the
history knows. -/
def fileHistory (path : String) (limit : Nat) : Act (Option (List HistoryEntry)) := do
  let entries ← Act.fileHistory path none
  let known ← if entries.isEmpty then Act.contains (.file path) else pure true
  if !known then return none
  let repo := (← get).root
  return some ((entries.filter (·.commit.repo == repo)).take limit)

/-- The last author among some nodes. -/
def lastAuthor (found : Option Author) : List NodeKey → Act (Option Author)
  | [] => return found
  | k :: ks => do
    match ← Act.node k with
    | some (.author a) => lastAuthor (some a) ks
    | _ => lastAuthor found ks

/-- The file revisions among some nodes. -/
def revisionsOf : List NodeKey → Act (List FileRevision)
  | [] => return []
  | k :: ks => do
    match ← Act.node k with
    | some (.fileRevision r) => return r :: (← revisionsOf ks)
    | _ => revisionsOf ks

/-- A commit with its author and the files that it touched, by path. -/
def commitContext (revision : String) : Act (Option CommitContext) := do
  let key : NodeKey := .commit ⟨(← get).root, revision⟩
  match ← Act.node key with
  | some (.commit commit) =>
    let author ← lastAuthor none (← Act.neighbors key .authoredBy .outgoing)
    let files ← revisionsOf (← Act.neighbors key .touches .outgoing)
    return some ⟨commit, author, files.mergeSort fun a b => (compare a.path b.path).isLE⟩
  | _ => return none

end Retrieval

end RepoAtlas
