import RepoAtlas.Digest.Fingerprint
import RepoAtlas.Engine.World
import RepoAtlas.Scan.Changes

/-!
# Storing the contents of a file

A file is read, its units are extracted and embedded, and one batch replaces what the graph held of it.
A unit whose embedding failed is stored without a chunk, and the failure is reported with the file.
-/

namespace RepoAtlas

/-- The word for a unit in the text that is embedded for it. -/
def UnitKind.label : UnitKind → String
  | .classUnit => "Class"
  | .function => "Function"
  | .method => "Method"

/-- The text that is embedded for a unit: where it stands, and its source. -/
def CodeUnit.chunkText (u : CodeUnit) : String :=
  let place := ["File " ++ u.path] ++ (u.enclosingClass.map ("Class " ++ ·)).toList ++
    [u.kind.label ++ " " ++ u.name]
  "Context: " ++ Text.join " > " place ++ "\n\n" ++ u.source

/-- A set of names or paths. -/
abbrev NameSet := Std.ExtTreeSet String

/-- The set of the members of a list. -/
def NameSet.ofList (l : List String) : NameSet := l.foldl (·.insert ·) ∅

/-- The members of both sets. -/
def NameSet.join (a b : NameSet) : NameSet := b.toList.foldl (·.insert ·) a

/-- What was stored of a file. -/
structure IngestedFile where
  path : String
  /-- The fingerprint of the content that was stored. -/
  fingerprint : String
  units : Nat
  chunks : Nat
  /-- The import references as written. -/
  imports : List String
  /-- Whether the syntax was not understood completely. -/
  isPartial : Bool
  /-- The failure, if units are left without a chunk. -/
  embeddingFailure : Option FileFailure
  /-- The files that lost call edges into the file. -/
  orphanedCallers : NameSet
  /-- The names of the units before and after. -/
  unitNames : NameSet

/-- Whether the checkpoint of the file may advance. -/
def IngestedFile.isComplete (f : IngestedFile) : Bool := f.embeddingFailure.isNone

/-- What became of a file. -/
inductive FileOutcome where
  | ingested (f : IngestedFile)
  /-- Nothing was written. -/
  | failed (f : FileFailure)

namespace Ingest

/-- The chunk of a unit. -/
def chunkOf (now : Instant) (u : CodeUnit) (v : Embedding) : SemanticChunk where
  id := fingerprintParts [u.id, u.chunkText]
  unitId := u.id
  text := u.chunkText
  embedding := v
  createdAt := now

/-- The chunks of the units that were embedded. -/
def chunks (now : Instant) : List CodeUnit → List (Except EmbeddingError Embedding) → List SemanticChunk
  | u :: us, .ok v :: rs => chunkOf now u v :: chunks now us rs
  | _ :: us, .error _ :: rs => chunks now us rs
  | _, _ => []

/-- The units that were not embedded, with the reasons. -/
def missing : List CodeUnit → List (Except EmbeddingError Embedding) → List String
  | u :: us, .error e :: rs => (u.qualifiedName ++ ": " ++ e.message) :: missing us rs
  | _ :: us, .ok _ :: rs => missing us rs
  | _, _ => []

/-- The failure of a file of which units were not embedded. -/
def embeddingFailure? (path : String) (units : List CodeUnit)
    (results : List (Except EmbeddingError Embedding)) : Option FileFailure :=
  match missing units results with
  | [] => none
  | reasons => some
    { path
      stage := .embed
      reason := toString reasons.length ++ " of " ++ toString units.length ++
        " units missing a chunk (" ++ Text.join "; " reasons ++ ")" }

/-- The file node of an extraction. -/
def sourceFile (file : ScannedFile) (fingerprint : String) (x : Extraction) (now : Instant) : SourceFile where
  path := file.path
  language := file.language
  fingerprint := fingerprint
  syncedAt := now
  imports := x.imports.map (·.target)
  callees := (NameSet.ofList (x.calls.map (·.name))).toList

/-- The batch that replaces the contents of a file. -/
def contents (file : SourceFile) (units : List CodeUnit) (chunks : List SemanticChunk) : WriteBatch :=
  [.clearFile file.path, .upsertNode (.sourceFile file)] ++
    units.map (.upsertNode ∘ .codeUnit) ++ chunks.map (.upsertNode ∘ .semanticChunk)

/-- Store the units of an extraction. -/
def store (file : ScannedFile) (fingerprint : String) (x : Extraction) : Act FileOutcome := do
  let failed (reason : String) : FileOutcome := .failed ⟨file.path, .write, reason⟩
  let units := x.definitions.map (CodeUnit.ofDefinition file.path)
  match ← Act.query "units_in_file" (·.unitsInFile file.path) with
  | .error e => return failed e.message
  | .ok previous =>
    let results ← Act.embedAll (units.map CodeUnit.chunkText)
    let now ← Act.now
    let node := sourceFile file fingerprint x now
    let stored := chunks now units results
    match ← (Act.applyBatch (contents node units stored)).attempt with
    | .error e => return failed e.message
    | .ok summary =>
      return .ingested
        { path := file.path
          fingerprint
          units := units.length
          chunks := stored.length
          imports := node.imports
          isPartial := x.isPartial
          embeddingFailure := embeddingFailure? file.path units results
          orphanedCallers := summary.orphanedCallers
          unitNames := NameSet.ofList ((previous ++ units).map (·.name)) }

/-- Read a file, extract its units and store them. -/
def file (f : ScannedFile) : Act FileOutcome := do
  let w ← get
  match w.readFile f.path with
  | .error e => return .failed ⟨f.path, .read, e.message⟩
  | .ok content =>
    match w.registry.extract? (Text.lossy content) f.language with
    | none => return .failed ⟨f.path, .extract, Registry.unsupported f.language⟩
    | some x => store f (fingerprintBytes content) x

end Ingest

end RepoAtlas
