import RepoAtlas.Extraction.Basic
import RepoAtlas.Graph.Key
import RepoAtlas.Graph.Vector
import RepoAtlas.Text.Lower
import RepoAtlas.Text.Split
import RepoAtlas.Time.Instant

/-!
# Nodes

The graph holds source files, the units in them and chunks of text that describe units; and commits,
authors, and what commits did to files.
-/

namespace RepoAtlas

/-- A file of the repository. -/
structure SourceFile where
  path : String
  language : String
  fingerprint : String
  syncedAt : Instant
  /-- Imports as written. -/
  imports : List String
  /-- The names that the file calls, each once. -/
  callees : List String
deriving DecidableEq, Inhabited

/-- A class, function or method of a file. -/
structure CodeUnit where
  id : String
  path : String
  name : String
  qualifiedName : String
  kind : UnitKind
  enclosingClass : Option String
  source : String
  docstring : Option String
  signature : Option String
  parameters : Option String
  span : Span
deriving DecidableEq, Inhabited

namespace CodeUnit

/-- The id of the unit with a qualified name in a file. -/
def identity (path qualifiedName : String) : String := path ++ ":" ++ qualifiedName

/-- The unit that a definition of a file is. -/
def ofDefinition (path : String) (d : Definition) : CodeUnit :=
  { id := identity path d.qualifiedName
    path
    name := d.name
    qualifiedName := d.qualifiedName
    kind := d.kind
    enclosingClass := d.enclosingClass
    source := d.source
    docstring := d.docstring
    signature := d.signature
    parameters := d.parameters
    span := d.span }

end CodeUnit

/-- A text that describes a unit, with its embedding. -/
structure SemanticChunk where
  id : String
  unitId : String
  text : String
  embedding : Embedding
  createdAt : Instant
deriving Inhabited

/-- Equality of chunks. -/
def SemanticChunk.same (a b : SemanticChunk) : Bool :=
  a.id == b.id && a.unitId == b.unitId && a.text == b.text && a.embedding.same b.embedding &&
    a.createdAt == b.createdAt

/-- A recorded commit. -/
structure Commit where
  repo : String
  revision : String
  parents : List String
  authorEmail : String
  authoredAt : Instant
  committedAt : Instant
  subject : String
  body : String
deriving DecidableEq, Inhabited

/-- A merge has more than one parent. -/
def Commit.isMerge (c : Commit) : Bool := 1 < c.parents.length

def Commit.id (c : Commit) : CommitId := ⟨c.repo, c.revision⟩

/-- An author, known by email, with the latest name. -/
structure Author where
  repo : String
  email : String
  name : String
deriving DecidableEq, Inhabited

def Author.id (a : Author) : AuthorId := ⟨a.repo, a.email⟩

/-- What a commit does to a file. -/
inductive ChangeKind where
  | added
  | modified
  | deleted
  | renamed
deriving DecidableEq, Inhabited

namespace ChangeKind

def name : ChangeKind → String
  | .added => "added"
  | .modified => "modified"
  | .deleted => "deleted"
  | .renamed => "renamed"

instance : ToJson ChangeKind := ⟨fun k => .str k.name⟩

instance : OfJson ChangeKind where
  ofJson? j := do
    let s ← j.text?
    [added, modified, deleted, renamed].find? (·.name == s)

end ChangeKind

/-- How one commit changed one path. -/
structure FileRevision where
  repo : String
  revision : String
  path : String
  change : ChangeKind
  previousPath : Option String
  additions : Nat
  deletions : Nat
deriving DecidableEq, Inhabited

def FileRevision.id (r : FileRevision) : RevisionId := ⟨r.repo, r.revision, r.path⟩

/-- The form of an email by which authors are known. -/
def normalizeEmail (email : String) : String := Text.lower (Text.trim email)

/-- A node of the graph. -/
inductive GraphNode where
  | sourceFile (f : SourceFile)
  | codeUnit (u : CodeUnit)
  | semanticChunk (c : SemanticChunk)
  | commit (c : Commit)
  | author (a : Author)
  | fileRevision (r : FileRevision)
deriving Inhabited

namespace GraphNode

/-- The identity of a node. -/
def key : GraphNode → NodeKey
  | .sourceFile f => .file f.path
  | .codeUnit u => .unit u.id
  | .semanticChunk c => .chunk c.id
  | .commit c => .commit c.id
  | .author a => .author a.id
  | .fileRevision r => .revision r.id

/-- The first flaw of several. -/
def firstFlaw (l : List (Option String)) : Option String := l.findSome? id

/-- A field that must not be blank. -/
def blankFlaw? (field value : String) : Option String :=
  if Text.isBlankText value then some (field ++ " must not be empty") else none

/-- A path must lead from the root of the repository, with slashes. -/
def pathFlaw? (path : String) : Option String :=
  firstFlaw [blankFlaw? "path" path,
    if Text.startsWith path "/" || path.toList.contains '\\' then
      some ("path must be repository-relative: " ++ path)
    else none]

/-- What is wrong with a node, whatever the graph holds. -/
def flaw? : GraphNode → Option String
  | .sourceFile f => firstFlaw [pathFlaw? f.path, blankFlaw? "fingerprint" f.fingerprint]
  | .codeUnit u =>
    let expected := CodeUnit.identity u.path u.qualifiedName
    firstFlaw [pathFlaw? u.path, blankFlaw? "name" u.name,
      if u.id != expected then some ("unit id " ++ u.id ++ " should be " ++ expected) else none]
  | .semanticChunk c =>
    firstFlaw [blankFlaw? "chunk id" c.id, blankFlaw? "unit id" c.unitId,
      if c.embedding.isEmpty then some ("chunk " ++ c.id ++ " has an empty embedding") else none,
      if c.embedding.any (!Single.finite ·) then some ("chunk " ++ c.id ++ " has non-finite values")
      else none]
  | .commit c =>
    firstFlaw [blankFlaw? "repo id" c.repo, blankFlaw? "revision" c.revision,
      blankFlaw? "author email" c.authorEmail]
  | .author a =>
    firstFlaw [blankFlaw? "repo id" a.repo, blankFlaw? "email" a.email,
      if a.email != normalizeEmail a.email then some ("author email " ++ a.email ++ " is not normalized")
      else none]
  | .fileRevision r =>
    firstFlaw [blankFlaw? "repo id" r.repo, blankFlaw? "revision" r.revision, pathFlaw? r.path]

end GraphNode

/-! ### JSON -/

instance : ToJson SourceFile where
  toJson f := .obj [("path", toJson f.path), ("language", toJson f.language),
    ("fingerprint", toJson f.fingerprint), ("synced_at", toJson f.syncedAt),
    ("imports", toJson f.imports), ("callees", toJson f.callees)]

instance : OfJson SourceFile where
  ofJson? j := do
    return {
      path := ← j.get? String "path"
      language := ← j.get? String "language"
      fingerprint := ← j.get? String "fingerprint"
      syncedAt := ← j.get? Instant "synced_at"
      imports := ← j.get? (List String) "imports"
      callees := ← j.get? (List String) "callees" }

instance : ToJson CodeUnit where
  toJson u := .obj [("id", toJson u.id), ("path", toJson u.path), ("name", toJson u.name),
    ("qualified_name", toJson u.qualifiedName), ("kind", toJson u.kind),
    ("enclosing_class", toJson u.enclosingClass), ("source", toJson u.source),
    ("docstring", toJson u.docstring), ("signature", toJson u.signature),
    ("parameters", toJson u.parameters), ("span", toJson u.span)]

instance : OfJson CodeUnit where
  ofJson? j := do
    return {
      id := ← j.get? String "id"
      path := ← j.get? String "path"
      name := ← j.get? String "name"
      qualifiedName := ← j.get? String "qualified_name"
      kind := ← j.get? UnitKind "kind"
      enclosingClass := ← j.opt? String "enclosing_class"
      source := ← j.get? String "source"
      docstring := ← j.opt? String "docstring"
      signature := ← j.opt? String "signature"
      parameters := ← j.opt? String "parameters"
      span := ← j.get? Span "span" }

/-- The members of a chunk. -/
def SemanticChunk.fields (c : SemanticChunk) : List (String × Json) :=
  [("id", toJson c.id), ("unit_id", toJson c.unitId), ("text", toJson c.text),
    ("embedding", toJson c.embedding), ("created_at", toJson c.createdAt)]

instance : ToJson SemanticChunk := ⟨fun c => .obj c.fields⟩

instance : OfJson SemanticChunk where
  ofJson? j := do
    return {
      id := ← j.get? String "id"
      unitId := ← j.get? String "unit_id"
      text := ← j.get? String "text"
      embedding := ← j.get? (List Float32) "embedding"
      createdAt := ← j.get? Instant "created_at" }

instance : ToJson Commit where
  toJson c := .obj [("repo_id", toJson c.repo), ("revision", toJson c.revision),
    ("parents", toJson c.parents), ("author_email", toJson c.authorEmail),
    ("authored_at", toJson c.authoredAt), ("committed_at", toJson c.committedAt),
    ("subject", toJson c.subject), ("body", toJson c.body)]

instance : OfJson Commit where
  ofJson? j := do
    return {
      repo := ← j.get? String "repo_id"
      revision := ← j.get? String "revision"
      parents := ← j.get? (List String) "parents"
      authorEmail := ← j.get? String "author_email"
      authoredAt := ← j.get? Instant "authored_at"
      committedAt := ← j.get? Instant "committed_at"
      subject := ← j.get? String "subject"
      body := ← j.get? String "body" }

instance : ToJson Author where
  toJson a := .obj [("repo_id", toJson a.repo), ("email", toJson a.email), ("name", toJson a.name)]

instance : OfJson Author where
  ofJson? j := do
    return ⟨← j.get? String "repo_id", ← j.get? String "email", ← j.get? String "name"⟩

instance : ToJson FileRevision where
  toJson r := .obj [("repo_id", toJson r.repo), ("revision", toJson r.revision),
    ("path", toJson r.path), ("change", toJson r.change), ("previous_path", toJson r.previousPath),
    ("additions", toJson r.additions), ("deletions", toJson r.deletions)]

instance : OfJson FileRevision where
  ofJson? j := do
    return {
      repo := ← j.get? String "repo_id"
      revision := ← j.get? String "revision"
      path := ← j.get? String "path"
      change := ← j.get? ChangeKind "change"
      previousPath := ← j.opt? String "previous_path"
      additions := ← (← j.member? "additions").word32?
      deletions := ← (← j.member? "deletions").word32? }

namespace GraphNode

/-- A document with a member that names its type. -/
def tagged (tag : String) (j : Json) : Json := .obj (("type", .str tag) :: j.fields?.getD [])

instance : ToJson GraphNode where
  toJson
    | .sourceFile f => tagged "source_file" (toJson f)
    | .codeUnit u => tagged "code_unit" (toJson u)
    | .semanticChunk c => tagged "semantic_chunk" (toJson c)
    | .commit c => tagged "commit" (toJson c)
    | .author a => tagged "author" (toJson a)
    | .fileRevision r => tagged "file_revision" (toJson r)

instance : OfJson GraphNode where
  ofJson? j := do
    match ← j.get? String "type" with
    | "source_file" => .sourceFile <$> ofJson? j
    | "code_unit" => .codeUnit <$> ofJson? j
    | "semantic_chunk" => .semanticChunk <$> ofJson? j
    | "commit" => .commit <$> ofJson? j
    | "author" => .author <$> ofJson? j
    | "file_revision" => .fileRevision <$> ofJson? j
    | _ => none

end GraphNode

end RepoAtlas
