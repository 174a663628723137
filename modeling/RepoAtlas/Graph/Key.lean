import Std.Data.ExtTreeMap
import Std.Data.ExtTreeSet
import RepoAtlas.Json.Basic

/-!
# Identities

Every node of the graph has a key that says what kind of thing it is and which one. Keys are ordered
by kind and then by their parts.
-/

namespace RepoAtlas

/-- Types whose values are told apart, and ordered, by a list of texts. -/
class Keyed (α : Type) where
  parts : α → List String
  parts_injective : ∀ a b, parts a = parts b → a = b

instance (priority := low) {α : Type} [Keyed α] : Ord α where
  compare a b := compare (Keyed.parts a) (Keyed.parts b)

theorem Keyed.compare_eq {α : Type} [Keyed α] (a b : α) :
    compare a b = compare (Keyed.parts a) (Keyed.parts b) := rfl

instance instTransOrdOfKeyed {α : Type} [Keyed α] : Std.TransOrd α where
  eq_swap {a b} := by
    rw [Keyed.compare_eq, Keyed.compare_eq]
    exact Std.OrientedCmp.eq_swap
  isLE_trans {a b c} h₁ h₂ := by
    rw [Keyed.compare_eq] at *
    exact Std.TransCmp.isLE_trans h₁ h₂

instance instLawfulEqOrdOfKeyed {α : Type} [Keyed α] : Std.LawfulEqOrd α where
  compare_self {a} := by rw [Keyed.compare_eq]; exact Std.ReflCmp.compare_self
  eq_of_compare {a b} h := by
    rw [Keyed.compare_eq] at h
    exact Keyed.parts_injective a b (Std.LawfulEqCmp.eq_of_compare h)

/-- A commit of a repository. -/
structure CommitId where
  repo : String
  revision : String
deriving DecidableEq, Inhabited

/-- An author of a repository. -/
structure AuthorId where
  repo : String
  email : String
deriving DecidableEq, Inhabited

/-- What a commit of a repository did to a path. -/
structure RevisionId where
  repo : String
  revision : String
  path : String
deriving DecidableEq, Inhabited

instance : Keyed CommitId where
  parts c := [c.repo, c.revision]
  parts_injective := by
    rintro ⟨a, b⟩ ⟨c, d⟩ h
    simp_all

instance : Keyed AuthorId where
  parts c := [c.repo, c.email]
  parts_injective := by
    rintro ⟨a, b⟩ ⟨c, d⟩ h
    simp_all

instance : Keyed RevisionId where
  parts c := [c.repo, c.revision, c.path]
  parts_injective := by
    rintro ⟨a, b, c⟩ ⟨d, e, f⟩ h
    simp_all

def RevisionId.commit (r : RevisionId) : CommitId := ⟨r.repo, r.revision⟩

/-- The kinds of nodes. -/
inductive NodeType where
  | sourceFile
  | codeUnit
  | semanticChunk
  | commit
  | author
  | fileRevision
deriving DecidableEq, Inhabited

def NodeType.name : NodeType → String
  | .sourceFile => "SourceFile"
  | .codeUnit => "CodeUnit"
  | .semanticChunk => "SemanticChunk"
  | .commit => "Commit"
  | .author => "Author"
  | .fileRevision => "FileRevision"

/-- The identity of a node. -/
inductive NodeKey where
  | file (path : String)
  | unit (id : String)
  | chunk (id : String)
  | commit (id : CommitId)
  | author (id : AuthorId)
  | revision (id : RevisionId)
deriving DecidableEq, Inhabited

namespace NodeKey

instance : Keyed NodeKey where
  parts
    | .file p => ["0", p]
    | .unit i => ["1", i]
    | .chunk i => ["2", i]
    | .commit c => ["3", c.repo, c.revision]
    | .author c => ["4", c.repo, c.email]
    | .revision c => ["5", c.repo, c.revision, c.path]
  parts_injective := by
    rintro (a | a | a | ⟨a, b⟩ | ⟨a, b⟩ | ⟨a, b, c⟩) (d | d | d | ⟨d, e⟩ | ⟨d, e⟩ | ⟨d, e, f⟩) h <;> simp_all

def type : NodeKey → NodeType
  | .file _ => .sourceFile
  | .unit _ => .codeUnit
  | .chunk _ => .semanticChunk
  | .commit _ => .commit
  | .author _ => .author
  | .revision _ => .fileRevision

/-- The path of a file. -/
def file? : NodeKey → Option String
  | .file p => some p
  | _ => none

/-- The id of a unit. -/
def unit? : NodeKey → Option String
  | .unit i => some i
  | _ => none

/-- The id of a chunk. -/
def chunk? : NodeKey → Option String
  | .chunk i => some i
  | _ => none

/-- The text of a key in messages. -/
def text : NodeKey → String
  | .file p => "file:" ++ p
  | .unit i => "unit:" ++ i
  | .chunk i => "chunk:" ++ i
  | .commit c => "commit:" ++ c.repo ++ "@" ++ c.revision
  | .author c => "author:" ++ c.repo ++ "/" ++ c.email
  | .revision c => "revision:" ++ c.repo ++ "@" ++ c.revision ++ ":" ++ c.path

instance : ToJson NodeKey where
  toJson
    | .file p => .obj [("file", toJson p)]
    | .unit i => .obj [("unit", toJson i)]
    | .chunk i => .obj [("chunk", toJson i)]
    | .commit c => .obj [("commit", .obj [("repo_id", toJson c.repo), ("revision", toJson c.revision)])]
    | .author c => .obj [("author", .obj [("repo_id", toJson c.repo), ("email", toJson c.email)])]
    | .revision c => .obj [("revision", .obj [("repo_id", toJson c.repo),
        ("revision", toJson c.revision), ("path", toJson c.path)])]

instance : OfJson NodeKey where
  ofJson?
    | .obj [(kind, v)] =>
      match kind with
      | "file" => return .file (← v.text?)
      | "unit" => return .unit (← v.text?)
      | "chunk" => return .chunk (← v.text?)
      | "commit" => return .commit ⟨← v.get? String "repo_id", ← v.get? String "revision"⟩
      | "author" => return .author ⟨← v.get? String "repo_id", ← v.get? String "email"⟩
      | "revision" =>
        return .revision ⟨← v.get? String "repo_id", ← v.get? String "revision", ← v.get? String "path"⟩
      | _ => none
    | _ => none

end NodeKey

end RepoAtlas
