import RepoAtlas.Graph.Key

/-!
# Edges

Edges are directed and typed; each kind of edge connects nodes of two fixed kinds.
-/

namespace RepoAtlas

/-- The kinds of edges. -/
inductive EdgeKind where
  /-- A file contains a unit. -/
  | contains
  /-- A file imports a file. -/
  | imports
  /-- A unit calls a unit. -/
  | calls
  /-- A chunk describes a unit. -/
  | describes
  /-- A commit has a commit as parent. -/
  | parent
  /-- A commit was authored by an author. -/
  | authoredBy
  /-- A commit touches a file by a revision. -/
  | touches
  /-- A revision is a version of a file. -/
  | versionOf
deriving DecidableEq, Inhabited

namespace EdgeKind

/-- The name in documents. -/
def name : EdgeKind → String
  | .contains => "contains"
  | .imports => "imports"
  | .calls => "calls"
  | .describes => "describes"
  | .parent => "parent"
  | .authoredBy => "authored_by"
  | .touches => "touches"
  | .versionOf => "version_of"

/-- The name in messages. -/
def title : EdgeKind → String
  | .contains => "Contains"
  | .imports => "Imports"
  | .calls => "Calls"
  | .describes => "Describes"
  | .parent => "Parent"
  | .authoredBy => "AuthoredBy"
  | .touches => "Touches"
  | .versionOf => "VersionOf"

/-- The place in the order of kinds. -/
def rank : EdgeKind → String
  | .contains => "0"
  | .imports => "1"
  | .calls => "2"
  | .describes => "3"
  | .parent => "4"
  | .authoredBy => "5"
  | .touches => "6"
  | .versionOf => "7"

theorem rank_injective (a b : EdgeKind) (h : a.rank = b.rank) : a = b := by
  cases a <;> cases b <;> simp_all [rank]

def all : List EdgeKind :=
  [contains, imports, calls, describes, parent, authoredBy, touches, versionOf]

instance : ToJson EdgeKind := ⟨fun k => .str k.name⟩

instance : OfJson EdgeKind where
  ofJson? j := do
    let s ← j.text?
    all.find? (·.name == s)

/-- The kinds of the nodes that an edge connects. -/
def endpoints : EdgeKind → NodeType × NodeType
  | .contains => (.sourceFile, .codeUnit)
  | .imports => (.sourceFile, .sourceFile)
  | .calls => (.codeUnit, .codeUnit)
  | .describes => (.semanticChunk, .codeUnit)
  | .parent => (.commit, .commit)
  | .authoredBy => (.commit, .author)
  | .touches => (.commit, .fileRevision)
  | .versionOf => (.fileRevision, .sourceFile)

end EdgeKind

/-- One end of an edge as seen from the other: its kind, and the node over there. -/
structure Link where
  kind : EdgeKind
  other : NodeKey
deriving DecidableEq, Inhabited

instance : Keyed Link where
  parts l := l.kind.rank :: Keyed.parts l.other
  parts_injective := by
    rintro ⟨a, b⟩ ⟨c, d⟩ h
    simp only [List.cons.injEq] at h
    rw [EdgeKind.rank_injective a c h.1, Keyed.parts_injective b d h.2]

/-- An edge. -/
structure GraphEdge where
  kind : EdgeKind
  source : NodeKey
  target : NodeKey
deriving DecidableEq, Inhabited

namespace GraphEdge

/-- Whether an edge comes before another: by kind, then source, then target. -/
def compare (a b : GraphEdge) : Ordering :=
  (Ord.compare a.kind.rank b.kind.rank).then
    ((Ord.compare a.source b.source).then (Ord.compare a.target b.target))

/-- Why an edge cannot be: its kind connects other kinds of nodes. -/
def flaw? (e : GraphEdge) : Option String :=
  if (e.source.type, e.target.type) = e.kind.endpoints then none
  else some (e.kind.title ++ " edge cannot connect " ++ e.source.text ++ " to " ++ e.target.text)

instance : ToJson GraphEdge where
  toJson e := .obj [("kind", toJson e.kind), ("source", toJson e.source), ("target", toJson e.target)]

instance : OfJson GraphEdge where
  ofJson? j := do
    return ⟨← j.get? EdgeKind "kind", ← j.get? NodeKey "source", ← j.get? NodeKey "target"⟩

end GraphEdge

end RepoAtlas
