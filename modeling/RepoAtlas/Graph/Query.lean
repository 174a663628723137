import RepoAtlas.Graph.Basic

/-!
# Questions to the graph
-/

namespace RepoAtlas

/-- A chunk near a vector, with the unit that it describes. -/
structure ChunkMatch where
  chunkId : String
  text : String
  score : Float32
  sequence : Nat
  unit : CodeUnit
deriving Inhabited

/-- A commit that touched a file, with what it did to it. -/
structure HistoryEntry where
  commit : Commit
  revision : FileRevision
deriving DecidableEq, Inhabited

instance : ToJson HistoryEntry where
  toJson e := .obj [("commit", toJson e.commit), ("revision", toJson e.revision)]

/-- Counts of nodes and edges, and the time of the latest file. -/
structure GraphStats where
  files : Nat
  units : Nat
  chunks : Nat
  commits : Nat
  authors : Nat
  fileRevisions : Nat
  edges : Nat
  lastFileSync : Option Instant
deriving DecidableEq, Inhabited

/-- The members of the statistics. -/
def GraphStats.fields (s : GraphStats) : List (String × Json) :=
  [("files", toJson s.files), ("units", toJson s.units), ("chunks", toJson s.chunks),
    ("commits", toJson s.commits), ("authors", toJson s.authors),
    ("file_revisions", toJson s.fileRevisions), ("edges", toJson s.edges),
    ("last_file_sync", toJson s.lastFileSync)]

instance : ToJson GraphStats := ⟨fun s => .obj s.fields⟩

namespace KnowledgeGraph

/-- The paths of all files, in order. -/
def filePaths (g : KnowledgeGraph) : List String := g.files.keys

/-- The units of a file, in the order of the source. -/
def unitsInFile (g : KnowledgeGraph) (path : String) : List CodeUnit :=
  ((entries g.unitsByFile path).filterMap (g.units[·]?)).mergeSort fun a b =>
    a.span.startByte ≤ b.span.startByte

/-- The units of a name, by path and place. -/
def unitsNamed (g : KnowledgeGraph) (name : String) : List CodeUnit :=
  ((entries g.unitsByName name).filterMap (g.units[·]?)).mergeSort fun a b =>
    a.path < b.path || (a.path == b.path && a.span.startByte ≤ b.span.startByte)

/-- The chunks nearest to a vector, at most `limit`; equal scores keep the order of insertion. -/
def nearest (g : KnowledgeGraph) (vector : Embedding) (limit : Nat) : List ChunkMatch :=
  let hits := g.chunks.values.filterMap fun stored => do
    let c := stored.chunk
    if c.embedding.length != vector.length then none
    else
      let unit ← g.units[c.unitId]?
      return { chunkId := c.id, text := c.text, score := vector.cosine c.embedding,
               sequence := stored.sequence, unit : ChunkMatch }
  let before (a b : ChunkMatch) : Bool :=
    let x := Single.order a.score
    let y := Single.order b.score
    y < x || (x == y && a.sequence ≤ b.sequence)
  (hits.mergeSort before).take limit

/-- The chunks nearest to a vector that is not empty. -/
def nearestChunks (g : KnowledgeGraph) (vector : Embedding) (limit : Nat) : List ChunkMatch :=
  if limit == 0 || vector.isEmpty then [] else g.nearest vector limit

/-- The commits that touched a path, newest first. -/
def history (g : KnowledgeGraph) (path : String) (since : Option Instant) : List HistoryEntry :=
  let all := (entries g.revisionsByPath path).filterMap fun id => do
    let revision ← g.revisions[id]?
    let commit ← g.commits[id.commit]?
    return { commit, revision : HistoryEntry }
  let recent := all.filter fun e =>
    match since with
    | some t => decide (t ≤ e.commit.committedAt)
    | none => true
  recent.mergeSort fun a b =>
    if a.commit.committedAt = b.commit.committedAt then a.commit.revision ≤ b.commit.revision
    else b.commit.committedAt ≤ a.commit.committedAt

/-- The latest of some times. -/
def latest (l : List Instant) : Option Instant :=
  l.foldl (fun best t =>
    match best with
    | none => some t
    | some b => if t ≤ b then some b else some t) none

def stats (g : KnowledgeGraph) : GraphStats :=
  { files := g.files.size
    units := g.units.size
    chunks := g.chunks.size
    commits := g.commits.size
    authors := g.authors.size
    fileRevisions := g.revisions.size
    edges := g.edgeCount
    lastFileSync := latest (g.files.values.map (·.syncedAt)) }

end KnowledgeGraph

end RepoAtlas
