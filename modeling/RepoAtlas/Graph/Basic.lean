import RepoAtlas.Graph.Batch

/-!
# The knowledge graph

Nodes by their ids, edges from both of their ends, and indexes for the questions that are asked. Each
write keeps the indexes in step with the nodes and edges, and counts what it changes.
-/

namespace RepoAtlas

/-- A chunk with its place in the order of insertion. -/
structure StoredChunk where
  chunk : SemanticChunk
  sequence : Nat
deriving Inhabited

/-- Edges by one of their ends. -/
abbrev Adjacency := Std.ExtTreeMap NodeKey (Std.ExtTreeSet Link)

/-- Values by a text, several for each. -/
abbrev Index (α : Type) [Ord α] := Std.ExtTreeMap String (Std.ExtTreeSet α)

/-- Add a value to the set of a key. -/
def addEntry {κ α : Type} [Ord κ] [Std.TransOrd κ] [Ord α] [Std.TransOrd α] [Std.LawfulEqOrd κ]
    (m : Std.ExtTreeMap κ (Std.ExtTreeSet α)) (k : κ) (a : α) : Std.ExtTreeMap κ (Std.ExtTreeSet α) :=
  m.alter k fun
    | none => some ((∅ : Std.ExtTreeSet α).insert a)
    | some s => some (s.insert a)

/-- Remove a value from the set of a key; a set that becomes empty goes too. -/
def removeEntry {κ α : Type} [Ord κ] [Std.TransOrd κ] [Ord α] [Std.TransOrd α] [Std.LawfulEqOrd κ]
    (m : Std.ExtTreeMap κ (Std.ExtTreeSet α)) (k : κ) (a : α) : Std.ExtTreeMap κ (Std.ExtTreeSet α) :=
  m.alter k fun
    | none => none
    | some s => if (s.erase a).isEmpty then none else some (s.erase a)

/-- The values of a key, in order. -/
def entries {κ α : Type} [Ord κ] [Std.TransOrd κ] [Ord α] [Std.TransOrd α]
    (m : Std.ExtTreeMap κ (Std.ExtTreeSet α)) (k : κ) : List α :=
  match m[k]? with
  | some s => s.toList
  | none => []

/-- Whether a value is in the set of a key. -/
def hasEntry {κ α : Type} [Ord κ] [Std.TransOrd κ] [Ord α] [Std.TransOrd α]
    (m : Std.ExtTreeMap κ (Std.ExtTreeSet α)) (k : κ) (a : α) : Bool :=
  match m[k]? with
  | some s => s.contains a
  | none => false

/-- The ways along edges. -/
inductive Direction where
  | outgoing
  | incoming
deriving DecidableEq, Inhabited

/-- The graph. -/
structure KnowledgeGraph where
  files : Std.ExtTreeMap String SourceFile := ∅
  units : Std.ExtTreeMap String CodeUnit := ∅
  chunks : Std.ExtTreeMap String StoredChunk := ∅
  commits : Std.ExtTreeMap CommitId Commit := ∅
  authors : Std.ExtTreeMap AuthorId Author := ∅
  revisions : Std.ExtTreeMap RevisionId FileRevision := ∅
  outgoing : Adjacency := ∅
  incoming : Adjacency := ∅
  edgeCount : Nat := 0
  unitsByFile : Index String := ∅
  unitsByName : Index String := ∅
  revisionsByPath : Index RevisionId := ∅
  /-- The place of the next chunk. -/
  nextSequence : Nat := 0
deriving Inhabited

namespace KnowledgeGraph

/-- Whether a node is in the graph. -/
def contains (g : KnowledgeGraph) : NodeKey → Bool
  | .file p => g.files.contains p
  | .unit i => g.units.contains i
  | .chunk i => g.chunks.contains i
  | .commit c => g.commits.contains c
  | .author a => g.authors.contains a
  | .revision r => g.revisions.contains r

/-- The node of a key. -/
def get? (g : KnowledgeGraph) : NodeKey → Option GraphNode
  | .file p => g.files[p]?.map .sourceFile
  | .unit i => g.units[i]?.map .codeUnit
  | .chunk i => g.chunks[i]?.map (.semanticChunk ·.chunk)
  | .commit c => g.commits[c]?.map .commit
  | .author a => g.authors[a]?.map .author
  | .revision r => g.revisions[r]?.map .fileRevision

/-- The adjacency of a direction. -/
def adjacency (g : KnowledgeGraph) : Direction → Adjacency
  | .outgoing => g.outgoing
  | .incoming => g.incoming

/-- The nodes that edges of one kind lead to, in order. -/
def neighbors (g : KnowledgeGraph) (key : NodeKey) (kind : EdgeKind) (d : Direction) : List NodeKey :=
  ((entries (g.adjacency d) key).filter (·.kind == kind)).map (·.other)

/-- Whether an edge is in the graph. -/
def hasEdge (g : KnowledgeGraph) (e : GraphEdge) : Bool := hasEntry g.outgoing e.source ⟨e.kind, e.target⟩

/-- All edges, by source. -/
def edges (g : KnowledgeGraph) : List GraphEdge :=
  g.outgoing.toList.flatMap fun (source, links) => links.toList.map fun l => ⟨l.kind, source, l.other⟩

/-- Put an edge that is not there. -/
def addEdge (g : KnowledgeGraph) (e : GraphEdge) : KnowledgeGraph :=
  { g with
    outgoing := addEntry g.outgoing e.source ⟨e.kind, e.target⟩
    incoming := addEntry g.incoming e.target ⟨e.kind, e.source⟩
    edgeCount := g.edgeCount + 1 }

/-- Take out an edge that is there. -/
def dropEdge (g : KnowledgeGraph) (e : GraphEdge) : KnowledgeGraph :=
  { g with
    outgoing := removeEntry g.outgoing e.source ⟨e.kind, e.target⟩
    incoming := removeEntry g.incoming e.target ⟨e.kind, e.source⟩
    edgeCount := g.edgeCount - 1 }

/-- Take out every edge of a node, and count them. -/
def detach (g : KnowledgeGraph) (key : NodeKey) : KnowledgeGraph × Nat :=
  let out := entries g.outgoing key
  let incoming := out.foldl (fun m l => removeEntry m l.other ⟨l.kind, key⟩) g.incoming
  let inc := entries incoming key
  let outgoing := inc.foldl (fun m l => removeEntry m l.other ⟨l.kind, key⟩) (g.outgoing.erase key)
  let removed := out.length + inc.length
  ({ g with outgoing, incoming := incoming.erase key, edgeCount := g.edgeCount - removed }, removed)

/-- The commits of a repository that are not kept. -/
def doomedCommits (g : KnowledgeGraph) (repo : String) (keep : Std.ExtTreeSet String) : List CommitId :=
  g.commits.keys.filter fun c => c.repo == repo && !keep.contains c.revision

/-- What the commits of a repository that are not kept did to files. -/
def doomedRevisions (g : KnowledgeGraph) (repo : String) (keep : Std.ExtTreeSet String) :
    List RevisionId :=
  g.revisions.keys.filter fun r =>
    r.repo == repo && !keep.contains r.revision && g.commits.contains r.commit

/-- The authors of a repository to whom no edge leads. -/
def idleAuthors (g : KnowledgeGraph) (repo : String) : List AuthorId :=
  g.authors.keys.filter fun a => a.repo == repo && (entries g.incoming (.author a)).isEmpty

end KnowledgeGraph

/-- A graph that is being written, with what was changed so far. -/
structure Draft where
  graph : KnowledgeGraph := {}
  summary : WriteSummary := {}
deriving Inhabited

namespace Draft

def wroteNode (d : Draft) : Draft :=
  { d with summary := { d.summary with nodesWritten := d.summary.nodesWritten + 1 } }

def removedNode (d : Draft) : Draft :=
  { d with summary := { d.summary with nodesRemoved := d.summary.nodesRemoved + 1 } }

/-- Put an edge unless it is there. -/
def insertEdge (d : Draft) (e : GraphEdge) : Draft :=
  if d.graph.hasEdge e then d
  else
    { graph := d.graph.addEdge e
      summary := { d.summary with edgesWritten := d.summary.edgesWritten + 1 } }

/-- Take out an edge if it is there. -/
def removeEdge (d : Draft) (e : GraphEdge) : Draft :=
  if d.graph.hasEdge e then
    { graph := d.graph.dropEdge e
      summary := { d.summary with edgesRemoved := d.summary.edgesRemoved + 1 } }
  else d

/-- Take out every edge of a node. -/
def detach (d : Draft) (key : NodeKey) : Draft :=
  let (graph, removed) := d.graph.detach key
  { graph, summary := { d.summary with edgesRemoved := d.summary.edgesRemoved + removed } }

/-! ### Inserting nodes -/

/-- Insert or replace a file. A new file gets the history that was recorded before it. -/
def upsertFile (d : Draft) (f : SourceFile) : Draft :=
  let old := d.graph.files[f.path]?
  let d' : Draft :=
    if old = some f then d
    else { d with graph := { d.graph with files := d.graph.files.insert f.path f } }.wroteNode
  if old.isSome then d'
  else
    (entries d'.graph.revisionsByPath f.path).foldl
      (fun d r => d.insertEdge ⟨.versionOf, .revision r, .file f.path⟩) d'

/-- Insert or replace a unit, which its file then contains. -/
def upsertUnit (d : Draft) (u : CodeUnit) : Draft :=
  let g := d.graph
  let old := g.units[u.id]?
  if old = some u then d
  else
    let byName :=
      match old with
      | some o => removeEntry g.unitsByName o.name u.id
      | none => g.unitsByName
    let g :=
      { g with
        unitsByFile := addEntry g.unitsByFile u.path u.id
        unitsByName := addEntry byName u.name u.id
        units := g.units.insert u.id u }
    ({ d with graph := g }.wroteNode).insertEdge ⟨.contains, .file u.path, .unit u.id⟩

/-- Insert or replace a chunk, which then describes its unit. A chunk keeps its place. -/
def upsertChunk (d : Draft) (c : SemanticChunk) : Draft :=
  let g := d.graph
  let d' : Draft :=
    match g.chunks[c.id]? with
    | some stored =>
      if stored.chunk.same c then d
      else { d with graph := { g with chunks := g.chunks.insert c.id ⟨c, stored.sequence⟩ } }.wroteNode
    | none =>
      { d with
        graph :=
          { g with
            chunks := g.chunks.insert c.id ⟨c, g.nextSequence⟩
            nextSequence := g.nextSequence + 1 } }.wroteNode
  d'.insertEdge ⟨.describes, .chunk c.id, .unit c.unitId⟩

/-- Record a commit. Commits do not change once they are recorded. -/
def upsertCommit (d : Draft) (c : Commit) : Draft :=
  if d.graph.commits.contains c.id then d
  else { d with graph := { d.graph with commits := d.graph.commits.insert c.id c } }.wroteNode

/-- Insert or replace an author. -/
def upsertAuthor (d : Draft) (a : Author) : Draft :=
  if d.graph.authors[a.id]? = some a then d
  else { d with graph := { d.graph with authors := d.graph.authors.insert a.id a } }.wroteNode

/-- Record what a commit did to a file. -/
def upsertRevision (d : Draft) (r : FileRevision) : Draft :=
  let g := d.graph
  if g.revisions.contains r.id then d
  else
    let g :=
      { g with
        revisionsByPath := addEntry g.revisionsByPath r.path r.id
        revisions := g.revisions.insert r.id r }
    let d' := { d with graph := g }.wroteNode
    if g.files.contains r.path then d'.insertEdge ⟨.versionOf, .revision r.id, .file r.path⟩ else d'

/-- Insert a node, or update the one of its key. -/
def upsert (d : Draft) : GraphNode → Draft
  | .sourceFile f => d.upsertFile f
  | .codeUnit u => d.upsertUnit u
  | .semanticChunk c => d.upsertChunk c
  | .commit c => d.upsertCommit c
  | .author a => d.upsertAuthor a
  | .fileRevision r => d.upsertRevision r

/-! ### Removing nodes -/

def removeChunk (d : Draft) (id : String) : Draft :=
  let d := d.detach (.chunk id)
  if d.graph.chunks.contains id then
    { d with graph := { d.graph with chunks := d.graph.chunks.erase id } }.removedNode
  else d

/-- Remember the file of a caller whose callee in another file goes. -/
def orphan (d : Draft) (path : String) (caller : NodeKey) : Draft :=
  match caller.unit?.bind (d.graph.units[·]?) with
  | some u =>
    if u.path = path then d
    else { d with summary := { d.summary with orphanedCallers := d.summary.orphanedCallers.insert u.path } }
  | none => d

/-- Remove a unit with its chunks. -/
def removeUnit (d : Draft) (id : String) : Draft :=
  match d.graph.units[id]? with
  | none => d
  | some u =>
    let key := NodeKey.unit id
    let chunks := (d.graph.neighbors key .describes .incoming).filterMap NodeKey.chunk?
    let d := chunks.foldl removeChunk d
    let d := (d.graph.neighbors key .calls .incoming).foldl (orphan · u.path) d
    let d := d.detach key
    let g := d.graph
    let g :=
      { g with
        unitsByFile := removeEntry g.unitsByFile u.path id
        unitsByName := removeEntry g.unitsByName u.name id
        units := g.units.erase id }
    { d with graph := g }.removedNode

/-- Remove the units of a file. -/
def clearFile (d : Draft) (path : String) : Draft :=
  (entries d.graph.unitsByFile path).foldl removeUnit d

/-- Remove a file and its units. -/
def removeFile (d : Draft) (path : String) : Draft :=
  let d := (d.clearFile path).detach (.file path)
  if d.graph.files.contains path then
    { d with graph := { d.graph with files := d.graph.files.erase path } }.removedNode
  else d

/-! ### Replacing edges -/

/-- Make the edges of one kind that leave a node lead exactly to some nodes. -/
def replaceEdges (d : Draft) (kind : EdgeKind) (source : NodeKey) (desired : Std.ExtTreeSet NodeKey) :
    Draft :=
  let current := d.graph.neighbors source kind .outgoing
  let stale := current.filter (!desired.contains ·)
  let fresh := desired.toList.filter (!current.contains ·)
  let d := stale.foldl (fun d t => d.removeEdge ⟨kind, source, t⟩) d
  fresh.foldl (fun d t => d.insertEdge ⟨kind, source, t⟩) d

/-- The set of some keys. -/
def keySet (l : List NodeKey) : Std.ExtTreeSet NodeKey := l.foldl (·.insert ·) ∅

/-- Make the imports of a file lead exactly to some other files. -/
def replaceImports (d : Draft) (path : String) (targets : List String) : Draft :=
  d.replaceEdges .imports (.file path) (keySet ((targets.filter (· != path)).map .file))

/-- Make the calls of the units of a file exactly some pairs; a unit does not call itself. -/
def replaceCalls (d : Draft) (path : String) (calls : List (String × String)) : Draft :=
  (entries d.graph.unitsByFile path).foldl (fun d unit =>
    let callees := (calls.filter fun c => c.1 == unit && c.1 != c.2).map (NodeKey.unit ·.2)
    d.replaceEdges .calls (.unit unit) (keySet callees)) d

/-! ### Forgetting history -/

def removeRevision (d : Draft) (id : RevisionId) : Draft :=
  let d := d.detach (.revision id)
  let g := d.graph
  { d with
    graph :=
      { g with
        revisionsByPath := removeEntry g.revisionsByPath id.path id
        revisions := g.revisions.erase id } }.removedNode

def removeCommit (d : Draft) (id : CommitId) : Draft :=
  let d := d.detach (.commit id)
  { d with graph := { d.graph with commits := d.graph.commits.erase id } }.removedNode

def removeAuthor (d : Draft) (id : AuthorId) : Draft :=
  { d with graph := { d.graph with authors := d.graph.authors.erase id } }.removedNode

/-- Drop the commits of a repository other than some revisions. Authors are looked at only if a
commit goes. -/
def retainHistory (d : Draft) (repo : String) (keep : Std.ExtTreeSet String) : Draft :=
  let doomed := d.graph.doomedCommits repo keep
  if doomed.isEmpty then d
  else
    let d := (d.graph.doomedRevisions repo keep).foldl removeRevision d
    let d := doomed.foldl removeCommit d
    (d.graph.idleAuthors repo).foldl removeAuthor d

/-- Apply one write. -/
def applyOp (d : Draft) : WriteOp → Draft
  | .upsertNode n => d.upsert n
  | .upsertEdge e => d.insertEdge e
  | .clearFile p => d.clearFile p
  | .removeFile p => d.removeFile p
  | .replaceImports p ts => d.replaceImports p ts
  | .replaceCalls p cs => d.replaceCalls p cs
  | .retainHistory r keep => d.retainHistory r (keep.foldl (·.insert ·) ∅)

end Draft

namespace KnowledgeGraph

/-- Apply a batch without checking it. -/
def applyBatch (g : KnowledgeGraph) (b : WriteBatch) : Draft := b.foldl Draft.applyOp { graph := g }

end KnowledgeGraph

end RepoAtlas
