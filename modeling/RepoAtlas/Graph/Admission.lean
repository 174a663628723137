import RepoAtlas.Graph.Basic

/-!
# Admission of batches

A batch is admitted if each of its writes fits the graph as the earlier writes of the batch would
leave it. The check does not run the writes; it keeps a view of which nodes would exist.
-/

namespace RepoAtlas

/-- Which nodes exist after the writes that were checked so far. -/
structure Overlay where
  graph : KnowledgeGraph
  added : Std.ExtTreeSet NodeKey := ∅
  removed : Std.ExtTreeSet NodeKey := ∅
  /-- The files of the units that the batch adds. -/
  unitPaths : Std.ExtTreeMap String String := ∅

namespace Overlay

/-- Whether a node exists. -/
def exists? (o : Overlay) (key : NodeKey) : Bool :=
  o.added.contains key || (!o.removed.contains key && o.graph.contains key)

def add (o : Overlay) (key : NodeKey) : Overlay :=
  { o with removed := o.removed.erase key, added := o.added.insert key }

def remove (o : Overlay) (key : NodeKey) : Overlay :=
  { o with added := o.added.erase key, removed := o.removed.insert key }

/-- The file of a unit that exists. -/
def unitPath? (o : Overlay) (id : String) : Option String :=
  if o.exists? (.unit id) then o.unitPaths[id]?.or (o.graph.units[id]?.map (·.path)) else none

/-- The units of a file, of the graph and of the batch. -/
def fileUnits (o : Overlay) (path : String) : List String :=
  let own := o.unitPaths.toList.filterMap fun (id, p) => if p == path then some id else none
  (own.foldl (·.insert ·) ((o.graph.unitsByFile[path]?).getD ∅)).toList

/-- Remove a unit with the chunks that describe it in the graph. -/
def clearUnit (o : Overlay) (id : String) : Overlay :=
  let o := (o.graph.neighbors (.unit id) .describes .incoming).foldl remove o
  { o with unitPaths := o.unitPaths.erase id }.remove (.unit id)

/-- Remove the contents of a file. -/
def clear (o : Overlay) (path : String) : Overlay := (o.fileUnits path).foldl clearUnit o

/-- A node that must exist. -/
def missing? (o : Overlay) (context : String) (key : NodeKey) : Option String :=
  if o.exists? key then none else some (context ++ ": " ++ key.text ++ " does not exist")

/-- What is wrong with a call of a file's unit. -/
def callFlaw? (o : Overlay) (path : String) (call : String × String) : Option String :=
  match o.unitPath? call.1 with
  | some owner =>
    if owner = path then o.missing? "callee" (.unit call.2)
    else some ("caller " ++ call.1 ++ " belongs to " ++ owner ++ ", not " ++ path)
  | none => some ("caller " ++ call.1 ++ " does not exist")

/-- What is wrong with a node where the graph would be. -/
def nodeFlaw? (o : Overlay) (dimensions : Option Nat) (n : GraphNode) : Option String :=
  n.flaw?.or <|
    match n with
    | .codeUnit u => o.missing? u.id (.file u.path)
    | .semanticChunk c =>
      (o.missing? c.id (.unit c.unitId)).or <|
        match dimensions with
        | some expected =>
          if c.embedding.length = expected then none
          else
            some ("chunk " ++ c.id ++ " has " ++ toString c.embedding.length ++ " dimensions, expected " ++
              toString expected)
        | none => none
    | _ => none

/-- What is wrong with a write. -/
def flaw? (o : Overlay) (dimensions : Option Nat) : WriteOp → Option String
  | .upsertNode n => o.nodeFlaw? dimensions n
  | .upsertEdge e =>
    let context := e.kind.title ++ " edge"
    (e.flaw?.or (o.missing? context e.source)).or (o.missing? context e.target)
  | .clearFile _ => none
  | .removeFile _ => none
  | .replaceImports path targets =>
    (o.missing? "import source" (.file path)).or
      (targets.findSome? fun t => o.missing? "import target" (.file t))
  | .replaceCalls path calls =>
    (o.missing? "call source" (.file path)).or (calls.findSome? (o.callFlaw? path))
  | .retainHistory repo _ => if Text.isBlankText repo then some "repo id must not be empty" else none

/-- The view after a write. -/
def after (o : Overlay) : WriteOp → Overlay
  | .upsertNode n =>
    let o :=
      match n with
      | .codeUnit u => { o with unitPaths := o.unitPaths.insert u.id u.path }
      | _ => o
    o.add n.key
  | .clearFile path => o.clear path
  | .removeFile path => (o.clear path).remove (.file path)
  | _ => o

/-- The first flaw of the writes of a batch. -/
def batchFlaw? (dimensions : Option Nat) : Overlay → WriteBatch → Option String
  | _, [] => none
  | o, op :: rest => (o.flaw? dimensions op).or (batchFlaw? dimensions (o.after op) rest)

end Overlay

/-- What is wrong with a batch for a graph. -/
def KnowledgeGraph.batchFlaw? (g : KnowledgeGraph) (dimensions : Option Nat) (b : WriteBatch) :
    Option String :=
  Overlay.batchFlaw? dimensions ⟨g, ∅, ∅, ∅⟩ b

end RepoAtlas
