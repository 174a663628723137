import RepoAtlas.Embedding.Embedder
import RepoAtlas.Engine.Error
import RepoAtlas.Extraction.Registry
import RepoAtlas.History.Record
import RepoAtlas.Scan.Changes

/-!
# The state of an engine

A run or a query reads and changes one state: the files of the repository, the graph and the
checkpoints, the embedder, and version control. It either answers or fails, and keeps the changes that
it made before it failed.
-/

namespace RepoAtlas

/-- A planned failure of the graph store: of the calls of a method, some pass and then some fail. -/
structure StoreFault where
  method : String
  error : StoreError
  skip : Nat
  times : Nat

/-- In which order the jobs of a stage are done. They run beside each other, at most as many at a time as
there are workers, and the run goes on when all are done. Each job reads and replaces what belongs to its own
file, so what a run does is told by the order in which its jobs are done. This can be any order; the number
of workers only bounds how far it strays from the order of the files. The embedder is what jobs share: the
requests of one job reach it before those of the next. -/
structure Schedule where
  /-- The places of `n` jobs in the order in which they are done. -/
  order : Stage → Nat → List Nat
  perm : ∀ stage n, (order stage n).Perm (List.range n)

/-- The jobs are done in the order of their files. -/
def Schedule.inOrder : Schedule where
  order _ := List.range
  perm _ _ := .refl _

/-- The jobs of a stage in the order in which they are done. -/
def Schedule.arrange {α : Type} (s : Schedule) (stage : Stage) (jobs : List α) : List α :=
  (s.order stage jobs.length).filterMap (jobs[·]?)

/-- The state of an engine. -/
structure World where
  /-- The root of the repository, which is also its id. -/
  root : String
  settings : Settings := {}
  registry : Registry := {}
  tree : FileTree := {}
  store : GraphStore := {}
  /-- Whether a store in front of the graph can fail. -/
  guarded : Bool := false
  faults : List StoreFault := []
  checkpoints : CheckpointStore := {}
  embedder : Embedder
  vcs : Vcs := .ofCommits [] none none
  /-- The files of the repository that may not be read. -/
  denied : Std.ExtTreeSet String := ∅
  /-- The order in which the jobs of a stage are done. -/
  schedule : Schedule := .inOrder
  /-- Whether the full run is to stop. -/
  cancelled : Bool := false
  /-- How often full runs can still ask whether they are to stop until one is cancelled from outside, if
  one is. -/
  cancelAfter : Option Nat := none
  /-- The time of the calendar when the engine started. -/
  epoch : Instant := ⟨1767225600, 0⟩
  /-- How often the calendar was asked. -/
  ticks : Nat := 0

/-- What runs and queries do. -/
abbrev Act (α : Type) := ExceptT SyncError (StateM World) α

namespace World

/-- The clock, in milliseconds. -/
def clock (w : World) : Nat := w.embedder.clock

def setClock (w : World) (t : Nat) : World := { w with embedder := { w.embedder with clock := t } }

/-- The content of a file of the repository. -/
def readFile (w : World) (path : String) : Except FileError Bytes :=
  if (FileTree.normal? path).any w.denied.contains then .error .denied else w.tree.readAt path

/-- Let a cancellation from outside come through. -/
def heed (w : World) : World :=
  match w.cancelAfter with
  | none => w
  | some 0 => { w with cancelled := true, cancelAfter := none }
  | some (n + 1) => { w with cancelAfter := some n }

/-- The time of the calendar; each question gets a later answer. -/
def now (w : World) : Instant × World :=
  ({ w.epoch with nanos := w.epoch.nanos + w.ticks % 999999999 }, { w with ticks := w.ticks + 1 })

/-- Find the failure that a call of a method meets, and take it off the plan. -/
def meetFault (method : String) : List StoreFault → Option StoreError × List StoreFault
  | [] => (none, [])
  | f :: fs =>
    if f.method == method && 0 < f.times then
      if 0 < f.skip then (none, { f with skip := f.skip - 1 } :: fs)
      else (some f.error, { f with times := f.times - 1 } :: fs)
    else
      let (e, rest) := meetFault method fs
      (e, f :: rest)

end World

namespace Act

/-- Run an action and keep its failure as a value. -/
def attempt {α : Type} (action : Act α) : Act (Except SyncError α) := fun w =>
  let (result, w) := action w
  (.ok result, w)

/-- Ask the calendar. -/
def now : Act Instant := modifyGet World.now

/-- Let a cancellation from outside come through. -/
def heed : Act Unit := modify World.heed

/-- Whether the run is to stop. -/
def isCancelled : Act Bool := do
  heed
  return (← get).cancelled

/-- The jobs of a stage in the order in which they are done. -/
def inTurn {α : Type} (stage : Stage) (jobs : List α) : Act (List α) := do
  return (← get).schedule.arrange stage jobs

/-- Let time pass. -/
def sleep (ms : Nat) : Act Unit := modify fun w => w.setClock (w.clock + ms)

/-- Whether a call of a store method goes through. -/
def guardStore (method : String) : Act (Except StoreError Unit) := do
  let w ← get
  if w.guarded then
    let (e, faults) := World.meetFault method w.faults
    set { w with faults }
    match e with
    | some err => return .error err
    | none => return .ok ()
  else return .ok ()

/-- The answer of the graph by a store method, or the failure of the store. -/
def query {α : Type} (method : String) (question : KnowledgeGraph → α) : Act (Except StoreError α) := do
  match ← guardStore method with
  | .error e => return .error e
  | .ok () => return .ok (question (← get).store.graph)

/-- Ask the graph by a store method. -/
def ask {α : Type} (method : String) (question : KnowledgeGraph → α) : Act α := do
  match ← query method question with
  | .error e => throw (.store e)
  | .ok a => return a

def node (key : NodeKey) : Act (Option GraphNode) := ask "node" (·.get? key)

/-- Whether a node is in the graph. A guarded store looks the node up for it. -/
def contains (key : NodeKey) : Act Bool := ask "node" (·.contains key)

def filePaths : Act (List String) := ask "file_paths" (·.filePaths)

def unitsInFile (path : String) : Act (List CodeUnit) := ask "units_in_file" (·.unitsInFile path)

def unitsNamed (name : String) : Act (List CodeUnit) := ask "units_named" (·.unitsNamed name)

def neighbors (key : NodeKey) (kind : EdgeKind) (d : Direction) : Act (List NodeKey) :=
  ask "neighbors" (·.neighbors key kind d)

def nearestChunks (vector : Embedding) (limit : Nat) : Act (List ChunkMatch) :=
  ask "nearest_chunks" (·.nearestChunks vector limit)

def fileHistory (path : String) (since : Option Instant) : Act (List HistoryEntry) :=
  ask "file_history" (·.history path since)

def stats : Act GraphStats := ask "stats" (·.stats)

/-- Apply a batch once. -/
def applyOnce (batch : WriteBatch) : Act (Except StoreError WriteSummary) := do
  match ← guardStore "apply" with
  | .error e => return .error e
  | .ok () =>
    let w ← get
    match w.store.apply batch with
    | .error e => return .error e
    | .ok (store, summary) =>
      set { w with store }
      return .ok summary

/-- Save the graph once. -/
def commitOnce : Act (Except StoreError Unit) := do
  match ← guardStore "commit" with
  | .error e => return .error e
  | .ok () =>
    let w ← get
    let (store, tree, error) := w.store.commit w.tree
    set { w with store, tree }
    match error with
    | some e => return .error e
    | none => return .ok ()

/-- Try a store operation again while its failures may pass: `retries` times, with longer and longer
waits. -/
def retrying {α : Type} (operation : Act (Except StoreError α)) (delay : Nat) : Nat → Act α
  | 0 => do
    match ← operation with
    | .ok a => return a
    | .error e => throw (if e.isTransient then .transientExternal e.message else .store e)
  | retries + 1 => do
    match ← operation with
    | .ok a => return a
    | .error e =>
      if e.isTransient then
        sleep delay
        retrying operation (2 * delay) retries
      else throw (.store e)

/-- Apply a batch; failures that may pass are tried again. -/
def applyBatch (batch : WriteBatch) : Act WriteSummary := retrying (applyOnce batch) 200 2

/-- Save the graph; failures that may pass are tried again. -/
def commit : Act Unit := retrying commitOnce 200 2

/-- Update checkpoints, all or none. -/
def setCheckpoints (updates : List CheckpointUpdate) : Act Unit := do
  let w ← get
  let (checkpoints, tree, error) := w.checkpoints.setBatch w.tree updates
  set { w with checkpoints, tree }
  match error with
  | some e => throw (.checkpoint e)
  | none => return ()

/-- Embed texts together. -/
def embedAll (texts : List String) : Act (List (Except EmbeddingError Embedding)) := do
  let w ← get
  let (results, e) := w.embedder.embedAll texts
  set { w with embedder := { e with cancelAsked := false }, cancelled := w.cancelled || e.cancelAsked }
  return results

/-- Embed a text. -/
def embed (text : String) : Act Embedding := do
  match ← embedAll [text] with
  | [.ok v] => return v
  | [.error e] => throw (.embedding e)
  | _ => throw .overflow

/-- What version control answers. -/
def askVcs {α : Type} (question : Vcs → Except String α) : Act α := do
  match question (← get).vcs with
  | .ok a => return a
  | .error e => throw (.vcs e)

end Act

end RepoAtlas
