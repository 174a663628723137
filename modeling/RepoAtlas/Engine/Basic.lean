import RepoAtlas.Engine.Sync
import RepoAtlas.History.Sync
import RepoAtlas.Retrieval.Basic
import RepoAtlas.Watch.Synchronizer

/-!
# The engine of a repository

Opening an engine checks the settings and loads the graph and the checkpoints from the data directory.
-/

namespace RepoAtlas

/-- The counts of a graph and where the runs stand. -/
structure EngineStatus where
  root : String
  stats : GraphStats
  /-- The number of files with a checkpoint. -/
  checkpointedFiles : Nat
  historyCheckpoint : Option String

instance : ToJson EngineStatus where
  toJson s := .obj ([("repo_id", toJson s.root), ("root", toJson s.root)] ++ s.stats.fields ++
    [("checkpointed_files", toJson s.checkpointedFiles),
      ("history_checkpoint", toJson s.historyCheckpoint)])

namespace World

/-- Where the data is kept: a path below the root, or an absolute one. A guarded store keeps to the
usual directory. -/
def dataPath (w : World) (home : String) : String :=
  if w.guarded then dataDirectory
  else
    let dir := w.settings.dataDir home w.root
    (Paths.relative? w.root dir).getD dir

/-- Load the graph and the checkpoints. -/
def loadStores (w : World) (dir : String) : Except SyncError World := do
  let (tree, store) ← (GraphStore.load w.tree dir).mapError .store
  let checkpoints ← (CheckpointStore.load tree (Paths.join dir checkpointFile)).mapError .checkpoint
  return { w with tree, store, checkpoints }

/-- Open the engine over the files of a repository. The provider of embeddings, version control and the
clock go on; the embedder starts anew. -/
def openEngine (w : World) (home : String) : Except SyncError World := do
  (w.settings.validate).mapError .settings
  let w ←
    if w.guarded || w.settings.graph.persist then w.loadStores (w.dataPath home)
    else pure { w with store := {}, checkpoints := {} }
  let embedder := { Embedder.ofSettings w.settings.embedding w.embedder.provider with clock := w.clock }
  return { w with
    store := { w.store with dimensions := some w.settings.embedding.dimensions }
    embedder
    cancelled := false }

end World

namespace Engine

/-- The counts of the graph and where the runs stand. -/
def status : Act EngineStatus := do
  let stats ← Act.stats
  let w ← get
  return {
    root := w.root
    stats
    checkpointedFiles := w.checkpoints.trackedFiles.length
    historyCheckpoint := w.checkpoints.state.get? (.revision w.root) }

/-- Ask the running full run to stop. -/
def cancel : Act Unit := modify ({ · with cancelled := true })

/-- Events are applied to the engine until one cannot be represented. -/
def syncTarget : SyncTarget (Bool × World) where
  apply e now s :=
    if s.1 then (false, now, s)
    else
      match (Sync.event e).run (s.2.setClock now) with
      | (.ok report, w) => (!report.hasFailures, w.clock, (false, w))
      | (.error .overflow, w) => (false, w.clock, (true, w))
      | (.error _, w) => (false, w.clock, (false, w))

/-- Apply events that arrive together, after which the feed closes. -/
def applyEvents (events : List FileEvent) : Act SynchronizerStats := do
  let w ← get
  let feed : EventFeed := { events := events.map (w.clock, ·), closeAt := w.clock }
  let s := synchronize syncTarget w.settings.watch.debounceMs feed w.clock (false, w)
  set (s.target.2.setClock s.now)
  if s.target.1 then throw .overflow
  return s.stats

end Engine

end RepoAtlas
