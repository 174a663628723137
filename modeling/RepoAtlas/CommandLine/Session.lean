import RepoAtlas.CommandLine.Arguments
import RepoAtlas.Engine.Basic
import RepoAtlas.History.Git
import RepoAtlas.Settings.Layers
import RepoAtlas.Watch.Watcher

/-!
# Running a command

A command finds files, an environment and Git, finds the repository, loads its settings, opens the engine
and prints JSON documents. A failure ends it with a message.
-/

namespace RepoAtlas.CommandLine

/-- What a command finds. -/
structure Session where
  /-- The files below a directory. -/
  tree : FileTree
  /-- The path of that directory. -/
  top : String
  /-- The working directory, below it. -/
  workingDir : String := ""
  home : String := ""
  userSettings : Option String := none
  environment : List (String × String) := []
  git : Git.Runner := Git.missing

/-- How a command ended. -/
inductive Ending where
  | done
  | failed (message : String)
  /-- A number was too large for its kind. -/
  | overflow
  | refused (r : Refusal)

/-- The exit code of an ending. -/
def Ending.code : Ending → Nat
  | .done | .refused .help => 0
  | .failed _ => 1
  | .refused .usage => 2
  | .overflow => 101

/-- What a command printed and how it ended. -/
structure Outcome where
  printed : List Json := []
  ending : Ending := .done

/-- The ending of a failure. -/
def Ending.ofError : SyncError → Ending
  | .overflow => .overflow
  | e => .failed e.message

namespace Session

/-- The path of something below the top directory. -/
def pathOf (s : Session) (below : String) : String := if below.isEmpty then s.top else Paths.join s.top below

/-- Where a path as it was given leads to below the top directory; `none` outside of it. -/
def locate? (s : Session) (path : String) : Option String := do
  let below := (Text.after? (Paths.components s.top) (Paths.components path)).getD
    (Paths.components (Paths.join s.workingDir path))
  let step (names : List String) : Paths.Component → Option (List String)
    | .root => none
    | .here => some names
    | .up => if names.isEmpty then none else some names.dropLast
    | .name n => some (names ++ [n])
  return Text.join "/" (← below.foldlM step [])

/-- The repository: the chosen directory or the working directory, or one above. -/
def repository (s : Session) (chosen : Option String) : String :=
  let start := chosen.getD (s.pathOf s.workingDir)
  repositoryRoot (fun path => (s.locate? path).any s.tree.isDirectory) start

/-- Load the settings of a repository. -/
def settings (s : Session) (root : String) : Except SettingsError Settings :=
  let file := (s.locate? (Paths.join root Settings.path)).bind fun p => (s.tree.readText p).toOption
  Settings.load [s.userSettings, file] s.environment

/-- Open the engine of a repository. The answer tells also where it lies below the top directory. -/
def openEngine (s : Session) (root : String) (settings : Settings) : Option (String × World) := do
  let dir ← s.locate? root
  if root.isEmpty || !s.tree.isDirectory dir then none
  let provider ← (Provider.ofSettings settings.embedding (s.environment.lookup apiKeyVariable)).toOption
  let w : World :=
    { root := s.pathOf dir
      settings
      tree := s.tree.below dir
      embedder := { provider }
      vcs := Git.vcs s.git }
  return (dir, ← (w.openEngine s.home).toOption)

end Session

/-- Print the answer of an action. -/
def answer {α : Type} [ToJson α] (a : Act α) (w : World) : Outcome × World :=
  match a.run w with
  | (.ok v, w) => ({ printed := [toJson v] }, w)
  | (.error e, w) => ({ ending := .ofError e }, w)

/-- Print the answer of an action, if there is one. -/
def answerFound {α : Type} [ToJson α] (name : String) (a : Act (Option α)) (w : World) : Outcome × World :=
  match a.run w with
  | (.ok (some v), w) => ({ printed := [toJson v] }, w)
  | (.ok none, w) => ({ ending := .failed (name ++ " is not in the graph") }, w)
  | (.error e, w) => ({ ending := .ofError e }, w)

/-- Go on with another action if the first one was done. -/
def andThen (first : Outcome × World) (next : World → Outcome × World) : Outcome × World :=
  match first with
  | ({ printed, ending := .done }, w) =>
    let (o, w) := next w
    ({ o with printed := printed ++ o.printed }, w)
  | r => r

/-- Bring the history up to date after the files. A history that does not fit is left as it is. -/
def indexHistory (w : World) : Outcome × World :=
  match (HistorySync.run false).run w with
  | (.error (.historyDivergence ..), w) => ({}, w)
  | (.ok report, w) => ({ printed := [toJson report] }, w)
  | (.error e, w) => ({ ending := .ofError e }, w)

/-- Apply a change of the files and then its events. -/
def follow (f : ScanFilter) (w : World) (c : TreeChange) : World :=
  match c.apply w.tree with
  | .error _ => w
  | .ok tree =>
    (c.seen f tree).foldl (fun w e => ((Sync.event e).run w).2) { w with tree }

/-- Follow changes until the program is stopped. -/
def followAll (changes : List TreeChange) (w : World) : Outcome × World :=
  match ScanFilter.build? w.settings.indexing w.registry w.tree with
  | some f => ({}, changes.foldl (follow f) w)
  | none => ({ ending := .failed (SyncError.settings .ignorePattern).message }, w)

/-- Run a command on an engine. `changes` are those that happen while it watches. -/
def perform (changes : List TreeChange) (w : World) : Command → Outcome × World
  | .init => ({}, w)
  | .index =>
    andThen (answer Sync.full w) fun w => if w.settings.history.enabled then indexHistory w else ({}, w)
  | .watch => andThen (answer Sync.full w) (followAll changes)
  | .history isFull => answer (HistorySync.run isFull) w
  | .search query limit isHybrid days =>
    let hits := Retrieval.search query (limit.getD w.settings.retrieval.defaultLimit)
    if isHybrid then answer (do Retrieval.rank (← hits) days) w else answer hits w
  | .dependencies path => answerFound path (Retrieval.dependencies path) w
  | .info path => answerFound path (Retrieval.fileInfo path) w
  | .impact path depth =>
    answerFound path (Retrieval.impact path (depth.getD w.settings.retrieval.defaultMaxDepth)) w
  | .log path limit =>
    answerFound path (do return (← Retrieval.fileHistory path limit).map (·.map HistoryEntry.summary)) w
  | .commit revision => answerFound ("commit " ++ revision) (Retrieval.commitContext revision) w
  | .status => answer Engine.status w

namespace Session

/-- Save the settings of a repository. -/
def init (s : Session) (root : String) (settings : Settings) : Outcome × FileTree :=
  match (s.locate? root).map (settings.save s.tree ·) with
  | none => ({ ending := .failed (SettingsError.io FileError.notFound.message).message }, s.tree)
  | some (.error e) => ({ ending := .failed e.message }, s.tree)
  | some (.ok tree) => ({}, tree)

/-- Run the program with some arguments. The answer holds the files after it. -/
def run (s : Session) (args : List String) (changes : List TreeChange) : Outcome × FileTree :=
  match parse args with
  | .error r => ({ ending := .refused r }, s.tree)
  | .ok a =>
    let root := s.repository a.repo
    match s.settings root with
    | .error _ => ({ ending := .failed ("loading configuration for " ++ root) }, s.tree)
    | .ok settings =>
      match a.command with
      | .init => s.init root settings
      | command =>
        match s.openEngine root settings with
        | none => ({ ending := .failed "opening the knowledge graph" }, s.tree)
        | some (dir, w) =>
          let (outcome, w) := perform changes w command
          (outcome, s.tree.graft dir w.tree)

end Session

end RepoAtlas.CommandLine
