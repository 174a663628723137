import RepoAtlas.Engine.Linking
import RepoAtlas.Engine.Report
import RepoAtlas.Scan.Collect
import RepoAtlas.Watch.Debounce

/-!
# Runs over files

A full run compares the files with the checkpoints, removes what was deleted, stores what is new or
changed, resolves imports, and resolves calls where the call edges may be out of date. A run for one
file stores or removes it and resolves imports; the calls are left to the next full run, for which the
checkpoints of the call graph are cleared. The graph is saved before any checkpoint advances.
-/

namespace RepoAtlas.Sync

/-- The stored files among some paths. -/
def storedFiles : List String → Act (List SourceFile)
  | [] => return []
  | path :: paths => do
    match ← Act.node (.file path) with
    | some (.sourceFile f) => return f :: (← storedFiles paths)
    | _ => storedFiles paths

/-- The files that call one of some names. -/
def callersOf (files : List SourceFile) (names : NameSet) : NameSet :=
  NameSet.ofList ((files.filter fun f => f.callees.any names.contains).map (·.path))

/-- A file whose imports are to be resolved, with its references. -/
abbrev ImportJob := String × List String

def importJob (f : SourceFile) : ImportJob := (f.path, f.imports)

/-- Resolve the imports of files, in the order of the schedule. The answer holds the files whose edges could not
be written. -/
def linkImports (files : FileIndex) (report : SyncReport) : List ImportJob → Act (NameSet × SyncReport)
  | [] => return (∅, report)
  | (path, targets) :: jobs => do
    match ← (Linking.imports path targets files).attempt with
    | .ok outcome =>
      linkImports files
        { report with
          importEdgesWritten := report.importEdgesWritten + outcome.edgesWritten
          unresolvedImports := report.unresolvedImports + outcome.unresolved } jobs
    | .error e =>
      let (failed, report) ← linkImports files (report.fail ⟨path, .imports, e.message⟩) jobs
      return (failed.insert path, report)

/-- The report with what the embeddings of the run added up to. -/
def withUsage (report : SyncReport) : Act SyncReport := do
  let w ← get
  return { report with
    usage := w.embedder.usage
    pricePerMillion := w.settings.embedding.pricePerMillionTokens }

/-- The filter of the repository. -/
def filter : Act ScanFilter := do
  let w ← get
  match ScanFilter.build? w.settings.indexing w.registry w.tree with
  | some f => return f
  | none => throw (.settings .ignorePattern)

/-- Count the embeddings of a run on their own. -/
def startRun : Act Unit := modify fun w => { w with embedder := w.embedder.forRun }

/-! ### A full run -/

/-- Where a full run stands. -/
structure Progress where
  report : SyncReport := {}
  /-- The names whose units change in this run. -/
  affected : NameSet := ∅
  /-- The files that lost call edges. -/
  orphaned : NameSet := ∅
  ingested : Std.ExtTreeMap String IngestedFile := ∅
  /-- The files whose checkpoints stay. -/
  blocked : NameSet := ∅
  updates : List CheckpointUpdate := []

namespace Progress

def block (p : Progress) (path : String) : Progress := { p with blocked := p.blocked.insert path }

/-- Record a failure of a file. -/
def fail (p : Progress) (f : FileFailure) : Progress := { p with report := p.report.fail f }

/-- Record a file that was stored. -/
def addIngested (p : Progress) (f : IngestedFile) : Progress :=
  { p with
    report := p.report.addIngested f
    affected := p.affected.join f.unitNames
    orphaned := p.orphaned.join f.orphanedCallers
    ingested := p.ingested.insert f.path f }

/-- Record a file that was removed. -/
def addRemoved (p : Progress) (path : String) (units : List CodeUnit) (s : WriteSummary) : Progress :=
  { p with
    report := { p.report with filesDeleted := p.report.filesDeleted + 1 }
    affected := p.affected.join (NameSet.ofList (units.map (·.name)))
    orphaned := p.orphaned.join s.orphanedCallers
    updates := p.updates ++ [(.file path, none), (.callGraph path, none)] }

/-- Whether the call edges of a file may be out of date. -/
def needsCalls (p : Progress) (callers : NameSet) (checkpoints : Checkpoints) (f : ScannedFile) : Bool :=
  p.ingested.contains f.path ||
    (!p.blocked.contains f.path &&
      (p.orphaned.contains f.path || callers.contains f.path ||
        checkpoints.get? (.callGraph f.path) != some f.fingerprint))

/-- The file checkpoints that advance. -/
def advances (p : Progress) : List CheckpointUpdate :=
  p.ingested.toList.filterMap fun (path, f) =>
    if f.isComplete && !p.blocked.contains path then some (.file path, some f.fingerprint) else none

end Progress

/-- Scan the repository and compare it with the checkpoints and the graph. -/
def scan : Act Worklist := do
  let f ← filter
  let w ← get
  let stored ← Act.filePaths
  let checkpoints := (← get).checkpoints
  return detectChanges (f.survey w.tree w.denied) (checkpoints.state.get? ∘ .file)
    (NameSet.ofList (checkpoints.trackedFiles ++ stored))

/-- The start of a run over a worklist. -/
def begin (w : Worklist) : Progress where
  report :=
    { filesScanned := w.scanned
      filesNew := w.new.length
      filesChanged := w.changed.length
      filesUnchanged := w.unchanged.length
      failures := w.unreadable }
  blocked := NameSet.ofList (w.unreadable.map (·.path))

/-- Remove a file from the graph. -/
def remove (path : String) : Act (List CodeUnit × WriteSummary) := do
  let units ← Act.unitsInFile path
  return (units, ← Act.applyBatch [.removeFile path])

/-- Remove the files that were deleted. -/
def removeAll (p : Progress) : List String → Act Progress
  | [] => return p
  | path :: paths => do
    match ← (remove path).attempt with
    | .ok (units, summary) => removeAll (p.addRemoved path units summary) paths
    | .error e => removeAll (p.fail ⟨path, .delete, e.message⟩) paths

/-- Store the files that are new or changed, in the order of the schedule, until the run is cancelled. Before
each file the run looks whether it is to stop. -/
def ingestAll (p : Progress) : List ScannedFile → Act Progress
  | [] => return p
  | file :: files => do
    if ← Act.isCancelled then
      let p := p.block file.path
      ingestAll { p with report := { p.report with cancelled := true } } files
    else
      match ← Ingest.file file with
      | .ingested f => ingestAll (p.addIngested f) files
      | .failed f => ingestAll ((p.block f.path).fail f) files

/-- Resolve the calls of files, in the order of the schedule. -/
def linkCalls (p : Progress) : List ScannedFile → Act Progress
  | [] => return p
  | file :: files => do
    match ← (Linking.calls file).attempt with
    | .ok (fingerprint, outcome) =>
      linkCalls
        { p with
          report :=
            { p.report with
              callEdgesWritten := p.report.callEdgesWritten + outcome.edgesWritten
              unresolvedCalls := p.report.unresolvedCalls + outcome.unresolved }
          updates := p.updates ++ [(.callGraph file.path, some fingerprint)] } files
    | .error e => linkCalls ((p.block file.path).fail ⟨file.path, .calls, e.message⟩) files

/-- Save the graph, then update checkpoints. -/
def finish (updates : List CheckpointUpdate) : Act Unit := do
  Act.commit
  Act.setCheckpoints updates

/-- Whether files appeared or disappeared, so that any reference may resolve to something else. -/
def fileSetChanged (work : Worklist) (p : Progress) : Bool := !work.new.isEmpty || 0 < p.report.filesDeleted

/-- The files that the run leaves alone, if it has to look at them. -/
def untouched (work : Worklist) (p : Progress) : Act (List SourceFile) :=
  if fileSetChanged work p || !p.affected.isEmpty then
    storedFiles ((work.unchanged.map (·.path)).filter (!p.blocked.contains ·))
  else return []

/-- Resolve imports and calls after the files were stored. -/
def link (work : Worklist) (p : Progress) : Act Progress := do
  let others ← untouched work p
  let jobs := p.ingested.toList.map (fun (_, f) => (f.path, f.imports)) ++
    (if fileSetChanged work p then others.map importJob else [])
  let files := FileIndex.ofPaths (← Act.filePaths)
  let (failed, report) ← linkImports files p.report (← Act.inTurn .imports jobs)
  let p := { p with report, blocked := p.blocked.join failed }
  let callers := callersOf others p.affected
  let checkpoints := (← get).checkpoints.state
  linkCalls p (← Act.inTurn .calls (work.onDisk.filter (p.needsCalls callers checkpoints)))

/-- The first part of a full run: scan, remove what was deleted, and store what is new or changed. -/
def prepare : Act (Worklist × Progress) := do
  modify ({ · with cancelled := false })
  startRun
  let work ← scan
  let p ← removeAll (begin work) work.deleted
  let p ← ingestAll p (← Act.inTurn .write work.toIngest)
  Act.heed
  return (work, p)

/-- Bring the graph up to date with all files. -/
def full : Act SyncReport := do
  let (work, p) ← prepare
  if (← get).cancelled then
    finish p.updates
    withUsage { p.report with cancelled := true }
  else
    let p ← link work p
    finish (p.updates ++ p.advances)
    withUsage p.report

/-! ### A run for one file -/

/-- After a file was removed: resolve the imports of the others, and find the callers of its units. -/
def linkOthers (units : List CodeUnit) : Act (NameSet × SyncReport) := do
  let paths ← Act.filePaths
  let others ← storedFiles paths
  let (_, report) ← linkImports (FileIndex.ofPaths paths) {} (← Act.inTurn .imports (others.map importJob))
  return (callersOf others (NameSet.ofList (units.map (·.name))), report)

/-- Remove a deleted file, and resolve the imports of the others. -/
def removeFile (path : String) : Act SyncReport := do
  startRun
  let (units, summary) ← remove path
  let removed := 0 < summary.nodesRemoved
  let (callers, report) ← (if removed then linkOthers units else pure (∅, {}))
  let stale := NameSet.join summary.orphanedCallers callers
  finish ([(.file path, none), (.callGraph path, none)] ++ stale.toList.map fun p => (.callGraph p, none))
  return if removed then { report with filesDeleted := 1 } else report

/-- After a file was stored: resolve imports, and find the checkpoints to set and to clear. -/
def linkFile (path : String) (isNew : Bool) (f : IngestedFile) (report : SyncReport) :
    Act (List CheckpointUpdate × SyncReport) := do
  let paths ← Act.filePaths
  let others ← storedFiles (paths.filter (· != path))
  let jobs := (path, f.imports) :: (if isNew then others.map importJob else [])
  let (failed, report) ← linkImports (FileIndex.ofPaths paths) report (← Act.inTurn .imports jobs)
  Act.commit
  let advance : List CheckpointUpdate :=
    if f.isComplete && !failed.contains path then [(.file path, some f.fingerprint)] else []
  let stale := ((callersOf others f.unitNames).join f.orphanedCallers).insert path
  return (advance ++ stale.toList.map (fun p => (.callGraph p, none)), report)

/-- After a file was stored or failed: the checkpoints to update. -/
def linkOutcome (path : String) (isNew : Bool) (report : SyncReport) :
    FileOutcome → Act (List CheckpointUpdate × SyncReport)
  | .ingested f => linkFile path isNew f (report.addIngested f)
  | .failed f => return ([], report.fail f)

/-- Store a file whose content differs from its checkpoint. -/
def storeFile (file : ScannedFile) (isNew : Bool) (report : SyncReport) : Act SyncReport := do
  let (updates, report) ← linkOutcome file.path isNew report (← Ingest.file file)
  Act.setCheckpoints updates
  withUsage report

/-- Bring the graph up to date with one file. A path that the filter refuses is passed over. -/
def file (path : String) : Act SyncReport := do
  startRun
  let f ← filter
  let w ← get
  if !f.canAsk w.tree path then throw .overflow
  if !f.accepts w.tree path then return {}
  match w.readFile path with
  | .error .notFound => removeFile path
  | .error e => throw (.io e)
  | .ok content =>
    match w.registry.detect? path with
    | none => return {}
    | some language =>
      let scanned : ScannedFile := ⟨path, language, fingerprintBytes content⟩
      match w.checkpoints.state.get? (.file path) with
      | none => storeFile scanned true { filesScanned := 1, filesNew := 1 }
      | some fingerprint =>
        if fingerprint == scanned.fingerprint then return { filesScanned := 1, filesUnchanged := 1 }
        else storeFile scanned false { filesScanned := 1, filesChanged := 1 }

/-- Apply an event of the file system. -/
def event (e : FileEvent) : Act SyncReport :=
  match e.kind with
  | .created | .modified => file e.path
  | .deleted => removeFile e.path

end RepoAtlas.Sync
