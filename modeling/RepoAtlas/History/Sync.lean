import RepoAtlas.Engine.World
import RepoAtlas.History.Order

/-!
# Runs over the history

An incremental run records the commits since the checkpoint, which must still lead to the current
revision. A full run records all commits that lead to the current revision and forgets the others. The
commits are recorded parents first, each by one batch, and the graph is saved before the checkpoint
advances.
-/

namespace RepoAtlas

/-- What a run over the history did. -/
structure HistoryReport where
  repo : String
  isFull : Bool
  head : Option String := none
  checkpointBefore : Option String := none
  checkpointAfter : Option String := none
  /-- The commits that version control listed. -/
  commitsSeen : Nat := 0
  commitsWritten : Nat := 0
  /-- The listed commits that the graph had already. -/
  commitsSkipped : Nat := 0
  revisionsWritten : Nat := 0
  /-- The nodes that a full run forgot. -/
  nodesRemoved : Nat := 0

instance : ToJson HistoryReport where
  toJson r := .obj [
    ("repo_id", toJson r.repo), ("full", toJson r.isFull), ("head", toJson r.head),
    ("checkpoint_before", toJson r.checkpointBefore), ("checkpoint_after", toJson r.checkpointAfter),
    ("commits_seen", toJson r.commitsSeen), ("commits_written", toJson r.commitsWritten),
    ("commits_skipped", toJson r.commitsSkipped), ("revisions_written", toJson r.revisionsWritten),
    ("nodes_removed", toJson r.nodesRemoved)]

namespace CommitRecord

/-- The commit node of a record. -/
def toCommit (r : CommitRecord) (repo : String) : Commit where
  repo := repo
  revision := r.revision
  parents := r.parents
  authorEmail := r.authorEmail
  authoredAt := r.authoredAt
  committedAt := r.committedAt
  subject := r.subject
  body := r.body

/-- The author node of a record. -/
def toAuthor (r : CommitRecord) (repo : String) : Author := ⟨repo, r.authorEmail, r.authorName⟩

/-- The revision node of a change. -/
def toRevision (r : CommitRecord) (repo : String) (c : FileChange) : FileRevision where
  repo := repo
  revision := r.revision
  path := c.path
  change := c.change
  previousPath := c.previousPath
  additions := c.additions
  deletions := c.deletions

/-- The batch that records a commit, with edges to those of its parents that the graph has. -/
def batch (r : CommitRecord) (repo : String) (knownParents : List String) : WriteBatch :=
  let commit : NodeKey := .commit ⟨repo, r.revision⟩
  [.upsertNode (.author (r.toAuthor repo)), .upsertNode (.commit (r.toCommit repo)),
    .upsertEdge ⟨.authoredBy, commit, .author ⟨repo, r.authorEmail⟩⟩] ++
  knownParents.map (fun p => .upsertEdge ⟨.parent, commit, .commit ⟨repo, p⟩⟩) ++
  r.changes.flatMap fun c =>
    [.upsertNode (.fileRevision (r.toRevision repo c)),
      .upsertEdge ⟨.touches, commit, .revision ⟨repo, r.revision, c.path⟩⟩]

end CommitRecord

namespace HistorySync

/-- The parents that the graph has. -/
def knownParents (repo : String) : List String → Act (List String)
  | [] => return []
  | p :: ps => do
    let known ← Act.contains (.commit ⟨repo, p⟩)
    let rest ← knownParents repo ps
    return if known then p :: rest else rest

/-- Record commits in order. A commit that the graph has stays as it is. -/
def record (repo : String) (report : HistoryReport) : List CommitRecord → Act HistoryReport
  | [] => return report
  | r :: rs => do
    if ← Act.contains (.commit ⟨repo, r.revision⟩) then
      record repo { report with commitsSkipped := report.commitsSkipped + 1 } rs
    else
      let parents ← knownParents repo r.parents
      let _ ← Act.applyBatch (r.batch repo parents)
      record repo
        { report with
          commitsWritten := report.commitsWritten + 1
          revisionsWritten := report.revisionsWritten + r.changes.length } rs

/-- Record the commits that version control listed, parents first. -/
def recordAll (repo : String) (report : HistoryReport) (records : List CommitRecord) : Act HistoryReport :=
  record repo { report with commitsSeen := records.length } (topologicalOrder records)

/-- Save the graph, then set the checkpoint. -/
def finish (report : HistoryReport) (head : Option String) : Act HistoryReport := do
  Act.commit
  Act.setCheckpoints [(.revision report.repo, head)]
  return { report with checkpointAfter := head }

/-- Refuse a checkpoint that does not lead to the current revision. -/
def checkDivergence (recorded head : String) : Act Unit := do
  let known ← Act.askVcs (·.containsRevision recorded)
  let leads ← if known then Act.askVcs (·.isAncestor recorded head) else pure false
  if !leads then throw (.historyDivergence recorded head)

/-- Record the commits since the checkpoint. -/
def incremental (report : HistoryReport) : Act HistoryReport := do
  match ← Act.askVcs (·.head) with
  | none => return { report with checkpointAfter := report.checkpointBefore }
  | some head =>
    let report := { report with head := some head }
    let since := report.checkpointBefore
    if since == some head then return { report with checkpointAfter := since }
    else
      if let some recorded := since then checkDivergence recorded head
      let records ← Act.askVcs (·.commitsSince since head)
      finish (← recordAll report.repo report records) (some head)

/-- Record all commits that lead to the current revision, and forget the others. -/
def full (report : HistoryReport) : Act HistoryReport := do
  let head ← Act.askVcs (·.head)
  let report := { report with head }
  let records ←
    match head with
    | some h => Act.askVcs (·.commitsSince none h)
    | none => pure []
  let report ← recordAll report.repo report records
  let summary ← Act.applyBatch [.retainHistory report.repo (records.map (·.revision))]
  finish { report with nodesRemoved := summary.nodesRemoved } head

/-- Bring the history up to date. -/
def run (isFull : Bool) : Act HistoryReport := do
  let w ← get
  let report : HistoryReport :=
    { repo := w.root, isFull, checkpointBefore := w.checkpoints.state.get? (.revision w.root) }
  if isFull then full report else incremental report

end HistorySync

end RepoAtlas
