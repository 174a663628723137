import RepoAtlas.Graph.Node

/-!
# Commits as version control reports them
-/

namespace RepoAtlas

/-- How a commit changed a path. -/
structure FileChange where
  path : String
  /-- The path before a rename. -/
  previousPath : Option String
  change : ChangeKind
  additions : Nat
  deletions : Nat
deriving DecidableEq, Inhabited

/-- A commit with its changes. -/
structure CommitRecord where
  revision : String
  parents : List String
  authorName : String
  authorEmail : String
  authoredAt : Instant
  committedAt : Instant
  subject : String
  body : String
  changes : List FileChange
deriving DecidableEq, Inhabited

/-- A merge has more than one parent. -/
def CommitRecord.isMerge (r : CommitRecord) : Bool := 1 < r.parents.length

instance : ToJson FileChange where
  toJson c := .obj [("path", toJson c.path), ("previous_path", toJson c.previousPath),
    ("change", toJson c.change), ("additions", toJson c.additions), ("deletions", toJson c.deletions)]

instance : OfJson FileChange where
  ofJson? j := do
    return {
      path := ← j.get? String "path"
      previousPath := ← j.opt? String "previous_path"
      change := ← j.get? ChangeKind "change"
      additions := ← (← j.member? "additions").word32?
      deletions := ← (← j.member? "deletions").word32? }

instance : ToJson CommitRecord where
  toJson r := .obj [("revision", toJson r.revision), ("parents", toJson r.parents),
    ("author_name", toJson r.authorName), ("author_email", toJson r.authorEmail),
    ("authored_at", toJson r.authoredAt), ("committed_at", toJson r.committedAt),
    ("subject", toJson r.subject), ("body", toJson r.body), ("changes", toJson r.changes)]

instance : OfJson CommitRecord where
  ofJson? j := do
    return {
      revision := ← j.get? String "revision"
      parents := ← j.get? (List String) "parents"
      authorName := ← j.get? String "author_name"
      authorEmail := ← j.get? String "author_email"
      authoredAt := ← j.get? Instant "authored_at"
      committedAt := ← j.get? Instant "committed_at"
      subject := ← j.get? String "subject"
      body := ← j.get? String "body"
      changes := ← j.get? (List FileChange) "changes" }

/-- What can be asked of version control. Answers can fail with a reason. -/
structure Vcs where
  /-- The current revision, if there is one. -/
  head : Except String (Option String)
  containsRevision : String → Except String Bool
  isAncestor : String → String → Except String Bool
  /-- The commits reachable from a revision and not from another one. -/
  commitsSince : Option String → String → Except String (List CommitRecord)

namespace Vcs

/-- The revisions reachable over parents, among some commits: one more step from those found. -/
def spread (commits : List CommitRecord) (found : List String) : List String :=
  let parents := commits.flatMap fun c => if found.contains c.revision then c.parents else []
  found ++ parents.eraseDups.filter (!found.contains ·)

/-- Repeat a step. -/
def repeated {α : Type} (f : α → α) : Nat → α → α
  | 0, a => a
  | n + 1, a => repeated f n (f a)

/-- The revisions reachable from one, itself included. -/
def reachable (commits : List CommitRecord) (revision : String) : List String :=
  repeated (spread commits) commits.length [revision]

/-- The version control of a list of commits. The question named by `broken` fails. -/
def ofCommits (commits : List CommitRecord) (head : Option String) (broken : Option String) : Vcs :=
  let guard {α : Type} (method : String) (a : α) : Except String α :=
    if broken = some method then .error ("vcs: " ++ method ++ " broke") else .ok a
  { head := guard "head" head
    containsRevision := fun r => guard "contains_revision" (commits.any (·.revision == r))
    isAncestor := fun a d => guard "is_ancestor" ((reachable commits d).contains a)
    commitsSince := fun since h =>
      let excluded := (since.map (reachable commits)).getD []
      let included := reachable commits h
      guard "commits_since"
        (commits.filter fun c => included.contains c.revision && !excluded.contains c.revision) }

end Vcs

end RepoAtlas
