import RepoAtlas.Scan.Collect

/-!
# What changed since the last run

Scanned files are compared with the fingerprints that were checkpointed for them.
-/

namespace RepoAtlas

/-- The steps of a run at which a file can fail. -/
inductive Stage where
  | read
  | extract
  | embed
  | write
  | imports
  | calls
  | delete
deriving DecidableEq, Inhabited

namespace Stage

def name : Stage → String
  | .read => "read"
  | .extract => "extract"
  | .embed => "embed"
  | .write => "write"
  | .imports => "imports"
  | .calls => "calls"
  | .delete => "delete"

def ofName? (s : String) : Option Stage :=
  [read, extract, embed, write, imports, calls, delete].find? (·.name == s)

instance : ToJson Stage := ⟨fun s => .str s.name⟩
instance : OfJson Stage := ⟨fun j => do ofName? (← j.text?)⟩

end Stage

/-- A file that a run could not handle. -/
structure FileFailure where
  path : String
  stage : Stage
  reason : String
deriving DecidableEq, Inhabited

instance : ToJson FileFailure where
  toJson f := .obj [("path", toJson f.path), ("stage", toJson f.stage), ("reason", toJson f.reason)]

/-- What a walk found. -/
structure Collected where
  files : List ScannedFile := []
  /-- Files that exist but could not be read. -/
  unreadable : List FileFailure := []
deriving DecidableEq, Inhabited

/-- The failure of a file that may not be read. -/
def FileFailure.unread (path : String) : FileFailure := ⟨path, .read, FileError.denied.message⟩

/-- The files that the walk collects, where some may not be read. -/
def ScanFilter.survey (f : ScanFilter) (tree : FileTree) (denied : Std.ExtTreeSet String) : Collected :=
  let found := f.collect tree
  { files := found.filter (!denied.contains ·.path)
    unreadable := (found.filter (denied.contains ·.path)).map (.unread ·.path) }

/-- The files of a walk by what happened to them. -/
structure Worklist where
  new : List ScannedFile := []
  changed : List ScannedFile := []
  unchanged : List ScannedFile := []
  /-- Known paths that are gone. -/
  deleted : List String := []
  unreadable : List FileFailure := []

namespace Worklist

/-- The files that must be read, new ones first. -/
def toIngest (w : Worklist) : List ScannedFile := w.new ++ w.changed

/-- All files on disk that could be read. -/
def onDisk (w : Worklist) : List ScannedFile := w.new ++ w.changed ++ w.unchanged

def scanned (w : Worklist) : Nat := w.new.length + w.changed.length + w.unchanged.length

end Worklist

/-- Compare a walk with the checkpointed fingerprints. A known path that was not found is deleted. -/
def detectChanges (c : Collected) (checkpoint? : String → Option String)
    (known : Std.ExtTreeSet String) : Worklist :=
  let status (f : ScannedFile) : Option Bool := (checkpoint? f.path).map (· == f.fingerprint)
  let found := c.files.map (·.path) ++ c.unreadable.map (·.path)
  { new := c.files.filter fun f => status f == none
    changed := c.files.filter fun f => status f == some false
    unchanged := c.files.filter fun f => status f == some true
    deleted := (found.foldl (·.erase ·) known).toList
    unreadable := c.unreadable }

end RepoAtlas
