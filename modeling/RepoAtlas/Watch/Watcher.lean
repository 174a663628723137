import RepoAtlas.Scan.Filter
import RepoAtlas.Watch.Debounce

/-!
# Changes of files that are watched

A change of the file tree shows as events for the paths that the filter of the repository accepts. The
filter is the one from when watching started; the ignore files below the root are read anew.
-/

namespace RepoAtlas

/-- A change of the file tree. -/
inductive TreeChange where
  | write (path : String) (content : Bytes)
  /-- A file that was written elsewhere is moved into place. -/
  | place (path : String) (content : Bytes)
  | delete (path : String)
  | rename (path target : String)

namespace TreeChange

/-- The tree after a change. -/
def apply (t : FileTree) : TreeChange → Except FileError FileTree
  | .write path content | .place path content => t.writeWithParents path content
  | .delete path => t.remove path
  | .rename path target => t.rename path target

/-- The events of a change, of all paths. -/
def events : TreeChange → List FileEvent
  | .write path _ => [⟨path, .modified⟩]
  | .place path _ => [⟨path, .created⟩]
  | .delete path => [⟨path, .deleted⟩]
  | .rename path target => [⟨path, .deleted⟩, ⟨target, .created⟩]

/-- The events of a change that led to a tree, one for each path that the filter accepts. -/
def seen (f : ScanFilter) (t : FileTree) (c : TreeChange) : List FileEvent :=
  let accepted := c.events.filter fun e => f.accepts t e.path
  (accepted.foldl (fun d e => d.push e 0) ({ window := 0 } : Debouncer)).drainAll.1

end TreeChange

end RepoAtlas
