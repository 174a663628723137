import RepoAtlas.Json.Basic

/-!
# Debouncing

Events of one path that follow each other within a window become one event, with the kind of the
latest. Times are milliseconds of one clock and are passed in.
-/

namespace RepoAtlas

/-- What happened to a file. -/
inductive FileEventKind where
  | created
  | modified
  | deleted
deriving DecidableEq, Inhabited

namespace FileEventKind

def name : FileEventKind → String
  | .created => "created"
  | .modified => "modified"
  | .deleted => "deleted"

instance : ToJson FileEventKind := ⟨fun k => .str k.name⟩

instance : OfJson FileEventKind where
  ofJson? j := do
    let s ← j.text?
    [created, modified, deleted].find? (·.name == s)

end FileEventKind

/-- A change of a file. -/
structure FileEvent where
  path : String
  kind : FileEventKind
deriving DecidableEq, Inhabited

instance : ToJson FileEvent where
  toJson e := .obj [("path", toJson e.path), ("kind", toJson e.kind)]

instance : OfJson FileEvent where
  ofJson? j := do return ⟨← j.get? String "path", ← j.get? FileEventKind "kind"⟩

/-- An event that waits, and when its path was last heard of. -/
structure PendingEvent where
  event : FileEvent
  lastSeen : Nat
deriving DecidableEq, Inhabited

/-- The events that wait, in the order of their first arrival. -/
structure Debouncer where
  window : Nat
  pending : List PendingEvent := []
deriving DecidableEq, Inhabited

namespace Debouncer

/-- Record an event. It replaces one of the same path and starts its quiet time anew. -/
def push (d : Debouncer) (e : FileEvent) (now : Nat) : Debouncer :=
  let waits (p : PendingEvent) : Bool := p.event.path == e.path
  if d.pending.any waits then
    { d with pending := d.pending.map fun p => if waits p then ⟨e, now⟩ else p }
  else { d with pending := d.pending ++ [⟨e, now⟩] }

/-- Whether an event has been quiet for the whole window. -/
def isReady (d : Debouncer) (now : Nat) (p : PendingEvent) : Bool := d.window ≤ now - p.lastSeen

/-- Take out the events that have been quiet for the whole window. -/
def drainReady (d : Debouncer) (now : Nat) : List FileEvent × Debouncer :=
  ((d.pending.filter (d.isReady now)).map (·.event),
    { d with pending := d.pending.filter (!d.isReady now ·) })

/-- Take out all events. -/
def drainAll (d : Debouncer) : List FileEvent × Debouncer :=
  (d.pending.map (·.event), { d with pending := [] })

/-- When the next event becomes ready. -/
def nextDeadline (d : Debouncer) : Option Nat := (d.pending.map (·.lastSeen + d.window)).min?

end Debouncer

end RepoAtlas
