import RepoAtlas.History.Record

/-!
# The order of commits

Commits are recorded after their parents. Among those that are ready, the order of the list is kept;
commits on a cycle, and those after them, come last.
-/

namespace RepoAtlas

namespace CommitOrder

/-- The place of a revision in a list; of a repeated one, the last. -/
def place? (records : List CommitRecord) (revision : String) : Option Nat :=
  (records.zipIdx.reverse.find? fun (r, _) => r.revision == revision).map (·.2)

/-- The places of the parents of a commit, each once. -/
def parentPlaces (records : List CommitRecord) (r : CommitRecord) : List Nat :=
  r.parents.eraseDups.filterMap (place? records)

/-- Count down the parents that the children of a placed commit wait for; those that wait for none
become ready. -/
def countDown (parents : List (List Nat)) (placed : Nat) (pending : List Nat) : List Nat × List Nat :=
  let children := (List.range parents.length).filter fun i => (parents.getD i []).contains placed
  children.foldl (fun (pending, ready) c =>
    let n := pending.getD c 0 - 1
    (pending.set c n, if n = 0 then ready ++ [c] else ready)) (pending, [])

/-- Place the ready commits, first come first. `n` bounds how many there can be. -/
def placeReady (parents : List (List Nat)) : Nat → List Nat → List Nat → List Nat
  | 0, _, _ => []
  | _ + 1, [], _ => []
  | n + 1, i :: ready, pending =>
    let (pending, released) := countDown parents i pending
    i :: placeReady parents n (ready ++ released) pending

/-- The places of all commits in their order. -/
def places (records : List CommitRecord) : List Nat :=
  let parents := records.map (parentPlaces records)
  let all := List.range records.length
  let pending := parents.map List.length
  let ready := all.filter fun i => pending.getD i 0 == 0
  let placed := placeReady parents records.length ready pending
  placed ++ all.filter (!placed.contains ·)

end CommitOrder

/-- Commits with parents first. -/
def topologicalOrder (records : List CommitRecord) : List CommitRecord :=
  (CommitOrder.places records).filterMap (records[·]?)

end RepoAtlas
