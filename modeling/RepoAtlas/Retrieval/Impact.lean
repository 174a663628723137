import RepoAtlas.Json.Basic

/-!
# What a change affects

The files that import a file, directly or through others, each at its least distance. The search goes wave by wave;
a queue of files with their distances finds the same files with the same questions in the same order.
-/

namespace RepoAtlas

/-- A file that a change affects, and how many imports lead to it. -/
structure ImpactEntry where
  depth : Nat
  path : String
deriving DecidableEq, Inhabited

instance : ToJson ImpactEntry where
  toJson e := .obj [("depth", toJson e.depth), ("path", toJson e.path)]

namespace Impact

variable {m : Type → Type} [Monad m]

/-- The importers of some files that were not seen before, and all that were seen then. -/
def importersOf (importers : String → m (List String)) :
    List String → List String → List String → m (List String × List String)
  | [], found, seen => pure (found, seen)
  | path :: paths, found, seen => do
    let fresh := ((← importers path).filter (!seen.contains ·)).eraseDups
    importersOf importers paths (found ++ fresh) (seen ++ fresh)

/-- The files at a distance and beyond, up to `n` steps further. -/
def levels (importers : String → m (List String)) :
    Nat → Nat → List String → List String → m (List ImpactEntry)
  | 0, _, _, _ => pure []
  | n + 1, depth, frontier, seen => do
    let (found, seen) ← importersOf importers frontier [] seen
    let here := found.map (ImpactEntry.mk depth)
    if found.isEmpty then pure here else return here ++ (← levels importers n (depth + 1) found seen)

/-- The files that a change of a path affects within a distance of at least one, by distance and
path. -/
def dependents (importers : String → m (List String)) (path : String) (maxDepth : Nat) :
    m (List ImpactEntry) := do
  let all ← levels importers (max maxDepth 1) 1 [path] [path]
  return all.mergeSort fun a b => a.depth < b.depth || (a.depth == b.depth && a.path ≤ b.path)

end Impact

end RepoAtlas
