import RepoAtlas.Text.Split

/-!
# File paths

Paths with `/` between their parts, read by components: repeated separators and inner dots vanish.
-/

namespace RepoAtlas.Paths

/-- A part of a path. -/
inductive Component where
  | root
  /-- A dot at the beginning. -/
  | here
  /-- Two dots. -/
  | up
  | name (s : String)
deriving DecidableEq, Inhabited

/-- The components of the parts between separators; a dot counts only as the `first` part. -/
def componentsOfParts (first : Bool) : List String → List Component
  | [] => []
  | p :: ps =>
    let rest := componentsOfParts false ps
    if p.isEmpty then componentsOfParts first ps
    else if p == "." then if first then .here :: rest else rest
    else if p == ".." then .up :: rest
    else .name p :: rest

/-- The components of a path. -/
def components (path : String) : List Component :=
  let parts := Text.splitAt '/' path
  if Text.startsWith path "/" then .root :: componentsOfParts false parts
  else componentsOfParts true parts

/-- Whether a path begins at the root of the file system. -/
def isAbsolute (path : String) : Bool := Text.startsWith path "/"

/-- The last part of a path, if it is a name. -/
def fileName? (path : String) : Option String :=
  match (components path).getLast? with
  | some (.name s) => some s
  | _ => none

/-- What follows the last point of a path's last name. A point at its start does not count. -/
def extension? (path : String) : Option String := do
  let name ← fileName? path
  let (stem, ext) ← Text.cutLast? name "."
  if stem.isEmpty then none else some ext

/-- A name without its last point and what follows. A point at its start does not count. -/
def stem (name : String) : String :=
  match Text.cutLast? name "." with
  | none => name
  | some (before, _) => if before.isEmpty then name else before

/-- A path whose last name has another extension. A path that does not end with a name has none. -/
def withExtension? (path ext : String) : Option String := do
  let name ← fileName? path
  let front ← Text.stripEnd? path name
  return front ++ stem name ++ "." ++ ext

/-- The text of a list of components. -/
def ofComponents : List Component → String
  | .root :: cs => "/" ++ joined cs
  | cs => joined cs
where
  joined (cs : List Component) : String :=
    Text.join "/" (cs.map fun
      | .root => ""
      | .here => "."
      | .up => ".."
      | .name s => s)

/-- A path with another one below it; an absolute one replaces it. -/
def join (base below : String) : String :=
  if isAbsolute below then below
  else if base.isEmpty then below
  else if Text.endsWith base "/" then base ++ below
  else base ++ "/" ++ below

/-- The path without its last component. -/
def parent? (path : String) : Option String :=
  match (components path).reverse with
  | [] => none
  | .root :: _ => none
  | _ :: rest => some (ofComponents rest.reverse)

/-- The path and all paths above it, nearest first. -/
def ancestors (path : String) : List String :=
  let cs := components path
  path :: go cs.reverse
where
  go : List Component → List String
    | [] => []
    | .root :: _ => []
    | _ :: rest => ofComponents rest.reverse :: go rest

/-- The path of `path` below `root`, with a single separator between parts. A path that is not
below the root, or that leads upwards, has none. -/
def relative? (root path : String) : Option String := do
  let below ← Text.after? (components root) (components path)
  let names ← (below.filter (· != .here)).mapM fun
    | .name s => some s
    | _ => none
  if names.isEmpty then none else some (Text.join "/" names)

/-- The parts of a relative path between separators. -/
def parts (path : String) : List String := Text.splitAt '/' path

/-- The proper beginnings of a list, shortest first, without the empty one. -/
def properPrefixes {α : Type} : List α → List (List α)
  | [] => []
  | [_] => []
  | a :: l => [a] :: (properPrefixes l).map (a :: ·)

end RepoAtlas.Paths
