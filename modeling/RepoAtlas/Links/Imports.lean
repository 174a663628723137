import RepoAtlas.Paths

/-!
# Resolving imports

An import names a file of the repository: relative to the importing file, or by the segments of a
module path. Module paths are matched against stems, the paths without extension and package marker.
-/

namespace RepoAtlas

/-- The stem of a path: without extension, and without the marker of a package's main file. -/
def moduleStem (path : String) : String :=
  let plain :=
    match Text.cutLast? path "." with
    | some (stem, ext) => if Text.occursIn "/" ext then path else stem
    | none => path
  (["/__init__", "/mod", "/index"].findSome? (Text.stripEnd? plain ·)).getD plain

/-- A list without the elements that equal the one after them. -/
def dropRepeats {α : Type} [BEq α] : List α → List α
  | [] => []
  | [a] => [a]
  | a :: b :: l => if a == b then dropRepeats (b :: l) else a :: dropRepeats (b :: l)

/-- The files of a repository with their stems, sorted by path and then by stem, each once. -/
structure FileIndex where
  entries : Array (String × String)
deriving Inhabited

namespace FileIndex

/-- Whether an entry may stand before another one. -/
def inOrder (a b : String × String) : Bool := a.1 < b.1 || (a.1 == b.1 && a.2 ≤ b.2)

/-- Put an entry into a sorted list, before the first one that may stand after it. -/
def insertEntry (e : String × String) : List (String × String) → List (String × String)
  | [] => [e]
  | a :: l => if inOrder e a then e :: a :: l else a :: insertEntry e l

/-- The index of some paths. -/
def ofPaths (paths : List String) : FileIndex :=
  ⟨(dropRepeats ((paths.map fun p => (p, moduleStem p)).foldr insertEntry [])).toArray⟩

/-- Whether one of the entries from `low` up to `high` has a path, by halving the stretch. -/
def search (entries : Array (String × String)) (path : String) (low high : Nat)
    (hhigh : high ≤ entries.size) : Bool :=
  if h : low < high then
    let middle := low + (high - low) / 2
    have hmiddle : middle < entries.size := by omega
    if entries[middle].1 < path then search entries path (middle + 1) high hhigh
    else if path < entries[middle].1 then search entries path low middle (by omega)
    else true
  else false
termination_by high - low

def contains (i : FileIndex) (path : String) : Bool := search i.entries path 0 i.entries.size (Nat.le_refl _)

def size (i : FileIndex) : Nat := i.entries.size

/-- The paths whose stems satisfy `p`. -/
def pathsWhere (i : FileIndex) (p : String → Bool) : List String :=
  (i.entries.toList.filter fun e => p e.2).map (·.1)

end FileIndex

/-- Whether a path comes before another one among several matches: the shorter one, then the
smaller one. -/
def preferred (a b : String) : Bool :=
  a.utf8ByteSize < b.utf8ByteSize || (a.utf8ByteSize == b.utf8ByteSize && a < b)

/-- The preferred one of some paths. -/
def pick? : List String → Option String
  | [] => none
  | p :: ps => some (ps.foldl (fun best q => if preferred q best then q else best) p)

namespace Imports

/-- Where an import points. -/
inductive Reference where
  /-- The segments of a path below the root. -/
  | relative (segments : List String)
  /-- A module path. -/
  | module
  /-- Above the root. -/
  | outside
deriving DecidableEq

/-- Follow the parts of a relative path from a directory; `none` if they lead above the root. -/
def follow? : List String → List String → Option (List String)
  | base, [] => some base
  | base, part :: parts =>
    if part.isEmpty || part == "." then follow? base parts
    else if part == ".." then
      if base.isEmpty then none else follow? base.dropLast parts
    else follow? (base ++ [part]) parts

/-- Follow the leading `self` and `super` segments of a module path. -/
def followModules? : List String → List String → Option (List String)
  | module, [] => some module
  | module, s :: rest =>
    if s == "self" then followModules? module rest
    else if s == "super" then
      if module.isEmpty then none else followModules? module.dropLast rest
    else some (module ++ s :: rest)

/-- The pieces of a text between occurrences of two colons. -/
def splitColons (s : String) : List String :=
  go s.length s
where
  go : Nat → String → List String
    | 0, s => [s]
    | n + 1, s =>
      match Text.cut? s "::" with
      | some (a, rest) => a :: go n rest
      | none => [s]

/-- Go up from a directory; `none` above the root. -/
def climb? : Nat → List String → Option (List String)
  | 0, base => some base
  | n + 1, base => if base.isEmpty then none else climb? n base.dropLast

/-- Where an import of a file points. -/
def reference (importer target : String) : Reference :=
  let parts := Paths.parts importer
  let dir := parts.dropLast
  let ofOption (o : Option (List String)) : Reference :=
    match o with
    | some segments => .relative segments
    | none => .outside
  if Text.startsWith target "./" || Text.startsWith target "../" then
    ofOption (follow? dir (Paths.parts target))
  else if Text.startsWith target "self::" || Text.startsWith target "super::" then
    let stem := (Text.stripEnd? (parts.getLast?.getD "") ".rs").getD ""
    let module := if ["lib", "main", "mod"].contains stem then dir else dir ++ [stem]
    ofOption (followModules? module (splitColons target))
  else if Text.startsWith target "." then
    let cs := target.toList
    let dots := (cs.takeWhile (· == '.')).length
    let rest := (Text.splitAt '.' (.ofList (cs.drop dots))).filter (!·.isEmpty)
    ofOption ((climb? (dots - 1) dir).map (· ++ rest))
  else .module

/-- Try the beginnings of a list, the longest first, without the empty one. -/
def longestFirst {β : Type} (f : List String → Option β) (segments : List String) : Option β :=
  (List.range segments.length).reverse.findSome? fun n => f (segments.take (n + 1))

/-- The file that segments below the root name. Trailing ones may name something inside it. -/
def resolveRelative? (segments : List String) (files : FileIndex) : Option String :=
  longestFirst (fun l =>
    let key := Text.join "/" l
    if files.contains key then some key else pick? (files.pathsWhere (· == key))) segments

/-- The segments of a module path. -/
def segments (target : String) : List String :=
  let isMark (c : Char) : Bool := c == '.' || c == '/' || c == ':' || c == '\\'
  let parts := ((Text.pieces isMark target.toList).map String.ofList).filter fun s => !s.isEmpty && s != "@"
  match parts with
  | "crate" :: rest => rest
  | l => l

/-- Whether a stem ends in the segments of a key. -/
def endsWithSegments (stem key : String) : Bool := stem == key || Text.endsWith stem ("/" ++ key)

/-- Whether the segments of a key stand together in a stem. -/
def containsSegments (stem key : String) : Bool := Text.occursIn ("/" ++ key ++ "/") ("/" ++ stem ++ "/")

/-- The file that a module path names: its longest beginning that ends a stem, else its longest end
that stands in a stem. -/
def resolveModule? (target : String) (files : FileIndex) : Option String :=
  let parts := segments target
  (longestFirst (fun l =>
      let key := Text.join "/" l
      pick? (files.pathsWhere (endsWithSegments · key))) parts).or
    ((List.range parts.length).findSome? fun n =>
      let key := Text.join "/" (parts.drop n)
      pick? (files.pathsWhere (containsSegments · key)))

/-- The file that an import refers to; a file does not import itself. -/
def resolve? (importer target : String) (files : FileIndex) : Option String :=
  let target := Text.trim target
  if target.isEmpty then none
  else
    let found :=
      match reference importer target with
      | .relative segments => resolveRelative? segments files
      | .module => resolveModule? target files
      | .outside => none
    found.filter (· != importer)

end Imports

end RepoAtlas
