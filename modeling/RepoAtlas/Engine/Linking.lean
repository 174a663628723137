import RepoAtlas.Engine.Ingest
import RepoAtlas.Links.Calls
import RepoAtlas.Links.Imports

/-!
# Import edges and call edges

The import references of a file are resolved against the stored files, and its call sites against the
stored units. In both cases the edges that leave the file are replaced as a whole.
-/

namespace RepoAtlas.Linking

/-- What linking a file did. -/
structure Outcome where
  edgesWritten : Nat
  unresolved : Nat

/-- Replace the import edges of a file by what its references resolve to. -/
def imports (path : String) (targets : List String) (files : FileIndex) : Act Outcome := do
  let found := targets.map (Imports.resolve? path · files)
  let resolved := NameSet.ofList (found.filterMap id)
  let summary ← Act.applyBatch [.replaceImports path resolved.toList]
  return ⟨summary.edgesWritten, found.countP (·.isNone)⟩

/-- Where the resolution of the call sites of a file stands. -/
structure CallScan where
  /-- The units of each name that was looked up. -/
  named : List (String × List CodeUnit) := []
  /-- The calls found, as ids of caller and callee. -/
  calls : List (String × String) := []
  unresolved : Nat := 0

namespace CallScan

/-- The units of a name, which are looked up once. -/
def candidates (s : CallScan) (name : String) : Act (List CodeUnit × CallScan) := do
  match s.named.lookup name with
  | some units => return (units, s)
  | none =>
    let units ← Act.unitsNamed name
    return (units, { s with named := (name, units) :: s.named })

/-- The unit that a call site stands in. -/
def caller? (units : List CodeUnit) (c : CallSite) : Option CodeUnit := do
  let name ← c.caller
  units.reverse.find? (·.qualifiedName == name)

/-- Resolve a call site. A call outside of all units is passed over, and so is a call of a unit by
itself. -/
def visit (path : String) (units : List CodeUnit) (s : CallScan) (c : CallSite) : Act CallScan := do
  match caller? units c with
  | none => return s
  | some caller =>
    let (named, s) ← s.candidates c.name
    match resolveCallee? path named with
    | none => return { s with unresolved := s.unresolved + 1 }
    | some callee =>
      if callee.id == caller.id then return s
      else return { s with calls := (caller.id, callee.id) :: s.calls }

/-- Resolve call sites one after the other. -/
def visitAll (path : String) (units : List CodeUnit) (s : CallScan) : List CallSite → Act CallScan
  | [] => return s
  | c :: cs => do visitAll path units (← s.visit path units c) cs

end CallScan

/-- Replace the call edges of a file by what its call sites resolve to. The answer holds the fingerprint
of the content that the calls were read from. -/
def calls (file : ScannedFile) : Act (String × Outcome) := do
  let w ← get
  match w.readFile file.path with
  | .error e => throw (.io e)
  | .ok content =>
    match w.registry.extract? (Text.lossy content) file.language with
    | none => throw (.unsupportedLanguage file.language)
    | some x =>
      let units ← Act.unitsInFile file.path
      let scan ← CallScan.visitAll file.path units {} x.calls
      let summary ← Act.applyBatch [.replaceCalls file.path scan.calls.reverse]
      return (fingerprintBytes content, ⟨summary.edgesWritten, scan.unresolved⟩)

end RepoAtlas.Linking
