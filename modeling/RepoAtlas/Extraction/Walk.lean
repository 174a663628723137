import RepoAtlas.Extraction.Basic
import RepoAtlas.Syntax.Tree
import RepoAtlas.Text.Split

/-!
# Walking a syntax tree

A walk visits the nodes of a tree in pre-order and keeps the scopes that are open. A language says
of a node whether it defines, imports or calls something; the walk turns the answers into
definitions with qualified names, imports, and calls with their callers.

The walk moves a cursor and keeps no list of the nodes around it but the scopes, so that its depth does
not depend on the tree: it enters a node on the way down and leaves it on the way up.
-/

namespace RepoAtlas

open Syntax

/-- What a node may define. -/
inductive ScopeKind where
  | classUnit
  | function
  /-- A scope like a class that is not a unit itself. -/
  | type
  /-- A scope that only adds its name. -/
  | module
deriving DecidableEq, Inhabited

namespace ScopeKind

/-- Scopes whose functions are methods. -/
def isClassLike : ScopeKind → Bool
  | .classUnit | .type => true
  | .function | .module => false

end ScopeKind

/-- What a language says about a definition. -/
structure DefinitionMatch where
  kind : ScopeKind
  name : String
  parameters : Option String := none
  /-- The type that a definition outside of it belongs to. -/
  owner : Option String := none
deriving DecidableEq, Inhabited

/-- What a language says about a call. -/
structure CallMatch where
  callee : String
  name : String
deriving DecidableEq, Inhabited

/-- A node of a tree with its surroundings. -/
structure Site where
  tree : Tree
  /-- The positions among the children on the way to the node, the last step first. -/
  path : List Nat
  /-- The siblings before the node, nearest first. -/
  before : List Tree
  /-- The nodes around it, innermost first, each with the siblings before it. -/
  around : List (Tree × List Tree)

/-- The root of a tree. -/
def Site.root (t : Tree) : Site := ⟨t, [], [], []⟩

/-- The site of a node's parent, or the node's own. -/
def Site.parent (s : Site) : Site :=
  match s.around with
  | (t, before) :: around => ⟨t, s.path.drop 1, before, around⟩
  | [] => s

/-- A cursor on a node: the node with its surroundings, and the siblings after it and after each of the
nodes around it, innermost first. -/
structure Cursor where
  site : Site
  after : List Tree
  afterAround : List (List Tree)

namespace Cursor

/-- The cursor on the root of a tree. -/
def root (t : Tree) : Cursor := ⟨.root t, [], []⟩

/-- Move to the first child. -/
def firstChild? (c : Cursor) : Option Cursor :=
  match c.site.tree.children with
  | [] => none
  | t :: ts =>
    some ⟨⟨t, 0 :: c.site.path, [], (c.site.tree, c.site.before) :: c.site.around⟩, ts,
      c.after :: c.afterAround⟩

/-- Move to the next sibling. -/
def nextSibling? (c : Cursor) : Option Cursor :=
  match c.after, c.site.path with
  | t :: ts, i :: path =>
    some ⟨⟨t, (i + 1) :: path, c.site.tree :: c.site.before, c.site.around⟩, ts, c.afterAround⟩
  | _, _ => none

/-- Move to the parent. -/
def parent? (c : Cursor) : Option Cursor :=
  match c.afterAround with
  | [] => none
  | after :: afterAround => some ⟨c.site.parent, after, afterAround⟩

end Cursor

/-- How a language reads its nodes. -/
structure Classifier where
  definition? : Source → Site → Option DefinitionMatch
  imports : Source → Site → List String
  call? : Source → Site → Option CallMatch
  docstring? : Source → Site → Option String

/-- An open scope. -/
structure Scope where
  /-- The path of the node that opened it. -/
  opener : List Nat
  kind : ScopeKind
  name : String
  /-- The qualified name, if the scope is a unit. -/
  unit : Option String
deriving DecidableEq, Inhabited

/-- What a walk has found so far; lists hold the latest entry first. -/
structure WalkState where
  scopes : List Scope := []
  /-- How often each qualified name was met. -/
  seen : List String := []
  definitions : List Definition := []
  imports : List ImportRef := []
  calls : List CallSite := []
  faults : Nat := 0
deriving Inhabited

/-- The stretch that a node covers. -/
def Span.ofTree (t : Tree) : Span :=
  ⟨t.start.byte, t.stop.byte, t.start.row + 1, t.stop.row + 1⟩

/-- The head of a definition: the text before its body, or its first line. -/
def signature? (src : Source) (t : Tree) : Option String :=
  let head :=
    match t.child? "body" with
    | some body => some (src.between t.start.byte body.start.byte)
    | none => (Text.lines (src.text t)).head?
  match head with
  | none => none
  | some s =>
    let s := Text.trimEnd (Text.trimEndBy (· == ':') (Text.trim s))
    if s.isEmpty then none else some s

/-- The name by which a unit is recorded when it is the `n`-th with its qualified name. -/
def numbered (qualified : String) (n : Nat) : String :=
  if n ≤ 1 then qualified else qualified ++ "#" ++ toString n

namespace WalkState

/-- The innermost unit. -/
def caller? (s : WalkState) : Option String := s.scopes.findSome? (·.unit)

/-- The class that a definition belongs to: its owner, or the innermost scope like a class. -/
def enclosingClass? (s : WalkState) (d : DefinitionMatch) : Option String :=
  match d.owner with
  | some o => some o
  | none => (s.scopes.find? (·.kind.isClassLike)).map (·.name)

/-- The names of the open scopes, of the owner, and of the definition. -/
def qualifiedName (s : WalkState) (d : DefinitionMatch) : String :=
  Text.join "." (s.scopes.reverse.map (·.name) ++ d.owner.toList ++ [d.name])

/-- The kind of unit that a definition is; a function with an owner or directly in a class is a
method. -/
def unitKind? (s : WalkState) (d : DefinitionMatch) : Option UnitKind :=
  match d.kind with
  | .classUnit => some .classUnit
  | .function =>
    let inClass := d.owner.isSome || (s.scopes.head?.any (·.kind.isClassLike))
    some (if inClass then .method else .function)
  | .type | .module => none

/-- Record a definition and open its scope. -/
def define (lang : Classifier) (src : Source) (site : Site) (d : DefinitionMatch) (s : WalkState) :
    WalkState :=
  let qualified := s.qualifiedName d
  match s.unitKind? d with
  | none => { s with scopes := ⟨site.path, d.kind, d.name, none⟩ :: s.scopes }
  | some kind =>
    let unit := numbered qualified (s.seen.count qualified + 1)
    { s with
      scopes := ⟨site.path, d.kind, d.name, some unit⟩ :: s.scopes
      seen := qualified :: s.seen
      definitions :=
        { name := d.name
          qualifiedName := unit
          kind := kind
          enclosingClass := s.enclosingClass? d
          parameters := d.parameters
          signature := signature? src site.tree
          docstring := lang.docstring? src site
          source := src.text site.tree
          span := .ofTree site.tree } :: s.definitions }

/-- Visit a node: its imports, then its call, then its definition. A faulty node is only counted. -/
def enter (lang : Classifier) (src : Source) (site : Site) (s : WalkState) : WalkState :=
  if site.tree.isFaulty then { s with faults := s.faults + 1 }
  else
    let found := (lang.imports src site).map fun target =>
      { target := target, raw := Text.trim (src.text site.tree), span := .ofTree site.tree : ImportRef }
    let s := { s with imports := found.reverse ++ s.imports }
    let s :=
      match lang.call? src site with
      | some c => { s with calls := ⟨c.callee, c.name, s.caller?, .ofTree site.tree⟩ :: s.calls }
      | none => s
    match lang.definition? src site with
    | some d => s.define lang src site d
    | none => s

/-- Leave a node: close the scope that it opened. -/
def leave (path : List Nat) (s : WalkState) : WalkState :=
  match s.scopes with
  | scope :: rest => if scope.opener == path then { s with scopes := rest } else s
  | [] => s

end WalkState

/-- What a walk does next with the node of its cursor. -/
inductive WalkStep where
  | enter (c : Cursor)
  | leave (c : Cursor)

namespace WalkStep

/-- What a step does to the state. -/
def act (lang : Classifier) (src : Source) (s : WalkState) : WalkStep → WalkState
  | .enter c => s.enter lang src c.site
  | .leave c => s.leave c.site.path

/-- The step after a step: down to the first child, or else out of the node; from there to the next
sibling, or else out of the parent. The walk ends when it has left the root. -/
def next? : WalkStep → Option WalkStep
  | .enter c =>
    match c.firstChild? with
    | some child => some (.enter child)
    | none => some (.leave c)
  | .leave c =>
    match c.nextSibling? with
    | some sibling => some (.enter sibling)
    | none => c.parent?.map .leave

end WalkStep

/-- Do a step and those after it, at most `n` of them. -/
def performAll (lang : Classifier) (src : Source) : Nat → Option WalkStep → WalkState → WalkState
  | 0, _, s => s
  | _ + 1, none, s => s
  | n + 1, some step, s => performAll lang src n step.next? (step.act lang src s)

/-- Walk a tree. Each node is entered and left once. -/
def walk (lang : Classifier) (src : Source) (t : Tree) : WalkState :=
  performAll lang src (2 * t.size) (some (.enter (.root t))) {}

/-- What a walk finds in a tree. -/
def extractTree (lang : Classifier) (language text : String) (t : Tree) : Extraction :=
  let s := walk lang (.ofText text) t
  { language := language
    definitions := s.definitions.reverse
    imports := s.imports.reverse
    calls := s.calls.reverse
    status := if t.hasFault then .partially (max s.faults 1) else .complete }

end RepoAtlas
