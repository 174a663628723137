/-!
# Syntax trees

A syntax tree is a tree of labelled nodes over a source text. A label gives the node's kind, the
field of its parent that it fills, and the stretch of text it covers. Comments are nodes too: they
stand between the children of the smallest node that has a token before and a token after them.
-/

namespace RepoAtlas.Syntax

/-- A place in a source text: its offset in bytes, its line counted from zero, and the width of the
line before it, a tab being eight wide. -/
structure Place where
  byte : Nat
  row : Nat
  column : Nat
deriving DecidableEq, Inhabited

/-- What is wrong with a node. -/
inductive Fault where
  | sound
  /-- Text that fits nowhere. -/
  | error
  /-- A token that should be there and is not. -/
  | missing
deriving DecidableEq, Inhabited

/-- What a tree says about one of its nodes. -/
structure Label where
  kind : String
  field : String := ""
  named : Bool := true
  fault : Fault := .sound
  start : Place
  stop : Place
deriving DecidableEq, Inhabited

/-- A syntax tree. -/
inductive Tree where
  | node (label : Label) (children : List Tree)
deriving Inhabited

namespace Tree

def label : Tree → Label
  | .node l _ => l

def children : Tree → List Tree
  | .node _ cs => cs

def kind (t : Tree) : String := t.label.kind

def start (t : Tree) : Place := t.label.start

def stop (t : Tree) : Place := t.label.stop

def isFaulty (t : Tree) : Bool := t.label.fault != .sound

/-- A node of some kind between two places. -/
def spanning (kind : String) (start stop : Place) (children : List Tree) : Tree :=
  .node { kind := kind, start := start, stop := stop } children

/-- A node of some kind over a tree and those that follow it. -/
def covering (kind : String) (first : Tree) (rest : List Tree) : Tree :=
  spanning kind first.start ((first :: rest).getLast?.getD first).stop (first :: rest)

/-- The same tree as the filler of a field. -/
def as (t : Tree) (field : String) : Tree :=
  match t with
  | .node l cs => .node { l with field := field } cs

/-- The same tree under another kind. -/
def withKind (t : Tree) (kind : String) : Tree :=
  match t with
  | .node l cs => .node { l with kind := kind } cs

/-- The first child that fills a field. -/
def child? (t : Tree) (field : String) : Option Tree :=
  t.children.find? (·.label.field == field)

/-- All children that fill a field. -/
def childrenOf (t : Tree) (field : String) : List Tree :=
  t.children.filter (·.label.field == field)

/-- The first child that is not mere punctuation. -/
def firstNamed? (t : Tree) : Option Tree :=
  t.children.find? (·.label.named)

mutual
/-- The number of nodes. -/
def size : Tree → Nat
  | .node _ cs => 1 + sizeAll cs

/-- The number of nodes of a list of trees. -/
def sizeAll : List Tree → Nat
  | [] => 0
  | t :: ts => t.size + sizeAll ts
end

mutual
/-- Whether some node of the tree is faulty. -/
def hasFault : Tree → Bool
  | .node l cs => l.fault != .sound || anyFault cs

/-- Whether some node of some tree is faulty. -/
def anyFault : List Tree → Bool
  | [] => false
  | t :: ts => t.hasFault || anyFault ts
end

/-- Whether a tree has tokens before the place `a` and reaches to the place `b` or beyond. -/
def surrounds (t : Tree) (a b : Place) : Bool :=
  t.start.byte < a.byte && b.byte ≤ t.stop.byte

mutual
/-- Put a comment into a tree that surrounds it. -/
def weave (c : Tree) : Tree → Tree
  | .node l cs => .node l (weaveAll c cs)

/-- Put a comment among trees: into the one that surrounds it, or else before the first that lies
after it. -/
def weaveAll (c : Tree) : List Tree → List Tree
  | [] => [c]
  | t :: ts =>
    if t.surrounds c.start c.stop then weave c t :: ts
    else if c.stop.byte ≤ t.start.byte && t.start.byte < t.stop.byte then c :: t :: ts
    else if c.start.byte < t.start.byte then c :: t :: ts
    else t :: weaveAll c ts
end

end Tree

/-- The texts of a source by stretches of bytes. -/
structure Source where
  bytes : ByteArray

/-- The source with the given text. -/
def Source.ofText (s : String) : Source := ⟨s.toUTF8⟩

/-- The text between two offsets. -/
def Source.between (s : Source) (a b : Nat) : String :=
  (String.fromUTF8? (s.bytes.extract a b)).getD ""

/-- The text that a node covers. -/
def Source.text (s : Source) (t : Tree) : String := s.between t.start.byte t.stop.byte

end RepoAtlas.Syntax
