import RepoAtlas.Extraction.Walk

/-!
# Texts of nodes

The text of a field, the content of a string literal, and the comments above a definition.
-/

namespace RepoAtlas

open Syntax

/-- The text of the child in a field, if it is not empty. -/
def fieldText? (src : Source) (t : Tree) (field : String) : Option String := do
  let s := src.text (← t.child? field)
  if s.isEmpty then none else some s

/-- Whether a character may stand before the quotes of a string literal. -/
def isLiteralLetter (c : Char) : Bool := "rbfuRBFU".toList.contains c

/-- A string literal without its letters and quotes. -/
def unquote (literal : String) : String :=
  let s := Text.trimStartBy isLiteralLetter (Text.trim literal)
  let inner := ["\"\"\"", "'''", "\"", "'", "`"].findSome? fun quotes => do
    Text.stripEnd? (← Text.stripStart? s quotes) quotes
  inner.getD s

/-- A comment without its marks: its start, its end, and a star before each line. -/
def cleanComment (text start : String) : String :=
  let body := (Text.stripStart? text start).getD text
  let body := (Text.stripEnd? body "*/").getD body
  let clean (line : String) : String :=
    let line := Text.trim line
    Text.trim ((Text.stripStart? line "*").getD line)
  Text.trim (Text.join "\n" ((Text.lines body).map clean))

/-- The comments among some siblings, nearest first, that stand line by line above the row
`expected`. Attributes between them are passed over. The result is the farthest comment first. -/
def commentsAbove (src : Source) (starts : List String) (expected : Nat) : List Tree → List String
  | [] => []
  | t :: ts =>
    if t.kind == "attribute_item" || t.kind == "decorator" then
      commentsAbove src starts t.start.row ts
    else if !Text.occursIn "comment" t.kind || t.stop.row + 1 < expected then []
    else
      let text := Text.trim (src.text t)
      match starts.find? (Text.startsWith text) with
      | none => []
      | some start => commentsAbove src starts t.start.row ts ++ [cleanComment text start]

/-- Nodes that wrap a definition and carry its comments. -/
def wrappers : List String := ["export_statement", "decorated_definition", "type_declaration"]

/-- A node's own row and earlier siblings, or those of a node that wraps it. -/
def Site.anchor (s : Site) : Tree × List Tree :=
  match s.around with
  | (parent, before) :: _ => if wrappers.contains parent.kind then (parent, before) else (s.tree, s.before)
  | [] => (s.tree, s.before)

/-- The text of the comments directly above a definition that begin with one of `starts`. -/
def leadingComments? (src : Source) (starts : List String) (s : Site) : Option String :=
  let (anchor, before) := s.anchor
  let doc := Text.trim (Text.join "\n" (commentsAbove src starts anchor.start.row before))
  if doc.isEmpty then none else some doc

end RepoAtlas
