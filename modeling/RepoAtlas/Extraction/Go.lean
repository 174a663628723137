import RepoAtlas.Extraction.Literal

/-!
# Reading Go

Functions, methods with the type of their receiver, and type declarations; imports by path; calls of
names and selections.
-/

namespace RepoAtlas.Go

open Syntax

/-- The type of a method's receiver, without stars and type arguments. -/
def receiverType? (src : Source) (t : Tree) : Option String := do
  let receiver ← t.child? "receiver"
  let type ← fieldText? src (← receiver.firstNamed?) "type"
  let base := Text.trim (Text.before (Text.trimStartBy (· == '*') type) "[")
  if base.isEmpty then none else some base

/-- What a node defines. -/
def definition? (src : Source) (s : Site) : Option DefinitionMatch :=
  let t := s.tree
  match t.kind with
  | "function_declaration" => do
    let name ← fieldText? src t "name"
    return { kind := .function, name := name, parameters := fieldText? src t "parameters" }
  | "method_declaration" => do
    let name ← fieldText? src t "name"
    return { kind := .function, name := name, parameters := fieldText? src t "parameters",
             owner := receiverType? src t }
  | "type_spec" => do
    let name ← fieldText? src t "name"
    return { kind := .classUnit, name := name }
  | _ => none

/-- The package that a node imports. -/
def imports (src : Source) (s : Site) : List String :=
  if s.tree.kind != "import_spec" then []
  else ((fieldText? src s.tree "path").map unquote).toList

/-- What a node calls: a name, or a selection. -/
def call? (src : Source) (s : Site) : Option CallMatch := do
  if s.tree.kind != "call_expression" then none
  let f ← s.tree.child? "function"
  let name ←
    match f.kind with
    | "identifier" => some (src.text f)
    | "selector_expression" => fieldText? src f "field"
    | _ => none
  return ⟨src.text f, name⟩

/-- How Go is read. -/
def classifier : Classifier := ⟨definition?, imports, call?, fun src => leadingComments? src ["//"]⟩

end RepoAtlas.Go
