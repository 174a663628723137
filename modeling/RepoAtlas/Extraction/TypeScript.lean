import RepoAtlas.Extraction.Literal

/-!
# Reading JavaScript and TypeScript

Functions, methods, classes, interfaces and functions bound to a variable; imports, re-exports and
`require` calls; calls and constructions; documentation comments.
-/

namespace RepoAtlas.TypeScript

open Syntax

/-- The values that make a variable a function. -/
def functionValues : List String := ["arrow_function", "function_expression", "function"]

/-- What a node defines. -/
def definition? (src : Source) (s : Site) : Option DefinitionMatch :=
  let t := s.tree
  match t.kind with
  | "function_declaration" | "generator_function_declaration" | "method_definition" => do
    let name ← fieldText? src t "name"
    return { kind := .function, name := name, parameters := fieldText? src t "parameters" }
  | "class_declaration" | "abstract_class_declaration" | "interface_declaration" => do
    let name ← fieldText? src t "name"
    return { kind := .classUnit, name := name }
  | "variable_declarator" => do
    let value ← t.child? "value"
    if !functionValues.contains value.kind then none
    let name ← t.child? "name"
    if name.kind != "identifier" then none
    let parameters := fieldText? src value "parameters" <|> fieldText? src value "parameter"
    return { kind := .function, name := src.text name, parameters := parameters }
  | _ => none

/-- The modules that a node imports. -/
def imports (src : Source) (s : Site) : List String :=
  let t := s.tree
  match t.kind with
  | "import_statement" | "export_statement" =>
    ((fieldText? src t "source").map unquote).toList
  | "call_expression" =>
    let required := do
      let f ← t.child? "function"
      if f.kind != "identifier" || src.text f != "require" then none
      let first ← (← t.child? "arguments").firstNamed?
      if first.kind != "string" then none
      return unquote (src.text first)
    required.toList
  | _ => []

/-- What a node calls or constructs: a name, or a member of something. -/
def call? (src : Source) (s : Site) : Option CallMatch := do
  let target ←
    match s.tree.kind with
    | "call_expression" => s.tree.child? "function"
    | "new_expression" => s.tree.child? "constructor"
    | _ => none
  let name ←
    match target.kind with
    | "identifier" => some (src.text target)
    | "member_expression" => fieldText? src target "property"
    | _ => none
  return ⟨src.text target, name⟩

/-- The documentation comment above a definition, or above the declaration of a variable. -/
def docstring? (src : Source) (s : Site) : Option String :=
  leadingComments? src ["/**"] (if s.tree.kind == "variable_declarator" then s.parent else s)

/-- How JavaScript and TypeScript are read. -/
def classifier : Classifier := ⟨definition?, imports, call?, docstring?⟩

end RepoAtlas.TypeScript
