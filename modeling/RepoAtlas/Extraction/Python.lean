import RepoAtlas.Extraction.Literal

/-!
# Reading Python

Functions and classes, imports by module, calls of names and attributes, and docstrings.
-/

namespace RepoAtlas.Python

open Syntax

/-- The names that an import lists, without their aliases. -/
def importedNames (src : Source) (t : Tree) : List String :=
  ((t.childrenOf "name").filterMap fun c =>
    if c.kind == "aliased_import" then fieldText? src c "name" else some (src.text c)).filter (!·.isEmpty)

/-- What a node defines. -/
def definition? (src : Source) (s : Site) : Option DefinitionMatch :=
  match s.tree.kind with
  | "function_definition" => do
    let name ← fieldText? src s.tree "name"
    return { kind := .function, name := name, parameters := fieldText? src s.tree "parameters" }
  | "class_definition" => do
    let name ← fieldText? src s.tree "name"
    return { kind := .classUnit, name := name }
  | _ => none

/-- The modules that a node imports. Where only dots stand for the module, each name is a module
beside or above the file. -/
def imports (src : Source) (s : Site) : List String :=
  match s.tree.kind with
  | "import_statement" => importedNames src s.tree
  | "import_from_statement" =>
    match fieldText? src s.tree "module_name" with
    | none => []
    | some m =>
      if m.toList.all (· == '.') then (importedNames src s.tree).map (m ++ ·) else [m]
  | _ => []

/-- What a node calls: a name, or an attribute of something. -/
def call? (src : Source) (s : Site) : Option CallMatch := do
  if s.tree.kind != "call" then none
  let f ← s.tree.child? "function"
  let name ←
    match f.kind with
    | "identifier" => some (src.text f)
    | "attribute" => fieldText? src f "attribute"
    | _ => none
  return ⟨src.text f, name⟩

/-- The string that is the first statement of a body. -/
def docstring? (src : Source) (s : Site) : Option String := do
  let body ← s.tree.child? "body"
  let first ← body.firstNamed?
  if first.kind != "expression_statement" then none
  let literal ← first.firstNamed?
  if literal.kind != "string" then none
  let doc := Text.trim (unquote (src.text literal))
  if doc.isEmpty then none else some doc

/-- How Python is read. -/
def classifier : Classifier := ⟨definition?, imports, call?, docstring?⟩

end RepoAtlas.Python
