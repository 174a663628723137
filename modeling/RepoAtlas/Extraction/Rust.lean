import RepoAtlas.Extraction.Literal

/-!
# Reading Rust

Functions, types and traits as units, implementations and inline modules as scopes; `use`
declarations and modules in files of their own as imports; calls by path, field or name.
-/

namespace RepoAtlas.Rust

open Syntax

/-- The last name of a type's path, without type arguments. -/
def baseType (type : String) : String :=
  let s := Text.trim (Text.before type "<")
  match Text.cutLast? s "::" with
  | some (_, last) => last
  | none => s

/-- The path of a `use` declaration without lists, globs and aliases. -/
def usePath (argument : String) : String :=
  Text.trim (["::\x7b", "::*", " as "].foldl Text.before (Text.trim argument))

/-- What a node defines. -/
def definition? (src : Source) (s : Site) : Option DefinitionMatch :=
  let t := s.tree
  match t.kind with
  | "function_item" | "function_signature_item" => do
    let name ← fieldText? src t "name"
    return { kind := .function, name := name, parameters := fieldText? src t "parameters" }
  | "struct_item" | "enum_item" | "trait_item" | "union_item" => do
    let name ← fieldText? src t "name"
    return { kind := .classUnit, name := name }
  | "impl_item" => do
    let type ← fieldText? src t "type"
    return { kind := .type, name := baseType type }
  | "mod_item" => do
    let _ ← t.child? "body"
    let name ← fieldText? src t "name"
    return { kind := .module, name := name }
  | _ => none

/-- The modules that a node imports. A module in a file of its own lies beside the file. -/
def imports (src : Source) (s : Site) : List String :=
  let t := s.tree
  match t.kind with
  | "use_declaration" => ((fieldText? src t "argument").map usePath).toList
  | "mod_item" =>
    if (t.child? "body").isSome then []
    else ((fieldText? src t "name").map ("self::" ++ ·)).toList
  | _ => []

/-- The last name of a called expression; type arguments are looked through. -/
def calleeName? (src : Source) : Nat → Tree → Option String
  | 0, _ => none
  | n + 1, f =>
    match f.kind with
    | "identifier" => some (src.text f)
    | "scoped_identifier" => fieldText? src f "name"
    | "field_expression" => fieldText? src f "field"
    | "generic_function" => (f.child? "function").bind (calleeName? src n)
    | _ => none

/-- What a node calls. -/
def call? (src : Source) (s : Site) : Option CallMatch := do
  if s.tree.kind != "call_expression" then none
  let f ← s.tree.child? "function"
  return ⟨src.text f, ← calleeName? src f.size f⟩

/-- How Rust is read. -/
def classifier : Classifier := ⟨definition?, imports, call?, fun src => leadingComments? src ["///", "/**"]⟩

end RepoAtlas.Rust
