import RepoAtlas.Json.Basic

/-!
# What is read from a source file

Definitions, imports and calls of one file, and whether the file could be read completely.
-/

namespace RepoAtlas

/-- The kinds of definitions that are kept as units. -/
inductive UnitKind where
  | classUnit
  | function
  | method
deriving DecidableEq, Inhabited

namespace UnitKind

def name : UnitKind → String
  | .classUnit => "class"
  | .function => "function"
  | .method => "method"

def ofName? : String → Option UnitKind
  | "class" => some .classUnit
  | "function" => some .function
  | "method" => some .method
  | _ => none

instance : ToJson UnitKind := ⟨fun k => .str k.name⟩
instance : OfJson UnitKind := ⟨fun j => do ofName? (← j.text?)⟩

end UnitKind

/-- A stretch of a file: bytes, and lines counted from one, the last included. -/
structure Span where
  startByte : Nat
  endByte : Nat
  lineStart : Nat
  lineEnd : Nat
deriving DecidableEq, Inhabited

instance : ToJson Span where
  toJson s := .obj [("start_byte", toJson s.startByte), ("end_byte", toJson s.endByte),
    ("line_start", toJson s.lineStart), ("line_end", toJson s.lineEnd)]

instance : OfJson Span where
  ofJson? j := do
    return ⟨← j.get? Nat "start_byte", ← j.get? Nat "end_byte", ← j.get? Nat "line_start",
      ← j.get? Nat "line_end"⟩

/-- A class, function or method. -/
structure Definition where
  name : String
  /-- The names of the scopes and its own, joined by points; unique in the file. -/
  qualifiedName : String
  kind : UnitKind
  /-- The nearest class around it. -/
  enclosingClass : Option String
  parameters : Option String
  /-- Its head, up to the body. -/
  signature : Option String
  docstring : Option String
  source : String
  span : Span
deriving DecidableEq, Inhabited

instance : ToJson Definition where
  toJson d := .obj [("name", toJson d.name), ("qualified_name", toJson d.qualifiedName),
    ("kind", toJson d.kind), ("enclosing_class", toJson d.enclosingClass),
    ("parameters", toJson d.parameters), ("signature", toJson d.signature),
    ("docstring", toJson d.docstring), ("source", toJson d.source), ("span", toJson d.span)]

/-- A reference to a module or a path. -/
structure ImportRef where
  target : String
  /-- The whole statement. -/
  raw : String
  span : Span
deriving DecidableEq, Inhabited

instance : ToJson ImportRef where
  toJson i := .obj [("target", toJson i.target), ("raw", toJson i.raw), ("span", toJson i.span)]

/-- A call. -/
structure CallSite where
  /-- The called expression as it is written. -/
  callee : String
  /-- The last name of the called expression. -/
  name : String
  /-- The qualified name of the innermost unit around the call. -/
  caller : Option String
  span : Span
deriving DecidableEq, Inhabited

instance : ToJson CallSite where
  toJson c := .obj [("callee", toJson c.callee), ("name", toJson c.name),
    ("caller", toJson c.caller), ("span", toJson c.span)]

/-- Whether a file could be read without errors. -/
inductive ParseStatus where
  | complete
  | partially (faults : Nat)
deriving DecidableEq, Inhabited

instance : ToJson ParseStatus where
  toJson
    | .complete => .str "complete"
    | .partially n => .obj [("partial", .obj [("error_nodes", toJson n)])]

/-- All that is read from one file. -/
structure Extraction where
  language : String
  definitions : List Definition
  imports : List ImportRef
  calls : List CallSite
  status : ParseStatus
deriving DecidableEq, Inhabited

/-- Whether something in the file could not be read. -/
def Extraction.isPartial (e : Extraction) : Bool := e.status != .complete

instance : ToJson Extraction where
  toJson e := .obj [("language", toJson e.language), ("definitions", toJson e.definitions),
    ("imports", toJson e.imports), ("calls", toJson e.calls), ("status", toJson e.status)]

end RepoAtlas
