/-!
# JSON documents

The values of JSON. Numbers keep their kind: whole numbers, doubles and singles are written and read
differently.
-/

namespace RepoAtlas

/-- A JSON document. -/
inductive Json where
  | null
  | bool (b : Bool)
  | int (n : Int)
  | float (x : Float)
  | single (x : Float32)
  | str (s : String)
  | arr (items : List Json)
  | obj (fields : List (String × Json))
deriving BEq, Inhabited

namespace Json

/-- The value of a member, the last one if the name is repeated. -/
def member? (name : String) : Json → Option Json
  | .obj fields => (fields.reverse.find? (·.1 == name)).map (·.2)
  | _ => none

/-- The items of an array. -/
def items? : Json → Option (List Json)
  | .arr l => some l
  | _ => none

/-- The members of an object. -/
def fields? : Json → Option (List (String × Json))
  | .obj l => some l
  | _ => none

/-- The text of a string. -/
def text? : Json → Option String
  | .str s => some s
  | _ => none

/-- A double, or `null` in place of a number that is not finite. -/
def ofFloat (x : Float) : Json := if x.isFinite then .float x else .null

/-- A single, or `null` in place of a number that is not finite. -/
def ofSingle (x : Float32) : Json := if x.isFinite then .single x else .null

end Json

/-- Types that are written as JSON. -/
class ToJson (α : Type) where
  toJson : α → Json

/-- Types that are read from JSON; a document of another shape is refused. -/
class OfJson (α : Type) where
  ofJson? : Json → Option α

export ToJson (toJson)
export OfJson (ofJson?)

instance : ToJson Json := ⟨id⟩
instance : OfJson Json := ⟨some⟩
instance : ToJson String := ⟨.str⟩
instance : OfJson String := ⟨Json.text?⟩
instance : ToJson Bool := ⟨.bool⟩
instance : ToJson Nat := ⟨fun n => .int n⟩
instance : ToJson Int := ⟨.int⟩
instance : ToJson Float := ⟨.ofFloat⟩
instance : ToJson Float32 := ⟨.ofSingle⟩

instance : OfJson Bool where
  ofJson?
    | .bool b => some b
    | _ => none

/-- A whole number between two bounds. -/
def Json.intWithin? (low high : Int) : Json → Option Int
  | .int n => if low ≤ n && n ≤ high then some n else none
  | _ => none

/-- Natural numbers are read in the range of a 64-bit word. -/
instance : OfJson Nat where
  ofJson? j := (j.intWithin? 0 (UInt64.size - 1)).map Int.toNat

/-- Whole numbers are read in the range of a signed 64-bit word. -/
instance : OfJson Int where
  ofJson? j := j.intWithin? Int64.minValue.toInt Int64.maxValue.toInt

/-- A natural number in the range of a 32-bit word. -/
def Json.word32? (j : Json) : Option Nat := (j.intWithin? 0 (UInt32.size - 1)).map Int.toNat

/-- A double; whole numbers are accepted. -/
instance : OfJson Float where
  ofJson?
    | .float x => some x
    | .single x => some x.toFloat
    | .int n => some (.ofInt n)
    | _ => none

/-- A single, rounded from the double. -/
instance : OfJson Float32 where
  ofJson?
    | .single x => some x
    | j => (ofJson? j : Option Float).map Float.toFloat32

instance {α : Type} [ToJson α] : ToJson (List α) := ⟨fun l => .arr (l.map toJson)⟩

instance {α : Type} [OfJson α] : OfJson (List α) where
  ofJson? j := do (← j.items?).mapM ofJson?

instance {α : Type} [ToJson α] : ToJson (Option α) where
  toJson
    | some a => toJson a
    | none => .null

instance {α : Type} [OfJson α] : OfJson (Option α) where
  ofJson?
    | .null => some none
    | j => (ofJson? j).map some

instance {α β : Type} [ToJson α] [ToJson β] : ToJson (α × β) where
  toJson p := .arr [toJson p.1, toJson p.2]

instance {α β : Type} [OfJson α] [OfJson β] : OfJson (α × β) where
  ofJson?
    | .arr [a, b] => do return (← ofJson? a, ← ofJson? b)
    | _ => none

/-- A member that must be there. -/
def Json.get? (α : Type) [OfJson α] (j : Json) (name : String) : Option α := do
  ofJson? (← j.member? name)

/-- A member that may be missing or `null`. -/
def Json.opt? (α : Type) [OfJson α] (j : Json) (name : String) : Option (Option α) :=
  match j.member? name with
  | none => some none
  | some v => ofJson? v

/-- A member that takes a default when it is missing. -/
def Json.getD? (α : Type) [OfJson α] (j : Json) (name : String) (default : α) : Option α :=
  match j.member? name with
  | none => some default
  | some v => ofJson? v

end RepoAtlas
