import RepoAtlas.Decimal.Text
import RepoAtlas.Json.Parser
import RepoAtlas.Text.Lower
import RepoAtlas.Text.Split

/-!
# Values that are taken for each other

A setting may be given as a value of another kind: a number as text, a truth value as a word or as a
number, a text as a number. A value is fitted to the shape of the defaults.
-/

namespace RepoAtlas.Lenient

/-- The words for truth and falsehood. -/
def wordTruth? (s : String) : Option Bool :=
  let w := Text.lower s
  if ["true", "on", "yes"].contains w then some true
  else if ["false", "off", "no"].contains w then some false
  else none

/-- A whole number with an optional sign. -/
def readInt? (s : String) : Option Int :=
  let (sign, ds) : Int × List Char :=
    match s.toList with
    | '-' :: ds => (-1, ds)
    | '+' :: ds => (1, ds)
    | ds => (1, ds)
  if ds.isEmpty || !ds.all Char.isDigit then none else some (sign * Json.natOfDigits ds)

/-- A decimal with an optional point and exponent, or a name of what is no number. -/
def readFloat? (s : String) : Option Float := do
  let l := s.toList
  let isNegative := l.head? == some '-'
  let l := if isNegative || l.head? == some '+' then l.tail else l
  let signed (x : Float) : Float := if isNegative then -x else x
  let name := Text.asciiLower (.ofList l)
  if name == "inf" || name == "infinity" then return signed (1 / 0)
  if name == "nan" then return signed (0 / 0)
  let isMark (c : Char) : Bool := c == 'e' || c == 'E'
  let mantissa := l.takeWhile (!isMark ·)
  let mark := l.dropWhile (!isMark ·)
  let whole := mantissa.takeWhile (· != '.')
  let places := (mantissa.dropWhile (· != '.')).tail
  if (whole ++ places).isEmpty || !(whole ++ places).all Char.isDigit then none
  let e ← if mark.isEmpty then pure 0 else readInt? (.ofList mark.tail)
  return Json.toDouble isNegative (Json.natOfDigits (whole ++ places)) (e - places.length)

/-- A float as text: all its places, without a point if it is whole. -/
def floatText (x : Float) : String :=
  if x.isNaN then "NaN"
  else if x.isInf then (if x < 0 then "-inf" else "inf")
  else
    let s := Decimal.ofDouble Decimal.Scientific.positional x
    (Text.stripEnd? s ".0").getD s

/-- A truth value. -/
def truth? : Json → Option Bool
  | .bool b => some b
  | .int n => some (n != 0)
  | .float x => some (x != 0)
  | .str s =>
    match s with
    | "1" => some true
    | "0" => some false
    | _ => wordTruth? s
  | _ => none

/-- A whole number of 64 bits that is not negative. A float is rounded and kept in range. -/
def whole? : Json → Option Nat
  | .int n => if 0 ≤ n then some n.toNat else none
  | .bool b => some b.toNat
  | .float x => some x.round.toUInt64.toNat
  | .str s =>
    match wordTruth? s with
    | some b => some b.toNat
    | none => do
      let n ← readInt? s
      if Text.startsWith s "-" || UInt64.size ≤ n then none else some n.toNat
  | _ => none

/-- A number. -/
def number? : Json → Option Float
  | .float x => some x
  | .int n => some (.ofInt n)
  | .bool b => some (if b then 1 else 0)
  | .str s =>
    match wordTruth? s with
    | some b => some (if b then 1 else 0)
    | none => readFloat? s
  | _ => none

/-- A text. -/
def text? : Json → Option String
  | .str s => some s
  | .bool b => some (if b then "true" else "false")
  | .int n => some (toString n)
  | .float x => some (floatText x)
  | _ => none

mutual
/-- A value fitted to a default. Without a default it is a text, and a list holds texts. -/
def fit? : Json → Json → Option Json
  | .bool _, v => (truth? v).map .bool
  | .int _, v => (whole? v).map fun n => .int n
  | .float _, v | .single _, v => (number? v).map .float
  | .str _, v | .null, v => (text? v).map .str
  | .arr _, v => do return .arr (← (← v.items?).mapM fun j => (text? j).map .str)
  | .obj fields, v => do return .obj (← fitFields? (← v.fields?) fields)

/-- Given fields fitted to defaults; fields without a default are left out. -/
def fitFields? (given : List (String × Json)) : List (String × Json) → Option (List (String × Json))
  | [] => some []
  | (k, d) :: l => do
    let v ← match given.lookup k with
      | some v => fit? d v
      | none => some d
    return (k, v) :: (← fitFields? given l)
end

end RepoAtlas.Lenient
