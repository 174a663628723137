import RepoAtlas.Json.Basic
import RepoAtlas.Text.Split
import RepoAtlas.Text.Utf8

/-!
# Reading JSON

A reader of the JSON grammar. Whole numbers outside the 64-bit range become doubles, a name that is
repeated keeps its last value, and documents nested too deeply are refused.
-/

namespace RepoAtlas.Json

/-- Blanks between the tokens of JSON. -/
def isSpace (c : Char) : Bool := c == ' ' || c == '\t' || c == '\n' || c == '\r'

def skipSpace (l : List Char) : List Char := l.dropWhile isSpace

/-- Four hexadecimal digits. -/
def hex4? : List Char → Option (Nat × List Char)
  | a :: b :: c :: d :: rest => do
    let n ← [a, b, c, d].foldlM (fun n x => (Text.hexValue? x).map (16 * n + ·)) 0
    return (n, rest)
  | _ => none

/-- The character of an escape after the backslash; a high surrogate must be followed by a low one. -/
def escape? : List Char → Option (Char × List Char)
  | '"' :: rest => some ('"', rest)
  | '\\' :: rest => some ('\\', rest)
  | '/' :: rest => some ('/', rest)
  | 'b' :: rest => some (.ofNat 8, rest)
  | 'f' :: rest => some (.ofNat 12, rest)
  | 'n' :: rest => some ('\n', rest)
  | 'r' :: rest => some ('\r', rest)
  | 't' :: rest => some ('\t', rest)
  | 'u' :: rest => do
    let (n, rest) ← hex4? rest
    if 0xDC00 ≤ n && n ≤ 0xDFFF then none
    else if 0xD800 ≤ n && n ≤ 0xDBFF then
      match rest with
      | '\\' :: 'u' :: rest =>
        let (m, rest) ← hex4? rest
        if 0xDC00 ≤ m && m ≤ 0xDFFF then
          return (.ofNat (0x10000 + 1024 * (n - 0xD800) + (m - 0xDC00)), rest)
        else none
      | _ => none
    else return (.ofNat n, rest)
  | _ => none

/-- The rest of a quoted text; `out` holds what was read, latest first. -/
def stringTail? : Nat → List Char → List Char → Option (String × List Char)
  | 0, _, _ => none
  | _ + 1, _, [] => none
  | n + 1, out, c :: rest =>
    if c == '"' then some (.ofList out.reverse, rest)
    else if c == '\\' then
      match escape? rest with
      | some (e, rest) => stringTail? n (e :: out) rest
      | none => none
    else if c.toNat < 32 then none
    else stringTail? n (c :: out) rest

/-- The number of a list of decimal digits. -/
def natOfDigits (ds : List Char) : Nat := ds.foldl (fun n c => 10 * n + (c.toNat - 48)) 0

/-- The sign and the digits of an exponent. -/
def exponent? (rest : List Char) : Option (Int × List Char) :=
  let (neg, rest) :=
    match rest with
    | '-' :: r => (true, r)
    | '+' :: r => (false, r)
    | r => (false, r)
  let ds := rest.takeWhile Char.isDigit
  if ds.isEmpty then none
  else
    let n : Int := natOfDigits ds
    some (if neg then -n else n, rest.dropWhile Char.isDigit)

/-- The double nearest to `digits · 10 ^ e`; an exponent far out of range is not expanded. -/
def toDouble (negative : Bool) (digits : Nat) (e : Int) : Float :=
  let x :=
    if digits == 0 then 0
    else if 400 < (Nat.toDigits 10 digits).length + e then 1.0 / 0.0
    else if (Nat.toDigits 10 digits).length + e < -400 then 0
    else if 0 ≤ e then Float.ofScientific digits false e.toNat
    else Float.ofScientific digits true (-e).toNat
  if negative then -x else x

/-- A number. A double beyond the finite ones is refused. -/
def number? (input : List Char) : Option (Json × List Char) := do
  let (neg, rest) :=
    match input with
    | '-' :: r => (true, r)
    | r => (false, r)
  let whole := rest.takeWhile Char.isDigit
  if whole.isEmpty || (whole.length != 1 && whole.head? == some '0') then none
  let rest := rest.dropWhile Char.isDigit
  let (fraction, rest) ←
    match rest with
    | '.' :: r =>
      let ds := r.takeWhile Char.isDigit
      if ds.isEmpty then none else some (some ds, r.dropWhile Char.isDigit)
    | r => some (none, r)
  let (exponent, rest) ←
    match rest with
    | 'e' :: r | 'E' :: r => (exponent? r).map fun (e, r) => (some e, r)
    | r => some (none, r)
  let n := natOfDigits whole
  if fraction.isNone && exponent.isNone &&
      (if neg then n != 0 && n ≤ Int64.minValue.toInt.natAbs else n < UInt64.size) then
    return (.int (if neg then -(n : Int) else n), rest)
  let ds := fraction.getD []
  let x := toDouble neg (natOfDigits (whole ++ ds)) (exponent.getD 0 - ds.length)
  if x.isFinite then return (.float x, rest) else none

/-- Set a member, in place of an earlier one of the name. -/
def setField (fields : List (String × Json)) (name : String) (value : Json) : List (String × Json) :=
  if fields.any (·.1 == name) then fields.map fun f => if f.1 == name then (name, value) else f
  else (name, value) :: fields

mutual
/-- A document inside at most `depth` more levels. -/
def value? : Nat → Nat → List Char → Option (Json × List Char)
  | 0, _, _ => none
  | fuel + 1, depth, input =>
    match skipSpace input with
    | 'n' :: 'u' :: 'l' :: 'l' :: rest => some (.null, rest)
    | 't' :: 'r' :: 'u' :: 'e' :: rest => some (.bool true, rest)
    | 'f' :: 'a' :: 'l' :: 's' :: 'e' :: rest => some (.bool false, rest)
    | '"' :: rest => (stringTail? (rest.length + 1) [] rest).map fun (s, r) => (.str s, r)
    | '[' :: rest =>
      match depth, skipSpace rest with
      | 0, _ => none
      | _, ']' :: rest => some (.arr [], rest)
      | d + 1, rest => itemsTail? fuel d [] rest
    | '\x7b' :: rest =>
      match depth, skipSpace rest with
      | 0, _ => none
      | _, '\x7d' :: rest => some (.obj [], rest)
      | d + 1, rest => fieldsTail? fuel d [] rest
    | rest => number? rest

/-- The rest of an array, from an item on. -/
def itemsTail? : Nat → Nat → List Json → List Char → Option (Json × List Char)
  | 0, _, _, _ => none
  | fuel + 1, depth, out, input =>
    match value? fuel depth input with
    | none => none
    | some (v, rest) =>
      match skipSpace rest with
      | ',' :: rest => itemsTail? fuel depth (v :: out) rest
      | ']' :: rest => some (.arr (v :: out).reverse, rest)
      | _ => none

/-- The rest of an object, from a name on. -/
def fieldsTail? : Nat → Nat → List (String × Json) → List Char → Option (Json × List Char)
  | 0, _, _, _ => none
  | fuel + 1, depth, out, input =>
    match skipSpace input with
    | '"' :: rest =>
      match stringTail? (rest.length + 1) [] rest with
      | none => none
      | some (k, rest) =>
        match skipSpace rest with
        | ':' :: rest =>
          match value? fuel depth rest with
          | none => none
          | some (v, rest) =>
            let out := setField out k v
            match skipSpace rest with
            | ',' :: rest => fieldsTail? fuel depth out rest
            | '\x7d' :: rest => some (.obj out.reverse, rest)
            | _ => none
        | _ => none
    | _ => none
end

/-- How deeply documents may be nested. -/
def maxDepth : Nat := 127

/-- The document that a text holds. -/
def parse? (s : String) : Option Json := do
  let input := s.toList
  let (v, rest) ← value? (2 * input.length + 2) maxDepth input
  if (skipSpace rest).isEmpty then some v else none

end RepoAtlas.Json
