import RepoAtlas.Json.Basic
import RepoAtlas.Text.Blank
import RepoAtlas.Text.Utf8
import RepoAtlas.Time.Duration

/-!
# Points in time

Points in time of the proleptic Gregorian calendar in universal time, read and written as in
RFC 3339. The sixtieth second of a minute is kept as a fraction of a second above one.
-/

namespace RepoAtlas

/-- A point in time: seconds since the start of 1970 and a fraction. -/
structure Instant where
  seconds : Int
  nanos : Nat
deriving DecidableEq, Inhabited

namespace Instant

/-- Earlier points are smaller. -/
def compare (a b : Instant) : Ordering :=
  (Ord.compare a.seconds b.seconds).then (Ord.compare a.nanos b.nanos)

instance : Ord Instant := ⟨compare⟩

instance : LE Instant := ⟨fun a b => a.seconds < b.seconds ∨ (a.seconds = b.seconds ∧ a.nanos ≤ b.nanos)⟩

instance (a b : Instant) : Decidable (a ≤ b) :=
  inferInstanceAs (Decidable (a.seconds < b.seconds ∨ (a.seconds = b.seconds ∧ a.nanos ≤ b.nanos)))

/-- A year with 366 days. -/
def isLeapYear (y : Int) : Bool := y % 4 == 0 && (y % 100 != 0 || y % 400 == 0)

/-- The days of a month, counted from 1. -/
def daysInMonth (y : Int) (m : Nat) : Nat :=
  if m == 2 then if isLeapYear y then 29 else 28
  else if m == 4 || m == 6 || m == 9 || m == 11 then 30
  else 31

/-- The days from the start of 1970 to a date. Years are counted from March. -/
def daysOfDate (y : Int) (m d : Nat) : Int :=
  let y' := if m ≤ 2 then y - 1 else y
  let era := Int.fdiv y' 400
  let yearOfEra := y' - era * 400
  let dayOfYear : Int := (153 * ((m + 9) % 12) + 2) / 5 + d - 1
  let dayOfEra := yearOfEra * 365 + yearOfEra / 4 - yearOfEra / 100 + dayOfYear
  era * 146097 + dayOfEra - 719468

/-- The date that lies a number of days after the start of 1970. -/
def dateOfDays (days : Int) : Int × Nat × Nat :=
  let z := days + 719468
  let era := Int.fdiv z 146097
  let dayOfEra := (z - era * 146097).toNat
  let yearOfEra := (dayOfEra - dayOfEra / 1460 + dayOfEra / 36524 - dayOfEra / 146096) / 365
  let dayOfYear := dayOfEra - (365 * yearOfEra + yearOfEra / 4 - yearOfEra / 100)
  let mp := (5 * dayOfYear + 2) / 153
  let d := dayOfYear - (153 * mp + 2) / 5 + 1
  let m := if mp < 10 then mp + 3 else mp - 9
  let y : Int := yearOfEra + era * 400
  (if m ≤ 2 then y + 1 else y, m, d)

/-- A number with at least `width` digits. -/
def padded (width n : Nat) : String :=
  let ds := Nat.toDigits 10 n
  .ofList (List.replicate (width - ds.length) '0' ++ ds)

/-- The fraction of a second in no, three, six or nine digits, the fewest that are exact. -/
def fractionText (n : Nat) : String :=
  if n == 0 then ""
  else if n % 1000000 == 0 then "." ++ padded 3 (n / 1000000)
  else if n % 1000 == 0 then "." ++ padded 6 (n / 1000)
  else "." ++ padded 9 n

/-- The year; one outside four digits carries its sign. -/
def yearText (y : Int) : String :=
  if 0 ≤ y && y ≤ 9999 then padded 4 y.toNat
  else (if y < 0 then "-" else "+") ++ padded 4 y.natAbs

/-- The text of a point in time, in universal time. -/
def text (t : Instant) : String :=
  let days := Int.fdiv t.seconds 86400
  let secondOfDay := (t.seconds - days * 86400).toNat
  let (y, m, d) := dateOfDays days
  let leap := t.nanos / 1000000000
  yearText y ++ "-" ++ padded 2 m ++ "-" ++ padded 2 d ++ "T" ++ padded 2 (secondOfDay / 3600) ++ ":" ++
    padded 2 (secondOfDay / 60 % 60) ++ ":" ++ padded 2 (secondOfDay % 60 + leap) ++
    fractionText (t.nanos % 1000000000) ++ "Z"

/-- Read `min` to `max` digits. -/
def digits? (min max : Nat) (l : List Char) : Option (Nat × List Char) :=
  let ds := (l.take max).takeWhile Char.isDigit
  if ds.length < min then none
  else some (ds.foldl (fun n c => 10 * n + (c.toNat - 48)) 0, l.drop ds.length)

/-- Read one given character. -/
def mark? (c : Char) : List Char → Option (List Char)
  | x :: rest => if x == c then some rest else none
  | [] => none

/-- Drop blanks. -/
def skip (l : List Char) : List Char := l.dropWhile Text.isBlank

/-- A number of one or two digits, after blanks. -/
def pair? (l : List Char) : Option (Nat × List Char) := digits? 1 2 (skip l)

/-- The offset from universal time in seconds. -/
def offset? (l : List Char) : Option (Int × List Char) :=
  match l with
  | 'Z' :: rest | 'z' :: rest => some (0, rest)
  | 'U' :: 'T' :: 'C' :: rest => some (0, rest)
  | c :: rest => do
    let negative ← if c == '+' then some false else if c == '-' || c == '−' then some true else none
    let (h, rest) ← digits? 2 2 rest
    let (m, rest) ← digits? 2 2 (rest.dropWhile fun x => x == ':' || Text.isBlank x)
    if 59 < m || 24 ≤ h then none
    let n : Int := h * 3600 + m * 60
    return (if negative then -n else n, rest)
  | [] => none

/-- The fraction of a second: at least one digit after a point, digits after the ninth dropped. -/
def fraction? : List Char → Option (Nat × List Char)
  | '.' :: rest =>
    let ds := rest.takeWhile Char.isDigit
    if ds.isEmpty then none
    else
      let nine := ds.take 9 ++ List.replicate (9 - ds.length) '0'
      some (nine.foldl (fun n c => 10 * n + (c.toNat - 48)) 0, rest.dropWhile Char.isDigit)
  | rest => some (0, rest)

/-- Read a point in time with some freedom: numbers of one or two digits, blanks before marks, and
`UTC` for the offset. -/
def read? (s : String) : Option Instant := do
  let l := s.toList
  let (y, l) ← digits? 4 4 (skip l)
  let l ← mark? '-' (skip l)
  let (m, l) ← pair? l
  let l ← mark? '-' (skip l)
  let (d, l) ← pair? l
  let l ←
    match l with
    | c :: rest => if c == 'T' || c == 't' || c == ' ' then some rest else none
    | [] => none
  let (hour, l) ← pair? l
  let l ← mark? ':' (skip l)
  let (minute, l) ← pair? l
  let l ← mark? ':' (skip l)
  let (second, l) ← pair? l
  let (nanos, l) ← fraction? l
  let (offset, l) ← offset? (skip l)
  if !(skip l).isEmpty then none
  if m == 0 || 12 < m || d == 0 || daysInMonth y m < d then none
  if 23 < hour || 59 < minute || 60 < second then none
  let leap := if second == 60 then 1 else 0
  let total : Int := daysOfDate y m d * 86400 + hour * 3600 + minute * 60 + (second - leap : Nat)
  return ⟨total - offset, nanos + leap * 1000000000⟩

/-! ### The exact form -/

/-- Why a text is not a point in time in the exact form. -/
inductive TimeError where
  | tooShort
  | invalid
  | outOfRange
  | tooLong
deriving DecidableEq, Inhabited

/-- The wording of an error. -/
def TimeError.message : TimeError → String
  | .tooShort => "premature end of input"
  | .invalid => "input contains invalid characters"
  | .outOfRange => "input is out of range"
  | .tooLong => "trailing input"

/-- The number that the bytes at some places write in decimal. -/
def number (b : List UInt8) (first count : Nat) : Except TimeError Nat :=
  ((b.drop first).take count).foldlM (fun n x =>
    if 48 ≤ x && x ≤ 57 then .ok (10 * n + (x.toNat - 48)) else .error .invalid) 0

/-- A byte that must stand at a place. -/
def expect (b : List UInt8) (i : Nat) (allowed : List UInt8) : Except TimeError Unit :=
  match b[i]? with
  | some x => if allowed.contains x then .ok () else .error .invalid
  | none => .error .invalid

/-- The digits of a fraction and what follows: nine count, the others are dropped. -/
def fraction (b : List UInt8) : Except TimeError (Nat × List UInt8) := do
  let isDigit (x : UInt8) : Bool := 48 ≤ x && x ≤ 57
  let ds := b.takeWhile isDigit
  if b.isEmpty then throw .tooShort
  if ds.isEmpty then throw .invalid
  let nine := ds.take 9 ++ List.replicate (9 - ds.length) 48
  return (nine.foldl (fun n x => 10 * n + (x.toNat - 48)) 0, b.dropWhile isDigit)

/-- The sign of an offset and what follows it. -/
def sign (b : List UInt8) : Except TimeError (Bool × List UInt8) :=
  match b with
  | 43 :: rest => .ok (false, rest)
  | 45 :: rest => .ok (true, rest)
  | 0xE2 :: 0x88 :: 0x92 :: rest => .ok (true, rest)
  | [] => .error .tooShort
  | _ => .error .invalid

/-- The offset from universal time, and what follows it. -/
def offset (b : List UInt8) : Except TimeError (Int × List UInt8) :=
  match b with
  | 90 :: rest | 122 :: rest => .ok (0, rest)
  | _ => do
    let (negative, b) ← sign b
    if b.length < 2 then throw .tooShort
    let hours ← number b 0 2
    let b ←
      match b.drop 2 with
      | 58 :: rest => pure rest
      | [] => throw .tooShort
      | _ => throw .invalid
    if b.length < 2 then throw .tooShort
    let minutes ← number b 0 2
    if 59 < minutes then throw .outOfRange
    let n : Int := hours * 3600 + minutes * 60
    return (if negative then -n else n, b.drop 2)

/-- Read a point in time in its exact form: fixed widths and no blanks. The first fault from the left
counts. -/
def parse (s : String) : Except TimeError Instant := do
  let b := Text.bytes s
  if b.length < 19 then throw .tooShort
  let y ← number b 0 4
  expect b 4 [45]
  let m ← number b 5 2
  expect b 7 [45]
  let d ← number b 8 2
  if m == 0 || 12 < m || d == 0 || daysInMonth y m < d then throw .outOfRange
  expect b 10 [116, 84, 32]
  let hour ← number b 11 2
  expect b 13 [58]
  let minute ← number b 14 2
  expect b 16 [58]
  let second ← number b 17 2
  let (nanos, rest) ← if b[19]? == some 46 then fraction (b.drop 20) else pure (0, b.drop 19)
  if 23 < hour || 59 < minute || 60 < second then throw .outOfRange
  let (shift, rest) ← offset rest
  if !rest.isEmpty then throw .tooLong
  if shift ≤ -86400 || 86400 ≤ shift then throw .outOfRange
  let leap := if second == 60 then 1 else 0
  let total : Int := daysOfDate y m d * 86400 + hour * 3600 + minute * 60 + (second - leap : Nat)
  return ⟨total - shift, nanos + leap * 1000000000⟩

instance : ToJson Instant := ⟨fun t => .str t.text⟩

instance : OfJson Instant where
  ofJson? j := do read? (← j.text?)

/-- The first and the last year that a point in time can lie in. -/
def firstYear : Int := -262143

def lastYear : Int := 262142

/-- Whether the calendar reaches a point in time. -/
def inRange (t : Instant) : Bool :=
  let (y, _, _) := dateOfDays (Int.fdiv t.seconds 86400)
  firstYear ≤ y && y ≤ lastYear

end Instant

end RepoAtlas
