import RepoAtlas.Decimal.Shortest

/-!
# Decimal notation

Two ways to write a decimal: with all its places, and with an exponent where the point would stand
far from the digits.
-/

namespace RepoAtlas.Decimal

private def zeros (n : Nat) : String := .ofList (List.replicate n '0')

/-- A decimal with all its places and no exponent; whole numbers end in `.0`. -/
def Scientific.positional (s : Scientific) : String :=
  let ds := toString s.digits
  if 0 ≤ s.exponent then ds ++ zeros s.exponent.toNat ++ ".0"
  else
    let places := (-s.exponent).toNat
    if ds.length ≤ places then "0." ++ zeros (places - ds.length) ++ ds
    else
      let cs := ds.toList
      .ofList (cs.take (cs.length - places)) ++ "." ++ .ofList (cs.drop (cs.length - places))

/-- A decimal whose point is written only within 16 places of the digits, and otherwise an exponent. -/
def Scientific.compact (s : Scientific) : String :=
  let cs := (toString s.digits).toList
  let point : Int := cs.length + s.exponent
  if -5 < point && point ≤ 16 then s.positional
  else
    let mark := "e" ++ toString (point - 1)
    match cs with
    | [] => "0.0"
    | [c] => String.singleton c ++ mark
    | c :: rest => String.singleton c ++ "." ++ .ofList rest ++ mark

/-- The sign bit of a double. -/
def isNegative (x : Float) : Bool := 0x8000000000000000 ≤ x.toBits.toNat

/-- Write a finite double: its sign, then its shortest decimal. -/
def ofDouble (write : Scientific → String) (x : Float) : String :=
  let sign := if isNegative x then "-" else ""
  if x == 0 then sign ++ "0.0"
  else sign ++ write ((Binary.ofDouble x).shortest.normal 400)

/-- Write a finite single: its sign, then its shortest decimal. -/
def ofSingle (write : Scientific → String) (x : Float32) : String :=
  let sign := if 0x80000000 ≤ x.toBits.toNat then "-" else ""
  if x == 0 then sign ++ "0.0"
  else sign ++ write ((Binary.ofSingle x).shortest.normal 400)

end RepoAtlas.Decimal
