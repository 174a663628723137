/-!
# Shortest decimals

The fewest decimal digits that read back as a given binary number, found by trying each grid of
decimals in exact arithmetic.
-/

namespace RepoAtlas.Decimal

/-- A positive binary number `significand · 2 ^ exponent`. It is `narrow` when the next smaller
number of its format is only half as far away as the next larger one. -/
structure Binary where
  significand : Nat
  exponent : Int
  narrow : Bool

/-- A decimal `digits · 10 ^ exponent`. -/
structure Scientific where
  digits : Nat
  exponent : Int
deriving DecidableEq

/-- A fraction of natural numbers. -/
structure Ratio where
  num : Nat
  den : Nat

/-- `n · 2 ^ e` as a fraction. -/
def Ratio.scaleTwo (n : Nat) (e : Int) : Ratio :=
  ⟨n * Nat.pow 2 e.toNat, Nat.pow 2 (-e).toNat⟩

/-- A fraction divided by `10 ^ e`. -/
def Ratio.downTen (r : Ratio) (e : Int) : Ratio :=
  ⟨r.num * Nat.pow 10 (-e).toNat, r.den * Nat.pow 10 e.toNat⟩

/-- Whether `digits · 10 ^ e` reads back as `b`: it lies between the midpoints to the neighbours of
`b`, and on a midpoint only if the significand is even. -/
def Binary.readsFrom (b : Binary) (digits : Nat) (e : Int) : Bool :=
  let low := (Ratio.scaleTwo (4 * b.significand - (if b.narrow then 1 else 2)) (b.exponent - 2)).downTen e
  let high := (Ratio.scaleTwo (4 * b.significand + 2) (b.exponent - 2)).downTen e
  if b.significand % 2 == 0 then low.num ≤ digits * low.den && digits * high.den ≤ high.num
  else low.num < digits * low.den && digits * high.den < high.num

/-- The decimal on the grid of multiples of `10 ^ e` that reads back as `b`, the nearer of two. -/
def Binary.onGrid? (b : Binary) (e : Int) : Option Scientific :=
  let value := (Ratio.scaleTwo b.significand b.exponent).downTen e
  let below := value.num / value.den
  let lower := below != 0 && b.readsFrom below e
  let upper := b.readsFrom (below + 1) e
  let twiceRest := 2 * (value.num % value.den)
  if lower && upper then
    if twiceRest < value.den || (twiceRest == value.den && below % 2 == 0) then some ⟨below, e⟩
    else some ⟨below + 1, e⟩
  else if lower then some ⟨below, e⟩
  else if upper then some ⟨below + 1, e⟩
  else none

/-- Try grids from coarse to fine, at most `n` of them. -/
def Binary.search (b : Binary) : Nat → Int → Option Scientific
  | 0, _ => none
  | n + 1, e =>
    match b.onGrid? e with
    | some s => some s
    | none => b.search n (e - 1)

/-- The number of decimal digits of the integer part, at least one. -/
def Ratio.wholeDigits (r : Ratio) : Nat := (Nat.toDigits 10 (r.num / r.den)).length

/-- An exponent such that the number is below its power of ten. -/
def Binary.magnitude (b : Binary) : Int :=
  if 0 ≤ b.exponent then (Ratio.scaleTwo b.significand b.exponent).wholeDigits
  else
    -- scaled by a power of ten that makes the integer part nonzero
    let up : Int := (-b.exponent).toNat
    ((Ratio.scaleTwo b.significand b.exponent).downTen (-up)).wholeDigits - up

/-- The shortest decimal that reads back as `b`. -/
def Binary.shortest (b : Binary) : Scientific :=
  (b.search 20 b.magnitude).getD ⟨b.significand, 0⟩

/-- The finite positive number with the given fields of a binary interchange format: `width` bits of
fraction and the least exponent `least`. -/
def Binary.ofFields (width : Nat) (least : Int) (fraction biased : Nat) : Binary :=
  if biased == 0 then ⟨fraction, least, false⟩
  else ⟨Nat.pow 2 width + fraction, least + (biased - 1), fraction == 0 && 1 < biased⟩

/-- The magnitude of a finite double that is not zero. -/
def Binary.ofDouble (x : Float) : Binary :=
  let bits := x.toBits.toNat
  .ofFields 52 (-1074) (bits % 0x10000000000000) (bits / 0x10000000000000 % 2048)

/-- The magnitude of a finite single that is not zero. -/
def Binary.ofSingle (x : Float32) : Binary :=
  let bits := x.toBits.toNat
  .ofFields 23 (-149) (bits % 0x800000) (bits / 0x800000 % 256)

/-- The decimal with its trailing zeros moved into the exponent. -/
def Scientific.normal : Nat → Scientific → Scientific
  | 0, s => s
  | n + 1, s => if s.digits != 0 && s.digits % 10 == 0 then normal n ⟨s.digits / 10, s.exponent + 1⟩ else s

end RepoAtlas.Decimal
