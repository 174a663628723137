/-!
# Lengths of time

A length of time in nanoseconds, up to a largest one, and its text.
-/

namespace RepoAtlas

/-- A length of time. -/
structure Duration where
  nanos : Nat
deriving DecidableEq, Ord, Inhabited

namespace Duration

/-- The longest length of time: 64 bits of seconds and a fraction. -/
def max : Duration := ⟨UInt64.size * 1000000000 - 1⟩

def ofSeconds (n : Nat) : Duration := ⟨n * 1000000000⟩

def ofMillis (n : Nat) : Duration := ⟨n * 1000000⟩

/-- A multiple, stopped at the longest length of time. -/
def times (d : Duration) (n : Nat) : Duration :=
  if d.nanos * n ≤ max.nanos then ⟨d.nanos * n⟩ else max

/-- The milliseconds after which a length of time has passed. -/
def millis (d : Duration) : Nat := (d.nanos + 999999) / 1000000

/-- Whole units and the digits of the rest without trailing zeros. -/
def inUnit (value unit width : Nat) : String :=
  let rest := Nat.toDigits 10 (value % unit)
  let padded := List.replicate (width - rest.length) '0' ++ rest
  let digits := (padded.reverse.dropWhile (· == '0')).reverse
  toString (value / unit) ++ (if digits.isEmpty then "" else "." ++ .ofList digits)

/-- The text in the largest unit that fits. -/
def text (d : Duration) : String :=
  if 1000000000 ≤ d.nanos then inUnit d.nanos 1000000000 9 ++ "s"
  else if 1000000 ≤ d.nanos then inUnit d.nanos 1000000 6 ++ "ms"
  else if 1000 ≤ d.nanos then inUnit d.nanos 1000 3 ++ "µs"
  else toString d.nanos ++ "ns"

end Duration

end RepoAtlas
