/-!
# Symbols

Characters that no word of a programming language can hold: control characters, and the punctuation
and the symbols outside of ASCII.
-/

namespace RepoAtlas.Text

/-- The control characters that are not blank. -/
def isControl (c : Char) : Bool :=
  let n := c.toNat
  n < 9 || (14 ≤ n && n < 32) || n == 127 || (128 ≤ n && n < 160 && n != 0x85)

/-- The ranges of punctuation, symbols and private characters outside of ASCII. -/
def symbolRanges : List (Nat × Nat) :=
  [(0xA1, 0xA9), (0xAB, 0xB4), (0xB6, 0xB6), (0xB8, 0xB9), (0xBB, 0xBF), (0xD7, 0xD7), (0xF7, 0xF7),
   (0x2010, 0x2027), (0x2030, 0x203E), (0x2041, 0x2053), (0x2055, 0x205E), (0x20A0, 0x20C0),
   (0x2190, 0x2BFF), (0x3001, 0x3004), (0x3008, 0x3020), (0xE000, 0xF8FF), (0xFFFC, 0xFFFD),
   (0x1F000, 0x1FAFF)]

/-- Whether a character can neither stand in a word nor separate words. -/
def isSymbol (c : Char) : Bool :=
  isControl c || symbolRanges.any fun (a, b) => a ≤ c.toNat && c.toNat ≤ b

end RepoAtlas.Text
