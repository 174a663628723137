/-!
# Blank characters

The characters of the Unicode property `White_Space`, and trimming by them.
-/

namespace RepoAtlas.Text

/-- The Unicode property `White_Space`. -/
def isBlank (c : Char) : Bool :=
  let n := c.toNat
  (9 ≤ n && n ≤ 13) || n == 0x20 || n == 0x85 || n == 0xA0 || n == 0x1680 ||
    (0x2000 ≤ n && n ≤ 0x200A) || n == 0x2028 || n == 0x2029 || n == 0x202F || n == 0x205F ||
    n == 0x3000

/-- The list without the elements at its end that satisfy `p`. -/
def dropEndWhile {α : Type} (p : α → Bool) (l : List α) : List α :=
  (l.reverse.dropWhile p).reverse

/-- Drop the characters satisfying `p` at the start of a text. -/
def trimStartBy (p : Char → Bool) (s : String) : String :=
  .ofList (s.toList.dropWhile p)

/-- Drop the characters satisfying `p` at the end of a text. -/
def trimEndBy (p : Char → Bool) (s : String) : String :=
  .ofList (dropEndWhile p s.toList)

/-- Drop the blanks at the end of a text. -/
def trimEnd (s : String) : String := trimEndBy isBlank s

/-- Drop the blanks at both ends of a text. -/
def trim (s : String) : String :=
  .ofList (dropEndWhile isBlank (s.toList.dropWhile isBlank))

/-- A text without a character that is not blank. -/
def isBlankText (s : String) : Bool := s.toList.all isBlank

end RepoAtlas.Text
