import RepoAtlas.Text.CaseTable

/-!
# Lower case

The full lower-case mapping of Unicode: the simple mapping of `lowerRanges`, a capital `I` with a
dot above becomes two characters, and a capital sigma at the end of a word becomes a final sigma.
-/

namespace RepoAtlas.Text

/-- Whether a number lies in one of the ranges. -/
def inRanges (n : Nat) (ranges : List (Nat × Nat)) : Bool :=
  ranges.any fun (lo, hi) => lo ≤ n && n ≤ hi

/-- Whether a character has case and counts as a letter next to a sigma. -/
def isCased (c : Char) : Bool := inRanges c.toNat casedRanges

/-- Whether a character is skipped when the letters next to a sigma are looked up. -/
def isCaseIgnorable (c : Char) : Bool := inRanges c.toNat ignorableRanges

/-- Whether a range maps a character. -/
def CaseRange.covers (r : CaseRange) (n : Nat) : Bool :=
  r.first ≤ n && n ≤ r.last && (n - r.first) % r.stride == 0

/-- The simple lower-case mapping of one character. -/
def lowerChar (c : Char) : Char :=
  match lowerRanges.find? (·.covers c.toNat) with
  | some r => .ofNat (c.toNat + r.shift).toNat
  | none => c

/-- Whether the first character that is not ignored has case. -/
def meetsCased (l : List Char) : Bool :=
  match l.dropWhile isCaseIgnorable with
  | c :: _ => isCased c
  | [] => false

/-- The lower case of `rest`, which stands after the characters `before`, nearest first. -/
def lowerAfter (before : List Char) : List Char → List Char
  | [] => []
  | c :: rest =>
    let image :=
      if c == 'Σ' then if meetsCased before && !meetsCased rest then ['ς'] else ['σ']
      else if c == 'İ' then ['i', '\u0307']
      else if c.toNat < 128 then [c.toLower]
      else [lowerChar c]
    image ++ lowerAfter (c :: before) rest

/-- The full lower-case mapping. -/
def lower (s : String) : String := .ofList (lowerAfter [] s.toList)

end RepoAtlas.Text
