import RepoAtlas.Text.Blank

/-!
# Cutting texts

Lines, pieces between separators, and what stands before or after a marker.
-/

namespace RepoAtlas.Text

/-- The pieces of a list between the elements satisfying `p`; there is always at least one. -/
def pieces {α : Type} (p : α → Bool) : List α → List (List α)
  | [] => [[]]
  | a :: l =>
    if p a then [] :: pieces p l
    else
      match pieces p l with
      | [] => [[a]]
      | q :: qs => (a :: q) :: qs

/-- The pieces of a text between occurrences of one character. -/
def splitAt (c : Char) (s : String) : List String :=
  (pieces (· == c) s.toList).map .ofList

/-- The rest of a list after a given beginning. -/
def after? {α : Type} [BEq α] : List α → List α → Option (List α)
  | [], l => some l
  | _ :: _, [] => none
  | m :: ms, a :: l => if m == a then after? ms l else none

/-- The text after a given beginning. -/
def stripStart? (s start : String) : Option String :=
  (after? start.toList s.toList).map .ofList

/-- The text before a given end. -/
def stripEnd? (s stop : String) : Option String :=
  (after? stop.toList.reverse s.toList.reverse).map fun r => .ofList r.reverse

/-- Whether a text begins with another. -/
def startsWith (s start : String) : Bool := (stripStart? s start).isSome

/-- Whether a text ends with another. -/
def endsWith (s stop : String) : Bool := (stripEnd? s stop).isSome

/-- What stands before and after the first occurrence of a marker. -/
def cutList? {α : Type} [BEq α] (marker : List α) : List α → Option (List α × List α)
  | [] => (after? marker []).map fun r => ([], r)
  | a :: l =>
    match after? marker (a :: l) with
    | some r => some ([], r)
    | none => (cutList? marker l).map fun (b, r) => (a :: b, r)

/-- What stands before and after the first occurrence of a marker. -/
def cut? (s marker : String) : Option (String × String) :=
  (cutList? marker.toList s.toList).map fun (b, r) => (.ofList b, .ofList r)

/-- What stands before and after the last occurrence of a marker. -/
def cutLast? (s marker : String) : Option (String × String) :=
  (cutList? marker.toList.reverse s.toList.reverse).map fun (b, r) =>
    (.ofList r.reverse, .ofList b.reverse)

/-- Whether a marker occurs in a text. -/
def occursIn (marker s : String) : Bool := (cut? s marker).isSome

/-- The text before the first occurrence of a marker, or all of it. -/
def before (s marker : String) : String :=
  match cut? s marker with
  | some (b, _) => b
  | none => s

/-- The lines of a text: a line feed ends a line, together with a carriage return before it; what
follows the last line feed is a line only if it is not empty. -/
def lines (s : String) : List String :=
  let strip (l : List Char) : List Char :=
    match l.reverse with
    | '\r' :: r => r.reverse
    | _ => l
  let rec go : List (List Char) → List String
    | [] => []
    | [l] => if l.isEmpty then [] else [.ofList l]
    | l :: ls => .ofList (strip l) :: go ls
  go (pieces (· == '\n') s.toList)

/-- The words of a text between blanks. -/
def words (s : String) : List String :=
  ((pieces isBlank s.toList).filter (!·.isEmpty)).map .ofList

/-- Replace every occurrence of a marker that a scan from the left meets. -/
def replaceList (marker by_ : List Char) : Nat → List Char → List Char
  | 0, l => l
  | _ + 1, [] => []
  | n + 1, c :: l =>
    match after? marker (c :: l) with
    | some r => by_ ++ replaceList marker by_ n r
    | none => c :: replaceList marker by_ n l

/-- Replace every occurrence of a nonempty marker, scanning from the left. -/
def replace (s marker by_ : String) : String :=
  .ofList (replaceList marker.toList by_.toList s.length s.toList)

/-- Put a separator between texts. -/
def join (sep : String) (l : List String) : String := sep.intercalate l

/-- Lower case for the ASCII letters; all else stays. -/
def asciiLower (s : String) : String := .ofList (s.toList.map Char.toLower)

end RepoAtlas.Text
