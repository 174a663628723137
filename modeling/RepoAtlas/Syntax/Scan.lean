import RepoAtlas.Syntax.Parser
import RepoAtlas.Text.Symbol

/-!
# Scanners shared by the languages

Words, numbers and operators, and how a parser reads them.
-/

namespace RepoAtlas.Syntax

/-- Characters that may start a word: letters, the underscore, the dollar sign and every character
outside ASCII that is neither blank nor a symbol. -/
def isWordStart (c : Char) : Bool :=
  c.isAlpha || c == '_' || c == '$' ||
    (128 ≤ c.toNat && !Text.isBlank c && !Text.isSymbol c && c != '\uFEFF' && c != '\u200B' &&
      c != '\u2060')

/-- Characters that may continue a word. -/
def isWordPart (c : Char) : Bool := isWordStart c || c.isDigit

/-- The end of a word that starts here. -/
def wordEnd? (s : Spot) : Option Spot :=
  match s.char? with
  | some c => if isWordStart c then some (s.skipWhile isWordPart) else none
  | none => none

/-- The word that starts here, or the empty text. -/
def wordAt (s : Spot) : String :=
  match s.char? with
  | some c => if isWordStart c then .ofList (s.rest.takeWhile isWordPart) else ""
  | none => ""

/-- The first of some operators that stands here; longer ones are listed before their beginnings. -/
def operatorAt? (operators : List String) (s : Spot) : Option String :=
  operators.find? s.has

/-- The end of a number: digits and letters with points, and signs after an exponent mark. -/
def numberTail : Nat → Bool → Spot → Spot
  | 0, _, s => s
  | n + 1, hex, s =>
    match s.rest with
    | c :: d :: _ =>
      if !hex && (c == 'e' || c == 'E') && (d == '+' || d == '-') then numberTail n hex (s.advance 2)
      else if isWordPart c || (c == '.' && !hex && d.isDigit) then numberTail n hex s.step
      else s
    | [c] => if isWordPart c then s.step else s
    | [] => s

/-- Pass over symbols that can stand in no token, as an error between two tokens. -/
def Trivia.passSymbols (t : Trivia) : Trivia :=
  let stop := t.next.skipWhile Text.isSymbol
  let error : Tree :=
    .node { kind := "ERROR", fault := .error, start := t.next.place, stop := stop.place } []
  { t with next := stop, comments := error :: t.comments }

namespace Parser

/-- Read a word that satisfies a condition as a leaf. -/
def word (kind : String) (p : String → Bool) : Parser Tree := do
  let s ← ahead
  match wordEnd? s with
  | some stop => if p (wordAt s) then token kind true stop else failure
  | none => failure

/-- Read a given word as punctuation. -/
def keyword (w : String) : Parser Tree := do
  let s ← ahead
  if wordAt s == w then token w false (s.advance w.length) else failure

/-- Whether a given word is next. -/
def seesWord (w : String) : Parser Bool := return wordAt (← ahead) == w

/-- The next word, or the empty text. -/
def nextWord : Parser String := return wordAt (← ahead)

/-- Read one of some operators, the first of the list that stands here. -/
def operator (operators : List String) : Parser Tree := do
  match operatorAt? operators (← ahead) with
  | some o => mark o
  | none => failure

/-- Read a mark that must not be the beginning of a longer one. -/
def lone (text : String) (longer : List String) : Parser Tree := do
  let s ← ahead
  if longer.any s.has then failure else mark text

end Parser

end RepoAtlas.Syntax
