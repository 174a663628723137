import RepoAtlas.Json.Parser
import RepoAtlas.Time.Instant

/-!
# Numbers, dates and strings of TOML
-/

namespace RepoAtlas.Toml

/-- Characters that may stand in a comment or in a string as they are. -/
def isPlain (c : Char) : Bool := c == '\t' || (32 ≤ c.toNat && c.toNat != 127)

/-- The rest after a line end. -/
def newline? : List Char → Option (List Char)
  | '\n' :: rest => some rest
  | '\r' :: '\n' :: rest => some rest
  | _ => none

/-! ### Numbers -/

/-- The digits of a group in which single underscores may stand between digits. -/
def group? (isDigit : Char → Bool) : List Char → Option (List Char)
  | [] => none
  | [c] => if isDigit c then some [c] else none
  | c :: '_' :: rest => if isDigit c then (group? isDigit rest).map (c :: ·) else none
  | c :: rest => if isDigit c then (group? isDigit rest).map (c :: ·) else none

/-- A whole number without leading zeros. -/
def decimal? (l : List Char) : Option Nat := do
  let ds ← group? Char.isDigit l
  if 1 < ds.length && ds.head? == some '0' then none
  return Json.natOfDigits ds

/-- A whole number to another base. -/
def based? (base : Nat) (l : List Char) : Option Nat := do
  let isDigit (c : Char) : Bool := (Text.hexValue? c).any (· < base)
  let ds ← group? isDigit l
  return ds.foldl (fun n c => base * n + (Text.hexValue? c).getD 0) 0

/-- The exponent of a float. -/
def exponent? : List Char → Option Int
  | '-' :: ds => do return -(Json.natOfDigits (← group? Char.isDigit ds) : Int)
  | '+' :: ds => do return (Json.natOfDigits (← group? Char.isDigit ds) : Int)
  | ds => do return (Json.natOfDigits (← group? Char.isDigit ds) : Int)

/-- A float without its sign. -/
def float? (isNegative : Bool) (l : List Char) : Option Json := do
  let isMark (c : Char) : Bool := c == 'e' || c == 'E'
  let mantissa := l.takeWhile (!isMark ·)
  let mark := l.dropWhile (!isMark ·)
  let e ← if mark.isEmpty then pure 0 else exponent? mark.tail
  let whole := mantissa.takeWhile (· != '.')
  let point := mantissa.dropWhile (· != '.')
  let _ ← decimal? whole
  let ws ← group? Char.isDigit whole
  let fs ← if point.isEmpty then pure [] else group? Char.isDigit point.tail
  if mark.isEmpty && point.isEmpty then none
  let x := Json.toDouble isNegative (Json.natOfDigits (ws ++ fs)) (e - fs.length)
  if x.isFinite then return .float x else none

/-- A whole number of 64 bits. -/
def integer? (n : Int) : Option Json :=
  if Int64.minValue.toInt ≤ n && n ≤ Int64.maxValue.toInt then some (.int n) else none

/-- A number. -/
def number? (token : List Char) : Option Json :=
  match token with
  | '0' :: 'x' :: ds => do integer? (← based? 16 ds)
  | '0' :: 'o' :: ds => do integer? (← based? 8 ds)
  | '0' :: 'b' :: ds => do integer? (← based? 2 ds)
  | _ =>
    let isNegative := token.head? == some '-'
    let body := if isNegative || token.head? == some '+' then token.tail else token
    let signed (x : Float) : Option Json := some (.float (if isNegative then -x else x))
    if body == "inf".toList then signed (1 / 0)
    else if body == "nan".toList then signed (0 / 0)
    else
      match decimal? body with
      | some n => integer? (if isNegative then -(n : Int) else n)
      | none => float? isNegative body

/-! ### Dates -/

/-- Some digits and what follows them. -/
def digits? (count : Nat) (l : List Char) : Option (Nat × List Char) := Instant.digits? count count l

/-- A date as text, and what follows it. -/
def date? (l : List Char) : Option (String × List Char) := do
  let (y, l) ← digits? 4 l
  let (m, l) ← digits? 2 (← Instant.mark? '-' l)
  let (d, l) ← digits? 2 (← Instant.mark? '-' l)
  if m < 1 || 12 < m || d < 1 || Instant.daysInMonth y m < d then none
  return (Instant.padded 4 y ++ "-" ++ Instant.padded 2 m ++ "-" ++ Instant.padded 2 d, l)

/-- A time of the day as text, and what follows it. Places after the ninth are cut. -/
def time? (l : List Char) : Option (String × List Char) := do
  let (h, l) ← digits? 2 l
  let (m, l) ← digits? 2 (← Instant.mark? ':' l)
  let (s, l) ← digits? 2 (← Instant.mark? ':' l)
  if 23 < h || 59 < m || 60 < s then none
  let text := Instant.padded 2 h ++ ":" ++ Instant.padded 2 m ++ ":" ++ Instant.padded 2 s
  match l with
  | '.' :: l =>
    let ds := l.takeWhile Char.isDigit
    if ds.isEmpty then none
    let places := Text.dropEndWhile (· == '0') (ds.take 9)
    let fraction := if places.isEmpty then "" else "." ++ String.ofList places
    return (text ++ fraction, l.dropWhile Char.isDigit)
  | l => return (text, l)

/-- An offset as text. -/
def offset? : List Char → Option String
  | [] => some ""
  | ['Z'] | ['z'] => some "Z"
  | c :: l => do
    if c != '+' && c != '-' then none
    let (h, l) ← digits? 2 l
    let (m, l) ← digits? 2 (← Instant.mark? ':' l)
    if 23 < h || 59 < m || !l.isEmpty then none
    return String.singleton c ++ Instant.padded 2 h ++ ":" ++ Instant.padded 2 m

/-- A date, a time or both, as text. -/
def dateTime? (token : List Char) : Option Json := do
  match date? token with
  | some (date, []) => return .str date
  | some (date, c :: rest) =>
    if c != 'T' && c != 't' && c != ' ' then none
    let (time, rest) ← time? rest
    return .str (date ++ "T" ++ time ++ (← offset? rest))
  | none =>
    let (time, rest) ← time? token
    if rest.isEmpty then return .str time else none

/-! ### Strings -/

/-- The character of an escape after its backslash, and what follows. -/
def escape? : List Char → Option (Char × List Char)
  | 'b' :: rest => some ('\x08', rest)
  | 't' :: rest => some ('\t', rest)
  | 'n' :: rest => some ('\n', rest)
  | 'f' :: rest => some ('\x0c', rest)
  | 'r' :: rest => some ('\r', rest)
  | '"' :: rest => some ('"', rest)
  | '\\' :: rest => some ('\\', rest)
  | 'u' :: rest => code 4 rest
  | 'U' :: rest => code 8 rest
  | _ => none
where
  code (count : Nat) (l : List Char) : Option (Char × List Char) := do
    let ds ← (l.take count).mapM Text.hexValue?
    let n := ds.foldl (fun n d => 16 * n + d) 0
    if ds.length == count && n.isValidChar then return (Char.ofNat n, l.drop count) else none

/-- The rest of a string in double quotes on one line. -/
def basicTail? : Nat → List Char → List Char → Option (String × List Char)
  | 0, _, _ => none
  | _, _, [] => none
  | n + 1, out, c :: rest =>
    if c == '"' then some (.ofList out.reverse, rest)
    else if c == '\\' then do
      let (c, rest) ← escape? rest
      basicTail? n (c :: out) rest
    else if isPlain c then basicTail? n (c :: out) rest
    else none

/-- The rest of a string in single quotes on one line. -/
def literalTail? (l : List Char) : Option (String × List Char) :=
  let text := l.takeWhile fun c => isPlain c && c != '\''
  match l.drop text.length with
  | '\'' :: rest => some (.ofList text, rest)
  | _ => none

/-- A run of quotes in a string over several lines: how many belong to the text if it ends the string,
which three do. -/
def closing? (quote : Char) (l : List Char) : Option (Nat × List Char) :=
  let count := min (l.takeWhile (· == quote)).length 5
  if count < 3 then none else some (count - 3, l.drop count)

/-- Drop blanks and line ends. -/
def skipBlank (l : List Char) : List Char := l.dropWhile fun c => c == ' ' || c == '\t' || c == '\n' || c == '\r'

/-- The rest of a string over several lines. -/
def linesTail? (quote : Char) : Nat → List Char → List Char → Option (String × List Char)
  | 0, _, _ => none
  | n + 1, out, input =>
    match closing? quote input with
    | some (more, rest) => some (.ofList (List.replicate more quote ++ out).reverse, rest)
    | none =>
      match newline? input, input with
      | some rest, _ => linesTail? quote n ('\n' :: out) rest
      | none, [] => none
      | none, c :: rest =>
        if c == '\\' && quote == '"' then
          match escape? rest with
          | some (c, rest) => linesTail? quote n (c :: out) rest
          | none =>
            match newline? (rest.dropWhile fun c => c == ' ' || c == '\t') with
            | some rest => linesTail? quote n out (skipBlank rest)
            | none => none
        else if isPlain c then linesTail? quote n (c :: out) rest
        else none

/-- A string, and what follows it. -/
def string? (l : List Char) : Option (String × List Char) :=
  let start (rest : List Char) : List Char := (newline? rest).getD rest
  match l with
  | '"' :: '"' :: '"' :: rest => linesTail? '"' (rest.length + 1) [] (start rest)
  | '\'' :: '\'' :: '\'' :: rest => linesTail? '\'' (rest.length + 1) [] (start rest)
  | '"' :: rest => basicTail? (rest.length + 1) [] rest
  | '\'' :: rest => literalTail? rest
  | _ => none

end RepoAtlas.Toml
