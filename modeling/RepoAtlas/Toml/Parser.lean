import RepoAtlas.Toml.Scalar
import RepoAtlas.Toml.Table

/-!
# Reading TOML

A document is read as a JSON value: tables as objects, dates as their text.
-/

namespace RepoAtlas.Toml

/-- Drop the blanks of a line. -/
def skipSpace (l : List Char) : List Char := l.dropWhile fun c => c == ' ' || c == '\t'

/-- Drop the blanks of a line and a comment. -/
def skipToLineEnd (l : List Char) : List Char :=
  match skipSpace l with
  | '#' :: rest => rest.dropWhile isPlain
  | rest => rest

/-- Drop blanks, comments and line ends. `n` bounds the lines. -/
def skipLines : Nat → List Char → List Char
  | 0, l => l
  | n + 1, l =>
    let rest := skipToLineEnd l
    match newline? rest with
    | some rest => skipLines n rest
    | none => rest

/-- Characters of a key without quotes. -/
def isBare (c : Char) : Bool := c.isAlphanum || c == '_' || c == '-'

/-- A key without dots, and what follows it. -/
def simpleKey? (l : List Char) : Option (String × List Char) :=
  match l with
  | '"' :: rest => basicTail? (rest.length + 1) [] rest
  | '\'' :: rest => literalTail? rest
  | _ =>
    let name := l.takeWhile isBare
    if name.isEmpty then none else some (.ofList name, l.drop name.length)

/-- A key with dots, and what follows it. `n` bounds the parts. -/
def key? : Nat → List Char → Option (List String × List Char)
  | 0, _ => none
  | n + 1, l => do
    let (name, rest) ← simpleKey? (skipSpace l)
    match skipSpace rest with
    | '.' :: rest =>
      let (names, rest) ← key? n rest
      return (name :: names, rest)
    | rest => return ([name], rest)

/-- Characters of numbers, dates and words. -/
def isTokenChar (c : Char) : Bool := c.isAlphanum || c == '+' || c == '-' || c == '_' || c == '.' || c == ':'

/-- A number, a date or a truth value, and what follows it. A blank may stand between a date and a
time. -/
def word? (l : List Char) : Option (Json × List Char) := do
  let token := l.takeWhile isTokenChar
  let rest := l.drop token.length
  if token == "true".toList then return (.bool true, rest)
  if token == "false".toList then return (.bool false, rest)
  match date? token, rest with
  | some (_, []), ' ' :: c :: _ =>
    if c.isDigit then
      let time := rest.tail.takeWhile isTokenChar
      return (← dateTime? (token ++ ' ' :: time), rest.drop (time.length + 1))
    else return (← dateTime? token, rest)
  | _, _ => return (← (number? token).or (dateTime? token), rest)

mutual
/-- A value, and what follows it. -/
def value? : Nat → List Char → Option (Json × List Char)
  | 0, _ => none
  | fuel + 1, l =>
    match l with
    | '"' :: _ | '\'' :: _ => (string? l).map fun (s, rest) => (.str s, rest)
    | '[' :: rest => array? fuel [] (skipLines l.length rest)
    | '\x7b' :: rest =>
      match skipSpace rest with
      | '\x7d' :: rest => some (.obj [], rest)
      | rest => inline? fuel [] rest
    | _ => word? l

/-- The rest of an array, and what follows it. -/
def array? : Nat → List Json → List Char → Option (Json × List Char)
  | 0, _, _ => none
  | fuel + 1, out, l =>
    match l with
    | ']' :: rest => some (.arr out.reverse, rest)
    | _ => do
      let (v, rest) ← value? fuel l
      match skipLines l.length rest with
      | ',' :: rest => array? fuel (v :: out) (skipLines l.length rest)
      | ']' :: rest => return (.arr (v :: out).reverse, rest)
      | _ => none

/-- The rest of a table on one line, and what follows it. -/
def inline? : Nat → Items → List Char → Option (Json × List Char)
  | 0, _, _ => none
  | fuel + 1, items, l => do
    let (key, rest) ← key? l.length l
    match rest with
    | '=' :: rest =>
      let (v, rest) ← value? fuel (skipSpace rest)
      let items ← Items.assign key v .header items
      match skipSpace rest with
      | ',' :: rest => inline? fuel items rest
      | '\x7d' :: rest => return (.obj (jsonItems items), rest)
      | _ => none
    | _ => none
end

/-- Read one line: a header, or a key with its value. The header that counts and the tables are
carried along. -/
def line? (header : List String) (root : Items) (l : List Char) :
    Option (List String × Items × List Char) := do
  match l with
  | '[' :: '[' :: rest =>
    let (path, rest) ← key? rest.length rest
    match rest with
    | ']' :: ']' :: rest => return (path, ← root.openElement path, rest)
    | _ => none
  | '[' :: rest =>
    let (path, rest) ← key? rest.length rest
    match rest with
    | ']' :: rest => return (path, ← root.openTable path, rest)
    | _ => none
  | _ =>
    let (key, rest) ← key? l.length l
    match rest with
    | '=' :: rest =>
      let (v, rest) ← value? (l.length + 1) (skipSpace rest)
      return (header, ← Items.descend false (Items.assign key v) header .header root, rest)
    | _ => none

/-- Read lines to the end. -/
def lines? : Nat → List String → Items → List Char → Option Items
  | 0, _, _, _ => none
  | n + 1, header, root, l =>
    match skipLines (l.length + 1) l with
    | [] => some root
    | l => do
      let (header, root, rest) ← line? header root l
      let rest := skipToLineEnd rest
      if rest.isEmpty then return root
      lines? n header root (← newline? rest)

/-- The value of a document; `none` if it is malformed. -/
def parse? (s : String) : Option Json := do
  let l := s.toList
  let l := if l.head? == some '\uFEFF' then l.tail else l
  return .obj (jsonItems (← lines? (l.length + 1) [] [] l))

end RepoAtlas.Toml
