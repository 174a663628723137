import RepoAtlas.Decimal.Text
import RepoAtlas.Json.Basic
import RepoAtlas.Text.Split
import RepoAtlas.Text.Utf8

/-!
# Writing TOML

A table is written with its plain values first and then its tables, each under a header and after an
empty line. A list of two or more values has one to a line. A text is put in single quotes if that
spares escapes.
-/

namespace RepoAtlas.Toml

/-- Characters that only an escape can write. -/
def needsEscape (c : Char) : Bool := c != '\t' && c != '\n' && (c.toNat < 32 || c.toNat == 127)

/-- The longest run of single quotes. -/
def quoteRun : Nat → List Char → Nat
  | n, [] => n
  | n, c :: l => if c == '\'' then quoteRun (n + 1) l else max n (quoteRun 0 l)

/-- Whether a text is put in single quotes: it has a backslash or a double quote, and nothing that single
quotes cannot hold. -/
def isLiteral (l : List Char) : Bool :=
  l.any (fun c => c == '\\' || c == '"') && !l.any needsEscape && quoteRun 0 l < 3 &&
    l.getLast? != some '\''

/-- A character in double quotes; a line end stands as it is in a text over several lines. -/
def escaped (isLong : Bool) (c : Char) : String :=
  if c == '\x08' then "\\b"
  else if c == '\t' then "\\t"
  else if c == '\n' then (if isLong then "\n" else "\\n")
  else if c == '\x0c' then "\\f"
  else if c == '\r' then "\\r"
  else if c == '"' then "\\\""
  else if c == '\\' then "\\\\"
  else if needsEscape c then "\\u" ++ (Text.hexOfNat 4 c.toNat).toUpper
  else .singleton c

/-- A text with its quotes. -/
def quote (s : String) : String :=
  let l := s.toList
  let isLong := l.contains '\n'
  if isLiteral l then
    if isLong then "'''\n" ++ s ++ "'''"
    else if l.contains '\'' then "'''" ++ s ++ "'''"
    else "'" ++ s ++ "'"
  else
    let content := String.join (l.map (escaped isLong))
    if isLong then "\"\"\"\n" ++ content ++ "\"\"\"" else "\"" ++ content ++ "\""

/-- A float: all its places, and names for what is no number. -/
def floatText (x : Float) : String :=
  if x.isNaN then (if Decimal.isNegative x then "-nan" else "nan")
  else if x.isInf then (if x < 0 then "-inf" else "inf")
  else Decimal.ofDouble Decimal.Scientific.positional x

/-- A plain value; `none` if it cannot be written. -/
def scalar? : Json → Option String
  | .bool b => some (if b then "true" else "false")
  | .int n => if Int64.minValue.toInt ≤ n && n ≤ Int64.maxValue.toInt then some (toString n) else none
  | .float x => some (floatText x)
  | .str s => some (quote s)
  | _ => none

/-- A value that stands after its key. -/
def valueText? : Json → Option String
  | .arr [] => some "[]"
  | .arr [j] => (scalar? j).map fun s => "[" ++ s ++ "]"
  | .arr items => do
    let lines ← items.mapM scalar?
    return "[\n" ++ String.join (lines.map fun s => "    " ++ s ++ ",\n") ++ "]"
  | j => scalar? j

/-- The plain values of a table, one to a line. What is null is left out. -/
def values? : List (String × Json) → Option (List String)
  | [] => some []
  | (_, .null) :: l | (_, .obj _) :: l => values? l
  | (k, j) :: l => do return (k ++ " = " ++ (← valueText? j) ++ "\n") :: (← values? l)

mutual
/-- A table with its header, and the tables in it. -/
def table? (path : String) : Json → Option (List String)
  | .obj fields => do
    let own := "[" ++ path ++ "]\n" ++ String.join (← values? fields)
    return own :: (← tables? (path ++ ".") fields)
  | _ => some []

/-- The tables among some fields. -/
def tables? (above : String) : List (String × Json) → Option (List String)
  | [] => some []
  | (k, j) :: l => do return (← table? (above ++ k) j) ++ (← tables? above l)
end

/-- A document; `none` if a number is too large. -/
def render? (fields : List (String × Json)) : Option String := do
  let own := String.join (← values? fields)
  let tables := Text.join "\n" (← tables? "" fields)
  return if own.isEmpty then tables else if tables.isEmpty then own else own ++ "\n" ++ tables

end RepoAtlas.Toml
