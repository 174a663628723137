import RepoAtlas.Json.Basic
import RepoAtlas.Decimal.Text
import RepoAtlas.Text.Utf8

/-!
# Writing JSON

A document on one line, and a document with one member or item a line and two blanks a level.
-/

namespace RepoAtlas.Json

/-- A character inside a quoted text. -/
def escapeChar (c : Char) : String :=
  if c == '"' then "\\\""
  else if c == '\\' then "\\\\"
  else if c == '\n' then "\\n"
  else if c == '\r' then "\\r"
  else if c == '\t' then "\\t"
  else if c.toNat == 8 then "\\b"
  else if c.toNat == 12 then "\\f"
  else if c.toNat < 32 then "\\u" ++ Text.hexOfNat 4 c.toNat
  else .singleton c

/-- A text in quotes. -/
def quote (s : String) : String :=
  "\"" ++ s.toList.foldl (fun out c => out ++ escapeChar c) "" ++ "\""

/-- A document that has no parts, or whose parts are of no concern. -/
def atom : Json → String
  | .null => "null"
  | .bool b => if b then "true" else "false"
  | .int n => toString n
  | .float x => if x.isFinite then Decimal.ofDouble Decimal.Scientific.compact x else "null"
  | .single x => if x.isFinite then Decimal.ofSingle Decimal.Scientific.compact x else "null"
  | .str s => quote s
  | .arr _ => "[]"
  | .obj _ => "\x7b\x7d"

mutual
/-- A document on one line. -/
def compact : Json → String
  | .arr l => "[" ++ ",".intercalate (compactItems l) ++ "]"
  | .obj l => "\x7b" ++ ",".intercalate (compactFields l) ++ "\x7d"
  | j => j.atom

def compactItems : List Json → List String
  | [] => []
  | j :: l => j.compact :: compactItems l

def compactFields : List (String × Json) → List String
  | [] => []
  | (k, j) :: l => (quote k ++ ":" ++ j.compact) :: compactFields l
end

/-- A new line at an indentation. -/
def newline (depth : Nat) : String := "\n" ++ .ofList (List.replicate (2 * depth) ' ')

mutual
/-- A document on several lines, inside `depth` others. -/
def prettyAt (depth : Nat) : Json → String
  | .arr [] => "[]"
  | .arr l =>
    "[" ++ newline (depth + 1) ++ ("," ++ newline (depth + 1)).intercalate (prettyItems (depth + 1) l) ++
      newline depth ++ "]"
  | .obj [] => "\x7b\x7d"
  | .obj l =>
    "\x7b" ++ newline (depth + 1) ++ ("," ++ newline (depth + 1)).intercalate (prettyFields (depth + 1) l) ++
      newline depth ++ "\x7d"
  | j => j.atom

def prettyItems (depth : Nat) : List Json → List String
  | [] => []
  | j :: l => j.prettyAt depth :: prettyItems depth l

def prettyFields (depth : Nat) : List (String × Json) → List String
  | [] => []
  | (k, j) :: l => (quote k ++ ": " ++ j.prettyAt depth) :: prettyFields depth l
end

/-- A document on several lines. -/
def pretty (j : Json) : String := j.prettyAt 0

end RepoAtlas.Json
