import RepoAtlas.Syntax.Scan

/-!
# The grammar of Python

Statements, blocks by indentation, and expressions. Chains of operators are kept flat: no reader of
the tree asks how they nest. A block reaches to the last comment that is indented as it is.
-/

namespace RepoAtlas.Syntax.Python

/-- What stands between two tokens of a line, or between lines. -/
def skipFrom : Nat → Trivia → Trivia
  | 0, t => t
  | n + 1, t =>
    match t.next.rest with
    | [] => { t with newline := true }
    | '\n' :: _ => skipFrom n { t with next := t.next.step, newline := true }
    | '#' :: _ =>
      let stop := t.next.skipWhile (· != '\n')
      skipFrom n { t with next := stop, comments := Spot.leaf "comment" true t.next stop :: t.comments }
    | '\\' :: '\n' :: _ => skipFrom n { t with next := t.next.advance 2 }
    | '\\' :: '\r' :: '\n' :: _ => skipFrom n { t with next := t.next.advance 3 }
    | c :: _ =>
      if Text.isBlank c || c == '\uFEFF' || c == '\u200B' || c == '\u2060' then
        skipFrom n { t with next := t.next.step }
      else if Text.isSymbol c then skipFrom n t.passSymbols
      else t

/-- The lexical rules: a line end outside of brackets ends a statement. -/
def lexicon : Lexicon where
  skip s := skipFrom (s.rest.length + 1) ⟨s, false, []⟩
  lineBound := true
  endsLine _ := true

/-- Words that are not names. -/
def reserved : List String :=
  ["False", "None", "True", "and", "as", "assert", "break", "class", "continue", "def", "del",
   "elif", "else", "except", "finally", "for", "from", "global", "if", "import", "in", "is",
   "lambda", "nonlocal", "not", "or", "pass", "raise", "return", "try", "while", "with", "yield"]

/-- The operators between operands. -/
def operators : List String :=
  ["**", "//", "<<", ">>", "<=", ">=", "==", "!=", "<>", "+", "-", "*", "/", "%", "@", "|", "&", "^",
   "<", ">"]

/-- The operators that assign. -/
def assignments : List String :=
  ["**=", "//=", "<<=", ">>=", "+=", "-=", "*=", "/=", "%=", "@=", "|=", "&=", "^="]

/-- What a grammar rule is asked for. -/
inductive Goal where
  | module
  /-- A statement of a block that is indented by a width. -/
  | statement (indent : Nat)
  /-- A statement on one line. -/
  | simple
  /-- What follows a colon, in a block that is indented by a width. -/
  | suite (indent : Nat)
  /-- An expression without a comma. -/
  | expression
  /-- A chain of operands and operators. -/
  | chain
  /-- An operand with the operators before it. -/
  | operand
  | pattern
  /-- Text of a formatted string, up to the closing text. -/
  | formatted (close : String) (raw : Bool)

section Rules

open Syntax.Parser

variable (self : Goal → Parser Tree)

/-- A name. -/
def name : Parser Tree := word "identifier" (!reserved.contains ·)

/-- A tree of one kind over several others; a single one stands for itself. -/
def group (kind : String) (trees : List Tree) : Parser Tree := do
  match trees with
  | [t] => return t
  | t :: ts => nodeFrom kind t (pure ts)
  | [] => failure

/-! ### Strings -/

/-- The letters before a string and its quotes. -/
def stringOpen? (s : Spot) : Option (String × String) :=
  let letters := s.rest.takeWhile fun c => "rRbBuUfFtT".toList.contains c
  let after := s.advance letters.length
  if 3 < letters.length then none
  else if after.has "\"\"\"" then some (.ofList letters, "\"\"\"")
  else if after.has "'''" then some (.ofList letters, "'''")
  else if after.has "\"" then some (.ofList letters, "\"")
  else if after.has "'" then some (.ofList letters, "'")
  else none

/-- The spot behind the closing quotes. -/
def stringEnd? (quotes : String) : Nat → Spot → Option Spot
  | 0, _ => none
  | n + 1, s =>
    match s.after? quotes with
    | some stop => some stop
    | none =>
      match s.rest with
      | [] => none
      | '\\' :: _ => stringEnd? quotes n (s.advance 2)
      | '\n' :: _ => if quotes.length == 1 then none else stringEnd? quotes n s.step
      | _ => stringEnd? quotes n s.step

/-- The spot of the next opening brace, or of the closing text, in a formatted string. -/
def formattedText? (close : String) (raw : Bool) : Nat → Spot → Option Spot
  | 0, _ => none
  | n + 1, s =>
    if s.has "\x7b\x7b" then formattedText? close raw n (s.advance 2)
    else if close != "\x7d" && s.has "\x7d\x7d" then formattedText? close raw n (s.advance 2)
    else if s.has "\x7b" || s.has close then some s
    else
      match s.rest with
      | [] => none
      | '\\' :: 'N' :: '\x7b' :: _ =>
        if raw then formattedText? close raw n (s.advance 2)
        else formattedText? close raw n (s.beyond "\x7d")
      | '\\' :: _ => formattedText? close raw n (s.advance 2)
      | '\n' :: _ => if close.length == 1 && close != "\x7d" then none else formattedText? close raw n s.step
      | _ => formattedText? close raw n s.step

/-- One interpolation of a formatted string, from its opening brace on. -/
def interpolation : Parser Tree := node "interpolation" do
  let depth := (← get).depth
  let first ← mark "\x7b"
  modify fun c => { c with depth := c.depth + 1 }
  let body ← separated (one (self .expression)) (mark ",")
  let equals ← maybe (one (lone "=" ["=="]))
  let conversion ← maybe do
    let m ← mark "!"
    return [m, ← name]
  let spec ← maybe do
    let m ← mark ":"
    let _ ← raw
    return [m, ← self (.formatted "\x7d" false)]
  let last ← mark "\x7d"
  modify fun c => { c with depth := depth }
  return first :: body ++ equals ++ conversion ++ spec ++ [last]

/-- The interpolations of a formatted string up to its closing text, which stays unread. -/
def formattedPieces (close : String) (isRaw : Bool) : Parser (List Tree) := do
  let pieces ← many do
    let s ← raw
    match formattedText? close isRaw (s.rest.length + 1) s with
    | none => failure
    | some stop =>
      if stop.has close && !(close != "\x7b" && stop.has "\x7b") then failure
      let content ← if stop.place.byte == s.place.byte then pure [] else one (token "string_content" true stop)
      let _ ← raw
      return content ++ [← interpolation self]
  let s ← raw
  match formattedText? close isRaw (s.rest.length + 1) s with
  | none => failure
  | some stop =>
    let content ← if stop.place.byte == s.place.byte then pure [] else one (token "string_content" true stop)
    let _ ← raw
    return pieces.flatten ++ content

/-- One string literal. -/
def string : Parser Tree := do
  let s ← ahead
  match stringOpen? s with
  | none => failure
  | some (letters, quotes) =>
    let opened := s.advance (letters.length + quotes.length)
    if letters.toList.any (fun c => c == 'f' || c == 'F' || c == 't' || c == 'T') then
      node "string" do
        let first ← token "string_start" true opened
        let depth := (← get).depth
        modify fun c => { c with depth := c.depth + 1 }
        let _ ← raw
        let pieces ← formattedPieces self quotes (letters.toList.any fun c => c == 'r' || c == 'R')
        let last ← mark quotes
        modify fun c => { c with depth := depth }
        return first :: pieces ++ [last]
    else
      match stringEnd? quotes (opened.rest.length + 1) opened with
      | some stop => token "string" true stop
      | none => failure

/-- Adjacent string literals. -/
def strings : Parser Tree := do group "concatenated_string" (← many1 (string self))

/-! ### Expressions -/

/-- The targets of a loop, which end before `in`. -/
def targets : Parser (List Tree) :=
  separated (do
    let star ← maybe (one (mark "*"))
    return star ++ [← self .operand]) (mark ",")

/-- One `for` or `if` clause of a comprehension. -/
def clause : Parser (List Tree) :=
  (do
    let isAsync ← maybe (one (keyword "async"))
    let f ← keyword "for"
    let ts ← targets self
    let i ← keyword "in"
    let iterable ← self .chain
    return isAsync ++ f :: ts ++ [i, iterable]) <|>
  (do
    let i ← keyword "if"
    let c ← self .chain
    let walrus ← maybe (do return [← mark ":=", ← self .chain])
    return i :: c :: walrus)

/-- An element of a bracketed list: an expression with stars, a keyword, a pair, a slice, or a
comprehension. -/
def element : Parser (List Tree) := do
  let before := (← get).here.place.byte
  let stars ← maybe (one (operator ["**", "*"]))
  let value ← maybe (one (self .expression))
  let more ← many (choice [
    do return [← mark ":=", ← self .expression],
    do return (← lone "=" ["=="]) :: [← self .expression],
    do return (← mark ":") :: (← maybe (one (self .expression)))])
  let clauses ← many (clause self)
  require ((← get).here.place.byte != before)
  return stars ++ value ++ more.flatten ++ clauses.flatten

/-- Elements between brackets. -/
def elements (a b : String) : Parser (List Tree) :=
  bracketed a b (separated (element self) (mark ","))

/-- The parameters of a function or lambda. -/
def parameter (typed : Bool) : Parser (List Tree) := do
  let before := (← get).here.place.byte
  let stars ← maybe (one (operator ["**", "*", "/"]))
  let value ← maybe (one (self .operand))
  let type ← if typed then maybe (do
      let m ← mark ":"
      let star ← maybe (one (mark "*"))
      return m :: star ++ [← self .expression])
    else pure []
  let value' ← maybe (do return [← lone "=" ["=="], ← self .expression])
  require ((← get).here.place.byte != before)
  return stars ++ value ++ type ++ value'

/-- A number. -/
def number : Parser Tree := scan "number" fun s =>
  match s.rest with
  | '0' :: x :: _ => some (numberTail s.rest.length (x == 'x' || x == 'X') s)
  | c :: _ =>
    if c.isDigit then some (numberTail s.rest.length false s)
    else
      match s.rest with
      | '.' :: d :: _ => if d.isDigit then some (numberTail s.rest.length false s.step) else none
      | _ => none
  | [] => none

/-- A trailing point belongs to a number that has none. -/
def numberWithPoint : Parser Tree := do
  let t ← number
  let s := (← get).here
  match s.rest with
  | '.' :: c :: _ =>
    if isWordStart c && c != 'e' && c != 'j' then return t
    let _ ← raw
    nodeFrom "float" t (one (token "." false s.step)) <|> return t
  | _ => return t

/-- An operand without the calls, subscripts and attributes behind it. -/
def atom : Parser Tree := choice [
  strings self,
  node "parenthesized_expression" (elements self "(" ")"),
  node "list" (elements self "[" "]"),
  node "dictionary" (elements self "\x7b" "\x7d"),
  mark "...",
  numberWithPoint,
  word "constant" (["True", "False", "None"].contains ·),
  node "yield" do
    let y ← keyword "yield"
    let f ← maybe (one (keyword "from"))
    return y :: f ++ (← maybe (separated (element self) (mark ","))),
  name]

/-- The calls, subscripts and attributes behind an operand. -/
def trailers : Nat → Tree → Parser Tree
  | 0, t => return t
  | n + 1, t => do
    let next ← attempt (choice [
      nodeFrom "attribute" (t.as "object") do
        let m ← lone "." ["..."]
        return [m, ← field "attribute" (word "identifier" fun _ => true)],
      nodeFrom "call" (t.as "function") (one (field "arguments" (node "argument_list" (elements self "(" ")")))),
      nodeFrom "subscript" (t.as "value") (elements self "[" "]")])
    match next with
    | some t => trailers n t
    | none => return t

/-- A lambda expression. -/
def lambda : Parser Tree := node "lambda" do
  let l ← keyword "lambda"
  let ps ← separated (parameter self false) (mark ",")
  let m ← mark ":"
  return l :: ps ++ [m, ← self .expression]

/-- An operand with the operators before it and the calls, subscripts and attributes behind it. -/
def operand : Parser Tree := choice [
  node "not_operator" (do return [← keyword "not", ← self .operand]),
  node "unary_operator" (do return [← operator ["-", "+", "~"], ← self .operand]),
  node "await" (do return [← keyword "await", ← self .operand]),
  lambda self,
  do trailers self (← get).size (← atom self)]

/-- An operator between operands. -/
def connective : Parser (List Tree) := choice [
  do
    let s ← ahead
    if assignments.any s.has then failure
    one (operator operators),
  one (keyword "and"), one (keyword "or"), one (keyword "in"),
  do return (← keyword "is") :: (← maybe (one (keyword "not"))),
  do return [← keyword "not", ← keyword "in"]]

/-- A chain of operands and operators. -/
def chain : Parser Tree := do
  let first ← self .operand
  let rest ← many (do
    let o ← connective
    crossLine
    return o ++ [← self .operand])
  group "operation" (first :: rest.flatten)

/-- An expression without a comma. -/
def expression : Parser Tree := do
  let value ← self .chain
  let condition ← maybe (do
    let i ← keyword "if"
    let c ← self .chain
    let e ← keyword "else"
    return [i, c, e, ← self .expression])
  let renamed ← maybe (do return [← keyword "as", ← self .operand])
  let value ← if condition.isEmpty then pure value else nodeFrom "conditional_expression" value (pure condition)
  if renamed.isEmpty then return value else nodeFrom "as_pattern" value (pure renamed)

/-- Expressions with commas, stars and named values. -/
def expressions : Parser (List Tree) :=
  separated (do
    let star ← maybe (one (operator ["**", "*"]))
    let value ← self .expression
    let named ← maybe (do return [← mark ":=", ← self .expression])
    return star ++ value :: named) (mark ",")

/-! ### Patterns of `case` clauses -/

/-- A dotted name. -/
def dottedName : Parser Tree := node "dotted_name" do
  let first ← name
  let more ← many (do return [← mark ".", ← word "identifier" fun _ => true])
  return first :: more.flatten

/-- Patterns with commas, each possibly followed by a mark and another pattern. -/
def patterns (between : String) : Parser (List Tree) :=
  separated (do
    let star ← maybe (one (operator ["**", "*"]))
    let key ← self .pattern
    let value ← maybe (do return [← lone between ["=="], ← self .pattern])
    return star ++ key :: value) (mark ",")

/-- One alternative of a pattern. -/
def closedPattern : Parser Tree := choice [
  strings self,
  node "case_pattern" (do
    let sign ← maybe (one (mark "-"))
    let n ← numberWithPoint
    let more ← many (do return [← operator ["+", "-"], ← numberWithPoint])
    return sign ++ n :: more.flatten),
  node "tuple_pattern" (bracketed "(" ")" (patterns self "=")),
  node "list_pattern" (bracketed "[" "]" (patterns self "=")),
  node "dict_pattern" (bracketed "\x7b" "\x7d" (patterns self ":")),
  word "constant" (["True", "False", "None"].contains ·),
  node "class_pattern" (do return (← dottedName) :: (← bracketed "(" ")" (patterns self "="))),
  dottedName]

/-- A pattern. -/
def pattern : Parser Tree := node "case_pattern" do
  let first ← closedPattern self
  let more ← many (do return [← mark "|", ← closedPattern self])
  let renamed ← maybe (do return [← keyword "as", ← name])
  return first :: more.flatten ++ renamed

/-! ### Statements -/

/-- What an import names, possibly under another name. -/
def imported : Parser (List Tree) := do
  let n ← dottedName
  let renamed ← maybe (do return [← keyword "as", ← field "alias" name])
  if renamed.isEmpty then return [n.as "name"]
  one (field "name" (nodeFrom "aliased_import" (n.as "name") (pure renamed)))

/-- The module of a `from` import. -/
def fromModule : Parser Tree := choice [
  node "relative_import" do
    let dots ← node "import_prefix" (many1 (mark "."))
    let n ← maybe (one dottedName)
    return dots :: n,
  dottedName]

/-- An import of modules. -/
def importStatement : Parser Tree := node "import_statement" do
  let i ← keyword "import"
  let names ← separated imported (mark ",")
  require (!names.isEmpty)
  return i :: names

/-- An import of names from a module. -/
def fromStatement : Parser Tree := do
  let s ← ahead
  let future := wordAt s == "from" && wordAt ((s.advance 4).skipWhile (· == ' ')) == "__future__"
  node (if future then "future_import_statement" else "import_from_statement") do
    let f ← keyword "from"
    let m ← field "module_name" fromModule
    let i ← keyword "import"
    let names ← choice [
      one (node "wildcard_import" (one (mark "*"))),
      bracketed "(" ")" (separated imported (mark ",")),
      separated imported (mark ",")]
    require (!names.isEmpty)
    return f :: m :: i :: names

/-- A statement that is a keyword followed by expressions. -/
def keywordStatement (kind w : String) : Parser Tree := node kind do
  return (← keyword w) :: (← maybe (expressions self))

/-- Words after which `print` and `exec` are ordinary names. -/
def afterName : List String := ["in", "is", "and", "or", "if", "else", "not", "for", "as"]

/-- A `print` or `exec` statement without parentheses. -/
def legacyStatement : Parser Tree := node "print_statement" do
  let p ← word "keyword" fun w => w == "print" || w == "exec"
  let s ← ahead
  require (s.has ">>" || s.has "\"" || s.has "'" ||
    (match s.char? with
     | some c => c.isDigit || (isWordStart c && !afterName.contains (wordAt s))
     | none => false))
  let chevron ← maybe (one (mark ">>"))
  return p :: chevron ++ (← expressions self)

/-- An expression or an assignment. -/
def expressionStatement : Parser Tree := node "expression_statement" do
  let left ← expressions self
  require (!left.isEmpty)
  let type ← maybe (do return [← lone ":" [":="], ← self .expression])
  let values ← many (do
    let m ← choice [lone "=" ["=="], operator assignments]
    -- a line does not end before the value
    crossLine
    let value ← expressions self
    require (!value.isEmpty)
    return m :: value)
  if type.isEmpty && values.isEmpty then return left
  match left with
  | t :: ts => one (nodeFrom "assignment" t (pure (ts ++ type ++ values.flatten)))
  | [] => failure

/-- A statement on one line. -/
def simple : Parser Tree := choice [
  importStatement,
  fromStatement,
  keywordStatement self "return_statement" "return",
  keywordStatement self "delete_statement" "del",
  keywordStatement self "assert_statement" "assert",
  keywordStatement self "global_statement" "global",
  keywordStatement self "nonlocal_statement" "nonlocal",
  node "raise_statement" do
    let r ← keyword "raise"
    let value ← maybe (expressions self)
    let cause ← maybe (do return [← keyword "from", ← self .expression])
    return r :: value ++ cause,
  node "pass_statement" (one (keyword "pass")),
  node "break_statement" (one (keyword "break")),
  node "continue_statement" (one (keyword "continue")),
  node "type_alias_statement" do
    let t ← keyword "type"
    let n ← name
    let ps ← maybe (elements self "[" "]")
    let m ← lone "=" ["=="]
    return t :: n :: ps ++ [m, ← self .expression],
  legacyStatement self,
  expressionStatement self]

/-- The end of a line, with the comment before it. -/
def lineEnd : Parser Unit := do
  let c ← get
  require (c.newline || c.next.rest.isEmpty)
  keepComments (·.start.row == c.here.place.row)

/-- The statements of one line. A line that ends in symbols is an error as a whole. -/
def line : Parser (List Tree) := do
  let first ← self .simple
  let more ← many (do return (← mark ";") :: (← maybe (one (self .simple))))
  let c ← get
  lineEnd
  let all := first :: more.flatten
  if c.skipped.any fun t => t.isFaulty && t.start.row == c.here.place.row then
    let stop := (← get).here.place
    return [.node { kind := "ERROR", fault := .error, start := first.start, stop } all]
  else return all

/-- A line that fits nowhere. The last line of a text is no part of a block if it does not fit. -/
def faultyStatement (indent : Nat) : Parser Tree := do
  let t ← faultyLine
  require (indent == 0 || !(← atEnd))
  return t

/-- A header line that fits nowhere forms one error with the indented lines below it if the last of
them does not fit either. -/
def joinFaults : List Tree → List Tree
  | [] => []
  | t :: ts =>
    match ts.getLast? with
    | some last =>
      if t.isFaulty && last.isFaulty && ts.all (0 < ·.start.column) then
        [.node { kind := "ERROR", fault := .error, start := t.start, stop := last.stop } (ts.filter (!·.isFaulty))]
      else t :: joinFaults ts
    | none => [t]

/-- Statements that begin at one width or beyond, and the comments below them at that width or beyond. -/
def statements (indent : Nat) : Parser (List Tree) := do
  let ss ← many do
    let c ← get
    require (!c.next.rest.isEmpty && indent ≤ c.next.place.column)
    crossLine
    let s ← choice [self (.statement indent), faultyStatement indent]
    -- the statements of one line share a node that only groups them
    if s.kind == "line" then return s.children else return [s]
  return ss.flatten

/-- What follows a colon: a block of its own, statements on the same line, or nothing. -/
def suite (indent : Nat) : Parser Tree := do
  let c ← get
  if !c.newline then node "block" (line self)
  else if !c.next.rest.isEmpty && indent < c.next.place.column then
    let inner := c.next.place.column
    node "block" do
      let ss ← statements self inner
      require ((← get).next.rest.isEmpty || (← get).next.place.column < inner)
      keepComments (inner ≤ ·.start.column)
      return ss
  else
    lineEnd
    node "block" (pure [])

/-- A block begins after the lines at its start that are errors. -/
def splitBlock (block : Tree) : List Tree × Tree :=
  let isError (t : Tree) : Bool := t.kind == "ERROR" && !t.children.isEmpty
  let errors := block.children.takeWhile isError
  let rest := block.children.dropWhile isError
  match errors.getLast? with
  | none => ([], block)
  | some last => (errors, .spanning block.kind ((rest.head?.map (·.start)).getD last.stop) block.stop rest)

/-- A colon and what follows it. -/
def body (indent : Nat) : Parser (List Tree) := do
  let m ← mark ":"
  let (errors, block) := splitBlock (← self (.suite indent))
  return m :: errors ++ [block.as "body"]

/-- Continue a statement on a line of its own with a given word. -/
def continued (indent : Nat) (w : String) : Parser Tree := do
  let c ← get
  require (c.newline && indent ≤ c.next.place.column && wordAt c.next == w)
  crossLine
  keyword w

/-- The branches after a statement's first block. -/
def branches (indent : Nat) : Parser (List Tree) := do
  let bs ← many (choice [
    node "elif_clause" do
      return (← continued indent "elif") :: (← expressions self) ++ (← body self indent),
    node "else_clause" do return (← continued indent "else") :: (← body self indent),
    node "except_clause" do
      let e ← continued indent "except"
      let star ← maybe (one (mark "*"))
      return e :: star ++ (← maybe (expressions self)) ++ (← body self indent),
    node "finally_clause" do return (← continued indent "finally") :: (← body self indent)])
  return bs

/-- The type parameters of a definition. -/
def typeParameters : Parser (List Tree) := maybe (one (node "type_parameter" (elements self "[" "]")))

/-- A function definition. -/
def functionDefinition (indent : Nat) : Parser Tree := node "function_definition" do
  let isAsync ← maybe (one (keyword "async"))
  let d ← keyword "def"
  let n ← field "name" name
  let types ← typeParameters self
  let ps ← field "parameters" (node "parameters" do
    let a ← mark "("
    modify fun c => { c with depth := c.depth + 1 }
    let inner ← separated (parameter self true) (mark ",")
    let b ← expected ")"
    modify fun c => { c with depth := c.depth - 1 }
    return a :: inner ++ [b])
  let result ← maybe (do return [← mark "->", ← field "return_type" (self .expression)])
  return isAsync ++ d :: n :: types ++ ps :: result ++ (← body self indent)

/-- A class definition. -/
def classDefinition (indent : Nat) : Parser Tree := node "class_definition" do
  let c ← keyword "class"
  let n ← field "name" name
  let types ← typeParameters self
  let bases ← maybe (one (field "superclasses" (node "argument_list" (elements self "(" ")"))))
  return c :: n :: types ++ bases ++ (← body self indent)

/-- A definition with decorators before it. -/
def decorated (indent : Nat) : Parser Tree := node "decorated_definition" do
  let ds ← many1 (node "decorator" do
    let m ← mark "@"
    let e ← self .expression
    lineEnd
    let c ← get
    require (indent ≤ c.next.place.column)
    crossLine
    return [m, e])
  let d ← choice [functionDefinition self indent, classDefinition self indent]
  return ds ++ [d.as "definition"]

/-- A `match` statement. -/
def matchStatement (indent : Nat) : Parser Tree := node "match_statement" do
  let m ← keyword "match"
  let subject ← expressions self
  require (!subject.isEmpty)
  let colon ← mark ":"
  let c ← get
  require (c.newline && indent < c.next.place.column && wordAt c.next == "case")
  let inner := c.next.place.column
  let block ← field "body" (node "block" do
    let cases ← many (node "case_clause" do
      let c ← get
      require (inner ≤ c.next.place.column)
      crossLine
      let k ← keyword "case"
      let ps ← patterns self "="
      let guard ← maybe (do return (← keyword "if") :: (← expressions self))
      return k :: ps ++ guard ++ (← body self inner))
    keepComments (inner ≤ ·.start.column)
    return cases)
  return m :: subject ++ [colon, block]

/-- A statement of a block that is indented by a width. -/
def statement (indent : Nat) : Parser Tree := choice [
  decorated self indent,
  functionDefinition self indent,
  classDefinition self indent,
  node "if_statement" do
    return (← keyword "if") :: (← expressions self) ++ (← body self indent) ++ (← branches self indent),
  node "while_statement" do
    return (← keyword "while") :: (← expressions self) ++ (← body self indent) ++ (← branches self indent),
  node "for_statement" do
    let isAsync ← maybe (one (keyword "async"))
    let f ← keyword "for"
    let ts ← targets self
    let i ← keyword "in"
    return isAsync ++ f :: ts ++ i :: (← expressions self) ++ (← body self indent) ++ (← branches self indent),
  node "try_statement" do
    return (← keyword "try") :: (← body self indent) ++ (← branches self indent),
  node "with_statement" do
    let isAsync ← maybe (one (keyword "async"))
    let w ← keyword "with"
    return isAsync ++ w :: (← expressions self) ++ (← body self indent),
  matchStatement self indent,
  node "line" (line self)]

/-- The rules of the grammar. -/
def grammar : Grammar Goal := fun self => fun
  | .module => node "module" do
    let ss ← statements self 0
    require ((← get).next.rest.isEmpty)
    return joinFaults ss
  | .statement indent => statement self indent
  | .simple => simple self
  | .suite indent => suite self indent
  | .expression => expression self
  | .chain => chain self
  | .operand => operand self
  | .pattern => pattern self
  | .formatted close isRaw => node "format_specifier" (formattedPieces self close isRaw)

end Rules

/-- The syntax tree of a module. -/
def parse (text : String) : Tree := grammar.parse lexicon .module text

end RepoAtlas.Syntax.Python
