import RepoAtlas.Syntax.Scan

/-!
# The grammar of Go

Declarations, statements, expressions and types. A line end is a token of its own where it ends a
statement. Chains of operators are kept flat.
-/

namespace RepoAtlas.Syntax.Go

/-- What stands between two tokens. -/
def skipFrom : Nat → Trivia → Trivia
  | 0, t => t
  | n + 1, t =>
    match t.next.rest with
    | [] => { t with newline := true }
    | '/' :: '/' :: _ =>
      let stop := t.next.skipWhile (· != '\n')
      skipFrom n { t with next := stop, comments := Spot.leaf "comment" true t.next stop :: t.comments }
    | '/' :: '*' :: _ =>
      match (t.next.advance 2).beyond? "*/" with
      | some stop =>
        skipFrom n { t with next := stop, newline := t.newline || t.next.place.row != stop.place.row,
                            comments := Spot.leaf "comment" true t.next stop :: t.comments }
      | none => t
    | c :: _ =>
      if Text.isBlank c then
        skipFrom n { t with next := t.next.step, newline := t.newline || c == '\n' }
      else if Text.isSymbol c then skipFrom n t.passSymbols
      else t

/-- Tokens after which a line end ends a statement. -/
def enders : List String :=
  ["identifier", "field_identifier", "type_identifier", "package_identifier", "literal", "string",
   "break", "continue", "fallthrough", "return", "++", "--", ")", "]", "\x7d", "ERROR"]

/-- The lexical rules. -/
def lexicon : Lexicon where
  skip s := skipFrom (s.rest.length + 1) ⟨s, false, []⟩
  lineBound := true
  endsLine kind := enders.contains kind

/-- Words that are not names. -/
def reserved : List String :=
  ["break", "case", "chan", "const", "continue", "default", "defer", "else", "fallthrough", "for",
   "func", "go", "goto", "if", "import", "interface", "map", "package", "range", "return", "select",
   "struct", "switch", "type", "var"]

/-- The operators between operands. -/
def operators : List String :=
  ["<<=", ">>=", "&^=", "&&", "||", "==", "!=", "<=", ">=", "<<", ">>", "&^", "<-", "++", "--", "+=",
   "-=", "*=", "/=", "%=", "&=", "|=", "^=", ":=", "+", "-", "*", "/", "%", "&", "|", "^", "<", ">", "="]

/-- The operators that assign. -/
def assignments : List String :=
  ["<<=", ">>=", "&^=", "+=", "-=", "*=", "/=", "%=", "&=", "|=", "^=", ":=", "="]

/-- What a grammar rule is asked for. -/
inductive Goal where
  | sourceFile
  | statement
  | block
  /-- An expression; `literal` says whether a brace after a name opens a literal. -/
  | expression (literal : Bool)
  | operand (literal : Bool)
  | type
  | literalValue

section Rules

open Syntax.Parser

variable (self : Goal → Parser Tree)

/-- A name. -/
def name (kind : String) : Parser Tree := word kind (!reserved.contains ·)

/-- A tree of one kind over several others; a single one stands for itself. -/
def group (kind : String) (trees : List Tree) : Parser Tree := do
  match trees with
  | [t] => return t
  | t :: ts => nodeFrom kind t (pure ts)
  | [] => failure

/-- The end of a statement: a semicolon, a line end, or the end of the file. -/
def terminator : Parser (List Tree) := do
  match ← attempt (mark ";") with
  | some t => return [t]
  | none =>
    let c ← get
    require (c.newline || c.next.rest.isEmpty)
    crossLine
    let a := c.here.skipWhile (· != '\n')
    return if a.rest.isEmpty then [] else [Spot.leaf "\n" false a a.step]

/-- Entries that end like statements, up to a closing bracket. -/
def entries (openMark closeMark : String) (entry : Parser (List Tree)) : Parser (List Tree) := do
  let a ← mark openMark
  let inner ← unnested (do
    let es ← many (do
      let e ← entry
      let t ← maybe terminator
      require (!t.isEmpty || (← sees closeMark) || (← sees ","))
      return e ++ t)
    return es.flatten)
  let b ← unnested (mark closeMark)
  return a :: inner ++ [b]

/-! ### Literals -/

/-- The spot behind a quoted text. -/
def quotedEnd? (quote : Char) : Nat → Spot → Option Spot
  | 0, _ => none
  | n + 1, s =>
    match s.rest with
    | [] => none
    | '\n' :: _ => none
    | '\\' :: _ => quotedEnd? quote n (s.advance 2)
    | c :: _ => if c == quote then some s.step else quotedEnd? quote n s.step

/-- A string. -/
def string : Parser Tree := scan "string" fun s =>
  match s.rest with
  | '"' :: _ => quotedEnd? '"' s.rest.length s.step
  | '\x60' :: _ => s.step.beyond? "`"
  | _ => none

/-- A literal of a basic type. -/
def basic : Parser Tree := choice [
  string,
  scan "literal" fun s =>
    match s.rest with
    | '\'' :: _ => quotedEnd? '\'' s.rest.length s.step
    | '.' :: c :: _ => if c.isDigit then some (numberTail s.rest.length false s.step) else none
    | c :: _ =>
      if !c.isDigit then none
      else
        let stop := numberTail s.rest.length (["0x", "0X", "0b", "0o"].any s.has) s
        match stop.rest with
        | '.' :: _ =>
          if (s.rest.take (s.rest.length - stop.rest.length)).contains '.' then some stop
          else some (numberTail s.rest.length false stop.step)
        | _ => some stop
    | [] => none]

/-! ### Types -/

/-- Types between square brackets. -/
def typeArguments : Parser Tree := node "type_arguments" (bracketed "[" "]" (do
  let ts ← separated (one (self .type)) (mark ",")
  require (!ts.isEmpty)
  return ts))

/-- A parameter: a type, or a name and a type. -/
def parameter : Parser (List Tree) := do
  let typed : Parser (List Tree) := do
    let dots ← maybe (one (mark "..."))
    return dots ++ [← field "type" (self .type)]
  let named ← attempt (do
    let n ← field "name" (name "identifier")
    let t ← typed
    require ((← sees ",") || (← sees ")"))
    return Tree.covering "parameter_declaration" n t)
  match named with
  | some p => return [p]
  | none =>
    match ← typed with
    | t :: ts => return [.covering "parameter_declaration" t ts]
    | [] => failure

/-- Parameters in parentheses. -/
def parameters : Parser Tree :=
  node "parameter_list" (bracketed "(" ")" (separated (parameter self) (mark ",")))

/-- The parameters and results of a function. -/
def signature : Parser (List Tree) := do
  let ps ← field "parameters" (parameters self)
  let r ← maybe (one (field "result" (choice [parameters self, self .type])))
  return ps :: r

/-- The type parameters of a declaration. -/
def typeParameters : Parser Tree := node "type_parameter_list" (bracketed "[" "]" (do
  let ps ← separated (do
    let first ← name "identifier"
    let names ← many (do return [← mark ",", ← name "identifier"])
    let tilde ← maybe (one (mark "~"))
    let t ← self .type
    let more ← many (do
      let m ← mark "|"
      let tilde ← maybe (one (mark "~"))
      return m :: tilde ++ [← self .type])
    return first :: names.flatten ++ tilde ++ t :: more.flatten) (mark ",")
  require (!ps.isEmpty)
  return ps))

/-- A field of a struct. -/
def fieldDeclaration : Parser (List Tree) := do
  let first ← self .type
  let names ← many (do return [← mark ",", ← name "field_identifier"])
  let t ← maybe (one (self .type))
  let tag ← maybe (one string)
  return [.covering "field_declaration" first (names.flatten ++ t ++ tag)]

/-- An element of an interface: a method or a union of types. -/
def interfaceElement : Parser (List Tree) := choice [
  one (node "method_elem" (do
    let n ← name "field_identifier"
    require (← sees "(")
    return n :: (← signature self))),
  one (node "type_elem" (do
    let term : Parser (List Tree) := do
      let tilde ← maybe (one (mark "~"))
      return tilde ++ [← self .type]
    let first ← term
    let more ← many (do return (← mark "|") :: (← term))
    return first ++ more.flatten))]

/-- A type that begins with a bracket or a keyword, so that it cannot be an operand's name. -/
def literalType : Parser Tree := choice [
  node "array_type" (do
    let b ← bracketed "[" "]" (maybe (one (choice [mark "...", self (.expression true)])))
    return b ++ [← self .type]),
  node "map_type" (do
    let k ← keyword "map"
    let b ← bracketed "[" "]" (one (self .type))
    return k :: b ++ [← self .type]),
  node "channel_type" (do
    let a ← maybe (one (mark "<-"))
    let k ← keyword "chan"
    let b ← if a.isEmpty then maybe (one (mark "<-")) else pure []
    return a ++ k :: b ++ [← self .type]),
  node "struct_type" (do
    let k ← keyword "struct"
    return k :: (← entries "\x7b" "\x7d" (fieldDeclaration self))),
  node "interface_type" (do
    let k ← keyword "interface"
    return k :: (← entries "\x7b" "\x7d" (interfaceElement self))),
  node "function_type" (do
    let k ← keyword "func"
    return k :: (← signature self))]

/-- A type. -/
def type : Parser Tree := choice [
  literalType self,
  node "pointer_type" (do return [← mark "*", ← self .type]),
  node "parenthesized_type" (bracketed "(" ")" (one (self .type))),
  node "type_name" (do
    let n ← name "type_identifier"
    let q ← maybe (do return [← mark ".", ← name "type_identifier"])
    let args ← maybe (one (typeArguments self))
    return n :: q ++ args)]

/-! ### Expressions -/

/-- The elements of a composite literal in braces. -/
def literalValue : Parser Tree := node "literal_value" (bracketed "\x7b" "\x7d" (separated (do
  let value : Parser Tree := choice [self .literalValue, self (.expression true)]
  let k ← value
  let v ← maybe (do return [← lone ":" [":="], ← value])
  return k :: v) (mark ",")))

/-- Arguments in parentheses. -/
def arguments : Parser Tree := node "argument_list" (bracketed "(" ")" (separated (do
  let e ← self (.expression true)
  let dots ← maybe (one (mark "..."))
  return e :: dots) (mark ",")))

/-- An operand without the calls, indices and selections behind it. -/
def primary : Parser Tree := choice [
  basic,
  node "func_literal" (do
    let k ← keyword "func"
    let s ← signature self
    return k :: s ++ [← field "body" (self .block)]),
  node "composite_literal" (do return [← literalType self, ← self .literalValue]),
  node "type_conversion_expression" (do
    let t ← literalType self
    require (← sees "(")
    return [t, ← arguments self]),
  literalType self,
  node "parenthesized_expression" (bracketed "(" ")" (one (choice [self (.expression true), self .type]))),
  name "identifier"]

/-- Operands that may name the type of a composite literal. -/
def namesType (t : Tree) : Bool :=
  ["identifier", "selector_expression", "index_expression"].contains t.kind

/-- Types that could as well be expressions: names, and pointers to them. -/
def readsAsExpression (t : Tree) : Bool :=
  t.kind == "type_name" && !(t.children.any (·.kind == "type_arguments")) ||
    t.kind == "pointer_type" && t.children.all fun c =>
      !c.label.named || c.kind == "type_name" && !(c.children.any (·.kind == "type_arguments"))

/-- Type arguments before a call. One that could as well be an index is none. -/
def callTypes : Parser (List Tree) := do
  let ts ← typeArguments self
  require (← sees "(")
  match ts.children.filter (·.label.named) with
  | [t] => require (!readsAsExpression t)
  | _ => pure ()
  return [ts]

/-- The calls, indices and selections behind an operand. -/
def trailers (lit : Bool) : Nat → Tree → Parser Tree
  | 0, t => return t
  | n + 1, t => do
    let next ← attempt (choice [
      nodeFrom "selector_expression" (t.as "operand") (do
        let m ← mark "."
        return [m, ← field "field" (word "field_identifier" fun _ => true)]),
      nodeFrom "type_assertion_expression" t (do
        let m ← mark "."
        return m :: (← bracketed "(" ")" (one (choice [keyword "type", self .type])))),
      nodeFrom "call_expression" (t.as "function") (do
        let ts ← maybe (callTypes self)
        return ts ++ [← field "arguments" (arguments self)]),
      nodeFrom "index_expression" t (bracketed "[" "]" (do
        let part := maybe (one (choice [self (.expression true), self .type]))
        let first ← part
        let more ← many (do return (← choice [lone ":" [":="], mark ","]) :: (← part))
        return first ++ more.flatten)),
      nodeFrom "composite_literal" t (do
        require (lit && namesType t)
        one (self .literalValue))])
    match next with
    | some t => trailers lit n t
    | none => return t

/-- An operand with the operators before it and the calls, indices and selections behind it. -/
def operand (lit : Bool) : Parser Tree := choice [
  node "channel_type" (do
    let a ← mark "<-"
    return [a, ← keyword "chan", ← self .type]),
  node "unary_expression" (do
    return [← operator ["<-", "+", "-", "!", "^", "*", "&", "~"], ← self (.operand lit)]),
  do trailers self lit (← get).size (← primary self)]

/-- An operator between operands. -/
def connective : Parser Tree := do
  match operatorAt? operators (← ahead) with
  | some o =>
    require (!assignments.contains o && o != "++" && o != "--")
    mark o
  | none => failure

/-- An expression. -/
def expression (lit : Bool) : Parser Tree := do
  let first ← self (.operand lit)
  let more ← many (do return [← connective, ← self (.operand lit)])
  group "binary_expression" (first :: more.flatten)

/-- Expressions with commas. -/
def expressions (lit : Bool) : Parser (List Tree) := do
  let first ← self (.expression lit)
  let more ← many (do return [← mark ",", ← self (.expression lit)])
  return first :: more.flatten

/-! ### Statements -/

/-- A statement that may stand in the head of another one. -/
def simple (lit : Bool) : Parser Tree := choice [
  node "range_clause" (do return [← keyword "range", ← self (.expression lit)]),
  node "simple_statement" (do
    let left ← expressions self lit
    let rest ← maybe (choice [
      one (operator ["++", "--"]),
      do
        let s ← ahead
        match operatorAt? operators s with
        | some o =>
          require (assignments.contains o)
          let m ← mark o
          let r ← maybe (one (keyword "range"))
          return m :: r ++ (← expressions self lit)
        | none => failure])
    return left ++ rest)]

/-- The head of a statement: simple statements with semicolons. -/
def head : Parser (List Tree) := do
  let first ← maybe (one (simple self false))
  let more ← many (do return (← mark ";") :: (← maybe (one (simple self false))))
  return first ++ more.flatten

/-- Statements with their ends, up to a closing brace or another case. -/
def statements : Parser (List Tree) := do
  let ss ← many (do
    require (!(← sees "\x7d"))
    let w ← nextWord
    require (w != "case" && w != "default")
    choice [
      one (mark ";"),
      do
        let s ← self .statement
        let t ← maybe terminator
        require (!t.isEmpty || (← sees "\x7d") || (← atEnd))
        return s :: t,
      do
        let s ← faultyCode
        return s :: (← maybe terminator)])
  return ss.flatten

/-- A block. -/
def block : Parser Tree := node "block" do
  let a ← mark "\x7b"
  let ss ← unnested (statements self)
  let b ← unnested blockEnd
  return a :: ss ++ [b]

/-- One case of a `switch` or `select` statement. -/
def caseClause : Parser Tree := node "case_clause" do
  let h ← choice [
    do
      let k ← keyword "case"
      let first ← choice [simple self true, self .type]
      let more ← many (do return [← mark ",", ← choice [self (.expression true), self .type]])
      return k :: first :: more.flatten,
    one (keyword "default")]
  let m ← lone ":" [":="]
  return h ++ m :: (← statements self)

/-- The cases of a statement in braces. -/
def cases : Parser (List Tree) := do
  let a ← mark "\x7b"
  let cs ← unnested (many (caseClause self))
  let b ← unnested blockEnd
  return a :: cs ++ [b]

/-- A single entry or entries in parentheses. -/
def grouped (entry : Parser (List Tree)) : Parser (List Tree) := choice [
  do
    require (← sees "(")
    entries "(" ")" entry,
  entry]

/-- A declaration of constants or variableDeclaration. -/
def variableDeclaration : Parser Tree := node "var_declaration" do
  let k ← choice [keyword "const", keyword "var"]
  let spec : Parser (List Tree) := do
    let first ← name "identifier"
    let names ← many (do return [← mark ",", ← name "identifier"])
    let t ← maybe (one (self .type))
    let v ← maybe (do return (← lone "=" ["=="]) :: (← expressions self true))
    return [.covering "var_spec" first (names.flatten ++ t ++ v)]
  return k :: (← grouped spec)

/-- A declaration of types. -/
def typeDeclaration : Parser Tree := node "type_declaration" do
  let k ← keyword "type"
  let spec : Parser (List Tree) := do
    let n ← field "name" (name "type_identifier")
    let ps ← maybe (do
      let ps ← typeParameters self
      return [ps])
    match ← attempt (lone "=" ["=="]) with
    | some m => return [.covering "type_alias" n (ps ++ [m, ← field "type" (self .type)])]
    | none => return [.covering "type_spec" n (ps ++ [← field "type" (self .type)])]
  return k :: (← grouped spec)

/-- A statement. -/
def statement : Parser Tree := choice [
  self .block,
  variableDeclaration self,
  typeDeclaration self,
  node "if_statement" do
    let k ← keyword "if"
    let h ← head self
    let b ← self .block
    let e ← maybe (do
      let e ← keyword "else"
      return [e, ← self .statement])
    return k :: h ++ b :: e,
  node "for_statement" do
    let k ← keyword "for"
    let h ← head self
    return k :: h ++ [← self .block],
  node "switch_statement" do
    let k ← keyword "switch"
    let h ← head self
    return k :: h ++ (← cases self),
  node "select_statement" do
    let k ← keyword "select"
    return k :: (← cases self),
  node "go_statement" (do return [← choice [keyword "go", keyword "defer"], ← self (.expression true)]),
  node "return_statement" do
    let k ← keyword "return"
    return k :: (← maybe (expressions self true)),
  node "jump_statement" do
    let k ← choice [keyword "break", keyword "continue", keyword "goto", keyword "fallthrough"]
    return k :: (← maybe (one (name "identifier"))),
  node "labeled_statement" do
    let n ← name "identifier"
    let m ← lone ":" [":="]
    crossLine
    return n :: m :: (← maybe (one (self .statement))),
  simple self true]

/-! ### Declarations -/

/-- A function without a receiver. -/
def functionDeclaration : Parser Tree := node "function_declaration" do
  let k ← keyword "func"
  let n ← field "name" (name "identifier")
  let ts ← maybe (one (field "type_parameters" (typeParameters self)))
  let s ← signature self
  let b ← maybe (one (field "body" (self .block)))
  return k :: n :: ts ++ s ++ b

/-- A function with a receiver. -/
def methodDeclaration : Parser Tree := node "method_declaration" do
  let k ← keyword "func"
  let r ← field "receiver" (parameters self)
  let n ← field "name" (name "field_identifier")
  let s ← signature self
  let b ← maybe (one (field "body" (self .block)))
  return k :: r :: n :: s ++ b

/-- An import. -/
def importDeclaration : Parser Tree := node "import_declaration" do
  let k ← keyword "import"
  let spec : Parser (List Tree) := one (node "import_spec" do
    let n ← maybe (one (field "name" (choice [mark ".", name "package_identifier"])))
    return n ++ [← field "path" string])
  return k :: (← grouped spec)

/-- A declaration of a file. -/
def topLevel : Parser Tree := choice [
  node "package_clause" (do return [← keyword "package", ← name "package_identifier"]),
  importDeclaration,
  functionDeclaration self,
  methodDeclaration self,
  statement self]

/-- The rules of the grammar. -/
def grammar : Grammar Goal := fun self => fun
  | .sourceFile => node "source_file" do
    let ds ← many (choice [
      one (mark ";"),
      do
        let d ← topLevel self
        let t ← maybe terminator
        require (!t.isEmpty || (← atEnd))
        return d :: t,
      do
        let d ← faultyLine
        return d :: (← maybe terminator)])
    require (← atEnd)
    return ds.flatten
  | .statement => statement self
  | .block => block self
  | .expression lit => expression self lit
  | .operand lit => operand self lit
  | .type => type self
  | .literalValue => literalValue self

end Rules

/-- The syntax tree of a source file. -/
def parse (text : String) : Tree := grammar.parse lexicon .sourceFile text

end RepoAtlas.Syntax.Go
