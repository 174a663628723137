import RepoAtlas.Syntax.Scan

/-!
# The grammar of JavaScript and TypeScript

One grammar with two switches: whether types are written, and whether elements of markup are
expressions. Chains of operators are kept flat. Parameters of an arrow function are first read as a
parenthesized expression, since only the arrow behind them tells the two apart.
-/

namespace RepoAtlas.Syntax.TypeScript

/-- The members of the language family. -/
structure Dialect where
  /-- Types, interfaces, enumerations and modifiers are written. -/
  typed : Bool
  /-- Elements in angle brackets are expressions. -/
  markup : Bool

/-- What stands between two tokens. -/
def skipFrom : Nat → Trivia → Trivia
  | 0, t => t
  | n + 1, t =>
    match t.next.rest with
    | [] => t
    | '\n' :: _ => skipFrom n { t with next := t.next.step, newline := true }
    | '/' :: '/' :: _ =>
      let stop := t.next.skipWhile fun c => c != '\n' && c != '\r' && c != '\u2028' && c != '\u2029'
      skipFrom n { t with next := stop, comments := Spot.leaf "comment" true t.next stop :: t.comments }
    | '/' :: '*' :: _ =>
      match (t.next.advance 2).beyond? "*/" with
      | some stop =>
        skipFrom n { t with next := stop, newline := t.newline || t.next.place.row != stop.place.row,
                            comments := Spot.leaf "comment" true t.next stop :: t.comments }
      | none => t
    | c :: _ =>
      if c == '\u2028' || c == '\u2029' then skipFrom n { t with next := t.next.step, newline := true }
      else if Text.isBlank c || c == '\uFEFF' || c == '\u200B' || c == '\u2060' then
        skipFrom n { t with next := t.next.step }
      else t

/-- The lexical rules; a line end matters only where a semicolon may be left out. -/
def lexicon : Lexicon where
  skip s := skipFrom (s.rest.length + 1) ⟨s, false, []⟩
  lineBound := false
  endsLine _ := true

/-- Words that are not names. -/
def reserved : List String :=
  ["break", "case", "catch", "class", "const", "continue", "debugger", "default", "delete", "do",
   "else", "export", "extends", "finally", "for", "function", "if", "import", "in", "instanceof",
   "new", "return", "super", "switch", "this", "throw", "try", "typeof", "var", "void", "while",
   "with", "null", "true", "false", "enum"]

/-- The operators between operands, assignments among them. -/
def operators : List String :=
  [">>>=", "**=", "<<=", ">>=", "&&=", "||=", "??=", "===", "!==", ">>>", "=>", "+=", "-=", "*=",
   "/=", "%=", "&=", "|=", "^=", "==", "!=", "<=", ">=", "<<", ">>", "&&", "||", "??", "**", "++",
   "--", "+", "-", "*", "/", "%", "&", "|", "^", "<", ">", "="]

/-- What a grammar rule is asked for. -/
inductive Goal where
  | program
  | statement
  | block
  /-- An expression with commas. -/
  | expression
  /-- An expression without a comma; parentheses may be followed by a result type and an arrow. -/
  | assign (arrowTypes : Bool)
  | operand
  | element
  | template
  | type
  | typeOperand
  | classBody
  | objectType

section Rules

open Syntax.Parser

variable (d : Dialect) (self : Goal → Parser Tree)

/-- A name. -/
def name : Parser Tree := word "identifier" (!reserved.contains ·)

/-- A word in a place where every word is a name. -/
def anyName (kind : String) : Parser Tree := word kind fun _ => true

/-- A tree of one kind over several others; a single one stands for itself. -/
def group (kind : String) (trees : List Tree) : Parser Tree := do
  match trees with
  | [t] => return t
  | t :: ts => nodeFrom kind t (pure ts)
  | [] => failure

/-- An expression without a comma. -/
def value : Parser Tree := self (.assign true)

/-- The end of a statement: a semicolon, or a place where it may be left out. -/
def semicolon : Parser (List Tree) := do
  match ← attempt (mark ";") with
  | some t => return [t]
  | none =>
    let c ← get
    require (c.newline || c.next.rest.isEmpty || c.next.has "\x7d")
    return []

/-! ### Literals -/

/-- The spot behind a closing quote. -/
def stringEnd? (quote : Char) : Nat → Spot → Option Spot
  | 0, _ => none
  | n + 1, s =>
    match s.rest with
    | [] => none
    | '\\' :: _ => stringEnd? quote n (s.advance 2)
    | c :: _ =>
      if c == quote then some s.step
      else if c == '\n' then none
      else stringEnd? quote n s.step

/-- A string literal. -/
def string : Parser Tree := scan "string" fun s =>
  match s.rest with
  | '"' :: _ => stringEnd? '"' s.rest.length s.step
  | '\'' :: _ => stringEnd? '\'' s.rest.length s.step
  | _ => none

/-- A number. -/
def number : Parser Tree := scan "number" fun s =>
  match s.rest with
  | '.' :: c :: _ => if c.isDigit then some (numberTail s.rest.length false s.step) else none
  | c :: _ =>
    if !c.isDigit then none
    else
      let based := c == '0' && ["0x", "0X", "0b", "0B", "0o", "0O"].any s.has
      let stop := numberTail s.rest.length based s
      match stop.rest with
      | '.' :: _ =>
        let seen := s.rest.take (s.rest.length - stop.rest.length)
        if based || seen.contains '.' then some stop else some (numberTail s.rest.length false stop.step)
      | _ => some stop
  | [] => none

/-- The spot behind a regular expression, without its flags. -/
def regexEnd? : Nat → Bool → Spot → Option Spot
  | 0, _, _ => none
  | n + 1, inClass, s =>
    match s.rest with
    | [] => none
    | '\n' :: _ => none
    | '\\' :: _ => regexEnd? n inClass (s.advance 2)
    | '[' :: _ => regexEnd? n true s.step
    | ']' :: _ => regexEnd? n false s.step
    | '/' :: _ => if inClass then regexEnd? n inClass s.step else some s.step
    | _ => regexEnd? n inClass s.step

/-- A regular expression. -/
def regex : Parser Tree := scan "regex" fun s =>
  match s.rest with
  | '/' :: _ => (regexEnd? s.rest.length false s.step).map (·.skipWhile isWordPart)
  | _ => none

/-- The spot of the next substitution or of the closing backtick. -/
def templateText? : Nat → Spot → Option Spot
  | 0, _ => none
  | n + 1, s =>
    match s.rest with
    | [] => none
    | '\x60' :: _ => some s
    | '$' :: '\x7b' :: _ => some s
    | '\\' :: _ => templateText? n (s.advance 2)
    | _ => templateText? n s.step

/-- A template string; `inner` reads what is substituted. -/
def templateOf (inner : Parser (List Tree)) : Parser Tree := node "template_string" do
  let first ← mark "`"
  let pieces ← many do
    let s ← raw
    match templateText? (s.rest.length + 1) s with
    | none => failure
    | some stop =>
      require (stop.has "$\x7b")
      modify fun c => { c with next := stop }
      let part ← node "template_substitution" do
        let a ← mark "$\x7b"
        let e ← inner
        let b ← mark "\x7d"
        return a :: e ++ [b]
      return part
  let s ← raw
  match templateText? (s.rest.length + 1) s with
  | none => failure
  | some stop =>
    modify fun c => { c with next := stop }
    let last ← mark "`"
    return first :: pieces ++ [last]

/-! ### Types -/

/-- Type arguments in angle brackets. -/
def typeArguments : Parser Tree := node "type_arguments" do
  let a ← mark "<"
  let ts ← separated (one (self .type)) (mark ",")
  let b ← mark ">"
  return a :: ts ++ [b]

/-- Type parameters in angle brackets. -/
def typeParameters : Parser Tree := node "type_parameters" do
  let a ← mark "<"
  let ps ← separated (do
    let mods ← many (do
      let k ← word "modifier" (["const", "in", "out"].contains ·)
      require (isWordStart ((← ahead).char?.getD ' '))
      return k)
    let n ← anyName "type_identifier"
    let bound ← maybe (do return [← keyword "extends", ← self .type])
    let dflt ← maybe (do return [← mark "=", ← self .type])
    return mods ++ n :: bound ++ dflt) (mark ",")
  let b ← mark ">"
  return a :: ps ++ [b]

/-- A type after a colon. -/
def annotation : Parser (List Tree) :=
  if d.typed then maybe (one (node "type_annotation" (do return [← mark ":", ← self .type]))) else pure []

/-- A call, method or function type's result after a colon, which may be a condition on a parameter. -/
def resultType : Parser (List Tree) := annotation d self

/-- Words that may stand before a parameter or a member. -/
def modifiers : List String :=
  ["public", "private", "protected", "readonly", "override", "static", "declare", "abstract",
   "accessor", "async"]

/-- Whether the text ahead cannot continue a member after a modifier, so that the word is its name. -/
def endsMemberName (s : Spot) : Bool :=
  match s.char? with
  | none => true
  | some c => ['(', '=', ';', '\x7d', ',', ':', '?', '!', '<', ')'].contains c

/-- A modifier: one of some words, in front of the rest of what it modifies. -/
def modifier (words : List String) : Parser Tree := do
  let k ← word "modifier" (words.contains ·)
  require (!endsMemberName (← ahead))
  return k

/-- A decorator. -/
def decorator : Parser Tree := node "decorator" do
  let m ← mark "@"
  return [m, ← self .operand]

/-- A parameter: a pattern with a type and a default. -/
def parameter : Parser (List Tree) := do
  let ds ← many (decorator self)
  let mods ← if d.typed then many (modifier modifiers) else pure []
  let dots ← maybe (one (mark "..."))
  let p ← self .operand
  let opt ← if d.typed then maybe (one (lone "?" ["??", "?."])) else pure []
  let t ← annotation d self
  let dflt ← maybe (do return [← lone "=" ["==", "=>"], ← value self])
  return ds ++ mods ++ dots ++ p :: opt ++ t ++ dflt

/-- Parameters in parentheses. -/
def formalParameters : Parser Tree :=
  node "formal_parameters" (bracketed "(" ")" (separated (parameter d self) (mark ",")))

/-- The type of a function. -/
def functionType : Parser Tree := node "function_type" do
  let abstr ← maybe (one (keyword "abstract"))
  let n ← maybe (one (keyword "new"))
  let ts ← maybe (one (typeParameters self))
  let ps ← formalParameters d self
  let m ← mark "=>"
  return abstr ++ n ++ ts ++ [ps, m, ← self .type]

/-- A type without unions, intersections and conditions. -/
def typeAtom : Parser Tree := choice [
  functionType d self,
  node "parenthesized_type" (bracketed "(" ")" (one (self .type))),
  node "tuple_type" (bracketed "[" "]" (separated (do
    let dots ← maybe (one (mark "..."))
    let label ← maybe (do
      let n ← anyName "identifier"
      let q ← maybe (one (mark "?"))
      return n :: q ++ [← mark ":"])
    let t ← self .type
    let q ← maybe (one (mark "?"))
    return dots ++ label ++ t :: q) (mark ","))),
  self .objectType,
  string,
  node "number_type" (do
    let sign ← maybe (one (mark "-"))
    return sign ++ [← number]),
  templateOf (one (self .type)),
  node "type_query" (do
    let k ← keyword "typeof"
    let i ← maybe (do
      let i ← keyword "import"
      return i :: (← bracketed "(" ")" (separated (one (self .type)) (mark ","))))
    let first ← if i.isEmpty then one (anyName "identifier") else pure []
    let more ← many (do return [← mark ".", ← anyName "property_identifier"])
    let args ← maybe (one (typeArguments self))
    return k :: i ++ first ++ more.flatten ++ args),
  node "import_type" (do
    let i ← keyword "import"
    let args ← bracketed "(" ")" (separated (one (self .type)) (mark ","))
    let more ← many (do return [← mark ".", ← anyName "property_identifier"])
    let targs ← maybe (one (typeArguments self))
    return i :: args ++ more.flatten ++ targs),
  node "type_identifier" (do
    let first ← anyName "type_identifier"
    let more ← many (do return [← mark ".", ← anyName "type_identifier"])
    let args ← maybe (one (typeArguments self))
    return first :: more.flatten ++ args)]

/-- A type with the words before it and the brackets behind it. -/
def typeOperand : Parser Tree := choice [
  node "type_operator" (do
    let k ← word "keyword" (["keyof", "unique", "readonly"].contains ·)
    let s ← ahead
    require (match s.char? with
      | some c => isWordStart c || ['\x7b', '[', '(', '"', '\'', '\x60'].contains c
      | none => false)
    return [k, ← self .typeOperand]),
  node "infer_type" (do
    let k ← keyword "infer"
    let n ← anyName "type_identifier"
    let bound ← maybe (do
      let b := [← keyword "extends", ← self .typeOperand]
      require (!(← sees "?"))
      return b)
    return k :: n :: bound),
  node "asserts" (do
    let k ← keyword "asserts"
    let n ← anyName "identifier"
    require (wordAt (← ahead) != "extends")
    let i ← maybe (do return [← keyword "is", ← self .type])
    return k :: n :: i),
  node "type_predicate" (do
    let n ← anyName "identifier"
    require (!(← lineBreak))
    return [n, ← keyword "is", ← self .type]),
  do
    let t ← typeAtom d self
    let more ← many (do
      require (!(← lineBreak))
      bracketed "[" "]" (maybe (one (self .type))))
    group "array_type" (t :: more.flatten)]

/-- A type. -/
def type : Parser Tree := do
  let lead ← maybe (one (operator ["|", "&"]))
  let first ← self .typeOperand
  let more ← many (do
    let s ← ahead
    require (!(s.has "||" || s.has "&&"))
    return [← operator ["|", "&"], ← self .typeOperand])
  let t ← group "union_type" (lead ++ first :: more.flatten)
  match ← attempt (do
      require (!(← lineBreak))
      let e ← keyword "extends"
      let b ← self .type
      let q ← mark "?"
      let x ← self .type
      let c ← mark ":"
      return [e, b, q, x, c, ← self .type]) with
  | some rest => nodeFrom "conditional_type" t (pure rest)
  | none => return t

/-- The name of a property. -/
def propertyName : Parser Tree := choice [
  string,
  number,
  node "computed_property_name" (bracketed "[" "]" (one (value self))),
  scan "private_property_identifier" (fun s =>
    match s.rest with
    | '#' :: _ => wordEnd? s.step
    | _ => none),
  anyName "property_identifier"]

/-- The separator of members of an object type. -/
def memberEnd : Parser (List Tree) := do
  match ← attempt (choice [mark ";", mark ","]) with
  | some t => return [t]
  | none =>
    let c ← get
    require (c.newline || c.next.has "\x7d")
    return []

/-- An index signature or a mapped type's key. -/
def indexKey : Parser (List Tree) := bracketed "[" "]" do
  let n ← anyName "identifier"
  let m ← choice [mark ":", keyword "in"]
  let t ← self .type
  let renamed ← maybe (do return [← keyword "as", ← self .type])
  return n :: m :: t :: renamed

/-- A member of an object type or an interface. -/
def typeMember : Parser (List Tree) := do
  let sign ← maybe (one (operator ["+", "-"]))
  let mods ← many (modifier ["readonly", "public", "private", "protected", "static", "declare", "abstract"])
  let accessor ← maybe (one (modifier ["get", "set"]))
  let key ← choice [
    indexKey self,
    do
      let n ← attempt (do
        let k ← keyword "new"
        require ((← sees "(") || (← sees "<"))
        return k)
      match n with
      | some k => return [k]
      | none => return [← propertyName self],
    do
      require ((← sees "(") || (← sees "<"))
      return []]
  let q ← maybe (one (operator ["-?", "+?", "?"]))
  let ts ← maybe (one (typeParameters self))
  let ps ← maybe (one (formalParameters d self))
  let t ← annotation d self
  let parts := sign ++ mods ++ accessor ++ key ++ q ++ ts ++ ps ++ t
  let stop ← memberEnd
  match parts with
  | [] => failure
  | p :: ps => return .covering "property_signature" p ps :: stop

/-- An object type. -/
def objectType : Parser Tree := node "object_type" do
  let a ← mark "\x7b"
  let members ← many (choice [typeMember d self, one (operator [";", ","])])
  let b ← mark "\x7d"
  return a :: members.flatten ++ [b]

/-! ### Expressions -/

/-- The parameters and the result type of a function. -/
def callSignature : Parser (List Tree) := do
  let ts ← if d.typed then maybe (one (typeParameters self)) else pure []
  let ps ← field "parameters" (formalParameters d self)
  let r ← resultType d self
  return ts ++ ps :: r

/-- An argument or an element: an expression, possibly spread. -/
def argument : Parser (List Tree) := do
  let dots ← maybe (one (mark "..."))
  return dots ++ [← value self]

/-- Arguments in parentheses. -/
def arguments : Parser Tree :=
  node "arguments" (bracketed "(" ")" (separated (argument self) (mark ",")))

/-- A function expression. -/
def functionExpression : Parser Tree := do
  let s ← get
  let isAsync ← maybe (do
    let a ← keyword "async"
    require (!(← lineBreak))
    return [a])
  let f ← keyword "function"
  let star ← maybe (one (mark "*"))
  let n ← maybe (one (field "name" name))
  let sig ← callSignature d self
  let b ← field "body" (self .block)
  let kind := if star.isEmpty then "function_expression" else "generator_function"
  return .spanning kind s.next.place (← get).here.place
    (isAsync ++ f :: star ++ n ++ sig ++ [b])

/-- The arrow and the body of an arrow function. -/
def arrowTail : Parser (List Tree) := do
  require (!(← lineBreak))
  let m ← mark "=>"
  let b ← if ← sees "\x7b" then self .block else value self
  return [m, b.as "body"]

/-- An element of the parentheses that may turn out to be parameters. -/
def coverItem : Parser (List Tree) := do
  let ds ← many (decorator self)
  let dots ← maybe (one (mark "..."))
  let v ← value self
  let opt ← if d.typed then maybe (one (lone "?" ["??", "?."])) else pure []
  let t ← annotation d self
  let dflt ← maybe (do return [← lone "=" ["==", "=>"], ← value self])
  return ds ++ dots ++ v :: opt ++ t ++ dflt

/-- Parentheses around an expression, or the parameters of an arrow function. -/
def parenthesized (arrowTypes : Bool) : Parser Tree := do
  let inner ← node "formal_parameters" (bracketed "(" ")" (separated (coverItem d self) (mark ",")))
  match ← attempt (arrowTail self) with
  | some tail => nodeFrom "arrow_function" (inner.as "parameters") (pure tail)
  | none =>
    let typedTail ← if d.typed && arrowTypes then attempt (do
        let m ← mark ":"
        let t ← self .type
        return m :: t :: (← arrowTail self)) else pure none
    match typedTail with
    | some tail => nodeFrom "arrow_function" (inner.as "parameters") (pure tail)
    | none =>
      require (2 < inner.children.length)
      return inner.withKind "parenthesized_expression"

/-- An arrow function that begins with a name or with `async`. -/
def arrowFunction : Parser Tree := choice [
  node "arrow_function" (do
    let isAsync ← maybe (do
      let a ← keyword "async"
      require (!(← lineBreak))
      require (!(← sees "=>"))
      return [a])
    let p ← field "parameter" name
    return isAsync ++ p :: (← arrowTail self)),
  node "arrow_function" (do
    let a ← keyword "async"
    require (!(← lineBreak))
    let ts ← if d.typed then maybe (one (typeParameters self)) else pure []
    let ps ← field "parameters" (formalParameters d self)
    let r ← resultType d self
    return a :: ts ++ ps :: r ++ (← arrowTail self)),
  node "arrow_function" (do
    require d.typed
    let ts ← typeParameters self
    let ps ← field "parameters" (formalParameters d self)
    let r ← resultType d self
    return ts :: ps :: r ++ (← arrowTail self))]

/-- A member of an object literal. -/
def property : Parser (List Tree) := choice [
  do return [← mark "...", ← value self],
  one (node "method_definition" do
    let mods ← many (modifier ["async", "get", "set"])
    let star ← maybe (one (mark "*"))
    let n ← field "name" (propertyName self)
    let sig ← callSignature d self
    return mods ++ star ++ n :: sig ++ [← field "body" (self .block)]),
  one (node "pair" do
    let n ← field "key" (propertyName self)
    let m ← mark ":"
    return [n, m, ← field "value" (value self)]),
  do
    let n ← name
    let dflt ← maybe (do return [← lone "=" ["==", "=>"], ← value self])
    return n :: dflt]

/-- An object literal. -/
def object : Parser Tree :=
  node "object" (bracketed "\x7b" "\x7d" (separated (property d self) (mark ",")))

/-- An array literal, possibly with holes. -/
def array : Parser Tree := node "array" (bracketed "[" "]" do
  let items ← many (choice [one (mark ","), argument self])
  return items.flatten)

/-- The types that a class extends and implements. -/
def heritage : Parser (List Tree) := do
  let ext ← maybe (do
    let e ← keyword "extends"
    let v ← self .operand
    let ts ← if d.typed then maybe (one (typeArguments self)) else pure []
    return e :: v :: ts)
  let impl ← if d.typed then maybe (do
      let i ← keyword "implements"
      return i :: (← separated (one (self .type)) (mark ",")))
    else pure []
  match ext ++ impl with
  | [] => return []
  | p :: ps => return [.covering "class_heritage" p ps]

/-- A class after its decorators and modifiers. -/
def classTail (named : Bool) : Parser (List Tree) := do
  let c ← keyword "class"
  let n ← if named then one (field "name" name)
    else maybe (do
      require (!(← seesWord "extends") && !(← seesWord "implements"))
      one (field "name" name))
  let ts ← if d.typed then maybe (one (typeParameters self)) else pure []
  let h ← heritage d self
  return c :: n ++ ts ++ h ++ [← field "body" (self .classBody)]

/-- A class expression. -/
def classExpression : Parser Tree := node "class" do
  let ds ← many (decorator self)
  return ds ++ (← classTail d self false)

/-- A `new` expression. -/
def newExpression (callee : Parser Tree) : Parser Tree := node "new_expression" do
  let n ← keyword "new"
  let c ← field "constructor" callee
  let ts ← if d.typed then maybe (do
      let t ← typeArguments self
      require (← sees "(")
      return [t]) else pure []
  let args ← maybe (one (field "arguments" (arguments self)))
  return n :: c :: ts ++ args

/-- An operand without the calls, subscripts and members behind it. -/
def primary : Parser Tree := choice [
  arrowFunction d self,
  functionExpression d self,
  classExpression d self,
  parenthesized d self true,
  object d self,
  array self,
  string,
  number,
  self .template,
  node "meta_property" (do return [← keyword "new", ← mark ".", ← keyword "target"]),
  node "meta_property" (do return [← keyword "import", ← mark ".", ← keyword "meta"]),
  do
    let i ← keyword "import"
    require (← sees "(")
    return i.withKind "import",
  keyword "this",
  keyword "super",
  word "constant" (["null", "true", "false"].contains ·),
  scan "private_property_identifier" (fun s =>
    match s.rest with
    | '#' :: _ => wordEnd? s.step
    | _ => none),
  name,
  regex,
  self .element]

/-- A member of the operand `t`. -/
def memberTail (t : Tree) : Parser Tree := choice [
  nodeFrom "member_expression" (t.as "object") (do
    let m ← lone "." ["..."]
    return [m, ← field "property" (propertyName self)]),
  nodeFrom "subscript_expression" (t.as "object") (bracketed "[" "]" (one (self .expression)))]

/-- The members behind the operand of `new`. -/
def members : Nat → Tree → Parser Tree
  | 0, t => return t
  | n + 1, t => do
    match ← attempt (memberTail self t) with
    | some t => members n t
    | none => return t

/-- What `new` is applied to. -/
def constructor : Nat → Parser Tree
  | 0 => failure
  | n + 1 => do
    if ← seesWord "new" then
      match ← attempt (node "meta_property" (do return [← keyword "new", ← mark ".", ← keyword "target"])) with
      | some t => members self (← get).size t
      | none => newExpression d self (constructor n)
    else members self (← get).size (← primary d self)

/-- The mark of an optional member. Before a digit the question mark opens a choice between two values
and the point belongs to the number. -/
def optionalMark : Parser Tree :=
  lone "?." (["0", "1", "2", "3", "4", "5", "6", "7", "8", "9"].map ("?." ++ ·))

/-- The calls, subscripts and members behind an operand. -/
def trailers : Nat → Tree → Parser Tree
  | 0, t => return t
  | n + 1, t => do
    let next ← attempt (choice [
      memberTail self t,
      nodeFrom "call_expression" (t.as "function") (one (field "arguments" (arguments self))),
      nodeFrom "call_expression" (t.as "function") (do
        let o ← optionalMark
        return [o, ← field "arguments" (arguments self)]),
      nodeFrom "subscript_expression" (t.as "object") (do
        let o ← optionalMark
        return o :: (← bracketed "[" "]" (one (self .expression)))),
      nodeFrom "member_expression" (t.as "object") (do
        let o ← optionalMark
        return [o, ← field "property" (propertyName self)]),
      nodeFrom "call_expression" (t.as "function") (one (field "arguments" (self .template))),
      nodeFrom "non_null_expression" t (do
        require (d.typed && !(← lineBreak))
        one (lone "!" ["!="])),
      nodeFrom "call_expression" (t.as "function") (do
        require d.typed
        let ts ← typeArguments self
        let args ← choice [arguments self, self .template]
        return [ts, args.as "arguments"]),
      nodeFrom "update_expression" t (do
        require (!(← lineBreak))
        one (operator ["++", "--"]))])
    match next with
    | some t => trailers n t
    | none => return t

/-- An operand with the operators before it and the calls, subscripts and members behind it. -/
def operand : Parser Tree := choice [
  node "unary_expression" (do
    let o ← choice [operator ["++", "--", "!", "~", "+", "-"], keyword "typeof", keyword "void", keyword "delete"]
    return [o, ← self .operand]),
  node "await_expression" (do
    let a ← keyword "await"
    require (!(← sees "=>") && !(← sees ".") && !(← sees "=") && !(← sees ")"))
    return [a, ← self .operand]),
  node "yield_expression" (do
    let y ← keyword "yield"
    if ← lineBreak then return [y]
    match ← attempt (mark "*") with
    | some s => return [y, s, ← value self]
    | none => return y :: (← maybe (one (value self)))),
  node "type_assertion" (do
    require (d.typed && !d.markup)
    let ts ← typeArguments self
    require (!(← sees "("))
    return [ts, ← self .operand]),
  do
    if (← seesWord "new") then
      let t ← choice [
        node "meta_property" (do return [← keyword "new", ← mark ".", ← keyword "target"]),
        newExpression d self (constructor d self (← get).size)]
      trailers d self (← get).size t
    else trailers d self (← get).size (← primary d self),
  node "type_assertion" (do
    require (d.typed && !d.markup)
    let ts ← typeArguments self
    return [ts, ← self .operand])]

/-- An operator between operands. -/
def connective : Parser Tree := do
  match operatorAt? operators (← ahead) with
  | some o =>
    require (o != "=>" && o != "++" && o != "--")
    mark o
  | none => choice [keyword "in", keyword "instanceof"]

/-- What may follow an operand in a chain. -/
def chainPart (arrowTypes : Bool) : Parser (List Tree) := choice [
  do
    require d.typed
    require (!(← lineBreak))
    let k ← word "keyword" (["as", "satisfies"].contains ·)
    return [k, ← choice [keyword "const", self .type]],
  do return [← connective, ← self .operand],
  do
    let q ← lone "?" ["??"]
    let s ← ahead
    require (!(d.typed && [":", ",", ")", "="].any s.has))
    let branches := fun (types : Bool) => do
      let a ← self (.assign types)
      let m ← mark ":"
      return [q, a, m]
    let first ← choice [branches true, branches false]
    return first ++ [← self (.assign arrowTypes)]]

/-- An expression without a comma. -/
def assign (arrowTypes : Bool) : Parser Tree := do
  let first ←
    if !arrowTypes && (← sees "(") then trailers d self (← get).size (← parenthesized d self false)
    else self .operand
  -- an arrow function reaches as far as it can
  if first.kind == "arrow_function" then return first
  let more ← many (chainPart d self arrowTypes)
  group "operation" (first :: more.flatten)

/-- An expression with commas. -/
def expression : Parser Tree := do
  let first ← value self
  let more ← many (do return [← mark ",", ← value self])
  group "sequence_expression" (first :: more.flatten)

/-! ### Markup -/

/-- The name of an element or an attribute. -/
def markupName : Parser Tree := scan "identifier" fun s =>
  let part (c : Char) : Bool := isWordPart c || c == '-' || c == '.' || c == ':'
  match s.char? with
  | some c => if isWordStart c then some (s.skipWhile part) else none
  | none => none

/-- An expression in braces, possibly spread or missing. -/
def braced : Parser Tree := node "jsx_expression" (bracketed "\x7b" "\x7d" do
  let dots ← maybe (one (mark "..."))
  return dots ++ (← maybe (one (self .expression))))

/-- An attribute of an element. -/
def markupAttribute : Parser (List Tree) := choice [
  one (braced self),
  one (node "jsx_attribute" do
    let n ← markupName
    let v ← maybe (do
      let m ← mark "="
      let v ← choice [
        scan "string" (fun s =>
          match s.rest with
          | '"' :: _ => s.step.beyond? "\""
          | '\'' :: _ => s.step.beyond? "'"
          | _ => none),
        braced self,
        self .element]
      return [m, v])
    return n :: v)]

/-- What stands between the tags of an element. -/
def content : Parser Tree := do
  let s ← raw
  let text := s.skipWhile fun c => c != '<' && c != '\x7b'
  if text.place.byte != s.place.byte then token "jsx_text" true text
  else choice [
    braced self,
    do
      require (!(s.has "</"))
      self .element]

/-- An element of markup. -/
def element : Parser Tree := do
  require d.markup
  node "jsx_element" do
    let a ← mark "<"
    let tag ← maybe (do
      let n ← markupName
      let ts ← if d.typed then maybe (one (typeArguments self)) else pure []
      let attrs ← many (markupAttribute self)
      return n :: ts ++ attrs.flatten)
    match ← attempt (do return [← mark "/", ← mark ">"]) with
    | some close => return a :: tag ++ close
    | none =>
      let b ← mark ">"
      let inner ← many (content self)
      let _ ← raw
      let close := [← mark "<", ← mark "/"]
      let n ← maybe (one markupName)
      return a :: tag ++ b :: inner ++ close ++ n ++ [← mark ">"]

/-! ### Classes -/

/-- A member of a class. -/
def classMember : Parser (List Tree) := choice [
  one (mark ";"),
  one (node "class_static_block" (do return [← keyword "static", ← field "body" (self .block)])),
  do
    -- with types, decorators stand beside the member; without, they are part of it
    let start := (← get).next.place
    let ds ← many (decorator self)
    let undecorated := (← get).next.place
    let start := if d.typed then undecorated else start
    let mods ← many (modifier modifiers)
    let accessor ← maybe (one (modifier ["get", "set"]))
    let star ← maybe (one (mark "*"))
    let index ← if d.typed then maybe (indexKey self) else pure []
    let n ← if index.isEmpty then one (field "name" (propertyName self)) else pure index
    let opt ← if d.typed then maybe (one (operator ["?", "!"])) else pure []
    let head := mods ++ accessor ++ star ++ n ++ opt
    let isMethod ← foresees (callSignature d self)
    if isMethod then
      let sig ← callSignature d self
      match ← attempt (field "body" (self .block)) with
      | some b =>
        let stop := (← get).here.place
        let semi ← maybe (one (mark ";"))
        let inner := if d.typed then [] else ds
        let m := Tree.spanning "method_definition" start stop (inner ++ head ++ sig ++ [b])
        return (if d.typed then ds else []) ++ m :: semi
      | none =>
        require d.typed
        let stop := (← get).here.place
        let semi ← semicolon
        return ds ++ .spanning "method_signature" start stop (head ++ sig) :: semi
    else
      let t ← annotation d self
      let v ← maybe (do return [← lone "=" ["==", "=>"], ← field "value" (value self)])
      let stop := (← get).here.place
      let semi ← semicolon
      let inner := if d.typed then [] else ds
      let m := Tree.spanning "field_definition" start stop (inner ++ head ++ t ++ v)
      return (if d.typed then ds else []) ++ m :: semi]

/-- The body of a class. -/
def classBody : Parser Tree := node "class_body" do
  let a ← mark "\x7b"
  let ms ← many (choice [classMember d self, do
    require (!(← sees "\x7d"))
    one faultyCode])
  let b ← blockEnd
  return a :: ms.flatten ++ [b]

/-! ### Statements -/

/-- Statements up to a closing brace or the end. -/
def statements : Parser (List Tree) := many do
  require (!(← sees "\x7d"))
  choice [self .statement, faultyCode]

/-- Statements in braces. -/
def block : Parser Tree := node "statement_block" do
  let a ← mark "\x7b"
  let ss ← statements self
  let b ← blockEnd
  return a :: ss ++ [b]

/-- A declared name or pattern with its value. -/
def declarator : Parser Tree := node "variable_declarator" do
  let n ← field "name" (choice [name, object d self, array self])
  let bang ← if d.typed then maybe (one (mark "!")) else pure []
  let t ← annotation d self
  let v ← maybe (do return [← lone "=" ["==", "=>"], ← field "value" (value self)])
  return n :: bang ++ t ++ v

/-- A declaration of variables without its end. -/
def declaration : Parser Tree := do
  let w ← nextWord
  require (w == "var" || w == "let" || w == "const" || w == "using")
  node (if w == "var" then "variable_declaration" else "lexical_declaration") do
    let k ← keyword w
    let ds ← separated (one (declarator d self)) (mark ",")
    require (!ds.isEmpty)
    return k :: ds

/-- A declaration of variables. -/
def variableStatement : Parser Tree := do
  let t ← declaration d self
  let semi ← semicolon
  match t with
  | .node l cs =>
    let stop := match semi.getLast? with
      | some s => s.stop
      | none => l.stop
    return .node { l with stop := stop } (cs ++ semi)

/-- A function declaration, or a signature without a body. -/
def functionDeclaration : Parser Tree := do
  let start := (← get).next.place
  let isAsync ← maybe (do
    let a ← keyword "async"
    require (!(← lineBreak))
    return [a])
  let f ← keyword "function"
  let star ← maybe (one (mark "*"))
  let n ← field "name" name
  let sig ← callSignature d self
  let head := isAsync ++ f :: star ++ n :: sig
  match ← attempt (field "body" (self .block)) with
  | some b =>
    let kind := if star.isEmpty then "function_declaration" else "generator_function_declaration"
    return .spanning kind start (← get).here.place (head ++ [b])
  | none =>
    require d.typed
    let semi ← semicolon
    return .spanning "function_signature" start (← get).here.place (head ++ semi)

/-- A class declaration. -/
def classDeclaration : Parser Tree := do
  let start := (← get).next.place
  let ds ← many (decorator self)
  let abstr ← if d.typed then maybe (one (keyword "abstract")) else pure []
  let parts ← classTail d self true
  let kind := if abstr.isEmpty then "class_declaration" else "abstract_class_declaration"
  return .spanning kind start (← get).here.place (ds ++ abstr ++ parts)

/-- An interface. -/
def interfaceDeclaration : Parser Tree := node "interface_declaration" do
  require d.typed
  let i ← keyword "interface"
  let n ← field "name" name
  let ts ← maybe (one (typeParameters self))
  let ext ← maybe (do
    let e ← keyword "extends"
    return e :: (← separated (one (self .type)) (mark ",")))
  return i :: n :: ts ++ ext ++ [← field "body" (self .objectType)]

/-- A type renamed. -/
def typeAlias : Parser Tree := node "type_alias_declaration" do
  require d.typed
  let t ← keyword "type"
  require (!(← lineBreak))
  let n ← field "name" name
  let ts ← maybe (one (typeParameters self))
  let m ← mark "="
  let v ← self .type
  return t :: n :: ts ++ m :: v :: (← semicolon)

/-- An enumeration. -/
def enumDeclaration : Parser Tree := node "enum_declaration" do
  require d.typed
  let c ← maybe (one (keyword "const"))
  let e ← keyword "enum"
  let n ← field "name" name
  let b ← field "body" (node "enum_body" (Parser.braced (separated (do
    let k ← propertyName self
    let v ← maybe (do return [← mark "=", ← value self])
    return k :: v) (mark ","))))
  return c ++ [e, n, b]

/-- A namespace or a module. -/
def moduleDeclaration : Parser Tree := node "internal_module" do
  require d.typed
  let k ← word "keyword" (["namespace", "module"].contains ·)
  require (!(← lineBreak))
  let n ← field "name" (choice [string, node "nested_identifier" (do
    let first ← name
    let more ← many (do return [← mark ".", ← name])
    return first :: more.flatten)])
  match ← attempt (field "body" (self .block)) with
  | some b => return [k, n, b]
  | none =>
    require (n.kind == "string")
    return k :: n :: (← semicolon)

/-- What `declare` stands before. -/
def ambient : Parser Tree := node "ambient_declaration" do
  require d.typed
  let k ← keyword "declare"
  require (!(← lineBreak))
  let g ← maybe (do return [← keyword "global", ← self .block])
  if !g.isEmpty then return k :: g
  let s ← choice [interfaceDeclaration d self, typeAlias d self, enumDeclaration d self,
    moduleDeclaration d self, functionDeclaration d self, classDeclaration d self, variableStatement d self]
  return [k, s]

/-- A declaration that may be exported. -/
def exportable : Parser Tree := choice [
  functionDeclaration d self,
  classDeclaration d self,
  enumDeclaration d self,
  variableStatement d self,
  interfaceDeclaration d self,
  typeAlias d self,
  moduleDeclaration d self,
  ambient d self]

/-- The module that names come from. -/
def fromClause : Parser (List Tree) := do
  let f ← keyword "from"
  let s ← field "source" string
  let attrs ← maybe (do
    let k ← word "keyword" (["with", "assert"].contains ·)
    return [k, ← object d self])
  return f :: s :: attrs

/-- Names in braces, each possibly under another name. -/
def nameList (kind : String) : Parser Tree :=
  node kind (bracketed "\x7b" "\x7d" (separated (do
    let words ← many1 (choice [anyName "identifier", string])
    return words) (mark ",")))

/-- An import. -/
def importStatement : Parser Tree := node "import_statement" do
  let i ← keyword "import"
  require (!(← sees "(") && !(← sees "."))
  let direct ← attempt (field "source" string)
  match direct with
  | some s =>
    let attrs ← maybe (do
      let k ← word "keyword" (["with", "assert"].contains ·)
      return [k, ← object d self])
    return i :: s :: attrs ++ (← semicolon)
  | none =>
    let named (t : List Tree) : Parser (List Tree) := do
      let clause ← node "import_clause" do
        let parts ← separated (choice [
          one (nameList "named_imports"),
          one (node "namespace_import" (do return [← mark "*", ← keyword "as", ← name])),
          one name]) (mark ",")
        require (!parts.isEmpty)
        return parts
      return i :: t ++ clause :: (← fromClause d self) ++ (← semicolon)
    let required (t : List Tree) : Parser (List Tree) := do
      require d.typed
      let clause ← node "import_require_clause" do
        let n ← name
        let m ← mark "="
        let r ← keyword "require"
        return [n, m, r, ← mark "(", ← field "source" string, ← mark ")"]
      return i :: t ++ clause :: (← semicolon)
    let renamed (t : List Tree) : Parser (List Tree) := do
      require d.typed
      let n ← name
      let m ← mark "="
      return i :: t ++ n :: m :: (← self .type) :: (← semicolon)
    let typeWord : Parser (List Tree) := do
      require d.typed
      one (word "keyword" (["type", "typeof"].contains ·))
    choice [named [], required [], renamed [],
      do named (← typeWord), do required (← typeWord), do renamed (← typeWord)]

/-- An export. -/
def exportStatement : Parser Tree := node "export_statement" do
  let ds ← many (decorator self)
  let e ← keyword "export"
  let list (t : List Tree) : Parser (List Tree) := do
    let names ← choice [
      nameList "export_clause",
      node "namespace_export" (do return [← mark "*", ← keyword "as", ← choice [anyName "identifier", string]]),
      mark "*"]
    let source ← maybe (fromClause d self)
    return t ++ names :: source ++ (← semicolon)
  let rest ← choice [
    list [],
    do
      require d.typed
      list [← keyword "type"],
    do
      require d.typed
      return [← mark "=", ← value self] ++ (← semicolon),
    do
      require d.typed
      return [← keyword "as", ← keyword "namespace", ← name] ++ (← semicolon),
    do
      require d.typed
      let i ← keyword "import"
      let n ← name
      let m ← mark "="
      return i :: n :: m :: (← self .type) :: (← semicolon),
    do
      let k ← keyword "default"
      match ← attempt (field "declaration" (choice [functionDeclaration d self, classDeclaration d self,
          interfaceDeclaration d self])) with
      | some t => return [k, t]
      | none => return k :: (← field "value" (self .expression)) :: (← semicolon),
    do one (field "declaration" (exportable d self))]
  return ds ++ e :: rest

/-- An expression in parentheses, as the head of a statement. -/
def condition : Parser Tree := node "parenthesized_expression" (bracketed "(" ")" (one (self .expression)))

/-- The head of a `for` statement. -/
def forHead : Parser (List Tree) := bracketed "(" ")" do
  let first ← maybe (one (choice [declaration d self, self .expression]))
  match ← attempt (choice [keyword "of", keyword "in"]) with
  | some k => return first ++ [k, ← self .expression]
  | none =>
    match ← attempt (mark ";") with
    | none => return first
    | some a =>
      let test ← maybe (one (self .expression))
      let b ← mark ";"
      return first ++ a :: test ++ b :: (← maybe (one (self .expression)))

/-- One case of a `switch` statement. -/
def switchCase : Parser Tree := node "switch_case" do
  let head ← choice [
    do return [← keyword "case", ← self .expression],
    one (keyword "default")]
  let m ← mark ":"
  let ss ← many do
    require (!(← sees "\x7d"))
    let w ← nextWord
    require (w != "case" && !(w == "default"))
    self .statement
  return head ++ m :: ss

/-- A statement that jumps. -/
def jump : Parser Tree := choice [
  node "return_statement" (do
    let k ← choice [keyword "return", keyword "throw"]
    let v ← if ← lineBreak then pure [] else maybe (one (self .expression))
    return k :: v ++ (← semicolon)),
  node "break_statement" (do
    let k ← choice [keyword "break", keyword "continue"]
    let v ← if ← lineBreak then pure [] else maybe (one name)
    return k :: v ++ (← semicolon)),
  node "debugger_statement" (do return (← keyword "debugger") :: (← semicolon))]

/-- A statement. -/
def statement : Parser Tree := choice [
  self .block,
  node "empty_statement" (one (mark ";")),
  importStatement d self,
  exportStatement d self,
  exportable d self,
  node "if_statement" do
    let k ← keyword "if"
    let c ← condition self
    let s ← self .statement
    let e ← maybe (do return [← keyword "else", ← self .statement])
    return k :: c :: s :: e,
  node "for_statement" do
    let k ← keyword "for"
    let a ← maybe (one (keyword "await"))
    let h ← forHead d self
    return k :: a ++ h ++ [← self .statement],
  node "while_statement" do
    let k ← keyword "while"
    return [k, ← condition self, ← self .statement],
  node "do_statement" do
    let k ← keyword "do"
    let s ← self .statement
    let w ← keyword "while"
    let c ← condition self
    return k :: s :: w :: c :: (← maybe (one (mark ";"))),
  node "switch_statement" do
    let k ← keyword "switch"
    let c ← condition self
    return k :: c :: (← Parser.braced (many (switchCase self))),
  node "try_statement" do
    let k ← keyword "try"
    let b ← self .block
    let c ← maybe (one (node "catch_clause" do
      let k ← keyword "catch"
      let p ← maybe (bracketed "(" ")" (parameter d self))
      return k :: p ++ [← self .block]))
    let f ← maybe (one (node "finally_clause" (do return [← keyword "finally", ← self .block])))
    return k :: b :: c ++ f,
  node "with_statement" do
    let k ← keyword "with"
    return [k, ← condition self, ← self .statement],
  jump self,
  node "labeled_statement" do
    let n ← name
    let m ← mark ":"
    return [n, m, ← self .statement],
  node "expression_statement" (do return (← self .expression) :: (← semicolon))]

/-- The line at the start of a script that names its interpreter. -/
def interpreterLine : Parser (List Tree) := maybe (one (scan "hash_bang_line" fun s =>
  if s.has "#!" then some (s.skipWhile (· != '\n')) else none))

/-- The rules of the grammar. -/
def grammar : Grammar Goal := fun self => fun
  | .program => node "program" do
    let line ← interpreterLine
    let ss ← many (choice [self .statement, faultyLine])
    require ((← get).next.rest.isEmpty)
    return line ++ ss
  | .statement => statement d self
  | .block => block self
  | .expression => expression self
  | .assign arrowTypes => assign d self arrowTypes
  | .operand => operand d self
  | .element => element d self
  | .template => templateOf (one (self .expression))
  | .type => type self
  | .typeOperand => typeOperand d self
  | .classBody => classBody d self
  | .objectType => objectType d self

end Rules

/-- The syntax tree of a program. -/
def parse (d : Dialect) (text : String) : Tree := (grammar d).parse lexicon .program text

end RepoAtlas.Syntax.TypeScript
