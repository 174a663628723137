import RepoAtlas.Syntax.Scan

/-!
# The grammar of Rust

Items, statements, expressions, patterns and types. Chains of operators are kept flat, and the
tokens of a macro's argument are one leaf: nothing in them is known to be an item or a call.
-/

namespace RepoAtlas.Syntax.Rust

/-- The spot behind a block comment that is opened `depth` times. -/
def blockCommentEnd : Nat → Nat → Spot → Spot
  | 0, _, s => s
  | n + 1, depth, s =>
    match s.rest with
    | [] => s
    | '/' :: '*' :: _ => blockCommentEnd n (depth + 1) (s.advance 2)
    | '*' :: '/' :: _ => if depth ≤ 1 then s.advance 2 else blockCommentEnd n (depth - 1) (s.advance 2)
    | _ => blockCommentEnd n depth s.step

/-- Whether a line comment documents what follows or surrounds it; such a comment includes its line
end. -/
def isDocLine (s : Spot) : Bool := (s.has "///" && !s.has "////") || s.has "//!"

/-- What stands between two tokens. -/
def skipFrom : Nat → Trivia → Trivia
  | 0, t => t
  | n + 1, t =>
    match t.next.rest with
    | [] => t
    | '/' :: '/' :: _ =>
      let stop := t.next.skipWhile (· != '\n')
      let stop := if isDocLine t.next then stop.step else stop
      skipFrom n { t with next := stop, comments := Spot.leaf "line_comment" true t.next stop :: t.comments }
    | '/' :: '*' :: _ =>
      let stop := blockCommentEnd t.next.rest.length 0 t.next
      skipFrom n { t with next := stop, comments := Spot.leaf "block_comment" true t.next stop :: t.comments }
    | c :: _ =>
      if Text.isBlank c then
        skipFrom n { t with next := t.next.step, newline := t.newline || c == '\n' }
      else if Text.isSymbol c then skipFrom n t.passSymbols
      else t

/-- The lexical rules; line ends do not matter. -/
def lexicon : Lexicon where
  skip s := skipFrom (s.rest.length + 1) ⟨s, false, []⟩
  lineBound := false
  endsLine _ := true

/-- Words that are not names. -/
def reserved : List String :=
  ["as", "async", "await", "break", "const", "continue", "dyn", "else", "enum", "extern", "false",
   "fn", "for", "if", "impl", "in", "let", "loop", "match", "mod", "move", "mut", "pub", "ref",
   "return", "static", "struct", "trait", "true", "type", "unsafe", "use", "where", "while"]

/-- The operators between operands. -/
def operators : List String :=
  ["<<=", ">>=", "..=", "...", "&&", "||", "==", "!=", "<=", ">=", "<<", ">>", "+=", "-=", "*=", "/=",
   "%=", "&=", "|=", "^=", "..", "+", "-", "*", "/", "%", "&", "|", "^", "<", ">", "="]

/-! ### Literals -/

/-- The spot behind a quoted text. -/
def quotedEnd? (quote : Char) : Nat → Spot → Option Spot
  | 0, _ => none
  | n + 1, s =>
    match s.rest with
    | [] => none
    | '\\' :: _ => quotedEnd? quote n (s.advance 2)
    | c :: _ => if c == quote then some s.step else quotedEnd? quote n s.step

/-- The spot behind a string literal: letters, quotes, and hashes around a raw string. -/
def stringEnd? (s : Spot) : Option Spot :=
  let letters := s.rest.takeWhile fun c => c == 'b' || c == 'r' || c == 'c'
  if 2 < letters.length then none
  else
    let s := s.advance letters.length
    if letters.contains 'r' then
      let hashes := s.rest.takeWhile (· == '#')
      match (s.advance hashes.length).after? "\"" with
      | some t => t.beyond? ("\"" ++ .ofList hashes)
      | none => none
    else
      match s.after? "\"" with
      | some t => quotedEnd? '"' t.rest.length t
      | none => none

/-- The spot behind a character literal; a quote that starts a lifetime is none. -/
def charEnd? (s : Spot) : Option Spot :=
  let s := if s.has "b'" then s.step else s
  match s.rest with
  | '\'' :: '\\' :: _ => quotedEnd? '\'' s.rest.length s.step
  | '\'' :: _ :: '\'' :: _ => some (s.advance 3)
  | _ => none

/-- The spot behind a lifetime or a label. -/
def lifetimeEnd? (s : Spot) : Option Spot :=
  match s.rest with
  | '\'' :: _ => if (charEnd? s).isSome then none else wordEnd? s.step
  | _ => none

/-- The spot behind a number. -/
def numberEnd? (s : Spot) : Option Spot :=
  match s.char? with
  | none => none
  | some c =>
    if !c.isDigit then none
    else
      let based := c == '0' && ["0x", "0b", "0o"].any s.has
      let stop := numberTail s.rest.length based s
      match stop.rest with
      | '.' :: d :: _ =>
        -- a point ends a number unless a range, a field or a method follows
        if based || d == '.' || isWordStart d || (s.rest.take (s.rest.length - stop.rest.length)).contains '.'
        then some stop else some stop.step
      | ['.'] => some stop.step
      | _ => some stop

/-- The spot behind the tokens of a macro's argument with `depth` open brackets. -/
def tokensEnd? : Nat → Nat → Spot → Option Spot
  | 0, _, _ => none
  | n + 1, depth, s =>
    match stringEnd? s, charEnd? s with
    | some t, _ => tokensEnd? n depth t
    | none, some t => tokensEnd? n depth t
    | none, none =>
      match s.rest with
      | [] => none
      | '/' :: '/' :: _ => tokensEnd? n depth (s.skipWhile (· != '\n'))
      | '/' :: '*' :: _ => tokensEnd? n depth (blockCommentEnd s.rest.length 0 s)
      | c :: _ =>
        if c == '(' || c == '[' || c == '\x7b' then tokensEnd? n (depth + 1) s.step
        else if c == ')' || c == ']' || c == '\x7d' then
          if depth ≤ 1 then some s.step else tokensEnd? n (depth - 1) s.step
        else if isWordStart c then tokensEnd? n depth (s.skipWhile isWordPart)
        else tokensEnd? n depth s.step

/-- What a grammar rule is asked for. -/
inductive Goal where
  | sourceFile
  | item
  | block
  /-- An expression; `literal` says whether a brace after a path opens a struct literal. -/
  | expression (literal : Bool)
  | operand (literal : Bool)
  | type
  | bounds
  | pattern
  /-- A pattern without alternatives. -/
  | patternAtom

section Rules

open Syntax.Parser

variable (self : Goal → Parser Tree)

/-- A name, possibly a raw one. -/
def name (kind : String) : Parser Tree := choice [
  scan kind (fun s => if s.has "r#" then wordEnd? (s.advance 2) else none),
  word kind (!reserved.contains ·)]

/-- A tree of one kind over several others; a single one stands for itself. -/
def group (kind : String) (trees : List Tree) : Parser Tree := do
  match trees with
  | [t] => return t
  | t :: ts => nodeFrom kind t (pure ts)
  | [] => failure

def lifetime : Parser Tree := scan "lifetime" lifetimeEnd?

/-- The argument of a macro: a balanced list of tokens. -/
def tokenTree : Parser Tree := do
  let s ← ahead
  require (s.has "(" || s.has "[" || s.has "\x7b")
  scan "token_tree" fun s => tokensEnd? s.rest.length 0 s

/-- A literal. -/
def literal : Parser Tree := choice [
  scan "string_literal" stringEnd?,
  scan "char_literal" charEnd?,
  scan "number_literal" numberEnd?,
  word "boolean_literal" (["true", "false"].contains ·)]

/-- An attribute. -/
def attributeItem : Parser Tree := do
  let s ← ahead
  if s.has "#!" then
    require ((s.advance 2).skipWhile Text.isBlank |>.has "[")
    node "inner_attribute_item" (do return [← mark "#", ← mark "!", ← tokenTree])
  else node "attribute_item" (do return [← mark "#", ← tokenTree])

/-! ### Types -/

/-- A bracket that is not the beginning of an arrow or a shift. -/
def closeAngle : Parser Tree := mark ">"

/-- Arguments of a generic type. -/
def typeArguments : Parser Tree := node "type_arguments" do
  let a ← lone "<" ["<<", "<="]
  let args ← separated (choice [
    one lifetime,
    do
      let sign ← maybe (one (mark "-"))
      let l ← literal
      return sign ++ [l],
    one (self .block),
    do
      let t ← self .type
      let more ← maybe (choice [
        do return [← lone "=" ["=="], ← choice [self .type, literal, self .block]],
        do return [← lone ":" ["::"], ← self .bounds]])
      return t :: more]) (mark ",")
  let b ← closeAngle
  return a :: args ++ [b]

/-- Parameters of a generic item. -/
def typeParameters : Parser Tree := node "type_parameters" do
  let a ← lone "<" ["<<", "<="]
  let ps ← separated (do
    let attrs ← many attributeItem
    let k ← maybe (one (keyword "const"))
    let n ← choice [lifetime, name "type_identifier"]
    let b ← maybe (do return (← lone ":" ["::"]) :: (← maybe (one (self .bounds))))
    let dflt ← maybe (do return [← mark "=", ← choice [self .type, literal, self .block]])
    return attrs ++ k ++ n :: b ++ dflt) (mark ",")
  let b ← closeAngle
  return a :: ps ++ [b]

/-- The lifetimes that a bound is quantified over. -/
def forLifetimes : Parser (List Tree) := maybe (do
  let f ← keyword "for"
  return [f, ← typeParameters self])

/-- One bound. -/
def bound : Parser (List Tree) := choice [
  one lifetime,
  bracketed "(" ")" (one (self .bounds)),
  do
    let q ← maybe (one (mark "?"))
    let c ← maybe (do return (← maybe (one (mark "~"))) ++ [← keyword "const"])
    let a ← maybe (one (keyword "async"))
    let f ← forLifetimes self
    return q ++ c ++ a ++ f ++ [← self .type],
  do
    let u ← keyword "use"
    return [u, ← typeArguments self]]

/-- Bounds with plus signs between them. -/
def bounds : Parser Tree := node "trait_bounds" (separated (bound self) (lone "+" ["+="]))

/-- The parameter types of `Fn(A) -> B`. -/
def functionArguments : Parser (List Tree) := do
  let ps ← bracketed "(" ")" (separated (one (self .type)) (mark ","))
  let r ← maybe (do return [← mark "->", ← self .type])
  return ps ++ r

/-- A path of type names with arguments. -/
def typePath : Parser Tree := node "type_path" do
  let lead ← maybe (one (mark "::"))
  let segment : Parser (List Tree) := do
    let n ← name "type_identifier"
    let args ← maybe (do
      let c ← maybe (one (mark "::"))
      return c ++ [← typeArguments self])
    let fn ← if args.isEmpty then maybe (functionArguments self) else pure []
    return n :: args ++ fn
  let first ← segment
  let more ← many (do return (← mark "::") :: (← segment))
  return lead ++ first ++ more.flatten

/-- The modifiers before `fn`. -/
def functionModifiers : Parser (List Tree) := many (choice [
  keyword "async", keyword "unsafe", keyword "const", keyword "default", keyword "safe",
  node "extern_modifier" (do
    let e ← keyword "extern"
    return e :: (← maybe (one (scan "string_literal" stringEnd?))))])

/-- A type. -/
def type : Parser Tree := choice [
  node "reference_type" (do
    let a ← operator ["&&", "&"]
    let l ← maybe (one lifetime)
    let m ← maybe (one (keyword "mut"))
    return a :: l ++ m ++ [← self .type]),
  node "pointer_type" (do return [← mark "*", ← choice [keyword "const", keyword "mut"], ← self .type]),
  node "dynamic_type" (do return [← choice [keyword "dyn", keyword "impl"], ← self .bounds]),
  node "function_type" (do
    let f ← forLifetimes self
    let m ← functionModifiers
    let k ← keyword "fn"
    let ps ← bracketed "(" ")" (separated (do
      let attrs ← many attributeItem
      let label ← maybe (do return [← choice [name "identifier", keyword "_"], ← lone ":" ["::"]])
      return attrs ++ label ++ [← choice [mark "...", self .type]]) (mark ","))
    let r ← maybe (do return [← mark "->", ← self .type])
    return f ++ m ++ k :: ps ++ r),
  node "higher_ranked_type" (do
    let f ← forLifetimes self
    require (!f.isEmpty)
    return f ++ [← self .type]),
  node "tuple_type" (bracketed "(" ")" (separated (do
    let t ← self .type
    let more ← many (do return (← mark "+") :: (← bound self))
    return t :: more.flatten) (mark ","))),
  node "array_type" (bracketed "[" "]" (do
    let t ← self .type
    return t :: (← maybe (do return [← mark ";", ← self (.expression true)])))),
  node "never_type" (one (mark "!")),
  keyword "_",
  node "qualified_type" (do
    let a ← mark "<"
    let t ← self .type
    let as_ ← maybe (do return [← keyword "as", ← self .type])
    let b ← closeAngle
    let more ← many (do
      let c ← mark "::"
      let n ← name "type_identifier"
      return c :: n :: (← maybe (one (typeArguments self))))
    return a :: t :: as_ ++ b :: more.flatten),
  node "macro_invocation" (do
    let n ← typePath self
    return [n, ← lone "!" ["!="], ← tokenTree]),
  typePath self]

/-- The conditions of a `where` clause. -/
def whereClause : Parser (List Tree) := maybe (one (node "where_clause" do
  let w ← keyword "where"
  let preds ← separated (do
    let f ← forLifetimes self
    let t ← choice [lifetime, self .type]
    let m ← mark ":"
    return f ++ t :: m :: (← maybe (one (self .bounds)))) (mark ",")
  return w :: preds))

/-! ### Patterns -/

/-- A path in a pattern. -/
def patternPath : Parser Tree := choice [
  node "qualified_path" (do
    let a ← mark "<"
    let t ← self .type
    let as_ ← maybe (do return [← keyword "as", ← self .type])
    let b ← closeAngle
    let more ← many1 (do return [← mark "::", ← name "identifier"])
    return a :: t :: as_ ++ b :: more.flatten),
  node "path" (do
    let lead ← maybe (one (mark "::"))
    let first ← name "identifier"
    let more ← many (do
      let c ← mark "::"
      return [c, ← choice [typeArguments self, name "identifier"]])
    return lead ++ first :: more.flatten)]

/-- Patterns with commas. -/
def patterns : Parser (List Tree) :=
  separated (do
    let attrs ← many attributeItem
    return attrs ++ [← self .pattern]) (mark ",")

/-- A literal or a path at the end of a range. -/
def rangeEnd : Parser (List Tree) := do
  let sign ← maybe (one (mark "-"))
  return sign ++ [← choice [literal, patternPath self]]

/-- One alternative of a pattern. -/
def patternAtom : Parser Tree := choice [
  node "range_pattern" (do
    let o ← operator ["..=", "..."]
    return o :: (← rangeEnd self)),
  node "range_pattern" (do
    let o ← mark ".."
    return o :: (← maybe (rangeEnd self))),
  node "reference_pattern" (do
    let a ← operator ["&&", "&"]
    let m ← maybe (one (keyword "mut"))
    return a :: m ++ [← self .patternAtom]),
  node "tuple_pattern" (bracketed "(" ")" (patterns self)),
  node "slice_pattern" (bracketed "[" "]" (patterns self)),
  node "const_block" (do return [← keyword "const", ← self .block]),
  keyword "_",
  node "binding" (do
    let r ← maybe (one (keyword "ref"))
    let m ← maybe (one (keyword "mut"))
    require (!(r.isEmpty && m.isEmpty))
    let n ← name "identifier"
    let at_ ← maybe (do return [← mark "@", ← self .patternAtom])
    return r ++ m ++ n :: at_),
  node "literal_pattern" (do
    let sign ← maybe (one (mark "-"))
    let l ← literal
    let range ← maybe (do
      let o ← operator ["..=", "...", ".."]
      return o :: (← maybe (rangeEnd self)))
    return sign ++ l :: range),
  node "path_pattern" (do
    let p ← patternPath self
    let rest ← maybe (choice [
      bracketed "(" ")" (patterns self),
      bracketed "\x7b" "\x7d" (separated (do
        let attrs ← many attributeItem
        choice [
          do return attrs ++ [← mark ".."],
          do
            let r ← maybe (one (keyword "ref"))
            let m ← maybe (one (keyword "mut"))
            let n ← choice [name "identifier", scan "number_literal" numberEnd?]
            let v ← maybe (do return [← mark ":", ← self .pattern])
            return attrs ++ r ++ m ++ n :: v]) (mark ",")),
      do return [← mark "@", ← self .patternAtom],
      do return [← lone "!" ["!="], ← tokenTree],
      do
        let o ← operator ["..=", "...", ".."]
        return o :: (← maybe (rangeEnd self))])
    return p :: rest)]

/-- A pattern with alternatives. -/
def pattern : Parser Tree := do
  let lead ← maybe (one (lone "|" ["||"]))
  let first ← self .patternAtom
  let more ← many (do return [← lone "|" ["||", "|="], ← self .patternAtom])
  group "or_pattern" (lead ++ first :: more.flatten)

/-! ### Expressions -/

/-- A path of names; type arguments are written after a double colon. The result is a name, a scoped
name, or a generic function. -/
def pathTail : Nat → Tree → Parser Tree
  | 0, t => return t
  | n + 1, t => do
    let next ← attempt (choice [
      nodeFrom "scoped_identifier" (t.as "path") (do
        let c ← mark "::"
        return [c, ← field "name" (name "identifier")]),
      nodeFrom "generic_function" (t.as "function") (do
        let c ← mark "::"
        return [c, ← field "type_arguments" (typeArguments self)])])
    match next with
    | some t => pathTail n t
    | none => return t

/-- A path in an expression. -/
def path : Parser Tree := do
  let first ← choice [
    node "bracketed_type" (do
      let a ← mark "<"
      let t ← self .type
      let as_ ← maybe (do return [← keyword "as", ← self .type])
      return a :: t :: as_ ++ [← closeAngle]),
    node "scoped_identifier" (do return [← mark "::", ← field "name" (name "identifier")]),
    word "self" (["self", "super", "crate"].contains ·),
    name "identifier"]
  pathTail self (← get).size first

/-- Arguments in parentheses. -/
def arguments : Parser Tree := node "arguments" (bracketed "(" ")" (separated (do
  let attrs ← many attributeItem
  return attrs ++ [← self (.expression true)]) (mark ",")))

/-- The fields of a struct literal. -/
def fieldInitializers : Parser Tree := node "field_initializer_list" (bracketed "\x7b" "\x7d" (separated (do
  let attrs ← many attributeItem
  choice [
    do
      let d ← mark ".."
      return attrs ++ d :: (← maybe (one (self (.expression true)))),
    do
      let n ← choice [name "identifier", scan "number_literal" numberEnd?]
      let v ← maybe (do return [← mark ":", ← self (.expression true)])
      return attrs ++ n :: v]) (mark ",")))

/-- A closure. -/
def closure (lit : Bool) : Parser Tree := node "closure_expression" do
  let mods ← many (choice [keyword "static", keyword "async", keyword "move"])
  let ps ← choice [
    one (mark "||"),
    do
      let a ← mark "|"
      let ps ← separated (do
        let attrs ← many attributeItem
        let p ← self .patternAtom
        let t ← maybe (do return [← lone ":" ["::"], ← self .type])
        return attrs ++ p :: t) (mark ",")
      return a :: ps ++ [← mark "|"]]
  match ← attempt (mark "->") with
  | some m => return mods ++ ps ++ [m, ← self .type, ← self .block]
  | none => return mods ++ ps ++ [← self (.expression lit)]

/-- One arm of a `match` expression. -/
def matchArm (blockLike : Parser Tree) : Parser Tree := node "match_arm" do
  let attrs ← many attributeItem
  let p ← self .pattern
  let guard ← maybe (do return [← keyword "if", ← self (.expression true)])
  let m ← mark "=>"
  let head := attrs ++ p :: guard ++ [m]
  let short ← attempt (do
    let b ← blockLike
    require (!(← sees ".") && !(← sees "?"))
    let c ← maybe (one (mark ","))
    require (!c.isEmpty || (← sees "\x7d") || (← foresees (do
      let _ ← many attributeItem
      let _ ← self .pattern
      choice [mark "=>", keyword "if"])))
    return b :: c)
  match short with
  | some rest => return head ++ rest
  | none =>
    let v ← self (.expression true)
    let c ← maybe (one (mark ","))
    require (!c.isEmpty || (← sees "\x7d"))
    return head ++ v :: c

/-- The condition of an `if` or `while`. -/
def condition : Parser Tree := self (.expression false)

/-- An expression that ends with a block. -/
def blockLikeAt : Nat → Parser Tree
  | 0 => failure
  | n + 1 => choice [
    self .block,
    node "labeled" (do return [← lifetime, ← mark ":", ← blockLikeAt n]),
    node "unsafe_block" (do return [← keyword "unsafe", ← self .block]),
    node "const_block" (do return [← keyword "const", ← self .block]),
    node "try_block" (do return [← keyword "try", ← self .block]),
    node "async_block" (do
      let a ← keyword "async"
      let m ← maybe (one (keyword "move"))
      return a :: m ++ [← self .block]),
    node "gen_block" (do return [← keyword "gen", ← self .block]),
    node "if_expression" (do
      let k ← keyword "if"
      let c ← condition self
      let b ← self .block
      let e ← maybe (do return [← keyword "else", ← blockLikeAt n])
      return k :: c :: b :: e),
    node "match_expression" (do
      let k ← keyword "match"
      let v ← condition self
      return k :: v :: (← bracketed "\x7b" "\x7d" (do
        let inner ← many attributeItem
        let arms ← many (matchArm self (blockLikeAt n))
        return inner ++ arms))),
    node "while_expression" (do return [← keyword "while", ← condition self, ← self .block]),
    node "loop_expression" (do return [← keyword "loop", ← self .block]),
    node "for_expression" (do
      let k ← keyword "for"
      let p ← self .pattern
      return [k, p, ← keyword "in", ← condition self, ← self .block])]

/-- An expression that ends with a block. -/
def blockLike : Parser Tree := do blockLikeAt self (← get).size

/-- An operand without the calls, indices and fields behind it. -/
def primary (lit : Bool) : Parser Tree := choice [
  literal,
  closure self lit,
  node "jump_expression" (do
    let k ← choice [keyword "return", keyword "break", keyword "continue", keyword "yield"]
    let l ← maybe (one lifetime)
    return k :: l ++ (← maybe (one (self (.expression lit))))),
  blockLike self,
  node "tuple_expression" (bracketed "(" ")" (do
    let attrs ← many attributeItem
    return attrs ++ (← separated (one (self (.expression true))) (mark ",")))),
  node "array_expression" (bracketed "[" "]" (do
    let items ← separated (do
      let attrs ← many attributeItem
      return attrs ++ [← self (.expression true)]) (mark ",")
    let n ← maybe (do return [← mark ";", ← self (.expression true)])
    return items ++ n)),
  node "macro_invocation" (do
    let p ← path self
    return [p, ← lone "!" ["!="], ← tokenTree]),
  node "struct_expression" (do
    require lit
    let p ← path self
    return [p, ← fieldInitializers self]),
  path self,
  keyword "_"]

/-- The name of a field: a word or a number. -/
def fieldName : Parser Tree := choice [
  name "field_identifier",
  scan "integer_literal" (fun s =>
    match s.char? with
    | some c => if c.isDigit then some (s.skipWhile Char.isDigit) else none
    | none => none)]

/-- The calls, indices and fields behind an operand. -/
def trailers : Nat → Tree → Parser Tree
  | 0, t => return t
  | n + 1, t => do
    let next ← attempt (choice [
      nodeFrom "try_expression" t (one (mark "?")),
      nodeFrom "await_expression" t (do return [← lone "." [".."], ← keyword "await"]),
      nodeFrom "field_expression" (t.as "value") (do
        let m ← lone "." [".."]
        return [m, ← field "field" fieldName]),
      nodeFrom "generic_function" (t.as "function") (do
        let c ← mark "::"
        return [c, ← field "type_arguments" (typeArguments self)]),
      nodeFrom "call_expression" (t.as "function") (one (field "arguments" (arguments self))),
      nodeFrom "index_expression" t (bracketed "[" "]" (one (self (.expression true))))])
    match next with
    | some t => trailers n t
    | none => return t

/-- An operand with the operators before it and the calls, indices and fields behind it. -/
def operand (lit : Bool) : Parser Tree := choice [
  node "reference_expression" (do
    let a ← operator ["&&", "&"]
    let r ← maybe (do return [← keyword "raw", ← choice [keyword "const", keyword "mut"]])
    let m ← maybe (one (keyword "mut"))
    return a :: r ++ m ++ [← self (.operand lit)]),
  node "unary_expression" (do return [← operator ["-", "*", "!"], ← self (.operand lit)]),
  node "range_expression" (do
    let o ← operator ["..=", ".."]
    return o :: (← maybe (one (self (.operand lit))))),
  node "let_condition" (do
    let k ← keyword "let"
    let p ← self .pattern
    let m ← lone "=" ["=="]
    return [k, p, m, ← self (.operand lit)]),
  do trailers self (← get).size (← primary self lit)]

/-- What may follow an operand in a chain. -/
def chainPart (lit : Bool) : Parser (List Tree) := choice [
  do return [← keyword "as", ← self .type],
  do
    let s ← ahead
    require (!(s.has "=>"))
    match operatorAt? operators s with
    | none => failure
    | some o =>
      let m ← mark o
      if o == ".." || o == "..=" then return m :: (← maybe (one (self (.operand lit))))
      else return [m, ← self (.operand lit)]]

/-- An expression. -/
def expression (lit : Bool) : Parser Tree := do
  let first ← self (.operand lit)
  let more ← many (chainPart self lit)
  group "operation" (first :: more.flatten)

/-! ### Statements -/

/-- A `let` statement. -/
def letDeclaration : Parser Tree := node "let_declaration" do
  let k ← keyword "let"
  let p ← self .pattern
  let t ← maybe (do return [← lone ":" ["::"], ← self .type])
  let v ← maybe (do return [← lone "=" ["=="], ← self (.expression true)])
  let e ← maybe (do return [← keyword "else", ← self .block])
  return k :: p :: t ++ v ++ e ++ [← mark ";"]

/-- A statement of a block; the last one may be an expression without a semicolon. -/
def statement : Parser (List Tree) := choice [
  one (mark ";"),
  one attributeItem,
  one (letDeclaration self),
  one (self .item),
  do
    -- an expression that ends with a block is a statement of its own
    let b ← choice [
      blockLike self,
      node "macro_invocation" (do
        let p ← path self
        let bang ← lone "!" ["!="]
        require (← sees "\x7b")
        return [p, bang, ← tokenTree])]
    require (!(← sees ".") && !(← sees "?"))
    let semi ← maybe (one (mark ";"))
    return [.covering "expression_statement" b semi],
  do
    let e ← self (.expression true)
    match ← attempt (mark ";") with
    | some semi => return [.covering "expression_statement" e [semi]]
    | none =>
      require (← sees "\x7d")
      return [e]]

/-- A block. -/
def block : Parser Tree := node "block" do
  let a ← mark "\x7b"
  let ss ← many (do
    require (!(← sees "\x7d"))
    choice [statement self, one faultyCode])
  let b ← blockEnd
  return a :: ss.flatten ++ [b]

/-! ### Items -/

/-- Who may use an item. -/
def visibility : Parser (List Tree) := maybe (one (node "visibility_modifier" do
  let p ← keyword "pub"
  let within ← maybe (do
    require (← sees "(")
    let w ← ahead
    let first := wordAt ((w.step).skipWhile Text.isBlank)
    require (["crate", "self", "super", "in"].contains first)
    one tokenTree)
  return p :: within))

/-- A parameter of a function. -/
def parameter : Parser (List Tree) := do
  let attrs ← many attributeItem
  choice [
    do
      let a ← mark "&"
      let l ← maybe (one lifetime)
      let m ← maybe (one (keyword "mut"))
      let s ← keyword "self"
      require (!(← sees ":"))
      return attrs ++ a :: l ++ m ++ [s],
    do return attrs ++ [← mark "..."],
    do
      let p ← self .pattern
      let m ← lone ":" ["::"]
      return attrs ++ [p, m, ← choice [mark "...", self .type]],
    do
      let m ← maybe (one (keyword "mut"))
      let s ← keyword "self"
      return attrs ++ m ++ [s],
    do return attrs ++ [← self .type]]

/-- A function with or without a body. -/
def functionItem : Parser Tree := do
  let start := (← get).next.place
  let v ← visibility
  let m ← functionModifiers
  let k ← keyword "fn"
  let n ← field "name" (name "identifier")
  let ts ← maybe (one (typeParameters self))
  let ps ← field "parameters" (node "parameters" (bracketed "(" ")" (separated (parameter self) (mark ","))))
  let r ← maybe (do return [← mark "->", ← field "return_type" (self .type)])
  let w ← whereClause self
  let head := v ++ m ++ k :: n :: ts ++ ps :: r ++ w
  match ← attempt (mark ";") with
  | some semi => return .spanning "function_signature_item" start semi.stop (head ++ [semi])
  | none =>
    let b ← field "body" (self .block)
    return .spanning "function_item" start b.stop (head ++ [b])

/-- Fields with names and types. -/
def fieldDeclarations : Parser Tree := node "field_declaration_list" (braced (separated (do
  let attrs ← many attributeItem
  let v ← visibility
  let n ← name "field_identifier"
  let m ← mark ":"
  let t ← self .type
  let dflt ← maybe (do return [← mark "=", ← self (.expression true)])
  return attrs ++ v ++ n :: m :: t :: dflt) (mark ",")))

/-- Fields without names. -/
def orderedFields : Parser Tree := node "ordered_field_declaration_list" (bracketed "(" ")" (separated (do
  let attrs ← many attributeItem
  let v ← visibility
  return attrs ++ v ++ [← self .type]) (mark ",")))

/-- A struct or a union. -/
def structItem : Parser Tree := do
  let start := (← get).next.place
  let v ← visibility
  let w ← nextWord
  require (w == "struct" || w == "union")
  let k ← keyword w
  let n ← field "name" (name "type_identifier")
  let ts ← maybe (one (typeParameters self))
  let conditions ← whereClause self
  let rest ← choice [
    do return conditions ++ [← field "body" (fieldDeclarations self)],
    do
      require (w == "struct")
      let b ← field "body" (orderedFields self)
      return conditions ++ b :: (← whereClause self) ++ [← mark ";"],
    do
      require (w == "struct")
      return conditions ++ [← mark ";"]]
  return .spanning (if w == "struct" then "struct_item" else "union_item") start (← get).here.place
    (v ++ k :: n :: ts ++ rest)

/-- An enumeration. -/
def enumItem : Parser Tree := node "enum_item" do
  let v ← visibility
  let k ← keyword "enum"
  let n ← field "name" (name "type_identifier")
  let ts ← maybe (one (typeParameters self))
  let w ← whereClause self
  let b ← field "body" (node "enum_variant_list" (braced (separated (do
    let attrs ← many attributeItem
    let v ← visibility
    let n ← name "identifier"
    let fields ← maybe (one (choice [fieldDeclarations self, orderedFields self]))
    let value ← maybe (do return [← mark "=", ← self (.expression true)])
    return attrs ++ [.covering "enum_variant" n (fields ++ value)] ++ v) (mark ","))))
  return v ++ k :: n :: ts ++ w ++ [b]

/-- The items of a trait, an implementation or a module. -/
def declarations : Parser Tree := node "declaration_list" do
  let a ← mark "\x7b"
  let items ← many (do
    require (!(← sees "\x7d"))
    choice [attributeItem, self .item, mark ";", faultyCode])
  let b ← blockEnd
  return a :: items ++ [b]

/-- A trait. -/
def traitItem : Parser Tree := node "trait_item" do
  let v ← visibility
  let u ← maybe (one (keyword "unsafe"))
  let auto ← maybe (one (keyword "auto"))
  let k ← keyword "trait"
  let n ← field "name" (name "type_identifier")
  let ts ← maybe (one (typeParameters self))
  let b ← maybe (do return [← mark ":", ← self .bounds])
  let w ← whereClause self
  return v ++ u ++ auto ++ k :: n :: ts ++ b ++ w ++ [← field "body" (declarations self)]

/-- An implementation. -/
def implItem : Parser Tree := node "impl_item" do
  let mods ← many (choice [keyword "default", keyword "unsafe"])
  let k ← keyword "impl"
  let ts ← maybe (do
    let t ← typeParameters self
    require (!(← sees "::"))
    return [t])
  let c ← maybe (one (keyword "const"))
  let trait ← maybe (do
    let bang ← maybe (one (mark "!"))
    let t ← self .type
    return bang ++ [t.as "trait", ← keyword "for"])
  let t ← field "type" (self .type)
  let w ← whereClause self
  let b ← choice [
    one (field "body" (declarations self)),
    one (mark ";")]
  return mods ++ k :: ts ++ c ++ trait ++ t :: w ++ b

/-- A module, here or in a file of its own. -/
def modItem : Parser Tree := node "mod_item" do
  let v ← visibility
  let k ← keyword "mod"
  let n ← field "name" (name "identifier")
  let b ← choice [one (mark ";"), one (field "body" (declarations self))]
  return v ++ k :: n :: b

/-- A tree of names in a `use` declaration. -/
def useTree : Nat → Parser Tree
  | 0 => failure
  | n + 1 => node "use_tree" do
    let lead ← maybe (one (mark "::"))
    let item : Parser (List Tree) := choice [
      one (mark "*"),
      bracketed "\x7b" "\x7d" (separated (one (useTree n)) (mark ",")),
      one (name "identifier")]
    let first ← item
    let more ← many (do return (← mark "::") :: (← item))
    let renamed ← maybe (do return [← keyword "as", ← choice [keyword "_", name "identifier"]])
    return lead ++ first ++ more.flatten ++ renamed

/-- A `use` declaration. -/
def useDeclaration : Parser Tree := node "use_declaration" do
  let v ← visibility
  let k ← keyword "use"
  let t ← field "argument" (useTree (← get).size)
  return v ++ [k, t, ← mark ";"]

/-- A constant or a static variable. -/
def constItem : Parser Tree := node "const_item" do
  let v ← visibility
  let d ← maybe (one (keyword "default"))
  let k ← choice [keyword "const", keyword "static"]
  let m ← maybe (do return (← maybe (one (keyword "ref"))) ++ [← keyword "mut"])
  let n ← choice [keyword "_", name "identifier"]
  let t ← maybe (do return [← mark ":", ← self .type])
  let value ← maybe (do return [← mark "=", ← self (.expression true)])
  return v ++ d ++ k :: m ++ n :: t ++ value ++ [← mark ";"]

/-- A type renamed or an associated type. -/
def typeItem : Parser Tree := node "type_item" do
  let v ← visibility
  let d ← maybe (one (keyword "default"))
  let k ← keyword "type"
  let n ← name "type_identifier"
  let ts ← maybe (one (typeParameters self))
  let b ← maybe (do return [← mark ":", ← self .bounds])
  let w ← whereClause self
  let t ← maybe (do return [← mark "=", ← self .type])
  let w' ← whereClause self
  return v ++ d ++ k :: n :: ts ++ b ++ w ++ t ++ w' ++ [← mark ";"]

/-- Items of another language's library, or a crate. -/
def externItem : Parser Tree := choice [
  node "extern_crate_declaration" (do
    let v ← visibility
    let e ← keyword "extern"
    let c ← keyword "crate"
    let n ← name "identifier"
    let renamed ← maybe (do return [← keyword "as", ← choice [keyword "_", name "identifier"]])
    return v ++ e :: c :: n :: renamed ++ [← mark ";"]),
  node "foreign_mod_item" (do
    let v ← visibility
    let u ← maybe (one (keyword "unsafe"))
    let e ← keyword "extern"
    let abi ← maybe (one (scan "string_literal" stringEnd?))
    return v ++ u ++ e :: abi ++ [← field "body" (declarations self)])]

/-- A macro definition or a macro in the place of an item. -/
def macroItem : Parser Tree := choice [
  node "macro_definition" (do
    let k ← keyword "macro_rules"
    let b ← mark "!"
    let n ← name "identifier"
    let body ← tokenTree
    return k :: b :: n :: body :: (← maybe (one (mark ";")))),
  node "macro_invocation" (do
    let p ← path self
    let b ← lone "!" ["!="]
    let braces ← sees "\x7b"
    let body ← tokenTree
    let semi ← if braces then maybe (one (mark ";")) else one (mark ";")
    return p :: b :: body :: semi)]

/-- An item. -/
def item : Parser Tree := choice [
  functionItem self,
  structItem self,
  enumItem self,
  traitItem self,
  implItem self,
  modItem self,
  useDeclaration,
  constItem self,
  typeItem self,
  externItem self,
  macroItem self]

/-- The rules of the grammar. -/
def grammar : Grammar Goal := fun self => fun
  | .sourceFile => node "source_file" do
    let bang ← maybe (one (scan "shebang" fun s =>
      if s.has "#!" && !(((s.advance 2).skipWhile Text.isBlank).has "[") then some (s.skipWhile (· != '\n')) else none))
    let ss ← many (choice [statement self, do
      let e ← self (.expression true)
      require ((← get).next.rest.isEmpty)
      return [e], one faultyLine])
    require ((← get).next.rest.isEmpty)
    return bang ++ ss.flatten
  | .item => item self
  | .block => block self
  | .expression lit => expression self lit
  | .operand lit => operand self lit
  | .type => type self
  | .bounds => bounds self
  | .pattern => pattern self
  | .patternAtom => patternAtom self

end Rules

/-- The syntax tree of a source file. -/
def parse (text : String) : Tree := grammar.parse lexicon .sourceFile text

end RepoAtlas.Syntax.Rust
