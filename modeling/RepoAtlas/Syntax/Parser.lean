import RepoAtlas.Syntax.Tree
import RepoAtlas.Text.Split

/-!
# Parsers over source texts

A parser reads a tree from the place it stands at. Between two tokens it skips blanks and comments;
the comments are kept, and woven into the finished tree. A parser that fails leaves the place
unchanged, so that alternatives start from the same place.

Grammars tie their recursion through `Grammar.run`: each rule gets the parsers of all goals as an
argument, with one less unit of fuel.
-/

namespace RepoAtlas.Syntax

/-- A place together with the text after it. -/
structure Spot where
  place : Place
  rest : List Char
deriving Inhabited

namespace Spot

/-- The spot at the beginning of a text. -/
def ofText (s : String) : Spot := ⟨⟨0, 0, 0⟩, s.toList⟩

/-- The spot after one more character. -/
def step (s : Spot) : Spot :=
  match s.rest with
  | [] => s
  | c :: rest =>
    let p := s.place
    let width := if c == '\n' || c == '\r' || c.toNat == 12 then 0
      else if c == '\t' then p.column + 8 else p.column + 1
    ⟨⟨p.byte + c.utf8Size, if c == '\n' then p.row + 1 else p.row, width⟩, rest⟩

/-- The spot after `n` more characters. -/
def advance : Nat → Spot → Spot
  | 0, s => s
  | n + 1, s => s.step.advance n

/-- The spot after the characters that satisfy `p`. -/
def skipWhile (p : Char → Bool) (s : Spot) : Spot :=
  s.advance (s.rest.takeWhile p).length

/-- The spot after a given text. -/
def after? (s : Spot) (text : String) : Option Spot :=
  let l := text.toList
  if l.isPrefixOf s.rest then some (s.advance l.length) else none

/-- Whether a given text stands at the spot. -/
def has (s : Spot) (text : String) : Bool := text.toList.isPrefixOf s.rest

/-- The spot behind the first occurrence of a text, or the end. -/
def beyond (s : Spot) (text : String) : Spot :=
  match Text.cutList? text.toList s.rest with
  | some (b, _) => s.advance (b.length + text.length)
  | none => s.advance s.rest.length

/-- The spot behind the first occurrence of a text. -/
def beyond? (s : Spot) (text : String) : Option Spot :=
  match Text.cutList? text.toList s.rest with
  | some (b, _) => some (s.advance (b.length + text.length))
  | none => none

/-- The next character. -/
def char? (s : Spot) : Option Char := s.rest.head?

/-- The leaf between two spots. -/
def leaf (kind : String) (named : Bool) (a b : Spot) : Tree :=
  .node { kind := kind, named := named, start := a.place, stop := b.place } []

end Spot

/-- What stands between two tokens: the next spot that is no blank or comment, whether a line ends on
the way, and the comments, latest first. -/
structure Trivia where
  next : Spot
  newline : Bool
  comments : List Tree

/-- The lexical rules of a language that its parser consults after every token. -/
structure Lexicon where
  /-- What stands between two tokens. -/
  skip : Spot → Trivia
  /-- Whether the end of a line hides the next token outside of brackets. -/
  lineBound : Bool
  /-- Whether a line may end after a token of some kind. -/
  endsLine : String → Bool
  /-- Whether text that fits nowhere is passed over. -/
  tolerant : Bool := false

/-- Where a parser stands. -/
structure Cursor where
  /-- The end of the last token. -/
  here : Spot
  /-- The start of the next token. -/
  next : Spot
  /-- Whether a line ends between the two. -/
  newline : Bool
  /-- The comments between the two, latest first. -/
  skipped : List Tree
  /-- The comments before the last token, latest first. -/
  comments : List Tree
  /-- How many brackets are open. -/
  depth : Nat
  /-- A bound for the number of tokens. -/
  size : Nat
deriving Inhabited

/-- A parser reads the lexical rules and moves the cursor, or fails. -/
abbrev Parser := ReaderT Lexicon (StateT Cursor Option)

namespace Parser

variable {α : Type}

/-- The text ahead, from the next token on; empty at the end of a line that binds. -/
def ahead : Parser Spot := do
  let lex ← read
  let c ← get
  return if lex.lineBound && c.newline && c.depth == 0 then { c.next with rest := [] } else c.next

/-- Whether a line ends before the next token. -/
def lineBreak : Parser Bool := return (← get).newline

/-- Succeed only if a condition holds. -/
def require (b : Bool) : Parser Unit := if b then pure () else failure

/-- Move behind a token that ends at `stop`, and skip what follows it. -/
def moveTo (kind : String) (stop : Spot) : Parser Unit := do
  let lex ← read
  modify fun c =>
    let t := lex.skip stop
    { c with here := stop, next := t.next, newline := t.newline && lex.endsLine kind,
             skipped := t.comments,
             comments := c.skipped ++ c.comments }

/-- Read a token up to `stop` as a leaf. -/
def token (kind : String) (named : Bool) (stop : Spot) : Parser Tree := do
  let start ← ahead
  moveTo kind stop
  return Spot.leaf kind named start stop

/-- Read a token that a scanner finds. -/
def scan (kind : String) (scanner : Spot → Option Spot) : Parser Tree := do
  match scanner (← ahead) with
  | some stop => token kind true stop
  | none => failure

/-- Read a given text as punctuation. -/
def mark (text : String) : Parser Tree := do
  match (← ahead).after? text with
  | some stop => token text false stop
  | none => failure

/-- Whether a given text is ahead. -/
def sees (text : String) : Parser Bool := return (← ahead).has text

/-- A parser's result, or nothing where it fails. -/
def attempt (p : Parser α) : Parser (Option α) := fun lex c =>
  match p lex c with
  | some (a, c') => some (some a, c')
  | none => some (none, c)

/-- Whether a parser would succeed. -/
def foresees (p : Parser α) : Parser Bool := fun lex c => some ((p lex c).isSome, c)

/-- Read as often as possible, at most `n` times, and stop when nothing is consumed. -/
def repeatAtMost (p : Parser α) : Nat → Parser (List α)
  | 0 => pure []
  | n + 1 => do
    let before := (← get).here.place.byte
    match ← attempt p with
    | none => return []
    | some a =>
      if (← get).here.place.byte == before then return [a]
      return a :: (← repeatAtMost p n)

/-- Read as often as possible. -/
def many (p : Parser α) : Parser (List α) := do repeatAtMost p (← get).size

/-- Read at least once. -/
def many1 (p : Parser α) : Parser (List α) := return (← p) :: (← many p)

/-- Read nothing or one list of trees. -/
def maybe (p : Parser (List Tree)) : Parser (List Tree) := return (← attempt p).getD []

/-- A single tree as a list. -/
def one (p : Parser Tree) : Parser (List Tree) := return [← p]

/-- The first alternative that foresees. -/
def choice (ps : List (Parser α)) : Parser α := ps.foldr (fun p q => p <|> q) failure

/-- Items with a separator between them, and possibly one at the end. -/
def separated (item : Parser (List Tree)) (separator : Parser Tree) : Parser (List Tree) := do
  match ← attempt item with
  | none => return []
  | some first =>
    let more ← many do
      let s ← separator
      return s :: (← maybe item)
    return first ++ more.flatten

/-- A node over the trees that a parser reads. -/
def node (kind : String) (p : Parser (List Tree)) : Parser Tree := do
  let start := (← get).next.place
  let children ← p
  let stop := (← get).here.place
  let start := if stop.byte < start.byte then stop else start
  return .node { kind := kind, start := start, stop := stop } children

/-- A node that begins where an earlier tree does. -/
def nodeFrom (kind : String) (first : Tree) (p : Parser (List Tree)) : Parser Tree := do
  let children ← p
  let stop := (← get).here.place
  return .node { kind := kind, start := first.start, stop := stop } (first :: children)

/-- The tree as the filler of a field. -/
def field (name : String) (p : Parser Tree) : Parser Tree := return (← p).as name

/-- Read as if no bracket were open. -/
def unnested (p : Parser α) : Parser α := do
  let depth := (← get).depth
  modify fun c => { c with depth := 0 }
  let a ← p
  modify fun c => { c with depth := depth }
  return a

/-- Let the next token be seen although a line ends before it. -/
def crossLine : Parser Unit := modify fun c => { c with newline := false }

/-- Read a list in brackets. -/
def bracketed (openMark closeMark : String) (p : Parser (List Tree)) : Parser (List Tree) := do
  let a ← mark openMark
  modify fun c => { c with depth := c.depth + 1 }
  let inner ← p
  let b ← mark closeMark
  modify fun c => { c with depth := c.depth - 1 }
  return a :: inner ++ [b]

/-- Read raw text: continue right behind the last token, as if nothing had been skipped. -/
def raw : Parser Spot := do
  modify fun c => { c with next := c.here, newline := false, skipped := [] }
  return (← get).here

/-- Count the oldest skipped comments as read as long as they satisfy a condition. -/
def keepComments (p : Tree → Bool) : Parser Unit := modify fun c =>
  let kept := c.skipped.reverse.takeWhile p
  match kept.getLast? with
  | none => c
  | some last =>
    { c with here := { c.here with place := last.stop },
             skipped := (c.skipped.reverse.dropWhile p).reverse,
             comments := kept.reverse ++ c.comments }

/-- Pass over the rest of a line that fits nowhere; only a tolerant parser does. -/
def faultyLine : Parser Tree := do
  require (← read).tolerant
  let start := (← get).next
  require (!start.rest.isEmpty)
  let stop := start.step.skipWhile (· != '\n')
  crossLine
  moveTo "ERROR" stop
  return .node { kind := "ERROR", fault := .error, start := start.place, stop := stop.place } []

/-- The text behind as much of a line as fits nowhere: up to a brace that closes an earlier one. -/
def passCode (opened : Nat) : List Char → List Char
  | [] => []
  | '\n' :: cs => '\n' :: cs
  | '\x7b' :: cs => passCode (opened + 1) cs
  | '\x7d' :: cs => if opened == 0 then '\x7d' :: cs else passCode (opened - 1) cs
  | _ :: cs => passCode opened cs

/-- Pass over code of one line that fits nowhere, but not over the end of the block it stands in. -/
def faultyCode : Parser Tree := do
  require (← read).tolerant
  let start := (← get).next
  require (!start.rest.isEmpty && start.char? != some '\x7d')
  let stop := start.advance (start.rest.length - (passCode 0 start.rest).length)
  crossLine
  moveTo "ERROR" stop
  return .node { kind := "ERROR", fault := .error, start := start.place, stop := stop.place } []

/-- A mark that fails to stand here. -/
def absent (text : String) : Parser Tree := do
  require (← read).tolerant
  let p := (← get).here.place
  return .node { kind := text, named := false, fault := .missing, start := p, stop := p } []

/-- Read a mark; a tolerant parser takes note of one that is missing and goes on. -/
def expected (text : String) : Parser Tree := choice [mark text, absent text]

/-- Whether the text has been read to its end. -/
def atEnd : Parser Bool := return (← get).next.rest.isEmpty

/-- Read the end of a block; a tolerant parser takes the end of the text for it. -/
def blockEnd : Parser Tree := choice [
  mark "\x7d",
  do
    require (← atEnd)
    absent "\x7d"]

/-- Read a block's list in braces. -/
def braced (p : Parser (List Tree)) : Parser (List Tree) := do
  let a ← mark "\x7b"
  modify fun c => { c with depth := c.depth + 1 }
  let inner ← p
  let b ← blockEnd
  modify fun c => { c with depth := c.depth - 1 }
  return a :: inner ++ [b]

end Parser

/-- The rules of a grammar: how to parse each goal, given parsers for all goals. -/
abbrev Grammar (Goal : Type) := (Goal → Parser Tree) → Goal → Parser Tree

/-- The parser of a goal with recursion up to a depth. -/
def Grammar.run {Goal : Type} (g : Grammar Goal) : Nat → Goal → Parser Tree
  | 0, _ => failure
  | n + 1, goal => g (g.run n) goal

/-- The cursor at the beginning of a text. -/
def Cursor.start (lex : Lexicon) (text : String) : Cursor :=
  let s := Spot.ofText text
  let s := if s.char? == some '\uFEFF' then { s.step with place := ⟨3, 0, 0⟩ } else s
  let t := lex.skip s
  { here := s, next := t.next, newline := false, skipped := t.comments, comments := [],
    depth := 0, size := s.rest.length + 1 }

/-- The deepest recursion that a text of some length can need. -/
def fuelFor (text : String) : Nat := 40 * (text.length + 10)

/-- Parse a whole text as one goal, with the comments woven in. -/
def Grammar.parse? {Goal : Type} (g : Grammar Goal) (lex : Lexicon) (goal : Goal) (text : String) :
    Option Tree := do
  let (tree, c) ← g.run (fuelFor text) goal lex (Cursor.start lex text)
  let comments := c.skipped ++ c.comments
  let tree :=
    match tree with
    | .node l cs => .node { l with start := ⟨0, 0, 0⟩, stop := c.next.place } cs
  return comments.foldr Tree.weave tree

/-- The tree of a text: parsed strictly if that is possible, else passing over what fits nowhere. -/
def Grammar.parse {Goal : Type} (g : Grammar Goal) (lex : Lexicon) (goal : Goal) (text : String) : Tree :=
  match g.parse? lex goal text with
  | some t => t
  | none =>
    match g.parse? { lex with tolerant := true } goal text with
    | some t => t
    | none =>
      let s := Spot.ofText text
      let stop := (s.advance s.rest.length).place
      .node { kind := "ERROR", fault := .error, start := s.place, stop := stop } []

end RepoAtlas.Syntax
