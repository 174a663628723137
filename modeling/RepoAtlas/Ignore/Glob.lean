import RepoAtlas.Text.Utf8

/-!
# Globs

Patterns over paths, byte by byte. Stars do not cross separators; two stars between separators match
any number of directories; braces list alternatives; brackets list bytes.
-/

namespace RepoAtlas.Ignore

/-- A piece of a pattern. -/
inductive Token where
  | byte (b : UInt8)
  /-- One byte other than a separator. -/
  | any
  /-- Bytes other than separators. -/
  | star
  /-- Two stars at the start: nothing, or directories. -/
  | directoriesFirst
  /-- Two stars at the end: all below. -/
  | inside
  /-- Two stars between separators: a separator, or directories between two. -/
  | directories
  | charClass (negated : Bool) (ranges : List (UInt8 × UInt8))
  | alternatives (options : List (List Token))
deriving Inhabited

/-- The separator of paths. -/
def separator : UInt8 := 47

/-- All ends of a list, the list itself first. -/
def suffixes {α : Type} : List α → List (List α)
  | [] => [[]]
  | a :: l => (a :: l) :: suffixes l

/-- What follows each separator. -/
def afterSeparators : List UInt8 → List (List UInt8)
  | [] => []
  | b :: l => if b == separator then l :: afterSeparators l else afterSeparators l

/-- What may remain after bytes other than separators. -/
def afterStar : List UInt8 → List (List UInt8)
  | [] => [[]]
  | b :: l => if b == separator then [b :: l] else (b :: l) :: afterStar l

mutual
/-- What may remain of an input after a piece of a pattern. -/
def rests : Token → List UInt8 → List (List UInt8)
  | .byte b, input =>
    match input with
    | c :: l => if b == c then [l] else []
    | [] => []
  | .any, input =>
    match input with
    | c :: l => if c == separator then [] else [l]
    | [] => []
  | .star, input => afterStar input
  | .directoriesFirst, input =>
    match input with
    | c :: l => if c == separator then input :: afterSeparators (c :: l) else input :: afterSeparators l
    | [] => [[]]
  | .inside, input =>
    match input with
    | c :: l => if c == separator then suffixes l else []
    | [] => []
  | .directories, input =>
    match input with
    | c :: l => if c == separator then l :: afterSeparators l else []
    | [] => []
  | .charClass negated ranges, input =>
    match input with
    | c :: l => if (ranges.any fun (a, b) => a ≤ c && c ≤ b) != negated then [l] else []
    | [] => []
  | .alternatives options, input => restsAny (options.all (·.isEmpty)) options input

/-- What may remain of an input after a whole pattern. -/
def restsAll : List Token → List UInt8 → List (List UInt8)
  | [], input => [input]
  | t :: ts, input => (rests t input).flatMap (restsAll ts)

/-- What may remain of an input after one of some patterns. Empty ones count only if all are. -/
def restsAny (allEmpty : Bool) : List (List Token) → List UInt8 → List (List UInt8)
  | [], input => if allEmpty then [input] else []
  | p :: ps, input =>
    (if p.isEmpty then [] else restsAll p input) ++ restsAny allEmpty ps input
end

/-- Whether a pattern matches a whole path. Two stars alone match everything. -/
def matchesPath (pattern : List Token) (path : String) : Bool :=
  match pattern with
  | [.directoriesFirst] => true
  | _ => (restsAll pattern (Text.bytes path)).any (·.isEmpty)

/-! ### Reading patterns -/

/-- The bytes of a character. -/
def charBytes (c : Char) : List UInt8 := Text.bytes (.singleton c)

/-- The byte ranges that a range of characters stands for. -/
def byteRanges (a b : Char) : List (UInt8 × UInt8) :=
  let single (x : UInt8) : UInt8 × UInt8 := (x, x)
  if a == b then (charBytes a).map single
  else
    match (charBytes a).reverse, charBytes b with
    | low :: front, high :: back => front.reverse.map single ++ (low, high) :: back.map single
    | _, _ => []

/-- The characters of a class after its opening bracket, up to the closing one: the ranges, and what
follows. `none` if it is not closed; `some none` if a range runs backwards. -/
def classTail : Nat → Bool → Bool → List (Char × Char) → List Char →
    Option (Option (List (Char × Char) × List Char))
  | 0, _, _, _, _ => none
  | _ + 1, _, _, _, [] => none
  | n + 1, first, open_, ranges, c :: rest =>
    let extend (d : Char) : Option (Option (List (Char × Char) × List Char)) :=
      match ranges with
      | (a, _) :: more => if d < a then some none else classTail n false false ((a, d) :: more) rest
      | [] => some none
    if c == ']' && !first then
      some (some ((if open_ then ('-', '-') :: ranges else ranges).reverse, rest))
    else if c == '-' && !first then
      if open_ then extend '-' else classTail n false true ranges rest
    else if open_ then extend c
    else classTail n false false ((c, c) :: ranges) rest

/-- Where the reading of a pattern stands: the branches that are open, latest first, each with its
latest piece first, and the number of branches below each open brace. -/
structure GlobState where
  branches : List (List Token)
  braces : List Nat
  previous : Option Char

namespace GlobState

/-- Add a piece to the latest branch. -/
def push (s : GlobState) (t : Token) : GlobState :=
  match s.branches with
  | b :: bs => { s with branches := (t :: b) :: bs }
  | [] => { s with branches := [[t]] }

/-- Add the bytes of a character. -/
def pushChar (s : GlobState) (c : Char) : GlobState := (charBytes c).foldl (fun s b => s.push (.byte b)) s

/-- Replace the latest piece of the latest branch. -/
def replaceLast (s : GlobState) (f : Token → Token) : GlobState :=
  match s.branches with
  | (t :: b) :: bs => { s with branches := (f t :: b) :: bs }
  | _ => s

end GlobState

/-- Read two stars; `rest` is what follows them. -/
def readStars (s : GlobState) (rest : List Char) : GlobState × List Char :=
  let plain := ((s.push .star).push .star, rest)
  let latest := s.branches.headD []
  if latest.isEmpty then
    match rest with
    | [] => (s.push .directoriesFirst, [])
    | '/' :: after => ({ s.push .directoriesFirst with previous := some '*' }, after)
    | _ => plain
  else
    let opened := !s.braces.isEmpty && (s.previous == some ',' || s.previous == some '\x7b')
    if s.previous != some '/' && !opened then plain
    else
      let become (suffix : Bool) (t : Token) : Token :=
        match t with
        | .directoriesFirst => .directoriesFirst
        | .inside => .inside
        | _ => if suffix then .inside else .directories
      match rest with
      | [] => (s.replaceLast (become true), [])
      | c :: after =>
        if (c == ',' || c == '\x7d') && !s.braces.isEmpty then (s.replaceLast (become true), rest)
        else if c == '/' then (s.replaceLast (become false), after)
        else plain

/-- Read a pattern to its end. An unclosed class is refused unless `openClass` makes its bracket an
ordinary character. -/
def readGlob (openClass : Bool) : Nat → Bool → GlobState → List Char → Option GlobState
  | 0, _, _, _ => none
  | _ + 1, _, s, [] => some s
  | n + 1, literal, s, c :: rest =>
    let go (s : GlobState) (rest : List Char) := readGlob openClass n literal { s with previous := some c } rest
    if c == '?' then go (s.push .any) rest
    else if c == '*' then
      match rest with
      | '*' :: after =>
        let (t, after') := readStars s after
        -- the character before the next one is a star, or the separator that was read with it
        let last := if after'.length < after.length then '/' else '*'
        readGlob openClass n literal { t with previous := some last } after'
      | _ => go (s.push .star) rest
    else if c == '[' && !literal then
      let (negated, inner) :=
        match rest with
        | '!' :: r | '^' :: r => (true, r)
        | r => (false, r)
      match classTail (inner.length + 1) true false [] inner with
      | some (some (ranges, after)) =>
        readGlob openClass n literal
          { s.push (.charClass negated (ranges.flatMap fun (a, b) => byteRanges a b)) with previous := some ']' } after
      | some none => none
      | none =>
        if openClass then
          readGlob openClass n true { s.pushChar '[' with previous := some '[' } rest
        else none
    else if c == '\x7b' then go { s with braces := s.branches.length :: s.braces, branches := [] :: s.branches } rest
    else if c == '\x7d' then
      match s.braces with
      | [] => none
      | below :: braces =>
        let n := s.branches.length - below
        let options := ((s.branches.take n).map List.reverse).reverse
        go (({ s with braces := braces, branches := s.branches.drop n }).push (.alternatives options)) rest
    else if c == ',' && !s.braces.isEmpty then go { s with branches := [] :: s.branches } rest
    else if c == '\\' then
      match rest with
      | [] => none
      | d :: after => readGlob openClass n literal { s.pushChar d with previous := some d } after
    else go (s.pushChar c) rest

/-- The pattern that a text denotes. -/
def parseGlob? (openClass : Bool) (text : String) : Option (List Token) := do
  let s ← readGlob openClass (text.length + 1) false ⟨[[]], [], none⟩ text.toList
  match s.branches with
  | [b] => some b.reverse
  | _ => none

end RepoAtlas.Ignore
