import RepoAtlas.Ignore.Glob
import RepoAtlas.Paths

/-!
# Ignore rules

The lines of an ignore file as rules over the paths below its directory. The last rule that matches a
path decides; a rule that begins with an exclamation mark includes the path again.
-/

namespace RepoAtlas.Ignore

/-- One rule. -/
structure Rule where
  glob : List Token
  /-- The rule includes paths instead of ignoring them. -/
  includes : Bool
  /-- The rule holds of directories only. -/
  onlyDirectories : Bool

/-- What rules say of a path. -/
inductive Verdict where
  | silent
  | ignored
  | included
deriving DecidableEq, Inhabited

/-- The first verdict that is not silent. -/
def Verdict.orElse (a b : Verdict) : Verdict := if a = .silent then b else a

/-- The opposite verdict. -/
def Verdict.invert : Verdict → Verdict
  | .silent => .silent
  | .ignored => .included
  | .included => .ignored

/-- What a line of an ignore file says: nothing, a rule, or something malformed. -/
inductive Line where
  | blank
  | rule (r : Rule)
  | malformed

/-- Read a line. A slash at the end restricts the rule to directories, a slash elsewhere anchors it to
the file's directory. -/
def readLine (openClass : Bool) (line : String) : Line :=
  if Text.startsWith line "#" then .blank
  else
    let line := if Text.endsWith line "\\ " then line else Text.trimEnd line
    if line.isEmpty then .blank
    else
      let escaped := Text.startsWith line "\\!" || Text.startsWith line "\\#"
      let includes := !escaped && Text.startsWith line "!"
      let body := if escaped || includes then line.toList.drop 1 else line.toList
      let anchored := body.head? == some '/'
      let body := if anchored && !escaped then body.drop 1 else body
      let onlyDirectories := body.getLast? == some '/'
      let body :=
        if onlyDirectories then
          let b := body.dropLast
          if b.getLast? == some '\\' then b.dropLast else b
        else body
      let text := String.ofList body
      let text :=
        if !anchored && !body.contains '/' && text != "**" then "**/" ++ text else text
      let text := if Text.endsWith text "/**" then text ++ "/*" else text
      match parseGlob? openClass text with
      | some glob => .rule ⟨glob, includes, onlyDirectories⟩
      | none => .malformed

/-- The lines of an ignore file up to one that is not valid text. -/
def textLines (content : List UInt8) : List String :=
  let rows := Text.pieces (· == 10) content
  let rows := if rows.getLast? == some [] then rows.dropLast else rows
  let rec go : List (List UInt8) → List String
    | [] => []
    | r :: rs =>
      let r := if r.getLast? == some 13 then r.dropLast else r
      match Text.ofBytes? r with
      | some s => s :: go rs
      | none => []
  match go rows with
  | first :: rest => Text.trimStartBy (· == '\uFEFF') first :: rest
  | [] => []

/-- The rules of an ignore file; malformed lines are passed over. -/
def rulesOf (content : List UInt8) : List Rule :=
  (textLines content).filterMap fun l =>
    match readLine true l with
    | .rule r => some r
    | _ => none

/-- What rules say of a path below their directory: the last one that matches decides. -/
def verdict (rules : List Rule) (path : String) (isDirectory : Bool) : Verdict :=
  let path := (Text.stripStart? path "./").getD path
  match rules.reverse.find? fun r => (!r.onlyDirectories || isDirectory) && matchesPath r.glob path with
  | some r => if r.includes then .included else .ignored
  | none => .silent

/-- What rules say of a path or, where they are silent, of the directories above it. -/
def verdictAbove (rules : List Rule) (path : String) : Verdict :=
  let own := verdict rules path false
  let above := ((Paths.ancestors path).drop 1).map (verdict rules · true)
  own.orElse ((above.find? (· != .silent)).getD .silent)

end RepoAtlas.Ignore
