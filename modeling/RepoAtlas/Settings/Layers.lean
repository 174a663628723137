import RepoAtlas.Json.Printer
import RepoAtlas.Scan.FileTree
import RepoAtlas.Settings.Basic
import RepoAtlas.Settings.Lenient
import RepoAtlas.Toml.Parser
import RepoAtlas.Toml.Printer

/-!
# Layers of settings

The settings come from the defaults, the file of the user, the file of the repository and the
environment; what comes later counts. Keys are compared in lower case.
-/

namespace RepoAtlas

/-- The fields of a layer. -/
abbrev Layer := List (String × Json)

namespace Layer

/-- Set a field. -/
def put (base : Layer) (key : String) (v : Json) : Layer :=
  if base.any (·.1 == key) then base.map fun (k, old) => (k, if k == key then v else old)
  else base ++ [(key, v)]

/-- The fields of what stands under a key. -/
def below (base : Layer) (key : String) : Layer := ((base.lookup key).bind Json.fields?).getD []

mutual
/-- Set a field; an object is merged into the one that is there. -/
def set (base : Layer) (key : String) : Json → Layer
  | .obj [] => if base.any (·.1 == Text.lower key) then base else base.put (Text.lower key) (.obj [])
  | .obj fields =>
    let key := Text.lower key
    base.put key (.obj (merge (base.below key) fields))
  | v => base.put (Text.lower key) v

/-- Merge fields into others. -/
def merge (base : Layer) : List (String × Json) → Layer
  | [] => base
  | (k, v) :: l => merge (base.set k v) l
end

/-- Set the field at the end of a path. -/
def setAt (v : Json) : Layer → List String → Layer
  | base, [] => base
  | base, [k] => base.put k v
  | base, k :: ks => base.put k (.obj (setAt v (base.below k) ks))

/-- The path of a key with dots; `none` if a part is no name. -/
def path? (key : String) : Option (List String) :=
  let parts := Text.splitAt '.' key
  let isName (s : String) : Bool := !s.isEmpty && s.toList.all fun c => c.isAlphanum || c == '_' || c == '-'
  if 1 < parts.length && parts.all isName then some parts else none

/-- Set the field that a key with dots names. -/
def setKey (base : Layer) (key : String) (v : Json) : Layer :=
  match path? key with
  | some path => setAt v base path
  | none => base.set key v

/-- Put the fields of a layer over others. -/
def cover (base : Layer) (fields : List (String × Json)) : Layer :=
  fields.foldl (fun b (k, v) => b.setKey k v) base

/-- The value of an environment variable: a truth value, a number or a text. -/
def variableValue (s : String) : Json :=
  match Text.lower s with
  | "true" => .bool true
  | "false" => .bool false
  | _ =>
    match (Lenient.readInt? s).filter fun n => decide (Int64.minValue.toInt ≤ n ∧ n ≤ Int64.maxValue.toInt) with
    | some n => .int n
    | none =>
      match Lenient.readFloat? s with
      | some x => .float x
      | none => .str s

/-- What the names of environment variables begin with, in lower case. -/
def variableStart : String := "codemem_"

/-- The layer of the environment. Two underscores in a name stand for a dot. -/
def ofVariables (environment : List (String × String)) : Layer :=
  environment.filterMap fun (name, value) => do
    let key ← Text.stripStart? (Text.lower name) variableStart
    return (Text.replace key "__" ".", variableValue value)

/-- The layer of a file. -/
def ofText (text : String) : Except SettingsError Layer :=
  match Toml.parse? text with
  | some (.obj fields) => .ok fields
  | _ => .error .load

/-- The settings of a layer over the defaults. -/
def settings (l : Layer) : Except SettingsError Settings := do
  match (Lenient.fit? (toJson ({} : Settings)) (.obj l)).bind (ofJson? ·) with
  | none => throw .load
  | some s =>
    s.validate
    return s

end Layer

namespace Settings

/-- Load settings from the texts of files, if they exist, and the environment. -/
def load (files : List (Option String)) (environment : List (String × String)) :
    Except SettingsError Settings := do
  let layers ← (files.filterMap id).mapM Layer.ofText
  (layers.foldl Layer.cover [] |>.cover (Layer.ofVariables environment)).settings

/-- Whether two settings agree; what is no number agrees with nothing. -/
def same (a b : Settings) : Bool :=
  (toJson a).compact == (toJson b).compact &&
    a.embedding.pricePerMillionTokens == b.embedding.pricePerMillionTokens

/-- The text of the settings for a file. -/
def fileText (s : Settings) : Except SettingsError String :=
  match Toml.render? ((toJson s).fields?.getD []) with
  | some text => .ok text
  | none => .error .serialize

/-- Where the settings of a repository are kept. -/
def path : String := dataDirectory ++ "/" ++ settingsFile

/-- Save settings in the data directory of a repository, which is created. -/
def save (s : Settings) (tree : FileTree) (root : String) : Except SettingsError FileTree := do
  let tree ← (tree.createDirectories (Paths.join root dataDirectory)).mapError fun e => .io e.message
  let text ← s.fileText
  (tree.write (Paths.join root path) (Text.bytes text)).mapError fun e => .io e.message

end Settings

end RepoAtlas
