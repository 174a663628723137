import RepoAtlas.Extraction.Python
import RepoAtlas.Extraction.TypeScript
import RepoAtlas.Extraction.Rust
import RepoAtlas.Extraction.Go
import RepoAtlas.Syntax.Python
import RepoAtlas.Syntax.TypeScript
import RepoAtlas.Syntax.Rust
import RepoAtlas.Syntax.Go
import RepoAtlas.Paths

/-!
# Languages

The languages that files can be read in, chosen by the extension of a path.
-/

namespace RepoAtlas

/-- A language: its name, the extensions of its files, and how a file is read. -/
structure Language where
  name : String
  extensions : List String
  parse : String → Syntax.Tree
  classifier : Classifier

namespace Language

def python : Language :=
  ⟨"python", ["py", "pyi"], Syntax.Python.parse, Python.classifier⟩

def javascript : Language :=
  ⟨"javascript", ["js", "jsx", "mjs", "cjs"], Syntax.TypeScript.parse ⟨false, true⟩,
    TypeScript.classifier⟩

def typescript : Language :=
  ⟨"typescript", ["ts", "mts", "cts"], Syntax.TypeScript.parse ⟨true, false⟩,
    TypeScript.classifier⟩

def tsx : Language :=
  ⟨"tsx", ["tsx"], Syntax.TypeScript.parse ⟨true, true⟩, TypeScript.classifier⟩

def rust : Language := ⟨"rust", ["rs"], Syntax.Rust.parse, Rust.classifier⟩

def go : Language := ⟨"go", ["go"], Syntax.Go.parse, Go.classifier⟩

/-- All languages, in the order of their registration. -/
def all : List Language := [python, javascript, typescript, tsx, rust, go]

end Language

/-- The languages in use, in the order of their registration. -/
structure Registry where
  languages : List Language := Language.all

namespace Registry

/-- Only the named languages, in the given order; unknown names are passed over. -/
def ofNames (names : List String) : Registry :=
  ⟨names.filterMap fun n => Language.all.find? (·.name == n)⟩

/-- The name of the language of a path's extension. Later registrations win. -/
def detect? (r : Registry) (path : String) : Option String := do
  let ext ← Paths.extension? path
  let language ← r.languages.reverse.find? (·.extensions.contains ext)
  return language.name

/-- All extensions, in order. -/
def extensions (r : Registry) : List String :=
  ((r.languages.flatMap (·.extensions)).mergeSort (· ≤ ·)).eraseReps

/-- The language of a name. -/
def find? (r : Registry) (name : String) : Option Language :=
  r.languages.reverse.find? (·.name == name)

/-- Read a text in the named language; `none` if there is no such language. -/
def extract? (r : Registry) (text language : String) : Option Extraction := do
  let l ← r.find? language
  return extractTree l.classifier language text (l.parse text)

/-- The wording for a language that is not there. -/
def unsupported (language : String) : String := "Unsupported language: " ++ language

end Registry

end RepoAtlas
