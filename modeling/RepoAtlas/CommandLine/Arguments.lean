import RepoAtlas.Settings.Lenient

/-!
# Arguments of the command line

A command has options and a number of operands. An option takes a value or none, and stands anywhere;
after two dashes everything is an operand. The repository can be chosen before and after the name of
the command, where the latter counts.
-/

namespace RepoAtlas.CommandLine

/-- What the program can be told to do. -/
inductive Command where
  /-- Write the settings that count to the file of the repository. -/
  | init
  /-- Bring the graph up to date. -/
  | index
  /-- Bring the graph up to date and keep it so. -/
  | watch
  | history (isFull : Bool)
  | search (query : String) (limit : Option Nat) (isHybrid : Bool) (windowDays : Option Int)
  | dependencies (path : String)
  | info (path : String)
  | impact (path : String) (depth : Option Nat)
  | log (path : String) (limit : Nat)
  | commit (revision : String)
  | status

/-- What the arguments say. -/
structure Arguments where
  repo : Option String
  command : Command

/-- Why there is nothing to run. -/
inductive Refusal where
  /-- The arguments are wrong. -/
  | usage
  /-- Help or the version was asked for. -/
  | help
deriving DecidableEq

/-- The kind of the value that an option takes. -/
inductive OptionKind where
  | flag
  /-- A text that is not empty. -/
  | text
  /-- A whole number of 64 bits that is not negative. -/
  | count
  /-- A whole number of 64 bits. -/
  | number
deriving DecidableEq

namespace OptionKind

/-- Whether a value is of the kind. -/
def accepts (k : OptionKind) (value : String) : Bool :=
  match k with
  | .flag => false
  | .text => !value.isEmpty
  | .count => !Text.startsWith value "-" && (Lenient.readInt? value).any fun n => n < (UInt64.size : Int)
  | .number => (Lenient.readInt? value).any fun n => Int64.minValue.toInt ≤ n && n ≤ Int64.maxValue.toInt

end OptionKind

/-- The options and the number of operands of a command. -/
structure Shape where
  options : List (String × OptionKind) := []
  operands : Nat := 0

/-- The option that all commands have. -/
def repoOption : String × OptionKind := ("repo", .text)

/-- The commands. -/
def shapes : List (String × Shape) :=
  [("init", {}), ("index", {}), ("watch", {}), ("history", { options := [("full", .flag)] }),
   ("search", { options := [("limit", .count), ("hybrid", .flag), ("window-days", .number)], operands := 1 }),
   ("deps", { operands := 1 }), ("info", { operands := 1 }),
   ("impact", { options := [("depth", .count)], operands := 1 }),
   ("log", { options := [("limit", .count)], operands := 1 }), ("show", { operands := 1 }),
   ("status", {})]

/-- What was read so far: options with their values, and operands. -/
structure Reading where
  options : List (String × String) := []
  operands : List String := []

namespace Reading

/-- Add an option, which may be given once. -/
def addOption (r : Reading) (name value : String) : Except Refusal Reading :=
  if r.options.any (·.1 == name) then .error .usage
  else .ok { r with options := (name, value) :: r.options }

/-- Read an option by its name, perhaps with a value after an equals sign. The answer holds the
arguments that are left. -/
def takeOption (shape : Shape) (r : Reading) (name : String) (given : Option String) (rest : List String) :
    Except Refusal (Reading × List String) := do
  match (repoOption :: shape.options).lookup name, given, rest with
  | none, _, _ => if name == "help" then throw .help else throw .usage
  | some .flag, none, rest => return (← r.addOption name "", rest)
  | some .flag, some _, _ => throw .usage
  | some k, some value, rest =>
    if k.accepts value then return (← r.addOption name value, rest) else throw .usage
  | some _, none, [] => throw .usage
  | some k, none, value :: rest =>
    if Text.startsWith value "-" && value != "-" then throw .usage
    else if k.accepts value then return (← r.addOption name value, rest)
    else throw .usage

end Reading

/-- The name and the value of a long option. -/
def longOption? (arg : String) : Option (String × Option String) := do
  let body ← Text.stripStart? arg "--"
  match Text.cut? body "=" with
  | some (name, value) => return (name, some value)
  | none => return (body, none)

/-- Read the arguments of a command. `n` bounds their number. -/
def readCommand (shape : Shape) : Nat → Reading → List String → Except Refusal Reading
  | _, r, [] => .ok r
  | 0, _, _ => .error .usage
  | n + 1, r, arg :: rest => do
    let operands (l : List String) : Except Refusal Reading :=
      let r := { r with operands := r.operands ++ l }
      if shape.operands < r.operands.length then .error .usage else .ok r
    if arg == "--" then operands rest
    else
      match longOption? arg with
      | some (name, given) =>
        let (r, rest) ← r.takeOption shape name given rest
        readCommand shape n r rest
      | none =>
        if Text.startsWith arg "-h" then throw .help
        else if Text.startsWith arg "-" && arg != "-" then throw .usage
        else readCommand shape n (← operands [arg]) rest

/-- The command of what was read. -/
def commandOf (name : String) (r : Reading) : Except Refusal Command := do
  let count? (o : String) : Option Nat := (r.options.lookup o).bind fun v => (Lenient.readInt? v).map Int.toNat
  let has (o : String) : Bool := (r.options.lookup o).isSome
  match name, r.operands with
  | "init", _ => return .init
  | "index", _ => return .index
  | "watch", _ => return .watch
  | "history", _ => return .history (has "full")
  | "status", _ => return .status
  | "search", [query] =>
    return .search query (count? "limit") (has "hybrid") ((r.options.lookup "window-days").bind Lenient.readInt?)
  | "deps", [path] => return .dependencies path
  | "info", [path] => return .info path
  | "impact", [path] => return .impact path (count? "depth")
  | "log", [path] => return .log path ((count? "limit").getD 20)
  | "show", [revision] => return .commit revision
  | _, _ => throw .usage

/-- Read arguments up to the name of a command, and then those of the command. -/
def readArguments : Nat → Reading → List String → Except Refusal Arguments
  | _, _, [] => .error .usage
  | 0, _, _ => .error .usage
  | n + 1, r, arg :: rest => do
    match longOption? arg with
    | some (name, given) =>
      if name == "version" && given.isNone then throw .help
      let (r, rest) ← r.takeOption {} name given rest
      readArguments n r rest
    | none =>
      if Text.startsWith arg "-h" || Text.startsWith arg "-V" then throw .help
      else if arg == "help" then throw (if rest.all (shapes.lookup · |>.isSome) then .help else .usage)
      else
        match shapes.lookup arg with
        | none => throw .usage
        | some shape =>
          let below ← readCommand shape (rest.length + 1) {} rest
          return ⟨(below.options.lookup "repo").or (r.options.lookup "repo"), ← commandOf arg below⟩

/-- What the arguments of the program say. -/
def parse (args : List String) : Except Refusal Arguments := readArguments (args.length + 1) {} args

end RepoAtlas.CommandLine
