import RepoAtlas.Json.Basic

/-!
# Tables under construction

While a document is read, a table knows how it came to be, because that decides what may still be added
to it: a table that a header opened takes no dotted keys from elsewhere and no second header, and a
value is closed.
-/

namespace RepoAtlas.Toml

/-- How a table came to be. -/
inductive Origin where
  /-- It stands above a table that a header opened. -/
  | above
  | dotted
  | header
deriving DecidableEq, Inhabited

/-- What stands under a key. -/
inductive Entry where
  | value (v : Json)
  | table (origin : Origin) (items : List (String × Entry))
  /-- A list of tables: those that are finished, and the last one. -/
  | tables (done : List Json) (last : List (String × Entry))
deriving Inhabited

abbrev Items := List (String × Entry)

mutual
/-- The value of an entry. -/
def Entry.json : Entry → Json
  | .value v => v
  | .table _ items => .obj (jsonItems items)
  | .tables done last => .arr (done ++ [.obj (jsonItems last)])

/-- The values of entries. -/
def jsonItems : List (String × Entry) → List (String × Json)
  | [] => []
  | (k, e) :: l => (k, e.json) :: jsonItems l
end

namespace Items

/-- Set the entry of a key. -/
def put (items : Items) (key : String) (e : Entry) : Items :=
  if items.any (·.1 == key) then items.map fun (k, old) => (k, if k == key then e else old)
  else items ++ [(key, e)]

/-- Change the table at the end of a path. Tables on the way that are missing are created. -/
def descend (byDots : Bool) (change : Origin → Items → Option Items) :
    List String → Origin → Items → Option Items
  | [], origin, items => change origin items
  | k :: ks, _, items => do
    match items.lookup k with
    | none =>
      let origin := if byDots then .dotted else .above
      return items.put k (.table origin (← descend byDots change ks origin []))
    | some (.table origin sub) =>
      if byDots && origin == .header then none
      else return items.put k (.table origin (← descend byDots change ks origin sub))
    | some (.tables done last) => return items.put k (.tables done (← descend byDots change ks .header last))
    | some (.value _) => none

/-- Set a value under a dotted key of a table. -/
def assign (key : List String) (v : Json) (origin : Origin) (items : Items) : Option Items := do
  let name ← key.getLast?
  let path := key.dropLast
  descend true (fun origin items =>
    if (origin == .dotted) == path.isEmpty || items.any (·.1 == name) then none
    else some (items.put name (.value v))) path origin items

/-- Open the table of a header. -/
def openTable (path : List String) (root : Items) : Option Items := do
  let name ← path.getLast?
  descend false (fun _ items =>
    match items.lookup name with
    | none => some (items.put name (.table .header []))
    | some (.table .above sub) => some (items.put name (.table .header sub))
    | _ => none) path.dropLast .header root

/-- Open the next table of a list. -/
def openElement (path : List String) (root : Items) : Option Items := do
  let name ← path.getLast?
  descend false (fun _ items =>
    match items.lookup name with
    | none => some (items.put name (.tables [] []))
    | some (.tables done last) => some (items.put name (.tables (done ++ [.obj (jsonItems last)]) []))
    | _ => none) path.dropLast .header root

end Items

end RepoAtlas.Toml
