import RepoAtlas.Graph.Node

/-!
# Resolving calls

A call refers to a unit of its name: the only one there is, or else the first one in the calling file.
-/

namespace RepoAtlas

/-- The unit with the least start, the first of several. -/
def firstByStart : List CodeUnit → Option CodeUnit
  | [] => none
  | u :: us => some (us.foldl (fun best v => if v.span.startByte < best.span.startByte then v else best) u)

/-- The unit that a call from a file refers to, among those of its name. -/
def resolveCallee? (callerPath : String) (candidates : List CodeUnit) : Option CodeUnit :=
  match candidates with
  | [] => none
  | [only] => some only
  | _ => firstByStart (candidates.filter (·.path == callerPath))

end RepoAtlas
