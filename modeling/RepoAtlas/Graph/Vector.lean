import RepoAtlas.Json.Basic

/-!
# Vectors

Embeddings are vectors of singles, compared by the cosine of their angle.
-/

namespace RepoAtlas

/-- An embedding. -/
abbrev Embedding := List Float32

namespace Single

/-- Whether a single is a number and not infinite: its exponent bits are not all set. -/
def finite (x : Float32) : Bool := x.toBits.toNat / 0x800000 % 256 != 255

/-- Whether a single is one of the two zeros. -/
def zero (x : Float32) : Bool := x.toBits.toNat % 0x80000000 == 0

/-- Equality of finite singles; the two zeros are equal. -/
def same (x y : Float32) : Bool := x.toBits == y.toBits || (zero x && zero y)

theorem same_self (x : Float32) : same x x = true := by simp [same]

/-- A number that is ordered as the singles are, with -0 before 0, and what is not a number at both
ends. -/
def order (x : Float32) : Int :=
  let b := x.toBits.toNat
  if b < 0x80000000 then b else -1 - (b - 0x80000000 : Nat)

end Single

namespace Embedding

/-- Equality of embeddings, component by component. -/
def same : Embedding → Embedding → Bool
  | [], [] => true
  | x :: xs, y :: ys => Single.same x y && same xs ys
  | _, _ => false

theorem same_self : ∀ v : Embedding, same v v = true
  | [] => rfl
  | x :: xs => by simp [same, Single.same_self, same_self xs]

/-- The cosine of the angle between two vectors; zero if one has no direction, or their lengths
differ. -/
def cosine (a b : Embedding) : Float32 :=
  if a.length != b.length || a.isEmpty then 0
  else
    let step (s : Float32 × Float32 × Float32) (p : Float32 × Float32) : Float32 × Float32 × Float32 :=
      (s.1 + p.1 * p.2, s.2.1 + p.1 * p.1, s.2.2 + p.2 * p.2)
    let (dot, m, n) := (a.zip b).foldl step (0, 0, 0)
    let mag := (m * n).sqrt
    if mag == 0 then 0 else dot / mag

end Embedding

end RepoAtlas
