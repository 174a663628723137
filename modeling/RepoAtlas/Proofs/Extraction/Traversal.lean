import Mathlib.Data.List.Infix
import Mathlib.Data.List.Nodup
import Mathlib.Tactic.Common
import RepoAtlas.Extraction.Walk

/-!
# The steps of a walk

A walk moves its cursor to first children, next siblings and parents, and remembers nothing else of the
tree. The steps that it does from entering a node to leaving it are those of a recursion: it enters the
node, goes through its children in their order, and leaves it. So it enters the sites of a tree in
pre-order, each once, and the steps that it may do suffice.
-/

namespace RepoAtlas

open Syntax

/-! ### Recursion over a tree -/

/-- The site of a child. -/
def Site.child (s : Site) (i : Nat) (before : List Tree) (t : Tree) : Site :=
  ⟨t, i :: s.path, before, (s.tree, s.before) :: s.around⟩

/-- The cursor on a child with the given siblings after it. -/
def Cursor.child (c : Cursor) (i : Nat) (before : List Tree) (t : Tree) (after : List Tree) : Cursor :=
  ⟨c.site.child i before t, after, c.after :: c.afterAround⟩

mutual
/-- A site and those below it in pre-order; its tree is given for the recursion. -/
def sitesAt (s : Site) : Tree → List Site
  | .node _ cs => s :: sitesUnder s 0 [] cs

/-- The sites below a site, from one of its children on. -/
def sitesUnder (s : Site) (i : Nat) (before : List Tree) : List Tree → List Site
  | [] => []
  | t :: ts => sitesAt (s.child i before t) t ++ sitesUnder s (i + 1) (t :: before) ts
end

/-- The sites of a tree in pre-order. -/
def preorder (t : Tree) : List Site := sitesAt (.root t) t

mutual
/-- The steps from entering a node to leaving it; its tree is given for the recursion. -/
def stepsAt (c : Cursor) : Tree → List WalkStep
  | .node _ cs => .enter c :: (stepsUnder c 0 [] cs ++ [.leave c])

/-- The steps below a node, from one of its children on. -/
def stepsUnder (c : Cursor) (i : Nat) (before : List Tree) : List Tree → List WalkStep
  | [] => []
  | t :: ts => stepsAt (c.child i before t ts) t ++ stepsUnder c (i + 1) (t :: before) ts
end

/-- The sites that some steps enter. -/
def entered (steps : List WalkStep) : List Site :=
  steps.filterMap fun
    | .enter c => some c.site
    | .leave _ => none

/-! ### The sites of a tree -/

mutual
lemma length_sitesAt (s : Site) : ∀ t : Tree, (sitesAt s t).length = t.size
  | .node _ cs => by rw [sitesAt, Tree.size, List.length_cons, length_sitesUnder, Nat.add_comm]

lemma length_sitesUnder (s : Site) (i : Nat) (before : List Tree) :
    ∀ ts : List Tree, (sitesUnder s i before ts).length = Tree.sizeAll ts
  | [] => rfl
  | t :: ts => by rw [sitesUnder, Tree.sizeAll, List.length_append, length_sitesAt, length_sitesUnder]
end

mutual
/-- The ways to the sites below a site begin with the way to it. -/
lemma suffix_of_mem_sitesAt {r : Site} (s : Site) : ∀ t : Tree, r ∈ sitesAt s t → s.path <:+ r.path
  | .node _ cs => by
    rw [sitesAt, List.mem_cons]
    rintro (rfl | hr)
    · exact List.suffix_refl _
    · obtain ⟨j, -, hj⟩ := suffix_of_mem_sitesUnder s 0 [] cs hr
      exact (List.suffix_cons j s.path).trans hj

lemma suffix_of_mem_sitesUnder {r : Site} (s : Site) (i : Nat) (before : List Tree) :
    ∀ ts : List Tree, r ∈ sitesUnder s i before ts → ∃ j, i ≤ j ∧ j :: s.path <:+ r.path
  | [] => by simp [sitesUnder]
  | t :: ts => by
    rw [sitesUnder, List.mem_append]
    rintro (hr | hr)
    · exact ⟨i, Nat.le_refl i, suffix_of_mem_sitesAt _ t hr⟩
    · obtain ⟨j, hij, hj⟩ := suffix_of_mem_sitesUnder s (i + 1) (t :: before) ts hr
      exact ⟨j, by omega, hj⟩
end

mutual
lemma nodup_sitesAt (s : Site) : ∀ t : Tree, ((sitesAt s t).map (·.path)).Nodup
  | .node _ cs => by
    rw [sitesAt, List.map_cons, List.nodup_cons]
    refine ⟨fun h => ?_, nodup_sitesUnder s 0 [] cs⟩
    obtain ⟨r, hr, heq⟩ := List.mem_map.mp h
    obtain ⟨j, -, hj⟩ := suffix_of_mem_sitesUnder s 0 [] cs hr
    have hle := hj.length_le
    rw [heq, List.length_cons] at hle
    omega

lemma nodup_sitesUnder (s : Site) (i : Nat) (before : List Tree) :
    ∀ ts : List Tree, ((sitesUnder s i before ts).map (·.path)).Nodup
  | [] => by simp [sitesUnder]
  | t :: ts => by
    rw [sitesUnder, List.map_append, List.nodup_append]
    refine ⟨nodup_sitesAt _ t, nodup_sitesUnder s _ _ ts, ?_⟩
    -- the ways to the sites of different children differ at the child
    rintro p hp q hq rfl
    obtain ⟨r, hr, rfl⟩ := List.mem_map.mp hp
    obtain ⟨r', hr', heq⟩ := List.mem_map.mp hq
    have hi : i :: s.path <:+ r.path := suffix_of_mem_sitesAt _ t hr
    obtain ⟨j, hij, hj⟩ := suffix_of_mem_sitesUnder s (i + 1) (t :: before) ts hr'
    rw [heq] at hj
    have hsame := (List.suffix_of_suffix_length_le hi hj (by simp)).eq_of_length (by simp)
    rw [List.cons.injEq] at hsame
    omega
end

/-! ### The steps of a walk -/

/-- The steps that a walk does from a step on, at most `n` of them. -/
def steps : Nat → Option WalkStep → List WalkStep
  | 0, _ => []
  | _ + 1, none => []
  | n + 1, some step => step :: steps n step.next?

/-- Which steps a walk does depends on the tree alone. -/
lemma performAll_eq (lang : Classifier) (src : Source) (n : Nat) (step : Option WalkStep) (s : WalkState) :
    performAll lang src n step s = (steps n step).foldl (WalkStep.act lang src) s := by
  induction n generalizing step s with
  | zero => rfl
  | succ n ih =>
    cases step with
    | none => rfl
    | some step => rw [performAll, ih, steps, List.foldl_cons]

/-- The step that comes to the remaining children of a node, or else leaves it. -/
def Cursor.toChildren (c : Cursor) (i : Nat) (before : List Tree) : List Tree → WalkStep
  | [] => .leave c
  | t :: ts => .enter (c.child i before t ts)

lemma next?_enter (c : Cursor) : WalkStep.next? (.enter c) = some (c.toChildren 0 [] c.site.tree.children) := by
  rw [WalkStep.next?, Cursor.firstChild?]
  cases c.site.tree.children <;> rfl

lemma next?_leave_child (c : Cursor) (i : Nat) (before : List Tree) (t : Tree) (ts : List Tree) :
    WalkStep.next? (.leave (c.child i before t ts)) = some (c.toChildren (i + 1) (t :: before) ts) := by
  cases ts <;> rfl

mutual
/-- From the step that enters a node a walk does the steps of the node, and goes on from the last one. -/
lemma steps_enter (c : Cursor) (n : Nat) : ∀ t : Tree, c.site.tree = t →
    steps (2 * t.size + n) (some (.enter c)) = stepsAt c t ++ steps n (WalkStep.next? (.leave c))
  | .node l cs => fun h => by
    have hsize : 2 * (Syntax.Tree.node l cs).size + n = 2 * Tree.sizeAll cs + (n + 1) + 1 := by
      rw [Tree.size]
      omega
    have hchildren : c.site.tree.children = cs := by rw [h, Tree.children]
    rw [hsize, steps, next?_enter, hchildren, steps_toChildren, steps, stepsAt, List.cons_append,
      List.append_assoc, List.singleton_append]

lemma steps_toChildren (c : Cursor) (i : Nat) (before : List Tree) (n : Nat) : ∀ ts : List Tree,
    steps (2 * Tree.sizeAll ts + n) (some (c.toChildren i before ts)) =
      stepsUnder c i before ts ++ steps n (some (.leave c))
  | [] => by rw [Tree.sizeAll, Nat.mul_zero, Nat.zero_add, stepsUnder, List.nil_append, Cursor.toChildren]
  | t :: ts => by
    have hsize : 2 * Tree.sizeAll (t :: ts) + n = 2 * t.size + (2 * Tree.sizeAll ts + n) := by
      rw [Tree.sizeAll]
      omega
    rw [hsize, Cursor.toChildren, steps_enter _ _ t rfl, next?_leave_child, steps_toChildren, stepsUnder,
      List.append_assoc]
end

/-- The steps of a walk of a tree, of which there are enough. -/
lemma steps_root (t : Tree) (n : Nat) :
    steps (2 * t.size + n) (some (.enter (.root t))) = stepsAt (.root t) t := by
  have hend : WalkStep.next? (.leave (.root t)) = none := rfl
  have hnone : steps n none = [] := by cases n <;> rfl
  rw [steps_enter _ _ t rfl, hend, hnone, List.append_nil]

mutual
lemma entered_stepsAt (c : Cursor) : ∀ t : Tree, entered (stepsAt c t) = sitesAt c.site t
  | .node _ cs => by
    have h := entered_stepsUnder c 0 [] cs
    simp only [entered] at h
    simp [entered, stepsAt, sitesAt, h]

lemma entered_stepsUnder (c : Cursor) (i : Nat) (before : List Tree) :
    ∀ ts : List Tree, entered (stepsUnder c i before ts) = sitesUnder c.site i before ts
  | [] => rfl
  | t :: ts => by
    have hfirst := entered_stepsAt (c.child i before t ts) t
    have hrest := entered_stepsUnder c (i + 1) (t :: before) ts
    simp only [entered] at hfirst hrest
    rw [entered, stepsUnder, List.filterMap_append, hfirst, hrest, sitesUnder]
    rfl
end

end RepoAtlas
