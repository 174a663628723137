import Mathlib.Data.List.Basic
import Mathlib.Data.List.Infix
import RepoAtlas.Proofs.Scan.Parts

/-!
# Cutting texts at markers

A text is cut at the first occurrence of a marker. Where that is can be told from what stands before it: no occurrence
begins there that would end before the marker does. Replacing a marker cuts at each occurrence in turn, and lines are
cut at line feeds.
-/

namespace RepoAtlas.Text

section

variable {α : Type} [BEq α] [LawfulBEq α] {marker l u v : List α} {x : α}

/-! ### The first occurrence -/

lemma after?_isSome_iff {start : List α} : (after? start l).isSome = true ↔ start <+: l := by
  simp only [Option.isSome_iff_exists, after?_eq_some_iff]
  exact exists_congr fun _ => eq_comm

lemma cutList?_isSome_iff : (cutList? marker l).isSome = true ↔ marker <:+: l := by
  induction l with
  | nil => rw [cutList?, Option.isSome_map, after?_isSome_iff, List.prefix_nil, List.infix_nil]
  | cons a l ih =>
    rw [List.infix_cons_iff, ← after?_isSome_iff, ← ih, cutList?]
    cases after? marker (a :: l) with
    | some r => simp
    | none => simp

lemma cutList?_eq_none_iff : cutList? marker l = none ↔ ¬marker <:+: l := by
  rw [← cutList?_isSome_iff, Option.not_isSome_iff_eq_none]

/-- An occurrence at the beginning would end before the marker does. -/
lemma after?_eq_none (hmarker : marker ≠ []) {a : α} (h : ¬marker <:+: a :: u ++ marker.dropLast) :
    after? marker (a :: u ++ (marker ++ v)) = none := by
  rw [← Option.not_isSome_iff_eq_none, after?_isSome_iff]
  intro hstart
  have hbegins : a :: u ++ marker.dropLast <+: a :: u ++ (marker ++ v) :=
    (List.prefix_append_right_inj _).mpr ((List.dropLast_prefix marker).trans (List.prefix_append marker v))
  have hlength : marker.length ≤ (a :: u ++ marker.dropLast).length := by
    have := List.length_pos_iff.mpr hmarker
    simp only [List.length_append, List.length_cons, List.length_dropLast]
    omega
  exact h (List.prefix_of_prefix_length_le hstart hbegins hlength).isInfix

/-- A text is cut at a marker if no other one begins before. -/
lemma cutList?_append (hmarker : marker ≠ []) (h : ¬marker <:+: u ++ marker.dropLast) :
    cutList? marker (u ++ (marker ++ v)) = some (u, v) := by
  induction u with
  | nil =>
    obtain ⟨m, ms, rfl⟩ := List.exists_cons_of_ne_nil hmarker
    have hafter := after?_append (m :: ms) v
    rw [List.nil_append, List.cons_append, cutList?, ← List.cons_append, hafter]
  | cons a u ih =>
    have hrest : ¬marker <:+: u ++ marker.dropLast := fun hrest => h (List.infix_cons hrest)
    rw [List.cons_append, cutList?, ← List.cons_append, after?_eq_none hmarker h, ih hrest]
    rfl

lemma cutList?_singleton (h : x ∉ u) : cutList? [x] (u ++ x :: v) = some (u, v) :=
  cutList?_append (List.cons_ne_nil x []) (by simpa [List.singleton_infix_iff] using h)

end

variable {s : String} {a b : Char} {marker with_ l u v : List Char} {n : Nat}

/-! ### Replacing -/

lemma replaceList_of_not_infix (h : ¬marker <:+: l) : replaceList marker with_ n l = l := by
  induction n generalizing l with
  | zero => cases l <;> rfl
  | succ n ih =>
    cases l with
    | nil => rfl
    | cons a l =>
      have hafter : after? marker (a :: l) = none := by
        rw [← Option.not_isSome_iff_eq_none, after?_isSome_iff]
        exact fun hstart => h hstart.isInfix
      rw [replaceList, hafter, ih fun hrest => h (List.infix_cons hrest)]

/-- The first occurrence is replaced, and then those after it. -/
lemma replaceList_append (hmarker : marker ≠ []) (h : ¬marker <:+: u ++ marker.dropLast) :
    replaceList marker with_ (u.length + n + 1) (u ++ (marker ++ v)) =
      u ++ (with_ ++ replaceList marker with_ n v) := by
  induction u with
  | nil =>
    obtain ⟨m, ms, rfl⟩ := List.exists_cons_of_ne_nil hmarker
    have hafter := after?_append (m :: ms) v
    rw [List.nil_append, List.cons_append, replaceList, ← List.cons_append, hafter]
    simp
  | cons a u ih =>
    have hrest : ¬marker <:+: u ++ marker.dropLast := fun hrest => h (List.infix_cons hrest)
    have hlength : (a :: u).length + n + 1 = u.length + n + 1 + 1 := by
      rw [List.length_cons]
      omega
    rw [hlength, List.cons_append, replaceList, ← List.cons_append, after?_eq_none hmarker h, ih hrest]
    rfl

/-- Replacing one character by another one is done to each character on its own. -/
lemma replaceList_singleton (hl : l.length ≤ n) :
    replaceList [a] [b] n l = l.map fun c => if a = c then b else c := by
  induction l generalizing n with
  | nil => cases n <;> rfl
  | cons c l ih =>
    obtain ⟨n, rfl⟩ : ∃ m, n = m + 1 := ⟨n - 1, by simp at hl; omega⟩
    have hrest : replaceList [a] [b] n l = l.map fun c => if a = c then b else c :=
      ih (Nat.le_of_succ_le_succ hl)
    by_cases hc : a = c
    · simp [replaceList, after?, hc, hc ▸ hrest]
    · simp [replaceList, after?, hc, hrest]

lemma toList_replace_singleton : (replace s (.singleton a) (.singleton b)).toList =
    s.toList.map fun c => if a = c then b else c := by
  rw [replace, String.toList_ofList, String.toList_singleton, String.toList_singleton,
    replaceList_singleton (Nat.le_of_eq String.length_toList)]

/-! ### Lines -/

/-- A line that does not end in a carriage return, and those after it. -/
lemma lines_append (hfeed : '\n' ∉ u) (hreturn : '\r' ∉ u) :
    lines (.ofList (u ++ '\n' :: v)) = .ofList u :: lines (.ofList v) := by
  have hpieces : pieces (· == '\n') (u ++ '\n' :: v) = u :: pieces (· == '\n') v := by
    rw [pieces_eq_splitOnP, pieces_eq_splitOnP, List.splitOnP_append_cons u v (by simp),
      List.splitOnP_eq_singleton fun c hc => by simpa using ne_of_mem_of_not_mem hc hfeed]
    rfl
  obtain ⟨q, qs, hrest⟩ : ∃ q qs, pieces (· == '\n') v = q :: qs :=
    List.exists_cons_of_ne_nil (by rw [pieces_eq_splitOnP]; exact List.splitOnP_ne_nil _ v)
  simp only [lines, String.toList_ofList, hpieces, hrest, lines.go]
  congr 2
  split
  · rename_i r hreverse
    exact absurd (List.mem_reverse.mp (hreverse ▸ List.mem_cons_self)) hreturn
  · rfl

end RepoAtlas.Text
