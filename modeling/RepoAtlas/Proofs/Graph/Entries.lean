import Mathlib.Tactic.Common
import RepoAtlas.Graph.Basic

/-!
# Sets of values by key

Adjacency and the indexes of the graph map a key to a set that is never empty. The only question that
is ever asked of them is whether a value is in the set of a key, so each operation is described by its
answer to `hasEntry`; `entries` lists exactly these values, and depends on nothing else.
-/

namespace RepoAtlas

/-! ### Sets -/

section

variable {α : Type} [Ord α] [Std.TransOrd α] [Std.LawfulEqOrd α]

lemma contains_insert_iff {s : Std.ExtTreeSet α} {a b : α} :
    (s.insert a).contains b = true ↔ b = a ∨ s.contains b = true := by
  rw [Std.ExtTreeSet.contains_insert, Bool.or_eq_true, beq_iff_eq, Std.LawfulEqCmp.compare_eq_iff_eq,
    eq_comm]

lemma contains_erase_iff {s : Std.ExtTreeSet α} {a b : α} :
    (s.erase a).contains b = true ↔ b ≠ a ∧ s.contains b = true := by
  rw [Std.ExtTreeSet.contains_erase, Bool.and_eq_true, bne_iff_ne, ne_eq,
    Std.LawfulEqCmp.compare_eq_iff_eq, eq_comm]

lemma contains_foldl_insert (l : List α) (s : Std.ExtTreeSet α) (a : α) :
    (l.foldl (·.insert ·) s).contains a = true ↔ a ∈ l ∨ s.contains a = true := by
  induction l generalizing s with
  | nil => simp
  | cons b l ih =>
    rw [List.foldl_cons, ih, contains_insert_iff, List.mem_cons]
    tauto

lemma contains_foldl_erase (l : List α) (s : Std.ExtTreeSet α) (a : α) :
    (l.foldl (·.erase ·) s).contains a = true ↔ a ∉ l ∧ s.contains a = true := by
  induction l generalizing s with
  | nil => simp
  | cons b l ih =>
    rw [List.foldl_cons, ih, contains_erase_iff, List.mem_cons]
    tauto

end

/-! ### Sets by key -/

section

variable {κ α β : Type} [Ord κ] [Std.TransOrd κ] [Ord α] [Std.TransOrd α]
  {m m' : Std.ExtTreeMap κ (Std.ExtTreeSet α)}

lemma hasEntry_of_getElem? {k : κ} {s : Std.ExtTreeSet α} (h : m[k]? = some s) (a : α) :
    hasEntry m k a = s.contains a := by
  simp only [hasEntry, h]

lemma hasEntry_of_none {k : κ} (h : m[k]? = none) (a : α) : hasEntry m k a = false := by
  simp only [hasEntry, h]

@[simp] lemma hasEntry_empty (k : κ) (a : α) :
    hasEntry (∅ : Std.ExtTreeMap κ (Std.ExtTreeSet α)) k a = false := by
  simp [hasEntry]

section

variable [Std.LawfulEqOrd κ]

@[simp] lemma hasEntry_erase (k k' : κ) (a : α) :
    hasEntry (m.erase k) k' a = true ↔ k' ≠ k ∧ hasEntry m k' a = true := by
  by_cases hk : k' = k
  · subst hk
    simp [hasEntry]
  · have hne : compare k k' ≠ .eq := fun h => hk (Std.LawfulEqCmp.eq_of_compare h).symm
    simp [hasEntry, Std.ExtTreeMap.getElem?_erase, hne, hk]

end

variable [Std.LawfulEqOrd α]

@[simp] lemma mem_entries {k : κ} {a : α} : a ∈ entries m k ↔ hasEntry m k a = true := by
  simp only [entries, hasEntry]
  cases m[k]? with
  | none => simp
  | some s => simp [Std.ExtTreeSet.mem_toList]

lemma entries_nodup (k : κ) : (entries m k).Nodup := by
  simp only [entries]
  cases m[k]? with
  | none => simp
  | some s =>
    exact s.distinct_toList.imp fun h he => h (by rw [he]; exact Std.ReflCmp.compare_self)

/-- What is listed for a key depends only on which values are in its set. -/
lemma entries_congr {k k' : κ} (h : ∀ a, hasEntry m k a = hasEntry m' k' a) :
    entries m k = entries m' k' := by
  simp only [entries, hasEntry] at h ⊢
  cases hm : m[k]? with
  | none =>
    cases hm' : m'[k']? with
    | none => rfl
    | some s =>
      simp only [hm, hm'] at h
      have : s = ∅ := Std.ExtTreeSet.eq_empty_iff_forall_contains.mpr fun a => (h a).symm
      simp [this]
  | some s =>
    cases hm' : m'[k']? with
    | none =>
      simp only [hm, hm'] at h
      have : s = ∅ := Std.ExtTreeSet.eq_empty_iff_forall_contains.mpr h
      simp [this]
    | some s' =>
      simp only [hm, hm'] at h
      rw [Std.ExtTreeSet.ext_contains h]

lemma entries_eq_nil {k : κ} : entries m k = [] ↔ ∀ a, hasEntry m k a = false := by
  rw [List.eq_nil_iff_forall_not_mem]
  simp only [mem_entries, Bool.not_eq_true]

variable [Std.LawfulEqOrd κ]

@[simp] lemma hasEntry_addEntry (k k' : κ) (a a' : α) :
    hasEntry (addEntry m k a) k' a' = true ↔ (k' = k ∧ a' = a) ∨ hasEntry m k' a' = true := by
  by_cases hk : k' = k
  · subst hk
    simp only [hasEntry, addEntry, Std.ExtTreeMap.getElem?_alter_self]
    cases m[k']? with
    | none => simp only [contains_insert_iff]; simp
    | some s => simp only [contains_insert_iff, true_and]
  · have hne : compare k k' ≠ .eq := fun h => hk (Std.LawfulEqCmp.eq_of_compare h).symm
    simp [hasEntry, addEntry, Std.ExtTreeMap.getElem?_alter, hne, hk]

@[simp] lemma hasEntry_removeEntry (k k' : κ) (a a' : α) :
    hasEntry (removeEntry m k a) k' a' = true ↔ ¬(k' = k ∧ a' = a) ∧ hasEntry m k' a' = true := by
  by_cases hk : k' = k
  · subst hk
    simp only [hasEntry, removeEntry, Std.ExtTreeMap.getElem?_alter_self]
    cases m[k']? with
    | none => simp
    | some s =>
      by_cases he : (s.erase a).isEmpty
      · -- the last value went, so whatever was in the set is the removed one
        have hnone : ¬(s.erase a).contains a' = true := by
          rw [Std.ExtTreeSet.isEmpty_iff.mp he]; simp
        rw [contains_erase_iff] at hnone
        simpa [he] using hnone
      · simp only [he, if_false, Bool.false_eq_true, true_and]
        exact contains_erase_iff
  · have hne : compare k k' ≠ .eq := fun h => hk (Std.LawfulEqCmp.eq_of_compare h).symm
    simp [hasEntry, removeEntry, Std.ExtTreeMap.getElem?_alter, hne, hk]

/-- Removing one value for each member of a list. -/
lemma hasEntry_foldl_removeEntry (f : β → κ) (v : β → α) (l : List β) (k : κ) (a : α) :
    hasEntry (l.foldl (fun m b => removeEntry m (f b) (v b)) m) k a = true ↔
      (∀ b ∈ l, ¬(k = f b ∧ a = v b)) ∧ hasEntry m k a = true := by
  induction l generalizing m with
  | nil => simp
  | cons b l ih =>
    rw [List.foldl_cons, ih, hasEntry_removeEntry]
    simp only [List.mem_cons, forall_eq_or_imp]
    tauto

end

end RepoAtlas
