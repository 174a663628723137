import Mathlib.Data.List.Sort
import RepoAtlas.Links.Imports

/-!
# The index of files

An index lists each path once, in order, with its stem. So it depends only on which paths it was made of,
and the search that halves a stretch of it finds exactly those.
-/

namespace RepoAtlas

/-! ### Lists without repetitions -/

section

variable {α : Type} [BEq α] [LawfulBEq α]

lemma mem_dropRepeats {l : List α} {a : α} : a ∈ dropRepeats l ↔ a ∈ l := by
  fun_induction dropRepeats l with
  | case1 => rfl
  | case2 => rfl
  | case3 b c l heq ih => simp [ih, eq_of_beq heq]
  | case4 b c l hne ih => simp [ih]

/-- In a sorted list equal elements stand together, so none is left twice. -/
lemma pairwise_dropRepeats {r : α → α → Prop} (hanti : ∀ a b, r a b → r b a → a = b) {l : List α}
    (h : l.Pairwise r) : (dropRepeats l).Pairwise fun a b => r a b ∧ a ≠ b := by
  fun_induction dropRepeats l with
  | case1 => exact .nil
  | case2 => exact List.pairwise_singleton ..
  | case3 a b l heq ih => exact ih h.of_cons
  | case4 a b l hne ih =>
    refine List.pairwise_cons.mpr ⟨fun c hc => ?_, ih h.of_cons⟩
    rw [mem_dropRepeats] at hc
    have hab : a ≠ b := by simpa using hne
    obtain ⟨hfirst, hrest⟩ := List.pairwise_cons.mp h
    refine ⟨hfirst c hc, fun hac => ?_⟩
    rcases List.mem_cons.mp hc with rfl | hc
    · exact hab hac
    · have hbc := (List.pairwise_cons.mp hrest).1 c hc
      exact hab (hanti a b (hfirst b (by simp)) (hac ▸ hbc))

end

namespace FileIndex

/-! ### Order -/

lemma inOrder_iff {a b : String × String} : inOrder a b = true ↔ a.1 < b.1 ∨ a.1 = b.1 ∧ a.2 ≤ b.2 := by
  simp [inOrder]

lemma inOrder_trans (a b c : String × String) (hab : inOrder a b = true) (hbc : inOrder b c = true) :
    inOrder a c = true := by
  rw [inOrder_iff] at hab hbc ⊢
  rcases hab with hab | ⟨hab, hab'⟩ <;> rcases hbc with hbc | ⟨hbc, hbc'⟩
  · exact .inl (String.lt_trans hab hbc)
  · exact .inl (hbc ▸ hab)
  · exact .inl (hab ▸ hbc)
  · exact .inr ⟨hab.trans hbc, String.le_trans hab' hbc'⟩

lemma inOrder_total (a b : String × String) : (inOrder a b || inOrder b a) = true := by
  rw [Bool.or_eq_true, inOrder_iff, inOrder_iff]
  by_cases hab : a.1 < b.1
  · exact .inl (.inl hab)
  by_cases hba : b.1 < a.1
  · exact .inr (.inl hba)
  have heq : a.1 = b.1 := String.le_antisymm (String.not_lt.mp hba) (String.not_lt.mp hab)
  exact (String.le_total a.2 b.2).imp (fun h => .inr ⟨heq, h⟩) fun h => .inr ⟨heq.symm, h⟩

lemma inOrder_antisymm (a b : String × String) (hab : inOrder a b = true) (hba : inOrder b a = true) :
    a = b := by
  rw [inOrder_iff] at hab hba
  rcases hab with hab | ⟨hab, hab'⟩ <;> rcases hba with hba | ⟨hba, hba'⟩
  · exact absurd (String.lt_trans hab hba) (String.lt_irrefl _)
  · exact absurd hab (hba ▸ String.lt_irrefl _)
  · exact absurd hba (hab ▸ String.lt_irrefl _)
  · exact Prod.ext hab (String.le_antisymm hab' hba')

/-! ### Entries -/

variable {l l' : List String}

lemma insertEntry_eq_orderedInsert (e : String × String) (l : List (String × String)) :
    insertEntry e l = l.orderedInsert (inOrder · · = true) e := by
  induction l with
  | nil => rfl
  | cons a l ih => rw [insertEntry, List.orderedInsert_cons, ih]

lemma foldr_insertEntry (l : List (String × String)) :
    l.foldr insertEntry [] = l.insertionSort (inOrder · · = true) := by
  induction l with
  | nil => rfl
  | cons e l ih => rw [List.foldr_cons, ih, insertEntry_eq_orderedInsert, List.insertionSort_cons]

lemma mem_entries {e : String × String} :
    e ∈ (ofPaths l).entries.toList ↔ e.1 ∈ l ∧ e.2 = moduleStem e.1 := by
  simp only [ofPaths, mem_dropRepeats, foldr_insertEntry, List.mem_insertionSort, List.mem_map,
    Prod.ext_iff]
  constructor
  · rintro ⟨p, hp, rfl, hstem⟩
    exact ⟨hp, hstem.symm⟩
  · rintro ⟨hp, hstem⟩
    exact ⟨e.1, hp, rfl, hstem.symm⟩

lemma pairwise_entries (l : List String) :
    (ofPaths l).entries.toList.Pairwise fun a b => inOrder a b = true ∧ a ≠ b := by
  have htotal : Std.Total (inOrder · · = true) := ⟨fun a b => by simpa using inOrder_total a b⟩
  have htrans : IsTrans _ (inOrder · · = true) := ⟨inOrder_trans⟩
  refine pairwise_dropRepeats inOrder_antisymm ?_
  rw [foldr_insertEntry]
  exact List.pairwise_insertionSort _ _

/-- The paths of an index increase: a path has one stem only. -/
lemma increasing_entries (l : List String) : (ofPaths l).entries.toList.Pairwise (·.1 < ·.1) := by
  refine (pairwise_entries l).imp_of_mem fun {a b} ha hb ⟨hle, hne⟩ => ?_
  rcases inOrder_iff.mp hle with hlt | ⟨heq, -⟩
  · exact hlt
  · exact absurd (Prod.ext heq (by rw [(mem_entries.mp ha).2, (mem_entries.mp hb).2, heq])) hne

/-- An index depends only on which paths it holds. -/
lemma ofPaths_congr (h : ∀ p, p ∈ l ↔ p ∈ l') : ofPaths l = ofPaths l' := by
  have hnodup : ∀ k, (ofPaths k).entries.toList.Nodup := fun k => (pairwise_entries k).imp And.right
  have hperm : (ofPaths l).entries.toList.Perm (ofPaths l').entries.toList :=
    (List.perm_ext_iff_of_nodup (hnodup l) (hnodup l')).mpr fun e => by rw [mem_entries, mem_entries, h]
  have heq := hperm.eq_of_pairwise (fun a b _ _ hab hba => inOrder_antisymm a b hab.1 hba.1)
    (pairwise_entries l) (pairwise_entries l')
  exact congrArg FileIndex.mk (Array.toList_inj.mp heq)

lemma mem_pathsWhere {p : String → Bool} {q : String} :
    q ∈ (ofPaths l).pathsWhere p ↔ q ∈ l ∧ p (moduleStem q) = true := by
  simp only [pathsWhere, List.mem_map, List.mem_filter, mem_entries]
  constructor
  · rintro ⟨e, ⟨⟨hmem, hstem⟩, hp⟩, rfl⟩
    exact ⟨hmem, hstem ▸ hp⟩
  · rintro ⟨hmem, hp⟩
    exact ⟨(q, moduleStem q), by simp only [hmem, hp, and_self]⟩

/-! ### Search -/

/-- Halving a stretch of increasing paths loses none: what is smaller than the middle lies before it, and
what is larger after it. -/
lemma search_iff {entries : Array (String × String)} (hsorted : entries.toList.Pairwise (·.1 < ·.1))
    {path : String} {low high : Nat} (hhigh : high ≤ entries.size) :
    search entries path low high hhigh = true ↔
      ∃ k, ∃ h : k < entries.size, low ≤ k ∧ k < high ∧ entries[k].1 = path := by
  have hlt : ∀ i j (hi : i < entries.size) (hj : j < entries.size), i < j →
      entries[i].1 < entries[j].1 := by
    intro i j hi hj hij
    exact List.pairwise_iff_getElem.mp hsorted i j (by simpa using hi) (by simpa using hj) hij
  fun_induction search entries path low high hhigh with
  | case1 low high hhigh h middle hmiddle hless ih =>
    refine Iff.trans ih ⟨?_, ?_⟩
    · rintro ⟨k, hk, hmk, hkh, heq⟩
      exact ⟨k, hk, by omega, hkh, heq⟩
    · rintro ⟨k, hk, hlk, hkh, rfl⟩
      refine ⟨k, hk, Nat.lt_of_not_le fun hkm => ?_, hkh, rfl⟩
      rcases Nat.lt_or_eq_of_le hkm with hkm | rfl
      · exact String.lt_asymm hless (hlt k middle hk hmiddle hkm)
      · exact String.lt_irrefl _ hless
  | case2 low high hhigh h middle hmiddle hnot hless ih =>
    refine Iff.trans ih ⟨?_, ?_⟩
    · rintro ⟨k, hk, hlk, hkm, heq⟩
      exact ⟨k, hk, hlk, by omega, heq⟩
    · rintro ⟨k, hk, hlk, hkh, rfl⟩
      refine ⟨k, hk, hlk, Nat.lt_of_not_le fun hmk => ?_, rfl⟩
      rcases Nat.lt_or_eq_of_le hmk with hmk | heq
      · exact hnot (hlt middle k hmiddle hk hmk)
      · subst heq
        exact String.lt_irrefl _ hless
  | case3 low high hhigh h middle hmiddle hnot hnot' =>
    have heq : entries[middle].1 = path := String.le_antisymm (String.not_lt.mp hnot') (String.not_lt.mp hnot)
    exact iff_of_true rfl ⟨middle, hmiddle, by omega, by omega, heq⟩
  | case4 low high hhigh h =>
    refine iff_of_false (by simp) ?_
    rintro ⟨k, -, hlk, hkh, -⟩
    exact h (by omega)

lemma contains_ofPaths {q : String} : (ofPaths l).contains q = true ↔ q ∈ l := by
  rw [contains, search_iff (increasing_entries l)]
  constructor
  · rintro ⟨k, hk, -, -, rfl⟩
    exact (mem_entries.mp (Array.getElem_mem_toList hk)).1
  · intro hq
    have hentry : (q, moduleStem q) ∈ (ofPaths l).entries.toList := by simp only [mem_entries, hq, and_self]
    obtain ⟨k, hk, heq⟩ := List.getElem_of_mem hentry
    have hsize : k < (ofPaths l).entries.size := by simpa using hk
    refine ⟨k, hsize, Nat.zero_le k, hsize, ?_⟩
    rw [← Array.getElem_toList, heq]

end FileIndex

end RepoAtlas
