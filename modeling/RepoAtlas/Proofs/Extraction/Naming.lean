import Mathlib.Tactic.Common
import Mathlib.Data.List.Nodup
import RepoAtlas.Extraction.Registry
import RepoAtlas.Graph.Node

/-!
# The names of the units of a file

A walk names a definition by the scopes around it, and numbers the ones that share such a name from the
second on. So the names of a file are distinct, unless a definition has a name that looks numbered itself.
-/

namespace RepoAtlas

open Syntax

/-- What stands before the first occurrence of a separator. -/
lemma eq_of_append_cons_eq {α : Type} [DecidableEq α] {c : α} {a b x y : List α} (ha : c ∉ a) (hb : c ∉ b)
    (h : a ++ c :: x = b ++ c :: y) : a = b := by
  have htake : ∀ l z : List α, c ∉ l → (l ++ c :: z).takeWhile (· ≠ c) = l := by
    intro l z hl
    rw [List.takeWhile_append_of_pos (by intro d hd; simp; rintro rfl; exact hl hd)]
    simp
  rw [← htake a x ha, h, htake b y hb]

/-- The id of a unit tells its path, if no path has a colon. -/
lemma CodeUnit.eq_of_identity_eq {p q n m : String} (hp : ':' ∉ p.toList) (hq : ':' ∉ q.toList)
    (h : CodeUnit.identity p n = CodeUnit.identity q m) : p = q := by
  have hlist := congrArg String.toList h
  simp only [CodeUnit.identity, String.toList_append, List.append_assoc] at hlist
  exact String.toList_inj.mp (eq_of_append_cons_eq hp hq hlist)

/-! ### Numbered names -/

/-- A name ends in a hash and digits. -/
def LooksNumbered (s : String) : Prop :=
  ∃ before digits, s.toList = before ++ '#' :: digits ∧ digits ≠ [] ∧ ∀ c ∈ digits, c.isDigit = true

lemma hash_notMem_toDigits (n : Nat) : '#' ∉ Nat.toDigits 10 n := by
  intro h
  exact absurd (Nat.isDigit_of_mem_toDigits (by decide) (by decide) h) (by decide)

lemma toList_numbered {q : String} {n : Nat} (h : 1 < n) :
    (numbered q n).toList = q.toList ++ '#' :: Nat.toDigits 10 n := by
  have hn : ¬n ≤ 1 := by omega
  simp only [numbered, hn, if_false, String.toList_append, Nat.toString_eq_ofList_toDigits,
    String.toList_ofList, List.append_assoc]
  rfl

lemma looksNumbered_numbered {q : String} {n : Nat} (h : 1 < n) : LooksNumbered (numbered q n) :=
  ⟨_, _, toList_numbered h, Nat.toDigits_ne_nil,
    fun _ hc => Nat.isDigit_of_mem_toDigits (by decide) (by decide) hc⟩

/-- The number of a name can be read off, unless the name looks numbered without it. -/
lemma numbered_inj {q r : String} {n m : Nat} (hq : ¬LooksNumbered q) (hr : ¬LooksNumbered r) (hn : 0 < n)
    (hm : 0 < m) (h : numbered q n = numbered r m) : q = r ∧ n = m := by
  by_cases hn' : 1 < n <;> by_cases hm' : 1 < m
  · have hlist := congrArg (fun s => s.toList.reverse) h
    simp only [toList_numbered hn', toList_numbered hm', List.reverse_append, List.reverse_cons,
      List.append_assoc, List.singleton_append] at hlist
    have hdigits : (Nat.toDigits 10 n).reverse = (Nat.toDigits 10 m).reverse :=
      eq_of_append_cons_eq (by simp [hash_notMem_toDigits]) (by simp [hash_notMem_toDigits]) hlist
    rw [hdigits, List.append_cancel_left_eq, List.cons.injEq] at hlist
    refine ⟨String.toList_inj.mp (List.reverse_inj.mp hlist.2), ?_⟩
    have hvalue := congrArg (fun ds => Nat.ofDigitChars 10 ds 0) (List.reverse_inj.mp hdigits)
    simpa using hvalue
  · have hone : numbered r m = r := by simp only [numbered]; rw [if_pos (by omega)]
    exact absurd (hone ▸ h ▸ looksNumbered_numbered hn') hr
  · have hone : numbered q n = q := by simp only [numbered]; rw [if_pos (by omega)]
    exact absurd (hone ▸ h ▸ looksNumbered_numbered hm') hq
  · refine ⟨?_, by omega⟩
    simp only [numbered] at h
    rwa [if_pos (by omega), if_pos (by omega)] at h

/-- A name after a point looks numbered if the whole does. -/
lemma looksNumbered_of_join {l : List String} {name : String}
    (h : LooksNumbered (Text.join "." (l ++ [name]))) : LooksNumbered name := by
  cases l with
  | nil => simpa [Text.join] using h
  | cons a l =>
    obtain ⟨before, digits, heq, hne, hdigits⟩ := h
    simp only [Text.join, String.intercalate_append_of_ne_nil (List.cons_ne_nil a l)
      (List.cons_ne_nil name []), String.intercalate_singleton, String.toList_append,
      List.append_assoc] at heq
    rcases List.append_eq_append_iff.mp heq with ⟨as, -, hrest⟩ | ⟨bs, -, hrest⟩
    · cases as with
      | nil => simp at hrest
      | cons c as =>
        have hname : name.toList = as ++ '#' :: digits := by
          simp at hrest
          exact hrest.2
        exact ⟨as, digits, hname, hne, hdigits⟩
    · -- the point would be one of the digits
      cases bs with
      | nil => simp at hrest
      | cons c bs =>
        have hpoint : '.' ∈ digits := by
          simp at hrest
          rw [hrest.2]
          simp
        exact absurd (hdigits _ hpoint) (by decide)

/-! ### Walks -/

/-- Definitions with the names that they have before they are numbered, the latest first. -/
inductive Numbers : List String → List Definition → Prop
  | nil : Numbers [] []
  | cons {seen : List String} {defs : List Definition} {d : Definition} {q : String} :
      Numbers seen defs → (LooksNumbered q → LooksNumbered d.name) →
      d.qualifiedName = numbered q (seen.count q + 1) → Numbers (q :: seen) (d :: defs)

/-- Each name is that of one of the definitions so far, with its number. -/
lemma Numbers.exists_base {seen : List String} {defs : List Definition} (h : Numbers seen defs)
    (hplain : ∀ d ∈ defs, ¬LooksNumbered d.name) {d : Definition} (hd : d ∈ defs) :
    ∃ q n, ¬LooksNumbered q ∧ 0 < n ∧ n ≤ seen.count q ∧ d.qualifiedName = numbered q n := by
  induction h with
  | nil => cases hd
  | @cons seen defs d' q _ hbase hname ih =>
    rcases List.mem_cons.mp hd with rfl | hd
    · refine ⟨q, _, fun hq => hplain d (by simp) (hbase hq), by omega, ?_, hname⟩
      simp
    · obtain ⟨r, n, hr, hn, hle, hd⟩ := ih (fun d hd => hplain d (by simp [hd])) hd
      exact ⟨r, n, hr, hn, Nat.le_trans hle List.count_le_count_cons, hd⟩

lemma Numbers.nodup {seen : List String} {defs : List Definition} (h : Numbers seen defs)
    (hplain : ∀ d ∈ defs, ¬LooksNumbered d.name) : (defs.map (·.qualifiedName)).Nodup := by
  induction h with
  | nil => simp
  | @cons seen defs d q hn hbase hname ih =>
    have hplain' : ∀ d ∈ defs, ¬LooksNumbered d.name := fun d hd => hplain d (by simp [hd])
    refine List.nodup_cons.mpr ⟨?_, ih hplain'⟩
    intro hmem
    obtain ⟨e, he, heq⟩ := List.mem_map.mp hmem
    obtain ⟨r, n, hr, hpos, hle, hname'⟩ := hn.exists_base hplain' he
    have hq : ¬LooksNumbered q := fun hq => hplain d (by simp) (hbase hq)
    have hsame : numbered r n = numbered q (seen.count q + 1) := by rw [← hname', heq, ← hname]
    obtain ⟨rfl, hn⟩ := numbered_inj hr hq hpos (by omega) hsame
    omega

namespace WalkState

variable {lang : Classifier} {src : Source} {site : Site} {s : WalkState}

lemma numbers_define (h : Numbers s.seen s.definitions) (d : DefinitionMatch) :
    Numbers (s.define lang src site d).seen (s.define lang src site d).definitions := by
  simp only [define]
  split
  · exact h
  · exact h.cons looksNumbered_of_join rfl

lemma numbers_enter (h : Numbers s.seen s.definitions) :
    Numbers (s.enter lang src site).seen (s.enter lang src site).definitions := by
  simp only [enter]
  split
  · exact h
  · -- the imports and the call of a node leave the names alone
    split
    · refine numbers_define ?_ _
      split <;> exact h
    · split <;> exact h

lemma numbers_leave (h : Numbers s.seen s.definitions) (path : List Nat) :
    Numbers (s.leave path).seen (s.leave path).definitions := by
  simp only [leave]
  split
  · split <;> exact h
  · exact h

end WalkState

lemma numbers_performAll (lang : Classifier) (src : Source) (n : Nat) :
    ∀ (step : Option WalkStep) (s : WalkState), Numbers s.seen s.definitions →
      Numbers (performAll lang src n step s).seen (performAll lang src n step s).definitions := by
  induction n with
  | zero => exact fun _ _ h => h
  | succ n ih =>
    intro step s h
    match step with
    | none => exact h
    | some (.enter c) => exact ih _ _ (WalkState.numbers_enter h)
    | some (.leave c) => exact ih _ _ (WalkState.numbers_leave h c.site.path)

/-- The units of a text have distinct names, unless a definition's own name looks numbered. -/
theorem Registry.nodup_qualifiedNames {r : Registry} {text language : String} {x : Extraction}
    (h : r.extract? text language = some x) (hplain : ∀ d ∈ x.definitions, ¬LooksNumbered d.name) :
    (x.definitions.map (·.qualifiedName)).Nodup := by
  simp only [extract?, Option.bind_eq_bind, Option.bind_eq_some_iff] at h
  obtain ⟨l, -, h⟩ := h
  cases h
  have hwalk := numbers_performAll l.classifier (.ofText text) (2 * (l.parse text).size)
    (some (.enter (.root (l.parse text)))) {} .nil
  have hnodup := hwalk.nodup fun d hd => hplain d (List.mem_reverse.mpr hd)
  simp only [extractTree, List.map_reverse, List.nodup_reverse]
  exact hnodup

end RepoAtlas
