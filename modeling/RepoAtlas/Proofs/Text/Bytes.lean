import Mathlib.Data.List.Basic
import Mathlib.Tactic.Common
import RepoAtlas.Text.Utf8

/-!
# The bytes of a text

The bytes of a text are those of its characters, and are read back as the text. The first byte of a
character tells how many bytes it takes, and the bytes after it are the digits of its number, so texts are
ordered as their bytes are.
-/

namespace RepoAtlas.Text

lemma toList_loop (a : ByteArray) (i : Nat) (r : List UInt8) :
    ByteArray.toList.loop a i r = r.reverse ++ a.data.toList.drop i := by
  fun_induction ByteArray.toList.loop a i r with
  | case1 i r h ih =>
    have hi : i < a.data.toList.length := h
    have hget : a.get! i = a.data.toList[i] := by
      cases a
      simp only [ByteArray.get!]
      grind
    rw [ih, List.drop_eq_getElem_cons hi, hget, List.reverse_cons, List.append_assoc,
      List.singleton_append]
  | case2 i r h => rw [List.drop_eq_nil_of_le (Nat.le_of_not_lt h), List.append_nil]

/-- The bytes of a text in its own array. -/
lemma bytes_eq_data (s : String) : bytes s = s.toByteArray.data.toList := by
  simp [bytes, ByteArray.toList, toList_loop]

/-- The bytes of a text are read back as the text. -/
lemma ofBytes?_bytes (s : String) : ofBytes? (bytes s) = some s := by
  have harray : (⟨(bytes s).toArray⟩ : ByteArray) = s.toByteArray := by
    rw [bytes_eq_data]
  have hvalid := s.isValidUTF8
  rw [ofBytes?, harray, String.fromUTF8?, dif_pos hvalid]
  rfl

lemma length_bytes (s : String) : (bytes s).length = s.utf8ByteSize := by
  rw [bytes_eq_data, Array.length_toList]
  rfl

lemma bytes_eq_flatMap (s : String) : bytes s = s.toList.flatMap String.utf8EncodeChar := by
  rw [bytes_eq_data, ← String.utf8Encode_toList, List.utf8Encode]
  simp

/-! ### Order -/

/-- The bytes of lists that begin with numbers below 256. -/
lemma ofNat_cons_lt {m n : Nat} {x y : List UInt8} (hm : m < 256) (hn : n < 256)
    (h : m < n ∨ m = n ∧ x < y) : UInt8.ofNat m :: x < UInt8.ofNat n :: y := by
  rw [List.cons_lt_cons_iff, UInt8.lt_iff_toNat_lt, ← UInt8.toNat_inj, UInt8.toNat_ofNat',
    UInt8.toNat_ofNat', Nat.mod_eq_of_lt hm, Nat.mod_eq_of_lt hn]
  exact h

/-- Characters are told apart by their bytes in the order of their numbers, whatever follows. -/
lemma utf8EncodeChar_append_lt {c d : Char} (h : c < d) (x y : List UInt8) :
    String.utf8EncodeChar c ++ x < String.utf8EncodeChar d ++ y := by
  have hlt : c.val.toNat < d.val.toNat := h
  have hd : d.val.toNat < 0x110000 := by
    rcases d.valid with hd | ⟨-, hd⟩
    · exact Nat.lt_trans hd (by decide)
    · exact hd
  generalize hv : c.val.toNat = v at hlt
  generalize hw : d.val.toNat = w at hlt hd
  -- the first digit at which the numbers differ, from the last one on
  have hlast : v / 64 < w / 64 ∨ v / 64 = w / 64 ∧ v % 64 < w % 64 := by omega
  have hmiddle : v / 64 < w / 64 →
      v / 4096 < w / 4096 ∨ v / 4096 = w / 4096 ∧ v / 64 % 64 < w / 64 % 64 := by omega
  have hfirst : v / 4096 < w / 4096 →
      v / 262144 < w / 262144 ∨ v / 262144 = w / 262144 ∧ v / 4096 % 64 < w / 4096 % 64 := by omega
  simp only [String.utf8EncodeChar, hv, hw]
  split_ifs
  all_goals try omega
  all_goals simp only [List.cons_append, List.nil_append]
  all_goals refine ofNat_cons_lt (by omega) (by omega) ?_
  -- characters of different lengths differ in the first byte
  all_goals try exact .inl (by omega)
  · rcases hlast with hlast | ⟨heq, hlast⟩
    · exact .inl (by omega)
    · exact .inr ⟨by omega, ofNat_cons_lt (by omega) (by omega) (.inl (by omega))⟩
  · rcases hlast with hlast | ⟨heq, hlast⟩
    · rcases hmiddle hlast with hmiddle | ⟨heq, hmiddle⟩
      · exact .inl (by omega)
      · exact .inr ⟨by omega, ofNat_cons_lt (by omega) (by omega) (.inl (by omega))⟩
    · refine .inr ⟨by omega, ofNat_cons_lt (by omega) (by omega) (.inr ⟨by omega, ?_⟩)⟩
      exact ofNat_cons_lt (by omega) (by omega) (.inl (by omega))
  · rcases hlast with hlast | ⟨heq, hlast⟩
    · rcases hmiddle hlast with hmiddle | ⟨heq, hmiddle⟩
      · rcases hfirst hmiddle with hfirst | ⟨heq, hfirst⟩
        · exact .inl (by omega)
        · exact .inr ⟨by omega, ofNat_cons_lt (by omega) (by omega) (.inl (by omega))⟩
      · refine .inr ⟨by omega, ofNat_cons_lt (by omega) (by omega) (.inr ⟨by omega, ?_⟩)⟩
        exact ofNat_cons_lt (by omega) (by omega) (.inl (by omega))
    · refine .inr ⟨by omega, ofNat_cons_lt (by omega) (by omega) (.inr ⟨by omega, ?_⟩)⟩
      refine ofNat_cons_lt (by omega) (by omega) (.inr ⟨by omega, ?_⟩)
      exact ofNat_cons_lt (by omega) (by omega) (.inl (by omega))

/-- Texts are ordered as their bytes. -/
lemma bytes_lt_iff {s t : String} : bytes s < bytes t ↔ s < t := by
  have hmono : ∀ l k : List Char, l < k →
      l.flatMap String.utf8EncodeChar < k.flatMap String.utf8EncodeChar := by
    intro l
    induction l with
    | nil =>
      intro k hk
      cases k with
      | nil => exact absurd hk (List.not_lt_nil _)
      | cons d k =>
        rw [List.flatMap_nil, List.flatMap_cons]
        cases hd : String.utf8EncodeChar d with
        | nil => exact absurd hd String.utf8EncodeChar_ne_nil
        | cons b bs => exact List.nil_lt_cons _ _
    | cons c l ih =>
      intro k hk
      cases k with
      | nil => exact absurd hk (List.not_lt_nil _)
      | cons d k =>
        rw [List.flatMap_cons, List.flatMap_cons]
        rcases List.cons_lt_cons_iff.mp hk with hcd | ⟨rfl, hlk⟩
        · exact utf8EncodeChar_append_lt hcd _ _
        · exact List.append_left_lt (ih k hlk)
  rw [bytes_eq_flatMap, bytes_eq_flatMap]
  change _ ↔ s.toList < t.toList
  refine ⟨fun h => ?_, hmono _ _⟩
  rcases Std.lt_trichotomy s.toList t.toList with hst | hst | hts
  · exact hst
  · rw [hst] at h
    exact absurd h (List.lt_irrefl _)
  · exact absurd h (List.lt_asymm (hmono _ _ hts))

end RepoAtlas.Text
