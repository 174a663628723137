import Mathlib.Data.List.Basic
import Mathlib.Tactic.Common
import RepoAtlas.Json.Parser
import RepoAtlas.Json.Printer

/-!
# Documents that are read back

A document is read back from the line that it is printed on if its numbers are whole ones of 64 bits, the names
in each of its objects differ, and it is not nested too deeply. The reader takes one character or one escape of a
text at a time, and what follows a number cannot be mistaken for a part of it.
-/

namespace RepoAtlas.Json

/-! ### Texts -/

/-- The characters inside a quoted text. -/
def escaped (l : List Char) : List Char := l.flatMap fun c => (escapeChar c).toList

lemma toList_quote (s : String) : (quote s).toList = '"' :: (escaped s.toList ++ ['"']) := by
  have hfold : ∀ (l : List Char) (out : String),
      (l.foldl (fun out c => out ++ escapeChar c) out).toList = out.toList ++ escaped l := by
    intro l
    induction l with
    | nil => simp [escaped]
    | cons c l ih =>
      intro out
      rw [List.foldl_cons, ih, String.toList_append, escaped, escaped, List.flatMap_cons, List.append_assoc]
  rw [quote, String.toList_append, String.toList_append, hfold]
  rfl

/-- The number of a control character is written with four digits. -/
lemma hexOfNat_digits : ∀ n < 32, ∃ a b, (Text.hexOfNat 4 n).toList = ['0', '0', a, b] ∧
    ['0', '0', a, b].foldlM (fun n x => (Text.hexValue? x).map (16 * n + ·)) 0 = some n := by
  intro n hn
  refine ⟨Text.hexDigit (n / 16), Text.hexDigit (n % 16), ?_⟩
  revert n
  decide

/-- A control character is read back from its number. -/
lemma escape?_hexOfNat {n : Nat} (hn : n < 32) (rest : List Char) :
    escape? ('u' :: ((Text.hexOfNat 4 n).toList ++ rest)) = some (.ofNat n, rest) := by
  obtain ⟨a, b, hdigits, hvalue⟩ := hexOfNat_digits n hn
  have hhex : hex4? ((Text.hexOfNat 4 n).toList ++ rest) = some (n, rest) := by
    rw [hdigits]
    simp only [List.cons_append, List.nil_append, hex4?, hvalue]
    rfl
  have hlow : (0xDC00 ≤ n && n ≤ 0xDFFF) = false := by simp; omega
  have hhigh : (0xD800 ≤ n && n ≤ 0xDBFF) = false := by simp; omega
  simp only [escape?, hhex, Option.bind_eq_bind, Option.bind_some, hlow, hhigh, Bool.false_eq_true, if_false]
  rfl

/-- One character of a text is read at a time. -/
lemma stringTail?_escapeChar (n : Nat) (out : List Char) (c : Char) (rest : List Char) :
    stringTail? (n + 1) out ((escapeChar c).toList ++ rest) = stringTail? n (c :: out) rest := by
  have hescape : ∀ {d : Char} {l : List Char}, escape? (l ++ rest) = some (d, rest) →
      stringTail? (n + 1) out ('\\' :: l ++ rest) = stringTail? n (d :: out) rest := by
    intro d l h
    simp [stringTail?, h]
  simp only [escapeChar, beq_iff_eq]
  split
  · rename_i hc
    exact hc ▸ hescape (l := ['"']) rfl
  split
  · rename_i hc
    exact hc ▸ hescape (l := ['\\']) rfl
  split
  · rename_i hc
    exact hc ▸ hescape (l := ['n']) rfl
  split
  · rename_i hc
    exact hc ▸ hescape (l := ['r']) rfl
  split
  · rename_i hc
    exact hc ▸ hescape (l := ['t']) rfl
  split
  · rename_i hc
    rw [← Char.ofNat_toNat c, hc]
    exact hescape (l := ['b']) rfl
  split
  · rename_i hc
    rw [← Char.ofNat_toNat c, hc]
    exact hescape (l := ['f']) rfl
  split
  · rename_i hc
    have h := hescape (d := .ofNat c.toNat) (l := 'u' :: (Text.hexOfNat 4 c.toNat).toList) (escape?_hexOfNat hc rest)
    rw [Char.ofNat_toNat] at h
    rw [String.toList_append]
    exact h
  · rename_i hquote hback _ _ _ _ _ hlow
    simp [stringTail?, hquote, hback, hlow]

/-- A text is read up to its closing quote. -/
lemma stringTail?_escaped {l : List Char} {n : Nat} (hn : l.length < n) (out rest : List Char) :
    stringTail? n out (escaped l ++ '"' :: rest) = some (.ofList (out.reverse ++ l), rest) := by
  induction l generalizing n out with
  | nil =>
    obtain ⟨n, rfl⟩ : ∃ k, n = k + 1 := ⟨n - 1, by simp at hn; omega⟩
    simp [escaped, stringTail?]
  | cons c l ih =>
    obtain ⟨n, rfl⟩ : ∃ k, n = k + 1 := ⟨n - 1, by simp at hn; omega⟩
    rw [escaped, List.flatMap_cons, List.append_assoc, stringTail?_escapeChar]
    change stringTail? n (c :: out) (escaped l ++ '"' :: rest) = _
    rw [ih (by simpa using hn)]
    simp

lemma length_le_escaped (l : List Char) : l.length ≤ (escaped l).length := by
  induction l with
  | nil => simp
  | cons c l ih =>
    have hc : (escapeChar c).toList ≠ [] := by
      intro he
      -- a text of a character that left no trace would be read as the empty text
      have hread := stringTail?_escapeChar 1 [] c ['"']
      simp [he, stringTail?] at hread
    have hc := List.length_pos_iff.mpr hc
    rw [escaped, List.flatMap_cons, List.length_append, List.length_cons]
    change l.length + 1 ≤ _ + (escaped l).length
    omega

/-- The reader has enough fuel for a text. -/
lemma stringTail?_quoted (s : String) (rest : List Char) :
    stringTail? ((escaped s.toList ++ '"' :: rest).length + 1) [] (escaped s.toList ++ '"' :: rest) =
      some (s, rest) := by
  have hle := length_le_escaped s.toList
  rw [stringTail?_escaped (by rw [List.length_append]; omega)]
  simp

/-! ### Numbers -/

/-- What follows a value cannot be taken for a part of it. -/
def Follows (rest : List Char) : Prop := ∀ c ∈ rest.head?, c = ',' ∨ c = ']' ∨ c = '\x7d'

lemma Follows.nil : Follows [] := by simp [Follows]

lemma Follows.comma (rest : List Char) : Follows (',' :: rest) := by simp [Follows]

lemma Follows.bracket (rest : List Char) : Follows (']' :: rest) := by simp [Follows]

lemma Follows.brace (rest : List Char) : Follows ('\x7d' :: rest) := by simp [Follows]

lemma isDigit_of_mem_toDigits {n : Nat} {c : Char} (h : c ∈ Nat.toDigits 10 n) : c.isDigit = true :=
  Nat.isDigit_of_mem_toDigits (by decide) (by decide) h

/-- A number above zero does not begin with a zero. -/
lemma head?_toDigits {n : Nat} (hn : 0 < n) : (Nat.toDigits 10 n).head? ≠ some '0' := by
  induction n using Nat.strongRecOn with
  | ind n ih =>
    rcases Nat.lt_or_ge n 10 with hlt | hle
    · have hdigit : ∀ n < 10, 0 < n → [Nat.digitChar n].head? ≠ some '0' := by decide
      rw [Nat.toDigits_of_lt_base hlt]
      exact hdigit n hlt hn
    · rw [Nat.toDigits_of_base_le (by decide) hle, List.head?_append_of_ne_nil _ Nat.toDigits_ne_nil]
      exact ih (n / 10) (by omega) (by omega)

/-- The digits of a number end where no digit follows. -/
lemma takeWhile_toDigits {rest : List Char} (hrest : Follows rest) (n : Nat) :
    (Nat.toDigits 10 n ++ rest).takeWhile Char.isDigit = Nat.toDigits 10 n ∧
      (Nat.toDigits 10 n ++ rest).dropWhile Char.isDigit = rest := by
  have hdigits : ∀ c ∈ Nat.toDigits 10 n, c.isDigit = true := fun c hc => isDigit_of_mem_toDigits hc
  rw [List.takeWhile_append_of_pos hdigits, List.dropWhile_append_of_pos hdigits]
  cases rest with
  | nil => simp
  | cons c rest => rcases hrest c rfl with rfl | rfl | rfl <;> simp [Char.isDigit]

/-- The digits of a number have no zero before them. -/
lemma toDigits_leads (n : Nat) : ((Nat.toDigits 10 n).isEmpty ||
    ((Nat.toDigits 10 n).length != 1 && (Nat.toDigits 10 n).head? == some '0')) = false := by
  rcases Nat.eq_zero_or_pos n with rfl | hn
  · rfl
  · simp [head?_toDigits hn]

lemma natOfDigits_toDigits (n : Nat) : natOfDigits (Nat.toDigits 10 n) = n :=
  Nat.ofDigitChars_eq_foldl.symm.trans (Nat.ofDigitChars_toDigits (by decide) (by decide))

/-- The digits of a number are not none. -/
lemma exists_toDigits_cons (n : Nat) : ∃ d ds, Nat.toDigits 10 n = d :: ds ∧ d.isDigit = true := by
  obtain ⟨d, ds, hd⟩ := List.exists_cons_of_ne_nil (Nat.toDigits_ne_nil (b := 10) (n := n))
  exact ⟨d, ds, hd, isDigit_of_mem_toDigits (n := n) (by simp [hd])⟩

/-- Only a number with a sign begins with one. -/
lemma toDigits_append_ne_dash (n : Nat) (rest r : List Char) : Nat.toDigits 10 n ++ rest ≠ '-' :: r := by
  obtain ⟨d, ds, hd, hdigit⟩ := exists_toDigits_cons n
  rw [hd, List.cons_append]
  intro h
  rw [(List.cons.inj h).1] at hdigit
  cases hdigit

/-- A whole number of 64 bits is read back. -/
lemma number?_toString {rest : List Char} (hrest : Follows rest) {n : Int} (hlow : Int64.minValue.toInt ≤ n)
    (hhigh : n < UInt64.size) : number? ((toString n).toList ++ rest) = some (.int n, rest) := by
  cases n with
  | ofNat n =>
    have hlist : (toString (Int.ofNat n)).toList = Nat.toDigits 10 n := Nat.toList_repr
    have hn : n < 18446744073709551616 := Int.ofNat_lt.mp hhigh
    obtain ⟨htake, hdrop⟩ := takeWhile_toDigits hrest n
    rw [hlist, number?]
    · simp only [htake, hdrop, toDigits_leads, natOfDigits_toDigits]
      -- neither a fraction nor an exponent follows
      cases rest with
      | nil => simp [hn]
      | cons c rest => rcases hrest c rfl with rfl | rfl | rfl <;> simp [hn]
    · exact toDigits_append_ne_dash n rest
  | negSucc n =>
    have hlist : (toString (Int.negSucc n)).toList = '-' :: Nat.toDigits 10 (n + 1) := by
      rw [show toString (Int.negSucc n) = "-" ++ Nat.repr (n + 1) from rfl, String.toList_append, Nat.toList_repr]
      rfl
    rw [show Int64.minValue.toInt = -9223372036854775808 from rfl] at hlow
    obtain ⟨htake, hdrop⟩ := takeWhile_toDigits hrest (n + 1)
    simp only [hlist, number?, List.cons_append, htake, hdrop, toDigits_leads, natOfDigits_toDigits]
    cases rest with
    | nil =>
      simp [Int.negSucc_eq]
      omega
    | cons c rest =>
      rcases hrest c rfl with rfl | rfl | rfl <;>
      · simp [Int.negSucc_eq]
        omega

/-- A whole number begins with its sign or with a digit. -/
lemma exists_toString_cons (n : Int) : ∃ c r, (toString n).toList = c :: r ∧ (c = '-' ∨ c.isDigit = true) := by
  cases n with
  | ofNat n =>
    obtain ⟨d, ds, hd, hdigit⟩ := exists_toDigits_cons n
    exact ⟨d, ds, (Nat.toList_repr (n := n)).trans hd, Or.inr hdigit⟩
  | negSucc n => exact ⟨'-', _, String.toList_append, Or.inl rfl⟩

/-- A character that a number begins with begins nothing else. -/
lemma begins_number {c : Char} (h : c = '-' ∨ c.isDigit = true) : isSpace c = false ∧ c ≠ ']' ∧ c ≠ '\x7d' ∧
    c ≠ 'n' ∧ c ≠ 't' ∧ c ≠ 'f' ∧ c ≠ '"' ∧ c ≠ '[' ∧ c ≠ '\x7b' := by
  rcases h with rfl | h
  · decide
  · refine ⟨?_, ?_, ?_, ?_, ?_, ?_, ?_, ?_, ?_⟩
    · rw [← Bool.not_eq_true]
      intro hspace
      simp only [isSpace, Bool.or_eq_true, beq_iff_eq] at hspace
      rcases hspace with ((rfl | rfl) | rfl) | rfl <;> cases h
    all_goals
      rintro rfl
      cases h

lemma value?_toString (fuel depth : Nat) (n : Int) (rest : List Char) :
    value? (fuel + 1) depth ((toString n).toList ++ rest) = number? ((toString n).toList ++ rest) := by
  obtain ⟨c, r, hlist, hc⟩ := exists_toString_cons n
  obtain ⟨hspace, -, -, hn, ht, hf, hquote, hbracket, hbrace⟩ := begins_number hc
  have hskip : skipSpace (c :: (r ++ rest)) = c :: (r ++ rest) := by simp [skipSpace, hspace]
  rw [hlist, List.cons_append, value?, hskip]
  split <;> simp_all

/-! ### Documents -/

mutual
/-- Whether a document is read back inside at most `depth` levels. -/
def isExact : Nat → Json → Bool
  | _, .null | _, .bool _ | _, .str _ => true
  | _, .int n => Int64.minValue.toInt ≤ n && n < UInt64.size
  | _, .float _ | _, .single _ => false
  | 0, .arr _ | 0, .obj _ => false
  | depth + 1, .arr l => areExact depth l
  | depth + 1, .obj l => decide (l.map (·.1)).Nodup && fieldsExact depth l

def areExact : Nat → List Json → Bool
  | _, [] => true
  | depth, j :: l => isExact depth j && areExact depth l

def fieldsExact : Nat → List (String × Json) → Bool
  | _, [] => true
  | depth, (_, j) :: l => isExact depth j && fieldsExact depth l
end

/-- The characters between the brackets of an array. -/
def itemsText (l : List Json) : List Char := [','].intercalate ((compactItems l).map String.toList)

/-- The characters between the braces of an object. -/
def fieldsText (l : List (String × Json)) : List Char := [','].intercalate ((compactFields l).map String.toList)

lemma toList_compact_arr (l : List Json) : (compact (.arr l)).toList = '[' :: (itemsText l ++ [']']) := by
  rw [compact, String.toList_append, String.toList_append, String.toList_intercalate]
  rfl

lemma toList_compact_obj (l : List (String × Json)) :
    (compact (.obj l)).toList = '\x7b' :: (fieldsText l ++ ['\x7d']) := by
  rw [compact, String.toList_append, String.toList_append, String.toList_intercalate]
  rfl

lemma itemsText_cons (j j' : Json) (l : List Json) :
    itemsText (j :: j' :: l) = j.compact.toList ++ ',' :: itemsText (j' :: l) := by
  simp [itemsText, compactItems, List.intercalate]

lemma itemsText_singleton (j : Json) : itemsText [j] = j.compact.toList := by
  simp [itemsText, compactItems, List.intercalate]

lemma toList_field (k : String) (j : Json) (rest : List Char) : (quote k ++ ":" ++ j.compact).toList ++ rest =
    '"' :: (escaped k.toList ++ '"' :: ':' :: (j.compact.toList ++ rest)) := by
  rw [String.toList_append, String.toList_append, toList_quote]
  simp

lemma length_compact_le_field (k : String) (j : Json) :
    j.compact.toList.length ≤ (quote k ++ ":" ++ j.compact).toList.length := by
  rw [String.toList_append, List.length_append]
  exact Nat.le_add_left _ _

lemma length_field_pos (k : String) (j : Json) : 0 < (quote k ++ ":" ++ j.compact).toList.length := by
  have hfield := toList_field k j []
  rw [List.append_nil] at hfield
  simp [hfield]

lemma fieldsText_cons (k : String) (j : Json) (f : String × Json) (l : List (String × Json)) :
    fieldsText ((k, j) :: f :: l) = (quote k ++ ":" ++ j.compact).toList ++ ',' :: fieldsText (f :: l) := by
  obtain ⟨k', j'⟩ := f
  simp [fieldsText, compactFields, List.intercalate]

lemma fieldsText_singleton (k : String) (j : Json) :
    fieldsText [(k, j)] = (quote k ++ ":" ++ j.compact).toList := by
  simp [fieldsText, compactFields, List.intercalate]

/-- A document begins with a character that is neither blank nor a closing one. -/
lemma exists_compact_cons {j : Json} {depth : Nat} (h : isExact depth j = true) : ∃ c r, j.compact.toList = c :: r ∧
    isSpace c = false ∧ c ≠ ']' ∧ c ≠ '\x7d' := by
  cases j with
  | null => exact ⟨'n', ['u', 'l', 'l'], rfl, by decide⟩
  | bool b => cases b <;> exact ⟨_, _, rfl, by decide⟩
  | int n =>
    obtain ⟨c, r, hlist, hc⟩ := exists_toString_cons n
    obtain ⟨hspace, hbracket, hbrace, -⟩ := begins_number hc
    exact ⟨c, r, hlist, hspace, hbracket, hbrace⟩
  | float x => cases depth <;> cases h
  | single x => cases depth <;> cases h
  | str s => exact ⟨_, _, toList_quote s, by decide⟩
  | arr l => exact ⟨_, _, toList_compact_arr l, by decide⟩
  | obj l => exact ⟨_, _, toList_compact_obj l, by decide⟩

lemma length_compact_pos {j : Json} {depth : Nat} (h : isExact depth j = true) : 0 < j.compact.toList.length := by
  obtain ⟨c, r, hlist, -⟩ := exists_compact_cons h
  rw [hlist]
  exact Nat.succ_pos _

/-- The fuel for the last part is enough for what it holds. -/
lemma enough_fuel {n fuel : Nat} (hn : 0 < n) (h : 2 * n + 1 ≤ fuel) : ∃ k, fuel = k + 2 ∧ 2 * n ≤ k + 1 :=
  ⟨fuel - 2, by omega, by omega⟩

/-- The fuel for a part and the ones after it is enough for both. -/
lemma enough_fuel_cons {n m fuel : Nat} (h : 2 * (n + (m + 1)) + 1 ≤ fuel) :
    ∃ k, fuel = k + 2 ∧ 2 * n ≤ k + 1 ∧ 2 * m + 1 ≤ k + 1 := ⟨fuel - 2, by omega, by omega, by omega⟩

lemma setField_of_notMem {fields : List (String × Json)} {k : String} (h : k ∉ fields.map (·.1)) (v : Json) :
    setField fields k v = (k, v) :: fields := by
  have hany : fields.any (·.1 == k) = false := by
    rw [List.any_eq_false]
    intro f hf he
    exact h (List.mem_map.mpr ⟨f, hf, by simpa using he⟩)
  rw [setField, hany]
  rfl

/-- What an array of one or more items begins with. -/
lemma exists_itemsText_cons {j : Json} {l : List Json} {depth : Nat} (h : isExact depth j = true) :
    ∃ c r, itemsText (j :: l) = c :: r ∧ isSpace c = false ∧ c ≠ ']' := by
  obtain ⟨c, r, hlist, hspace, hbracket, -⟩ := exists_compact_cons h
  cases l with
  | nil => exact ⟨c, r, (itemsText_singleton j).trans hlist, hspace, hbracket⟩
  | cons j' l => exact ⟨c, _, by rw [itemsText_cons, hlist, List.cons_append], hspace, hbracket⟩

lemma exists_fieldsText_cons (k : String) (j : Json) (l : List (String × Json)) :
    ∃ r, fieldsText ((k, j) :: l) = '"' :: r := by
  cases l with
  | nil =>
    have hfield := toList_field k j []
    rw [List.append_nil] at hfield
    exact ⟨_, (fieldsText_singleton k j).trans hfield⟩
  | cons f l => exact ⟨_, (fieldsText_cons k j f l).trans (toList_field k j _)⟩

/-- The name of a member is new if the names differ. -/
lemma notMem_of_nodup {out l : List (String × Json)} {f : String × Json}
    (h : ((out.reverse ++ f :: l).map (·.1)).Nodup) : f.1 ∉ out.map (·.1) := by
  rw [List.map_append, List.map_reverse, List.nodup_append] at h
  intro hf
  exact h.2.2 f.1 (List.mem_reverse.mpr hf) f.1 (by simp) rfl

/-- A member is read with its name, and others follow after a comma. -/
lemma fieldsTail?_comma {fuel depth : Nat} {out : List (String × Json)} {k : String} {j : Json} {rest : List Char}
    (hnew : k ∉ out.map (·.1)) (hvalue : value? fuel depth (j.compact.toList ++ ',' :: rest) = some (j, ',' :: rest)) :
    fieldsTail? (fuel + 1) depth out ((quote k ++ ":" ++ j.compact).toList ++ ',' :: rest) =
      fieldsTail? fuel depth ((k, j) :: out) rest := by
  have hquote : ∀ l, skipSpace ('"' :: l) = '"' :: l := fun _ => rfl
  rw [toList_field, fieldsTail?, hquote]
  simp only [stringTail?_quoted]
  simp [hvalue, setField_of_notMem hnew, skipSpace, isSpace]

/-- The last member ends the object. -/
lemma fieldsTail?_brace {fuel depth : Nat} {out : List (String × Json)} {k : String} {j : Json} {rest : List Char}
    (hnew : k ∉ out.map (·.1))
    (hvalue : value? fuel depth (j.compact.toList ++ '\x7d' :: rest) = some (j, '\x7d' :: rest)) :
    fieldsTail? (fuel + 1) depth out ((quote k ++ ":" ++ j.compact).toList ++ '\x7d' :: rest) =
      some (.obj (out.reverse ++ [(k, j)]), rest) := by
  have hquote : ∀ l, skipSpace ('"' :: l) = '"' :: l := fun _ => rfl
  rw [toList_field, fieldsTail?, hquote]
  simp only [stringTail?_quoted]
  simp [hvalue, setField_of_notMem hnew, skipSpace, isSpace]

/-- An array is read as its items are. -/
lemma value?_arr {l : List Json} {fuel depth : Nat} {rest : List Char} (h : areExact depth l = true)
    (hitems : l ≠ [] → itemsTail? fuel depth [] (itemsText l ++ ']' :: rest) = some (.arr l, rest)) :
    value? (fuel + 1) (depth + 1) ((compact (.arr l)).toList ++ rest) = some (.arr l, rest) := by
  rw [toList_compact_arr]
  cases l with
  | nil => simp [itemsText, compactItems, value?, skipSpace, isSpace]
  | cons j l =>
    have hj : isExact depth j = true := by
      rw [areExact, Bool.and_eq_true] at h
      exact h.1
    obtain ⟨c, r, hlist, hspace, hbracket⟩ := exists_itemsText_cons (l := l) hj
    have hskip : skipSpace (c :: (r ++ ']' :: rest)) = c :: (r ++ ']' :: rest) := by simp [skipSpace, hspace]
    have hitems := hitems (by simp)
    rw [hlist] at hitems ⊢
    simp only [List.cons_append, List.append_assoc, List.nil_append] at hitems ⊢
    rw [value?, show skipSpace ('[' :: c :: (r ++ ']' :: rest)) = '[' :: c :: (r ++ ']' :: rest) from rfl]
    simp only [hskip]
    split
    · contradiction
    · rename_i he _
      exact absurd (List.cons.inj he).1 hbracket
    · rename_i he _
      cases he
      exact hitems

/-- An object is read as its members are. -/
lemma value?_obj {l : List (String × Json)} {fuel depth : Nat} {rest : List Char}
    (hfields : l ≠ [] → fieldsTail? fuel depth [] (fieldsText l ++ '\x7d' :: rest) = some (.obj l, rest)) :
    value? (fuel + 1) (depth + 1) ((compact (.obj l)).toList ++ rest) = some (.obj l, rest) := by
  rw [toList_compact_obj]
  cases l with
  | nil => simp [fieldsText, compactFields, value?, skipSpace, isSpace]
  | cons f l =>
    obtain ⟨k, j⟩ := f
    obtain ⟨r, hlist⟩ := exists_fieldsText_cons k j l
    have hfields := hfields (by simp)
    rw [hlist] at hfields ⊢
    simp only [List.cons_append, List.append_assoc, List.nil_append] at hfields ⊢
    exact hfields

mutual
/-- A document is read up to what follows it, with twice its length as fuel. -/
lemma value?_compact : ∀ (j : Json) (fuel depth : Nat) (rest : List Char), isExact depth j = true →
    2 * j.compact.toList.length ≤ fuel + 1 → Follows rest →
      value? (fuel + 1) depth (j.compact.toList ++ rest) = some (j, rest)
  | .null => by
    intro fuel depth rest _ _ _
    simp [compact, atom, value?, skipSpace, isSpace]
  | .bool b => by
    intro fuel depth rest _ _ _
    cases b <;> simp [compact, atom, value?, skipSpace, isSpace]
  | .int n => by
    intro fuel depth rest h _ hrest
    obtain ⟨hlow, hhigh⟩ : Int64.minValue.toInt ≤ n ∧ n < UInt64.size := by simpa [isExact] using h
    exact (value?_toString fuel depth n rest).trans (number?_toString hrest hlow hhigh)
  | .float _ | .single _ => by
    intro fuel depth rest h
    cases depth <;> cases h
  | .str s => by
    intro fuel depth rest _ _ _
    have hread := stringTail?_quoted s rest
    rw [show (compact (.str s)).toList = _ from toList_quote s]
    simpa [value?, skipSpace, isSpace] using hread
  | .arr l => by
    intro fuel depth rest h hfuel _
    cases depth with
    | zero => cases h
    | succ depth =>
      rw [toList_compact_arr, List.length_cons, List.length_append, List.length_singleton] at hfuel
      exact value?_arr h fun hl => itemsTail?_itemsText l fuel depth [] rest h hl (by omega)
  | .obj l => by
    intro fuel depth rest h hfuel _
    cases depth with
    | zero => cases h
    | succ depth =>
      rw [isExact, Bool.and_eq_true, decide_eq_true_eq] at h
      rw [toList_compact_obj, List.length_cons, List.length_append, List.length_singleton] at hfuel
      exact value?_obj fun hl => fieldsTail?_fieldsText l fuel depth [] rest h.2 h.1 hl (by omega)

/-- The items of an array are read one by one. -/
lemma itemsTail?_itemsText : ∀ (l : List Json) (fuel depth : Nat) (out : List Json) (rest : List Char),
    areExact depth l = true → l ≠ [] → 2 * (itemsText l).length + 1 ≤ fuel →
      itemsTail? fuel depth out (itemsText l ++ ']' :: rest) = some (.arr (out.reverse ++ l), rest)
  | [] => by
    intro fuel depth out rest _ hl
    exact absurd rfl hl
  | [j] => by
    intro fuel depth out rest h _ hfuel
    rw [areExact, Bool.and_eq_true] at h
    rw [itemsText_singleton] at hfuel ⊢
    obtain ⟨fuel, rfl, hvalue⟩ := enough_fuel (length_compact_pos h.1) hfuel
    have hvalue := value?_compact j fuel depth (']' :: rest) h.1 hvalue (.bracket rest)
    simp [itemsTail?, hvalue, skipSpace, isSpace]
  | j :: j' :: l => by
    intro fuel depth out rest h _ hfuel
    rw [areExact, Bool.and_eq_true] at h
    rw [itemsText_cons, List.length_append, List.length_cons] at hfuel
    obtain ⟨fuel, rfl, hvalue, hitems⟩ := enough_fuel_cons hfuel
    have hvalue := value?_compact j fuel depth (',' :: (itemsText (j' :: l) ++ ']' :: rest)) h.1 hvalue (.comma _)
    have hitems := itemsTail?_itemsText (j' :: l) (fuel + 1) depth (j :: out) rest h.2 (by simp) hitems
    rw [itemsText_cons, List.append_assoc, List.cons_append, itemsTail?, hvalue]
    simpa [skipSpace, isSpace] using hitems

/-- The members of an object are read one by one, each with a new name. -/
lemma fieldsTail?_fieldsText : ∀ (l : List (String × Json)) (fuel depth : Nat) (out : List (String × Json))
    (rest : List Char), fieldsExact depth l = true → ((out.reverse ++ l).map (·.1)).Nodup → l ≠ [] →
      2 * (fieldsText l).length + 1 ≤ fuel →
        fieldsTail? fuel depth out (fieldsText l ++ '\x7d' :: rest) = some (.obj (out.reverse ++ l), rest)
  | [] => by
    intro fuel depth out rest _ _ hl
    exact absurd rfl hl
  | [(k, j)] => by
    intro fuel depth out rest h hnodup _ hfuel
    rw [fieldsExact, Bool.and_eq_true] at h
    rw [fieldsText_singleton] at hfuel ⊢
    obtain ⟨fuel, rfl, hvalue⟩ := enough_fuel (length_field_pos k j) hfuel
    have hle := length_compact_le_field k j
    have hvalue := value?_compact j fuel depth ('\x7d' :: rest) h.1 (by omega) (.brace rest)
    exact fieldsTail?_brace (notMem_of_nodup hnodup) hvalue
  | (k, j) :: f :: l => by
    intro fuel depth out rest h hnodup _ hfuel
    rw [fieldsExact, Bool.and_eq_true] at h
    rw [fieldsText_cons, List.length_append, List.length_cons] at hfuel
    obtain ⟨fuel, rfl, hvalue, hfields⟩ := enough_fuel_cons hfuel
    have hle := length_compact_le_field k j
    have hvalue := value?_compact j fuel depth (',' :: (fieldsText (f :: l) ++ '\x7d' :: rest)) h.1 (by omega)
      (.comma _)
    have hfields := fieldsTail?_fieldsText (f :: l) (fuel + 1) depth ((k, j) :: out) rest h.2 (by simpa using hnodup)
      (by simp) hfields
    rw [fieldsText_cons, List.append_assoc, List.cons_append, fieldsTail?_comma (notMem_of_nodup hnodup) hvalue]
    simpa using hfields
end

/-- A document that is exact is read back from the line that it is printed on. -/
theorem parse?_compact {j : Json} (h : isExact maxDepth j = true) : parse? j.compact = some j := by
  have hvalue := value?_compact j (2 * j.compact.toList.length + 1) maxDepth [] h (by omega) .nil
  rw [List.append_nil] at hvalue
  rw [parse?]
  simp only [hvalue, Option.bind_eq_bind, Option.bind_some]
  rfl

end RepoAtlas.Json
