import RepoAtlas.Proofs.History.Printing

/-!
# Reading back what Git prints

The changes of a commit are read from two listings and joined by their paths. Names without quotes are read as they
were. The name of a rename is taken apart at its braces and its arrow, which is right unless a path has such marks in
the wrong place. Quotes are never taken away, so a listing is read back exactly if no path needed them.
-/

namespace RepoAtlas.Git

open Text

/-! ### Names of renames -/

section

variable {l u v inner : List Char}

lemma cut?_arrow (l : List Char) :
    cut? (.ofList l) " => " = (cutList? arrow l).map fun (b, r) => (.ofList b, .ofList r) := by
  simp only [cut?, String.toList_ofList]
  rfl

lemma cut?_open (l : List Char) :
    cut? (.ofList l) "\x7b" = (cutList? ['{'] l).map fun (b, r) => (.ofList b, .ofList r) := by
  simp only [cut?, String.toList_ofList]
  rfl

lemma cutLast?_close (l : List Char) : cutLast? (.ofList l) "\x7d" =
    (cutList? ['}'] l.reverse).map fun (b, r) => (.ofList r.reverse, .ofList b.reverse) := by
  simp only [cutLast?, String.toList_ofList]
  rfl

/-- An arrow after a path begins with its first character. -/
lemma not_arrow_infix_append (harrow : ¬arrow <:+: u) (hend : ¬[' ', '=', '>'] <:+ u) :
    ¬arrow <:+: u ++ [' ', '=', '>'] := by
  have hsplit : u ++ [' ', '=', '>'] = u ++ [' '] ++ ['='] ++ ['>'] := by simp
  rw [arrow] at harrow ⊢
  rw [hsplit]
  simp only [List.infix_concat_iff, List.suffix_concat_iff]
  rintro ((h | ⟨t, h, -⟩) | (h | ⟨t, h, -⟩) | (h | ⟨t, h, ht⟩) | h)
  · cases h
  · simpa using congrArg List.getLast? h
  · cases h
  · simpa using congrArg List.getLast? h
  · cases h
  · obtain rfl : t = [' ', '=', '>'] := by
      have hdrop := congrArg List.dropLast h
      simpa using hdrop.symm
    exact hend ht
  · exact harrow h

/-- A character that is not in the first of two lists is in the second one. -/
lemma exists_append_of_not_mem_left {x : Char} {w r : List Char} (hx : x ∉ u) (h : u ++ v = w ++ x :: r) :
    ∃ m, v = m ++ x :: r := by
  rcases List.append_eq_append_iff.mp h with ⟨m, -, hv⟩ | ⟨m, rfl, hv⟩
  · exact ⟨m, hv⟩
  · cases m with
    | nil => exact ⟨[], hv.symm⟩
    | cons y m =>
      obtain ⟨rfl, -⟩ := List.cons.inj hv
      simp at hx

lemma exists_append_of_not_mem_right {x : Char} {w r : List Char} (hx : x ∉ v) (h : u ++ v = w ++ x :: r) :
    ∃ m, u = w ++ x :: m := by
  rcases List.append_eq_append_iff.mp h with ⟨m, -, rfl⟩ | ⟨m, hu, hv⟩
  · simp at hx
  · cases m with
    | nil =>
      obtain rfl : v = x :: r := hv.symm
      simp at hx
    | cons y m =>
      obtain ⟨rfl, -⟩ := List.cons.inj hv
      exact ⟨m, hu⟩

/-- Where no braces enclose an arrow, what follows the first arrow counts, or everything. -/
lemma renameTarget_of_not_enclosed (h : ∀ front inner back, l = front ++ '{' :: (inner ++ '}' :: back) →
      '{' ∉ front → '}' ∉ back → ¬arrow <:+: inner) :
    renameTarget (.ofList l) =
      match cutList? arrow l with
      | some (_, target) => .ofList target
      | none => .ofList l := by
  unfold renameTarget
  extract_lets plain
  have hplain : plain =
      match cutList? arrow l with
      | some (_, target) => .ofList target
      | none => .ofList l := by
    simp only [plain, cut?_arrow]
    cases cutList? arrow l <;> rfl
  rw [← hplain, cut?_open]
  cases hopen : cutList? ['{'] l with
  | none => rfl
  | some pair =>
    obtain ⟨front, rest⟩ := pair
    obtain ⟨hl, hfront⟩ := eq_append_of_cutList? hopen
    simp only [Option.map_some, cutLast?_close]
    cases hclose : cutList? ['}'] rest.reverse with
    | none => rfl
    | some pair =>
      obtain ⟨back, inner⟩ := pair
      obtain ⟨hrest, hback⟩ := eq_append_of_cutList? hclose
      have hrest : rest = inner.reverse ++ '}' :: back.reverse := by
        simpa using congrArg List.reverse hrest
      have hnone : cutList? arrow inner.reverse = none :=
        cutList?_eq_none_iff.mpr (h front inner.reverse back.reverse (by rw [hl, hrest]) hfront (by simpa using hback))
      simp only [Option.map_some, cut?_arrow, hnone, Option.map_none]

/-- Where the first and the last brace enclose an arrow, what stands before it in them is left out. -/
lemma renameTarget_braced {front old new back : List Char} (hfront : '{' ∉ front) (hback : '}' ∉ back)
    (harrow : ¬arrow <:+: old) (hend : ¬[' ', '=', '>'] <:+ old) :
    renameTarget (.ofList (front ++ '{' :: (old ++ (arrow ++ new) ++ '}' :: back))) =
      replace (.ofList (front ++ (new ++ back))) "//" "/" := by
  have hclose : cutList? ['}'] (old ++ (arrow ++ new) ++ '}' :: back).reverse =
      some (back.reverse, (old ++ (arrow ++ new)).reverse) := by
    rw [List.reverse_append, List.reverse_cons, List.append_assoc, List.singleton_append]
    exact cutList?_singleton (by simpa using hback)
  have hcut : cutList? arrow (old ++ (arrow ++ new)) = some (old, new) :=
    cutList?_append (by simp [arrow]) (not_arrow_infix_append harrow hend)
  rw [renameTarget, cut?_open, cutList?_singleton hfront]
  simp only [Option.map_some, cutLast?_close, hclose, List.reverse_reverse, cut?_arrow, hcut]
  rw [String.ofList_append, String.ofList_append, String.append_assoc]

end

namespace Spelling

/-- The name of a rename whose marks stand out is taken apart as it was put together. -/
lemma renameTarget_text {s : Spelling} (hold : ¬arrow <:+: s.old) (hnew : ¬arrow <:+: s.new) (hclear : s.Clear) :
    renameTarget (.ofList s.text) =
      if s.Bare then .ofList s.new else replace (.ofList (s.front ++ (s.new ++ s.back))) "//" "/" := by
  obtain ⟨hend, hbraces⟩ := hclear
  rw [text]
  split
  · rename_i hbare
    rw [if_pos hbare] at hbraces
    have hcut : cutList? arrow (s.old ++ (arrow ++ s.new)) = some (s.old, s.new) :=
      cutList?_append (by simp [arrow]) (not_arrow_infix_append hold hend)
    rw [renameTarget_of_not_enclosed, hcut]
    -- what braces enclose lies in one of the paths
    intro front inner back hl _ _ hwithin
    rcases hbraces with hopen | hclose
    · rw [← List.append_assoc] at hl
      obtain ⟨m, hm⟩ := exists_append_of_not_mem_left (by simpa [arrow] using hopen) hl
      exact hnew (hwithin.trans ⟨m ++ ['{'], '}' :: back, by simp [hm]⟩)
    · have hl : s.old ++ (arrow ++ s.new) = front ++ '{' :: inner ++ '}' :: back := by simp [hl]
      obtain ⟨m, hm⟩ := exists_append_of_not_mem_right (by simpa [arrow] using hclose) hl
      exact hold (hwithin.trans ⟨front ++ ['{'], '}' :: m, by simp [hm]⟩)
  · rename_i hbare
    rw [if_neg hbare] at hbraces
    exact renameTarget_braced hbraces.1 hbraces.2 hold hend

-- a brace of a directory is taken for the one before the old path
example : renameTarget "a\x7bb/\x7bc.py => d.py\x7d" = "ad.py" := by decide

end Spelling

section

variable {source target : List Char}

lemma replace_ofList (l : List Char) :
    replace (.ofList l) "//" "/" = .ofList (replaceList ['/', '/'] ['/'] l.length l) := by
  simp only [replace, String.toList_ofList, String.length_ofList]
  rfl

/-- A slash that both shared pieces have is left out when the new path is put together. -/
lemma replace_assembled (htarget : ¬['/', '/'] <:+: target) :
    replace (.ofList (sharedFront source target ++ (middle (sharedFront source target)
      (sharedBack source target) target ++ sharedBack source target))) "//" "/" = .ofList target := by
  rw [replace_ofList]
  rcases assembled source target with hjoined | ⟨u, v, hjoined, htwice⟩
  · rw [hjoined, replaceList_of_not_infix htarget]
  · have hfirst : ¬['/', '/'] <:+: u ++ ['/'] := fun h => htarget (h.trans ⟨[], v, by simp [htwice]⟩)
    have hlater : ¬['/', '/'] <:+: v := fun h => htarget (h.trans ⟨u ++ ['/'], [], by simp [htwice]⟩)
    have hlength : (u ++ (['/', '/'] ++ v)).length = u.length + (v.length + 1) + 1 := by
      simp only [List.length_append, List.length_cons, List.length_nil]
      omega
    rw [hjoined, hlength, replaceList_append (by simp) hfirst, replaceList_of_not_infix hlater, htwice,
      List.singleton_append]

lemma spelling_of_plain (h : Plain source ∧ Plain target) :
    spelling source target =
      ⟨sharedFront source target, middle (sharedFront source target) (sharedBack source target) source,
        middle (sharedFront source target) (sharedBack source target) target, sharedBack source target⟩ :=
  if_pos h

lemma spelling_of_not_plain (h : ¬(Plain source ∧ Plain target)) :
    spelling source target = ⟨[], spell source, spell target, []⟩ :=
  if_neg h

/-- Without shared pieces both paths are printed as they are on their own. -/
lemma spelling_of_bare (h : (spelling source target).Bare) :
    spelling source target = ⟨[], spell source, spell target, []⟩ := by
  by_cases hboth : Plain source ∧ Plain target
  · rw [spelling_of_plain hboth] at h ⊢
    obtain ⟨hfront, hback⟩ : sharedFront source target = [] ∧ sharedBack source target = [] := h
    have hsource : spell source = source := if_pos hboth.1
    have htarget : spell target = target := if_pos hboth.2
    simp [hfront, hback, middle, hsource, htarget]
  · exact spelling_of_not_plain hboth

lemma not_arrow_infix_spelling (hsource : ¬arrow <:+: source) (htarget : ¬arrow <:+: target) :
    ¬arrow <:+: (spelling source target).old ∧ ¬arrow <:+: (spelling source target).new := by
  by_cases hboth : Plain source ∧ Plain target
  · simp only [spelling_of_plain hboth]
    exact ⟨fun h => hsource (h.trans (middle_isInfix _ _ source)),
      fun h => htarget (h.trans (middle_isInfix _ _ target))⟩
  · rw [spelling_of_not_plain hboth]
    exact ⟨not_arrow_infix_spell hsource, not_arrow_infix_spell htarget⟩

/-- The new path of a rename is read, if it is printed without quotes and the marks of the name stand out. -/
lemma renameTarget_spelling (hsource : ¬arrow <:+: source) (htarget : ¬arrow <:+: target)
    (hslash : ¬['/', '/'] <:+: target) (hplain : Plain target) (hclear : (spelling source target).Clear) :
    renameTarget (.ofList (spelling source target).text) = .ofList target := by
  obtain ⟨hold, hnew⟩ := not_arrow_infix_spelling hsource htarget
  rw [Spelling.renameTarget_text hold hnew hclear]
  split
  · rename_i hbare
    rw [spelling_of_bare hbare]
    exact congrArg String.ofList (if_pos hplain)
  · rename_i hbare
    have hboth : Plain source ∧ Plain target := by
      by_contra hquoted
      exact hbare (spelling_of_not_plain hquoted ▸ ⟨rfl, rfl⟩)
    simp only [spelling_of_plain hboth]
    exact replace_assembled hslash

/-- The name of another change is its path. -/
lemma renameTarget_of_not_arrow (htarget : ¬arrow <:+: target) : renameTarget (.ofList target) = .ofList target := by
  rw [renameTarget_of_not_enclosed, cutList?_eq_none_iff.mpr htarget]
  rintro front inner back rfl - - hwithin
  exact htarget (hwithin.trans ⟨front ++ ['{'], '}' :: back, by simp⟩)

end

/-! ### Lines -/

section

variable {fields : List (List Char)}

lemma Visible.ne {c : Char} (h : Visible c) : c ≠ '\t' ∧ c ≠ '\n' ∧ c ≠ '\r' := by
  refine ⟨?_, ?_, ?_⟩ <;> rintro rfl <;> exact absurd h (by decide)

/-- A line can be printed, and its first field is not blank. -/
structure Printable (fields : List (List Char)) : Prop where
  visible : ∀ f ∈ fields, ∀ c ∈ f, Visible c
  first : ∃ c ∈ fields.headD [], isBlank c = false

lemma Printable.ne_nil (h : Printable fields) : fields ≠ [] := by
  rintro rfl
  simpa using h.first

lemma mem_of_mem_intercalate {sep : List Char} {c : Char} (h : c ∈ sep.intercalate fields) :
    c ∈ sep ∨ ∃ f ∈ fields, c ∈ f := by
  induction fields with
  | nil => simp at h
  | cons f fields ih =>
    cases fields with
    | nil => exact Or.inr ⟨f, List.mem_cons_self, by simpa using h⟩
    | cons g fields =>
      rw [List.intercalate_cons_cons, List.mem_append, List.mem_append] at h
      rcases h with (h | h) | h
      · exact Or.inr ⟨f, List.mem_cons_self, h⟩
      · exact Or.inl h
      · exact (ih h).imp_right fun ⟨x, hx, hc⟩ => ⟨x, List.mem_cons_of_mem f hx, hc⟩

lemma mem_intercalate_of_mem_head {sep : List Char} {c : Char} (h : c ∈ fields.headD []) :
    c ∈ sep.intercalate fields := by
  match fields, h with
  | [f], h => simpa using h
  | f :: g :: fields, h =>
    rw [List.intercalate_cons_cons, List.append_assoc]
    exact List.mem_append_left _ h

/-- A line is read field by field. -/
lemma splitAt_line (h : Printable fields) :
    splitAt '\t' (.ofList (['\t'].intercalate fields)) = fields.map String.ofList := by
  have htab : ∀ f ∈ fields, '\t' ∉ f := fun f hf hmem => (h.visible f hf '\t' hmem).ne.1 rfl
  rw [splitAt_eq, String.toList_ofList, List.splitOn_intercalate '\t' htab h.ne_nil]

lemma rows_lines {α : Type} {f : α → List (List Char)} {l : List α} (h : ∀ a ∈ l, Printable (f a)) :
    rows (.ofList (l.flatMap fun a => line (f a))) = l.map fun a => (f a).map String.ofList := by
  induction l with
  | nil => rfl
  | cons a l ih =>
    have hfields := h a List.mem_cons_self
    have hrest := ih fun x hx => h x (List.mem_cons_of_mem a hx)
    have hends (c : Char) (htab : c ≠ '\t') (hc : ¬Visible c) : c ∉ ['\t'].intercalate (f a) := fun hmem => by
      rcases mem_of_mem_intercalate hmem with hsep | ⟨g, hg, hmem⟩
      · exact htab (List.mem_singleton.mp hsep)
      · exact hc (hfields.visible g hg c hmem)
    have hblank : isBlankText (.ofList (['\t'].intercalate (f a))) = false := by
      obtain ⟨c, hc, hblank⟩ := hfields.first
      rw [isBlankText, String.toList_ofList, List.all_eq_false]
      exact ⟨c, mem_intercalate_of_mem_head hc, by simp [hblank]⟩
    rw [rows] at hrest ⊢
    rw [List.flatMap_cons, line, List.append_assoc, List.singleton_append,
      lines_append (hends '\n' (by decide) (by decide)) (hends '\r' (by decide) (by decide)),
      List.filter_cons_of_pos (by simp [hblank]), List.map_cons, hrest, splitAt_line hfields, List.map_cons]

end

/-! ### Fields -/

section

variable {path source target u v : List Char}

lemma tight_append {m : List Char} (hu : u ≠ []) (hv : v ≠ []) (hfirst : ∀ c ∈ u.head?, isBlank c = false)
    (hlast : ∀ c ∈ v.getLast?, isBlank c = false) : Tight (u ++ (m ++ v)) := by
  refine ⟨?_, ?_⟩
  · rwa [List.head?_append_of_ne_nil _ hu]
  · rwa [← List.append_assoc, List.getLast?_append_of_ne_nil _ hv]

lemma Proper.tight_spell (h : Proper path) : Tight (spell path) := by
  rw [spell]
  split
  · exact h.tight
  · exact tight_append (u := ['"']) (m := path.flatMap escape) (v := ['"']) (by simp) (by simp)
      (by decide) (by decide)

lemma Proper.spell_ne_nil (h : Proper path) : spell path ≠ [] := by
  rw [spell]
  split
  · exact h.ne_nil
  · simp

/-- What stands before the braces is of the new path, and so is what stands after them. -/
lemma shared_spelling (source target : List Char) :
    (spelling source target).front <+: target ∧ (spelling source target).back <:+ target := by
  by_cases hboth : Plain source ∧ Plain target
  · simp only [spelling_of_plain hboth]
    exact ⟨sharedFront_isPrefix source target,
      (sharedBack_isSuffix source target).trans (List.drop_suffix _ target)⟩
  · rw [spelling_of_not_plain hboth]
    exact ⟨List.nil_prefix, List.nil_suffix⟩

lemma tight_enclosed {front inner back : List Char} {a b : Char} (hfront : front <+: path) (hback : back <:+ path)
    (h : Tight path) (ha : isBlank a = false) (hb : isBlank b = false) :
    Tight (front ++ a :: (inner ++ b :: back)) := by
  refine ⟨?_, ?_⟩
  · cases front with
    | nil => simpa using ha
    | cons c front =>
      obtain ⟨rest, rfl⟩ := hfront
      simpa using h.1
  · rcases List.eq_nil_or_concat' back with rfl | ⟨back, c, rfl⟩
    · have hend : front ++ a :: (inner ++ [b]) = front ++ a :: inner ++ [b] := by simp
      rw [hend, List.getLast?_concat]
      simpa using hb
    · obtain ⟨rest, rfl⟩ := hback
      have hend : front ++ a :: (inner ++ b :: (back ++ [c])) = front ++ a :: (inner ++ b :: back) ++ [c] := by simp
      rw [hend, List.getLast?_concat]
      simpa using h.2

lemma tight_text (hsource : Proper source) (htarget : Proper target) : Tight (spelling source target).text := by
  rw [Spelling.text]
  split
  · rename_i hbare
    rw [spelling_of_bare hbare]
    exact tight_append hsource.spell_ne_nil htarget.spell_ne_nil hsource.tight_spell.1 htarget.tight_spell.2
  · obtain ⟨hfront, hback⟩ := shared_spelling source target
    exact tight_enclosed hfront hback htarget.tight (by decide) (by decide)

lemma visible_text : ∀ c ∈ (spelling source target).text, Visible c := by
  have harrow : ∀ c ∈ arrow, Visible c := by decide
  obtain ⟨hfront, hold, hnew, hback⟩ :
      (∀ c ∈ (spelling source target).front, Visible c) ∧ (∀ c ∈ (spelling source target).old, Visible c) ∧
        (∀ c ∈ (spelling source target).new, Visible c) ∧ ∀ c ∈ (spelling source target).back, Visible c := by
    by_cases hboth : Plain source ∧ Plain target
    · simp only [spelling_of_plain hboth]
      exact ⟨fun c hc => hboth.2.visible c ((sharedFront_isPrefix source target).subset hc),
        fun c hc => hboth.1.visible c ((middle_isInfix _ _ source).subset hc),
        fun c hc => hboth.2.visible c ((middle_isInfix _ _ target).subset hc),
        fun c hc => hboth.2.visible c (List.mem_of_mem_drop ((sharedBack_isSuffix source target).subset hc))⟩
    · rw [spelling_of_not_plain hboth]
      exact ⟨by simp, visible_spell, visible_spell, by simp⟩
  rw [Spelling.text]
  split
  · simp only [List.forall_mem_append]
    exact ⟨hold, harrow, hnew⟩
  · simp only [List.forall_mem_append, List.forall_mem_cons]
    exact ⟨hfront, by decide, ⟨hold, harrow, hnew⟩, by decide, hback⟩

end

section

variable {path : String}

/-- Every backslash of a path is read as a slash. -/
lemma toList_slashed (path : String) :
    (slashed path).toList = path.toList.map fun c => if '\\' = c then '/' else c := by
  rw [slashed, show "\\" = String.singleton '\\' from rfl, show "/" = String.singleton '/' from rfl,
    toList_replace_singleton]

/-- A path as it is read where it stands on its own. -/
def seen (path : String) : String := slashed (.ofList (spell path.toList))

lemma slashed_of_plain (h : Plain path.toList) : slashed path = path := by
  have hkept : ∀ c ∈ path.toList, (if '\\' = c then '/' else c) = id c := fun c hc =>
    if_neg (by rintro rfl; exact absurd (h _ hc) (by decide))
  rw [← String.toList_inj, toList_slashed, List.map_congr_left hkept, List.map_id]

/-- A path is read as it was exactly if it is printed as it is. -/
lemma seen_eq_iff : seen path = path ↔ Plain path.toList := by
  refine ⟨fun h => ?_, fun h => ?_⟩
  · by_contra hplain
    have hlength := congrArg (List.length ∘ String.toList) h
    simp only [Function.comp_apply, seen, toList_slashed, List.length_map, String.toList_ofList] at hlength
    exact absurd hlength (Nat.ne_of_gt (length_lt_length_spell hplain))
  · have hspell : spell path.toList = path.toList := if_pos h
    rw [seen, hspell, String.ofList_toList, slashed_of_plain h]

lemma seen_ne_empty (h : Proper path.toList) : seen path ≠ "" := by
  rw [← String.toList_eq_nil_iff.ne, seen, toList_slashed, List.map_eq_nil_iff.ne, String.toList_ofList]
  exact h.spell_ne_nil

lemma slashed_trim_spell (h : Proper path.toList) : slashed (trim (.ofList (spell path.toList))) = seen path := by
  rw [Tight.trim_eq (by simpa using h.tight_spell), seen]

end

lemma visible_of_isDigit {c : Char} (h : c.isDigit = true) : Visible c ∧ isBlank c = false := by
  have hrange : 48 ≤ c.toNat ∧ c.toNat ≤ 57 := Char.isDigit_iff_toNat.mp h
  refine ⟨⟨by omega, by omega⟩, ?_⟩
  simp only [isBlank, Bool.or_eq_false_iff, Bool.and_eq_false_iff, decide_eq_false_iff_not, beq_eq_false_iff_ne]
  omega

/-- A number that is printed is read. -/
lemma lineCount_toDigits {n : Nat} (h : n < UInt32.size) : lineCount (.ofList (Nat.toDigits 10 n)) = n := by
  have hdigits : (Nat.toDigits 10 n).all Char.isDigit = true :=
    List.all_eq_true.mpr fun c hc => Nat.isDigit_of_mem_toDigits (by decide) (by decide) hc
  have hnumber : (Nat.toDigits 10 n).foldl (fun n c => 10 * n + (c.toNat - 48)) 0 = n :=
    Nat.ofDigitChars_eq_foldl.symm.trans (Nat.ofDigitChars_toDigits (by decide) (by decide))
  have hnonempty : (Nat.toDigits 10 n).isEmpty = false := by simp
  rw [lineCount, String.toList_ofList]
  generalize Nat.toDigits 10 n = ds at *
  split
  · simp at hdigits
  · simp [hnonempty, hdigits, hnumber, h]

lemma lineCount_dash : lineCount (.ofList ['-']) = 0 := by decide

/-! ### Entries -/

namespace Entry

variable {e : Entry}

lemma Proper.tight_name (h : e.Proper) : Tight e.name := by
  rw [name]
  split
  · rename_i s hs
    exact tight_text (h.2 s hs) h.1
  · exact h.1.tight_spell

lemma visible_name : ∀ c ∈ e.name, Visible c := by
  rw [name]
  split
  · exact visible_text
  · exact visible_spell

lemma visible_digitChar (n : Nat) :
    Visible (Nat.digitChar (n % 10)) ∧ isBlank (Nat.digitChar (n % 10)) = false :=
  visible_of_isDigit (by simpa [Nat.isDigit_digitChar] using Nat.mod_lt n (by decide))

lemma visible_scored {letter : Char} (h : Visible letter) (n : Nat) : ∀ c ∈ scored letter n, Visible c := by
  simp only [scored, List.forall_mem_cons]
  exact ⟨h, (visible_digitChar _).1, (visible_digitChar _).1, (visible_digitChar _).1, by simp⟩

lemma head?_scored (letter : Char) (n : Nat) : (scored letter n).head? = some letter := rfl

lemma trim_scored {letter : Char} (h : isBlank letter = false) (n : Nat) :
    trim (.ofList (scored letter n)) = .ofList (scored letter n) := by
  refine Tight.trim_eq ⟨?_, ?_⟩
  · simpa [scored] using h
  · simpa [scored] using (visible_digitChar _).2

/-- The line with the kind of a change can be printed. -/
lemma printable_statusFields (e : Entry) : Printable e.statusFields := by
  have hone {letter : Char} (hletter : Visible letter ∧ isBlank letter = false) :
      Printable [[letter], spell e.path.toList] :=
    ⟨by simpa using ⟨hletter.1, fun c hc => visible_spell c hc⟩, letter, by simp, hletter.2⟩
  have htwo {letter : Char} (hletter : Visible letter ∧ isBlank letter = false) (source : String) (n : Nat) :
      Printable [scored letter n, spell source.toList, spell e.path.toList] :=
    ⟨by simpa using ⟨visible_scored hletter.1 n, fun c hc => visible_spell c hc, fun c hc => visible_spell c hc⟩,
      letter, by simp [scored], hletter.2⟩
  rw [statusFields]
  split
  · exact hone (by decide)
  · exact hone (by decide)
  · exact hone (by decide)
  · exact hone (by decide)
  · exact htwo (by decide) _ _
  · exact htwo (by decide) _ _

lemma visible_toDigits {n : Nat} : ∀ c ∈ Nat.toDigits 10 n, Visible c ∧ isBlank c = false :=
  fun _ hc => visible_of_isDigit (Nat.isDigit_of_mem_toDigits (by decide) (by decide) hc)

/-- The line with the line counts of a change can be printed. -/
lemma printable_countFields (e : Entry) : Printable e.countFields := by
  rw [countFields]
  split
  · rename_i additions deletions _
    obtain ⟨d, ds, hd⟩ := List.exists_cons_of_ne_nil (Nat.toDigits_ne_nil (n := additions.toNat) (b := 10))
    refine ⟨?_, d, by simp [hd], (visible_toDigits (n := additions.toNat) d (by simp [hd])).2⟩
    simp only [List.forall_mem_cons]
    exact ⟨fun c hc => (visible_toDigits c hc).1, fun c hc => (visible_toDigits c hc).1, visible_name, by simp⟩
  · refine ⟨?_, '-', by simp, by decide⟩
    simp only [List.forall_mem_cons]
    exact ⟨by decide, by decide, visible_name, by simp⟩

/-- The counts before the name are read as the history keeps them. -/
lemma exists_countFields (e : Entry) : ∃ additions deletions, e.countFields = [additions, deletions, e.name] ∧
    lineCount (.ofList additions) = e.change.additions ∧ lineCount (.ofList deletions) = e.change.deletions := by
  simp only [countFields, change]
  cases e.counts with
  | none => exact ⟨_, _, rfl, lineCount_dash, lineCount_dash⟩
  | some n => exact ⟨_, _, rfl, lineCount_toDigits n.1.toNat_lt, lineCount_toDigits n.2.toNat_lt⟩

/-- The row that is read from the line with the kind of a change. -/
def statusRow (e : Entry) : StatusRow := ⟨e.change.change, seen e.path, e.change.previousPath.map seen⟩

/-- The paths of the row are those of the change exactly if they are printed as they are. -/
lemma statusRow_eq_iff : (e.statusRow.path = e.path ∧ e.statusRow.previousPath = e.change.previousPath) ↔
    Plain e.path.toList ∧ ∀ s ∈ e.change.previousPath, Plain s.toList := by
  refine and_congr seen_eq_iff ?_
  rw [statusRow]
  cases e.change.previousPath with
  | none => simp
  | some s => simp [seen_eq_iff]

/-- The counts of a change that are read if its path is. -/
def lineCounts (e : Entry) : LineCounts := ⟨e.path, e.change.additions, e.change.deletions⟩

end Entry

section

variable {es : List Entry}

/-- Kinds are read as they were, and paths as they can be seen. -/
lemma parseNameStatus_nameStatus (h : ∀ e ∈ es, e.Proper) :
    parseNameStatus (nameStatus es) = es.map Entry.statusRow := by
  have hrows : rows (nameStatus es) = es.map fun e => e.statusFields.map String.ofList :=
    rows_lines fun e _ => e.printable_statusFields
  rw [parseNameStatus, hrows, List.filterMap_map, ← List.filterMap_eq_map (f := Entry.statusRow)]
  refine List.filterMap_congr fun e he => ?_
  obtain ⟨hpath, hsource⟩ := h e he
  have hread := slashed_trim_spell hpath
  have hempty := seen_ne_empty hpath
  simp only [Function.comp_apply, Entry.statusFields, Entry.statusRow, Entry.change]
  have hletter (c : Char) (hc : isBlank c = false) : trim (.ofList [c]) = .ofList [c] :=
    Tight.trim_eq (by simpa [Tight] using hc)
  cases horigin : e.origin with
  | added => simp [hletter, isBlank, hread, hempty]
  | modified => simp [hletter, isBlank, hread, hempty]
  | deleted => simp [hletter, isBlank, hread, hempty]
  | typeChanged => simp [hletter, isBlank, hread, hempty]
  | renamed source n =>
    have hread' := slashed_trim_spell (hsource source (by simp [Entry.source?, horigin]))
    simp [Entry.trim_scored, Entry.head?_scored, isBlank, hread, hread', hempty]
  | copied source n => simp [Entry.trim_scored, Entry.head?_scored, isBlank, hread, hempty]

/-- The name beside the line counts of a change leads to its path. -/
lemma renameTarget_name {e : Entry} (h : e.Proper) (hplain : Plain e.path.toList) (hclear : e.Clear) :
    slashed (renameTarget (trim (.ofList e.name))) = e.path := by
  rw [Tight.trim_eq (by simpa using h.tight_name), Entry.name]
  split
  · rename_i s hs
    rw [renameTarget_spelling (h.2 s hs).not_arrow h.1.not_arrow h.1.not_slashes hplain (hclear s hs),
      String.ofList_toList, slashed_of_plain hplain]
  · have hspell : spell e.path.toList = e.path.toList := if_pos hplain
    rw [hspell, renameTarget_of_not_arrow h.1.not_arrow, String.ofList_toList, slashed_of_plain hplain]

lemma foldl_putCounts {l cs : List LineCounts} (h : ((l ++ cs).map (·.path)).Nodup) :
    cs.foldl putCounts l = l ++ cs := by
  induction cs generalizing l with
  | nil => simp
  | cons c cs ih =>
    have hnew : putCounts l c = l ++ [c] := by
      have hother : ∀ k ∈ l, k.path ≠ c.path := by
        rw [List.map_append, List.map_cons, List.nodup_append] at h
        exact fun k hk => h.2.2 k.path (List.mem_map_of_mem hk) c.path List.mem_cons_self
      rw [putCounts, List.filter_eq_self.mpr fun k hk => by simpa using hother k hk]
    rw [List.foldl_cons, hnew, ih (by simpa using h), List.append_assoc, List.singleton_append]

/-- Line counts are read as they were, if the paths are. -/
lemma parseNumstat_numstat (h : ∀ e ∈ es, e.Proper) (hplain : ∀ e ∈ es, Plain e.path.toList)
    (hdistinct : (es.map Entry.path).Nodup) (hclear : ∀ e ∈ es, e.Clear) :
    parseNumstat (numstat es) = es.map Entry.lineCounts := by
  have hrows : rows (numstat es) = es.map fun e => e.countFields.map String.ofList :=
    rows_lines fun e _ => e.printable_countFields
  rw [parseNumstat, hrows, List.foldl_map]
  have hadded : es.foldl (fun l e => putCounts l e.lineCounts) [] = es.map Entry.lineCounts := by
    rw [← List.foldl_map]
    refine foldl_putCounts ?_
    rwa [List.nil_append, List.map_map]
  refine (List.foldl_ext _ _ _ fun l e he => ?_).trans hadded
  have hread := renameTarget_name (h e he) (hplain e he) (hclear e he)
  have hempty : e.path ≠ "" := by
    rw [← String.toList_eq_nil_iff.ne]
    exact (h e he).1.ne_nil
  obtain ⟨additions, deletions, hfields, hadditions, hdeletions⟩ := e.exists_countFields
  simp [hfields, Entry.lineCounts, hread, hempty, hadditions, hdeletions]

/-- What the rows and the counts of some changes are joined to, if no path repeats. -/
lemma mergeChanges_aligned {cs : List FileChange} (h : (cs.map (·.path)).Nodup) :
    mergeChanges (cs.map fun c => ⟨c.change, c.path, c.previousPath⟩)
      (cs.map fun c => ⟨c.path, c.additions, c.deletions⟩) = cs := by
  induction cs with
  | nil => simp [mergeChanges]
  | cons c cs ih =>
    rw [List.map_cons, List.nodup_cons] at h
    have hother : ∀ k ∈ cs, k.path ≠ c.path := fun k hk hpath => h.1 (hpath ▸ List.mem_map_of_mem hk)
    have hrest : (cs.map fun c => (⟨c.path, c.additions, c.deletions⟩ : LineCounts)).filter (·.path != c.path) =
        cs.map fun c => ⟨c.path, c.additions, c.deletions⟩ :=
      List.filter_eq_self.mpr (by simpa using hother)
    simp [mergeChanges, hrest, ih h.2]

/-- Each row leads to a change, and further changes come after those. -/
lemma paths_isPrefix (rs : List StatusRow) (counts : List LineCounts) :
    rs.map (fun r => (r.path, r.previousPath)) <+:
      (mergeChanges rs counts).map fun c => (c.path, c.previousPath) := by
  induction rs generalizing counts with
  | nil => exact List.nil_prefix
  | cons r rs ih => exact (List.prefix_cons_inj _).mpr (ih _)

/-- What Git prints for the changes of a commit is read back exactly if no path that the changes keep is printed in
quotes. -/
theorem read_printed_iff (hproper : ∀ e ∈ es, e.Proper) (hdistinct : (es.map Entry.path).Nodup)
    (hclear : ∀ e ∈ es, e.Clear) :
    mergeChanges (parseNameStatus (nameStatus es)) (parseNumstat (numstat es)) = es.map Entry.change ↔
      ∀ e ∈ es, Plain e.path.toList ∧ ∀ s ∈ e.change.previousPath, Plain s.toList := by
  rw [parseNameStatus_nameStatus hproper]
  refine ⟨fun h => ?_, fun h => ?_⟩
  · have hpaths := paths_isPrefix (es.map Entry.statusRow) (parseNumstat (numstat es))
    rw [h] at hpaths
    have hread := hpaths.eq_of_length (by simp)
    simp only [List.map_map, List.map_inj_left] at hread
    exact fun e he => Entry.statusRow_eq_iff.mp (Prod.mk.inj (hread e he))
  · have hrows : es.map Entry.statusRow =
        (es.map Entry.change).map fun c => ⟨c.change, c.path, c.previousPath⟩ := by
      rw [List.map_map]
      refine List.map_congr_left fun e he => ?_
      obtain ⟨hpath, hprevious⟩ := Entry.statusRow_eq_iff.mpr (h e he)
      have hrow : e.statusRow = ⟨e.change.change, e.statusRow.path, e.statusRow.previousPath⟩ := rfl
      rw [hrow, hpath, hprevious]
      rfl
    have hcounts : es.map Entry.lineCounts =
        (es.map Entry.change).map fun c => ⟨c.path, c.additions, c.deletions⟩ := by
      rw [List.map_map]
      rfl
    rw [hrows, parseNumstat_numstat hproper (fun e he => (h e he).1) hdistinct hclear, hcounts]
    refine mergeChanges_aligned ?_
    rwa [List.map_map]

/-- A file that was moved to another directory and changed, a copy, and a picture. -/
def moved : List Entry :=
  [⟨"src/new/lib.rs", .renamed "src/old/lib.rs" 97, some (3, 1)⟩, ⟨"b.py", .copied "a.py" 100, some (0, 0)⟩,
    ⟨"logo.png", .added, none⟩]

theorem read_printed_iff_moved :
    mergeChanges (parseNameStatus (nameStatus moved)) (parseNumstat (numstat moved)) = moved.map Entry.change :=
  (read_printed_iff (by decide) (by decide) (by decide)).mpr (by decide)

/-- A file whose path is not of ASCII. -/
def accented : Entry := ⟨"café.py", .added, some (1, 0)⟩

/-- The quotes around a path are read as a part of it, and so are the escapes in them. -/
theorem read_printed_accented :
    (accented.Proper ∧ accented.Clear ∧ accented.change = ⟨"café.py", none, .added, 1, 0⟩) ∧
    mergeChanges (parseNameStatus (nameStatus [accented])) (parseNumstat (numstat [accented])) =
      [⟨"\"caf/303/251.py\"", none, .added, 1, 0⟩] :=
  ⟨by decide, by decide +kernel⟩

end

end RepoAtlas.Git
