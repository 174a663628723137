import RepoAtlas.History.Git
import RepoAtlas.Proofs.Text.Cutting
import RepoAtlas.Proofs.Text.Lowering

/-!
# How Git prints changes

Git lists the changes of a commit twice, a line for each: with their kinds, and with their line counts. A path that
has quotes, backslashes, control characters or characters outside of ASCII is printed in quotes, with escapes for its
bytes. The line counts of a rename or a copy name both paths at once; directories that they share stand only once then,
outside of braces. What is printed never has tabs or line feeds but those between fields and lines.
-/

namespace RepoAtlas.Git

/-! ### Quotes -/

/-- A character for which a path is printed in quotes. -/
def mustQuote (c : Char) : Bool := c.toNat < 0x20 || c == '"' || c == '\\' || 0x7F ≤ c.toNat

/-- A path that is printed as it is. -/
def Plain (path : List Char) : Prop := ∀ c ∈ path, mustQuote c = false

instance : DecidablePred Plain := fun path => inferInstanceAs (Decidable (∀ c ∈ path, mustQuote c = false))

/-- The letter that stands for a byte after a backslash. -/
def escapeLetter? (b : UInt8) : Option Char :=
  [(7, 'a'), (8, 'b'), (9, 't'), (10, 'n'), (11, 'v'), (12, 'f'), (13, 'r'), (0x22, '"'), (0x5C, '\\')].lookup b

/-- A byte within quotes: some have a letter, others outside of printable ASCII are written in octal. -/
def escapeByte (b : UInt8) : List Char :=
  match escapeLetter? b with
  | some c => ['\\', c]
  | none =>
    if b < 0x20 || 0x7F ≤ b then
      ['\\', Nat.digitChar (b.toNat / 64), Nat.digitChar (b.toNat / 8 % 8), Nat.digitChar (b.toNat % 8)]
    else [Char.ofNat b.toNat]

/-- A character within quotes. -/
def escape (c : Char) : List Char := (String.utf8EncodeChar c).flatMap escapeByte

/-- A path as it is printed. -/
def spell (path : List Char) : List Char :=
  if Plain path then path else '"' :: path.flatMap escape ++ ['"']

/-- What stands between the paths of a rename. -/
def arrow : List Char := [' ', '=', '>', ' ']

/-- A character of printable ASCII. -/
def Visible (c : Char) : Prop := 0x20 ≤ c.toNat ∧ c.toNat < 0x7F

instance : DecidablePred Visible := fun c => inferInstanceAs (Decidable (0x20 ≤ c.toNat ∧ c.toNat < 0x7F))

section

variable {c m : Char} {b : UInt8} {path marker l : List Char}

lemma Plain.visible (h : Plain path) : ∀ c ∈ path, Visible c := by
  intro c hc
  have := h c hc
  simp only [mustQuote, Bool.or_eq_false_iff, decide_eq_false_iff_not] at this
  exact ⟨by omega, by omega⟩

lemma escapeByte_ofNat : ∀ n < 256, escapeByte (.ofNat n) ≠ [] ∧ (∀ d ∈ escapeByte (.ofNat n), Visible d) ∧
    (128 ≤ n → ' ' ∉ escapeByte (.ofNat n) ∧ '=' ∉ escapeByte (.ofNat n) ∧ '>' ∉ escapeByte (.ofNat n)) := by
  decide +kernel

/-- What stands for a byte can be printed. It has no arrows unless the byte is of ASCII. -/
lemma escapeByte_spec (b : UInt8) : escapeByte b ≠ [] ∧ (∀ d ∈ escapeByte b, Visible d) ∧
    (128 ≤ b.toNat → ' ' ∉ escapeByte b ∧ '=' ∉ escapeByte b ∧ '>' ∉ escapeByte b) := by
  simpa using escapeByte_ofNat b.toNat b.toNat_lt

lemma escape_ne_nil (c : Char) : escape c ≠ [] := by
  have hlength : 0 < (String.utf8EncodeChar c).length := by
    rw [String.length_utf8EncodeChar]
    exact c.utf8Size_pos
  obtain ⟨b, bs, hb⟩ := List.exists_cons_of_length_pos hlength
  rw [escape, hb, List.flatMap_cons]
  exact List.append_ne_nil_of_left_ne_nil (escapeByte_spec b).1 _

lemma visible_spell : ∀ c ∈ spell path, Visible c := by
  rw [spell]
  split
  · rename_i h
    exact h.visible
  · intro c hc
    have hquote : Visible '"' := by decide
    simp only [List.cons_append, List.mem_cons, List.mem_append, List.mem_flatMap, List.not_mem_nil, or_false,
      escape] at hc
    obtain rfl | ⟨d, -, b, -, hc⟩ | rfl := hc
    · exact hquote
    · exact (escapeByte_spec b).2.1 c hc
    · exact hquote

lemma length_le_length_escapes (path : List Char) : path.length ≤ (path.flatMap escape).length := by
  induction path with
  | nil => rfl
  | cons c path ih =>
    have := List.length_pos_iff.mpr (escape_ne_nil c)
    rw [List.flatMap_cons, List.length_append, List.length_cons]
    omega

/-- Quotes and escapes make a path longer. -/
lemma length_lt_length_spell (h : ¬Plain path) : path.length < (spell path).length := by
  have hescapes := length_le_length_escapes path
  rw [spell, if_neg h]
  simp only [List.cons_append, List.length_cons, List.length_append]
  omega

/-- A marker whose characters stand for themselves alone occurs after escaping only where it did before. -/
lemma prefix_of_flatMap {f : Char → List Char} (hf : ∀ c, f c ≠ [])
    (hmarker : ∀ m ∈ marker, ∀ c, m ∈ f c → f c = [m] ∧ c = m) (h : marker <+: l.flatMap f) : marker <+: l := by
  induction marker generalizing l with
  | nil => exact List.nil_prefix
  | cons m ms ih =>
    cases l with
    | nil => simp at h
    | cons c l =>
      obtain ⟨d, ds, hd⟩ := List.exists_cons_of_ne_nil (hf c)
      rw [List.flatMap_cons, hd, List.cons_append, List.cons_prefix_cons] at h
      obtain ⟨rfl, h⟩ := h
      obtain ⟨hc, rfl⟩ := hmarker m List.mem_cons_self c (by simp [hd])
      obtain rfl : ds = [] := by simpa [hd] using hc
      exact (List.prefix_cons_inj c).mpr (ih (fun x hx => hmarker x (List.mem_cons_of_mem c hx)) h)

lemma infix_of_flatMap {f : Char → List Char} (hf : ∀ c, f c ≠ [])
    (hmarker : ∀ m ∈ marker, ∀ c, m ∈ f c → f c = [m] ∧ c = m) (h : marker <:+: l.flatMap f) : marker <:+: l := by
  induction l with
  | nil => exact h
  | cons c l ih =>
    cases marker with
    | nil => exact List.nil_infix
    | cons m ms =>
      rw [List.flatMap_cons] at h
      obtain ⟨s, t, h⟩ := h
      rw [List.append_assoc, List.append_eq_append_iff] at h
      obtain ⟨r, hc, hr⟩ | ⟨r, rfl, hr⟩ := h
      · cases r with
        | nil => exact List.infix_cons (ih ⟨[], t, hr⟩)
        | cons x r =>
          -- the marker begins within what stands for `c`, which is the character alone then
          obtain ⟨rfl, htail⟩ : m = x ∧ ms ++ t = r ++ l.flatMap f := by simpa using hr
          obtain ⟨hm, rfl⟩ := hmarker m List.mem_cons_self c (by simp [hc])
          obtain ⟨rfl, rfl⟩ : s = [] ∧ r = [] := by
            have hsingle : s ++ c :: r = [c] := hc.symm.trans hm
            cases s with
            | nil => simpa using hsingle
            | cons => simp at hsingle
          refine (prefix_of_flatMap hf hmarker (l := c :: l) ⟨t, ?_⟩).isInfix
          rw [List.flatMap_cons, hm, List.singleton_append, List.cons_append, htail, List.nil_append]
      · refine List.infix_cons (ih ⟨r, t, ?_⟩)
        rw [List.append_assoc, hr]

lemma escape_ofNat : ∀ n < 128, ∀ m ∈ [' ', '=', '>'], m ∈ escape (.ofNat n) →
    escape (.ofNat n) = [m] ∧ Char.ofNat n = m := by
  decide +kernel

/-- The bytes of characters outside of ASCII. -/
lemma le_of_mem_utf8EncodeChar (hc : 128 ≤ c.toNat) (hb : b ∈ String.utf8EncodeChar c) : 128 ≤ b.toNat := by
  have hc : ¬c.val.toNat ≤ 127 := Nat.not_le_of_lt hc
  simp only [String.utf8EncodeChar, if_neg hc] at hb
  split_ifs at hb <;> simp only [List.mem_cons, List.not_mem_nil, or_false] at hb
  · rcases hb with rfl | rfl <;> simp only [UInt8.toNat_ofNat'] <;> omega
  · rcases hb with rfl | rfl | rfl <;> simp only [UInt8.toNat_ofNat'] <;> omega
  · rcases hb with rfl | rfl | rfl | rfl <;> simp only [UInt8.toNat_ofNat'] <;> omega

/-- The characters of an arrow stand for themselves alone. -/
lemma eq_of_mem_escape (hm : m ∈ [' ', '=', '>']) (h : m ∈ escape c) : escape c = [m] ∧ c = m := by
  rcases Nat.lt_or_ge c.toNat 128 with hc | hc
  · have := escape_ofNat c.toNat hc m hm
    rw [Char.ofNat_toNat] at this
    exact this h
  · obtain ⟨b, hb, hmb⟩ := List.mem_flatMap.mp h
    obtain ⟨hblank, hequals, hgreater⟩ := (escapeByte_spec b).2.2 (le_of_mem_utf8EncodeChar hc hb)
    simp only [List.mem_cons, List.not_mem_nil, or_false] at hm
    rcases hm with rfl | rfl | rfl
    · exact absurd hmb hblank
    · exact absurd hmb hequals
    · exact absurd hmb hgreater

/-- A path without an arrow is printed without one. -/
lemma not_arrow_infix_spell (h : ¬arrow <:+: path) : ¬arrow <:+: spell path := by
  rw [spell]
  split
  · exact h
  · rw [List.cons_append, List.infix_cons_iff, List.infix_concat_iff, List.suffix_concat_iff]
    rintro (hfirst | (hnil | ⟨t, hlast, -⟩) | hwithin)
    · simp [arrow] at hfirst
    · cases hnil
    · simpa [arrow] using congrArg List.getLast? hlast
    · refine h (infix_of_flatMap escape_ne_nil (fun m hm c hmc => eq_of_mem_escape ?_ hmc) hwithin)
      simp only [arrow, List.mem_cons, List.not_mem_nil, or_false] at hm ⊢
      tauto

end

/-! ### Renames -/

/-- What two lists have in common at their beginnings. -/
def shared : List Char → List Char → List Char
  | a :: as, b :: bs => if a = b then a :: shared as bs else []
  | _, _ => []

/-- A list up to its last slash. -/
def upToSlash (l : List Char) : List Char := Text.dropEndWhile (· != '/') l

/-- The directories that two paths begin with. -/
def sharedFront (a b : List Char) : List Char := upToSlash (shared a b)

/-- What two paths end with, from a slash on, which may be the one that ends the directories that they begin with. -/
def sharedBack (a b : List Char) : List Char :=
  let start := (sharedFront a b).length - 1
  (upToSlash (shared (a.drop start).reverse (b.drop start).reverse)).reverse

/-- A path without some characters at its beginning and at its end. -/
def middle (front back path : List Char) : List Char :=
  (path.drop front.length).take (path.length - front.length - back.length)

section

variable {a b l : List Char}

lemma shared_isPrefix : ∀ a b : List Char, shared a b <+: a ∧ shared a b <+: b
  | [], _ => by simp [shared]
  | _ :: _, [] => by simp [shared]
  | x :: as, y :: bs => by
    rw [shared]
    split
    · rename_i h
      exact ⟨(List.prefix_cons_inj x).mpr (shared_isPrefix as bs).1,
        h ▸ (List.prefix_cons_inj x).mpr (shared_isPrefix as bs).2⟩
    · exact ⟨List.nil_prefix, List.nil_prefix⟩

lemma upToSlash_isPrefix (l : List Char) : upToSlash l <+: l := by
  rw [upToSlash, Text.dropEndWhile, ← List.reverse_suffix, List.reverse_reverse]
  exact List.dropWhile_suffix _

lemma getLast?_upToSlash : ∀ c ∈ (upToSlash l).getLast?, c = '/' := by
  intro c hc
  rw [upToSlash, Text.dropEndWhile, List.getLast?_reverse] at hc
  simpa using Text.head?_dropWhile c hc

lemma sharedFront_isPrefix (a b : List Char) : sharedFront a b <+: b :=
  (upToSlash_isPrefix _).trans (shared_isPrefix a b).2

lemma sharedBack_isSuffix (a b : List Char) : sharedBack a b <:+ b.drop ((sharedFront a b).length - 1) := by
  rw [sharedBack, ← List.reverse_prefix, List.reverse_reverse]
  exact (upToSlash_isPrefix _).trans (shared_isPrefix _ _).2

lemma middle_isInfix (front back path : List Char) : middle front back path <:+: path :=
  (List.take_prefix _ _).isInfix.trans (List.drop_suffix _ path).isInfix

lemma middle_append (front m back : List Char) : middle front back (front ++ (m ++ back)) = m := by
  have hlength : (front ++ (m ++ back)).length - front.length - back.length = m.length := by
    simp only [List.length_append]
    omega
  rw [middle, List.drop_left, hlength, List.take_left]

lemma middle_overlap (front rest : List Char) (c : Char) : middle front (c :: rest) (front ++ rest) = [] := by
  have hlength : (front ++ rest).length - front.length - (c :: rest).length = 0 := by
    simp only [List.length_append, List.length_cons]
    omega
  rw [middle, hlength, List.take_zero]

/-- Together the pieces are the new path, but the slash between what is shared can be in both pieces. -/
lemma assembled (a b : List Char) :
    sharedFront a b ++ (middle (sharedFront a b) (sharedBack a b) b ++ sharedBack a b) = b ∨
      ∃ u v, sharedFront a b ++ (middle (sharedFront a b) (sharedBack a b) b ++ sharedBack a b) =
        u ++ (['/', '/'] ++ v) ∧ b = u ++ '/' :: v := by
  obtain ⟨rest, hrest⟩ := sharedFront_isPrefix a b
  obtain ⟨t, ht⟩ := sharedBack_isSuffix a b
  have hlast : ∀ c ∈ (sharedFront a b).getLast?, c = '/' := getLast?_upToSlash
  generalize sharedFront a b = front at *
  generalize sharedBack a b = back at *
  subst hrest
  rcases List.eq_nil_or_concat' front with rfl | ⟨u, c, rfl⟩
  · obtain rfl : t ++ back = rest := ht
    exact Or.inl (congrArg ([] ++ ·) (congrArg (· ++ back) (middle_append [] t back)))
  · obtain rfl : c = '/' := hlast c (by simp)
    have hdrop : (u ++ ['/'] ++ rest).drop ((u ++ ['/']).length - 1) = '/' :: rest := by simp
    rw [hdrop] at ht
    cases t with
    | nil =>
      obtain rfl : back = '/' :: rest := ht
      refine Or.inr ⟨u, rest, ?_, by simp⟩
      rw [middle_overlap]
      simp
    | cons x t =>
      obtain rfl : t ++ back = rest := (List.cons.inj ht).2
      exact Or.inl (by rw [middle_append])

end

/-- How a rename is spelled: what its paths share, and what they do not. -/
structure Spelling where
  front : List Char
  old : List Char
  new : List Char
  back : List Char

namespace Spelling

/-- Nothing is shared. -/
def Bare (s : Spelling) : Prop := s.front = [] ∧ s.back = []

instance : DecidablePred Bare := fun s => inferInstanceAs (Decidable (s.front = [] ∧ s.back = []))

/-- The name that is printed. -/
def text (s : Spelling) : List Char :=
  if s.Bare then s.old ++ (arrow ++ s.new)
  else s.front ++ '{' :: (s.old ++ (arrow ++ s.new) ++ '}' :: s.back)

/-- The marks of the name stand out: no brace is mistaken for one of them, and the old path does not run into the
arrow. -/
def Clear (s : Spelling) : Prop :=
  ¬[' ', '=', '>'] <:+ s.old ∧
    if s.Bare then '{' ∉ s.old ∨ '}' ∉ s.new else '{' ∉ s.front ∧ '}' ∉ s.back

instance : DecidablePred Clear := fun s => inferInstanceAs (Decidable (¬[' ', '=', '>'] <:+ s.old ∧
  if s.Bare then '{' ∉ s.old ∨ '}' ∉ s.new else '{' ∉ s.front ∧ '}' ∉ s.back))

end Spelling

/-- The spelling of a rename. Nothing is shared when one of the paths is in quotes. -/
def spelling (source target : List Char) : Spelling :=
  if Plain source ∧ Plain target then
    let front := sharedFront source target
    let back := sharedBack source target
    ⟨front, middle front back source, middle front back target, back⟩
  else ⟨[], spell source, spell target, []⟩

/-! ### Listings -/

/-- A path of a repository that is not blank at its ends and has no arrow. -/
structure Proper (path : List Char) : Prop where
  ne_nil : path ≠ []
  tight : Text.Tight path
  not_arrow : ¬arrow <:+: path
  not_slashes : ¬['/', '/'] <:+: path

lemma proper_iff {path : List Char} :
    Proper path ↔ path ≠ [] ∧ Text.Tight path ∧ ¬arrow <:+: path ∧ ¬['/', '/'] <:+: path :=
  ⟨fun h => ⟨h.ne_nil, h.tight, h.not_arrow, h.not_slashes⟩, fun ⟨hne, ht, ha, hs⟩ => ⟨hne, ht, ha, hs⟩⟩

instance : DecidablePred Proper := fun _ => decidable_of_iff' _ proper_iff

/-- What a commit did to a path. -/
inductive Origin where
  | added
  | modified
  | deleted
  | typeChanged
  /-- The path was renamed from another one, to which it is similar in percent. -/
  | renamed (source : String) (similarity : Nat)
  /-- The path was copied from another one. -/
  | copied (source : String) (similarity : Nat)

/-- A change of a commit. The line counts of a binary file are not known. -/
structure Entry where
  path : String
  origin : Origin
  counts : Option (UInt32 × UInt32)

namespace Entry

/-- The change as the history keeps it. -/
def change (e : Entry) : FileChange where
  path := e.path
  previousPath :=
    match e.origin with
    | .renamed source _ => some source
    | _ => none
  change :=
    match e.origin with
    | .added | .copied .. => .added
    | .modified | .typeChanged => .modified
    | .deleted => .deleted
    | .renamed .. => .renamed
  additions := (e.counts.map fun n => n.1.toNat).getD 0
  deletions := (e.counts.map fun n => n.2.toNat).getD 0

/-- A letter with three digits. -/
def scored (letter : Char) (n : Nat) : List Char :=
  [letter, Nat.digitChar (n / 100 % 10), Nat.digitChar (n / 10 % 10), Nat.digitChar (n % 10)]

/-- The fields of the line with the kind of a change. -/
def statusFields (e : Entry) : List (List Char) :=
  match e.origin with
  | .added => [['A'], spell e.path.toList]
  | .modified => [['M'], spell e.path.toList]
  | .deleted => [['D'], spell e.path.toList]
  | .typeChanged => [['T'], spell e.path.toList]
  | .renamed source n => [scored 'R' n, spell source.toList, spell e.path.toList]
  | .copied source n => [scored 'C' n, spell source.toList, spell e.path.toList]

/-- The path that a path was renamed or copied from. -/
def source? (e : Entry) : Option String :=
  match e.origin with
  | .renamed source _ | .copied source _ => some source
  | _ => none

/-- The paths of a change are proper. -/
def Proper (e : Entry) : Prop := Git.Proper e.path.toList ∧ ∀ s ∈ e.source?, Git.Proper s.toList

instance : DecidablePred Proper := fun e =>
  inferInstanceAs (Decidable (Git.Proper e.path.toList ∧ ∀ s ∈ e.source?, Git.Proper s.toList))

/-- The marks stand out in the name of a rename or a copy. -/
def Clear (e : Entry) : Prop := ∀ s ∈ e.source?, (spelling s.toList e.path.toList).Clear

instance : DecidablePred Clear := fun e =>
  inferInstanceAs (Decidable (∀ s ∈ e.source?, (spelling s.toList e.path.toList).Clear))

/-- The name of a change beside its line counts. -/
def name (e : Entry) : List Char :=
  match e.source? with
  | some source => (spelling source.toList e.path.toList).text
  | none => spell e.path.toList

/-- The fields of the line with the line counts of a change. -/
def countFields (e : Entry) : List (List Char) :=
  match e.counts with
  | some (additions, deletions) => [Nat.toDigits 10 additions.toNat, Nat.toDigits 10 deletions.toNat, e.name]
  | none => [['-'], ['-'], e.name]

end Entry

/-- A line of fields. -/
def line (fields : List (List Char)) : List Char := ['\t'].intercalate fields ++ ['\n']

/-- The changes of a commit with their kinds. -/
def nameStatus (entries : List Entry) : String := .ofList (entries.flatMap fun e => line e.statusFields)

/-- The changes of a commit with their line counts. -/
def numstat (entries : List Entry) : String := .ofList (entries.flatMap fun e => line e.countFields)

example :
    let entries : List Entry := [⟨"src/new/lib.rs", .renamed "src/old/lib.rs" 97, some (3, 1)⟩,
      ⟨"b.py", .copied "a.py" 100, some (0, 0)⟩, ⟨"café.png", .added, none⟩]
    nameStatus entries = "R097\tsrc/old/lib.rs\tsrc/new/lib.rs\nC100\ta.py\tb.py\nA\t\"caf\\303\\251.png\"\n" ∧
      numstat entries = "3\t1\tsrc/\x7bold => new\x7d/lib.rs\n0\t0\ta.py => b.py\n-\t-\t\"caf\\303\\251.png\"\n" := by
  decide

end RepoAtlas.Git
