import Mathlib.Data.List.Range
import Mathlib.Tactic.Common
import RepoAtlas.Graph.Node

/-!
# Normal forms of texts

A trimmed text stays as it is when it is trimmed again. So does a text in lower case when it is put in lower case
again: no range of the table covers what a range yields, and only capitals depend on the characters next to them.
Lower case makes nothing blank, so both together are a normal form, by which authors are known.
-/

namespace RepoAtlas

namespace Text

/-- What holds for all characters of a list is decided by them, and not by trying every character. -/
instance decidableForallChars {p : Char → Prop} [DecidablePred p] (l : List Char) : Decidable (∀ c ∈ l, p c) :=
  List.decidableBAll p l

instance decidableForallChar? {p : Char → Prop} [DecidablePred p] (o : Option Char) : Decidable (∀ c ∈ o, p c) :=
  Option.decidableForallMem o

variable {c : Char} {s : String} {l before : List Char}

/-! ### Trimming -/

/-- Neither the first nor the last character is blank. -/
def Tight (l : List Char) : Prop :=
  (∀ c ∈ l.head?, isBlank c = false) ∧ ∀ c ∈ l.getLast?, isBlank c = false

instance : DecidablePred Tight := fun l =>
  inferInstanceAs (Decidable ((∀ c ∈ l.head?, isBlank c = false) ∧ ∀ c ∈ l.getLast?, isBlank c = false))

lemma dropWhile_of_head? {p : Char → Bool} (h : ∀ c ∈ l.head?, p c = false) : l.dropWhile p = l := by
  cases l with
  | nil => rfl
  | cons c l => exact List.dropWhile_cons_of_neg (by simp [h c rfl])

lemma head?_dropWhile {p : Char → Bool} : ∀ c ∈ (l.dropWhile p).head?, p c = false := by
  intro c hc
  simpa [Option.mem_def.mp hc] using List.head?_dropWhile_not p l

lemma dropEndWhile_of_getLast? {p : Char → Bool} (h : ∀ c ∈ l.getLast?, p c = false) :
    dropEndWhile p l = l := by
  rw [dropEndWhile, dropWhile_of_head? (by simpa using h), List.reverse_reverse]

lemma Tight.trim_eq (h : Tight s.toList) : trim s = s := by
  rw [trim, dropWhile_of_head? h.1, dropEndWhile_of_getLast? h.2, String.ofList_toList]

lemma tight_trim (s : String) : Tight (trim s).toList := by
  rw [trim, String.toList_ofList]
  generalize hl : s.toList.dropWhile isBlank = l
  have hhead : ∀ c ∈ l.head?, isBlank c = false := hl ▸ head?_dropWhile
  refine ⟨fun c hc => ?_, fun c hc => ?_⟩
  · -- what is dropped at the end leaves the beginning
    obtain ⟨t, ht⟩ : dropEndWhile isBlank l <+: l := by
      rw [dropEndWhile, ← List.reverse_suffix, List.reverse_reverse]
      exact List.dropWhile_suffix isBlank
    refine hhead c ?_
    rw [← ht, List.head?_append, Option.mem_def.mp hc]
    rfl
  · rw [dropEndWhile, List.getLast?_reverse] at hc
    exact head?_dropWhile c hc

/-! ### Lower case -/

/-- The lower case of a character in its place. -/
def imageAt (before : List Char) (c : Char) (rest : List Char) : List Char :=
  if c == 'Σ' then if meetsCased before && !meetsCased rest then ['ς'] else ['σ']
  else if c == 'İ' then ['i', '\u0307']
  else if c.toNat < 128 then [c.toLower]
  else [lowerChar c]

lemma lowerAfter_cons (before : List Char) (c : Char) (rest : List Char) :
    lowerAfter before (c :: rest) = imageAt before c rest ++ lowerAfter (c :: before) rest := rfl

/-- No mapping applies to a character. -/
def Lowered (c : Char) : Prop := c ≠ 'İ' ∧ ∀ q ∈ lowerRanges, q.covers c.toNat = false

instance : DecidablePred Lowered := fun c =>
  inferInstanceAs (Decidable (c ≠ 'İ' ∧ ∀ q ∈ lowerRanges, q.covers c.toNat = false))

namespace CaseRange

variable {r q : CaseRange} {n : Nat}

/-- What a range yields for a number. -/
def image (r : CaseRange) (n : Nat) : Nat := (n + r.shift).toNat

/-- What a range yields are numbers that are all even or all odd. -/
def alternates (r : CaseRange) : Bool := r.stride == 2 || r.first == r.last

/-- A range maps no number from `lo` to `hi`, or it maps every second one, and not `lo`, but the numbers in question
are `lo` and those at even distances. -/
def avoids (lo hi : Nat) (alternating : Bool) (q : CaseRange) : Bool :=
  hi.blt q.first || q.last.blt lo || alternating && q.stride == 2 && lo % 2 != q.first % 2

/-- The numbers of blanks, of the capital that becomes two characters, and of no characters. -/
def gaps : List (Nat × Nat) :=
  [(9, 13), (0x20, 0x20), (0x85, 0x85), (0xA0, 0xA0), (0x1680, 0x1680), (0x2000, 0x200A), (0x2028, 0x2029),
   (0x202F, 0x202F), (0x205F, 0x205F), (0x3000, 0x3000), (0x130, 0x130), (0xD800, 0xDFFF)]

/-- A range yields characters that are not blank and do not become two. -/
def proper (r : CaseRange) : Bool :=
  0 ≤ r.first + r.shift && r.image r.last < 0x110000 &&
    gaps.all fun (lo, hi) => r.image r.last < lo || hi < r.image r.first

lemma all_avoids :
    lowerRanges.all fun r => lowerRanges.all (avoids (r.image r.first) (r.image r.last) r.alternates) := by
  decide +kernel

lemma all_proper : lowerRanges.all proper := by
  decide

lemma image_eq_add (hr : 0 ≤ r.first + r.shift) (hn : r.first ≤ n) :
    r.image n = r.image r.first + (n - r.first) := by
  unfold image
  omega

/-- No range covers what a range yields. -/
lemma covers_image (hr : r ∈ lowerRanges) (hq : q ∈ lowerRanges) (hn : r.covers n) :
    q.covers (r.image n) = false := by
  have havoids := List.all_eq_true.mp (List.all_eq_true.mp all_avoids r hr) q hq
  have hproper := List.all_eq_true.mp all_proper r hr
  simp only [covers, proper, Bool.and_eq_true, decide_eq_true_eq, beq_iff_eq] at hn hproper
  obtain ⟨⟨hfirst, hlast⟩, hmod⟩ := hn
  have hpos := hproper.1.1
  have himage := image_eq_add hpos hfirst
  have hend := image_eq_add hpos (hfirst.trans hlast)
  by_contra hcovers
  simp only [covers, Bool.not_eq_false, Bool.and_eq_true, decide_eq_true_eq, beq_iff_eq] at hcovers
  simp only [avoids, alternates, Bool.or_eq_true, Nat.blt_eq, Bool.and_eq_true, beq_iff_eq, bne_iff_ne] at havoids
  obtain (habove | hbelow) | ⟨⟨halternates, htwo⟩, hparity⟩ := havoids
  · omega
  · omega
  · -- the distance between the two numbers would be even
    rw [htwo] at hcovers
    obtain hstride | hone := halternates
    · rw [hstride] at hmod
      omega
    · omega

/-- What a range yields is in no gap. -/
lemma not_gap_image (hr : r ∈ lowerRanges) (hn : r.covers n) :
    r.image n < 0x110000 ∧ ∀ g ∈ gaps, ¬ (g.1 ≤ r.image n ∧ r.image n ≤ g.2) := by
  have hproper := List.all_eq_true.mp all_proper r hr
  simp only [proper, Bool.and_eq_true, decide_eq_true_eq] at hproper
  obtain ⟨⟨hpos, hmax⟩, hgaps⟩ := hproper
  simp only [covers, Bool.and_eq_true, decide_eq_true_eq] at hn
  have himage := image_eq_add hpos hn.1.1
  have hend := image_eq_add hpos (hn.1.1.trans hn.1.2)
  refine ⟨by omega, fun g hg => ?_⟩
  have hapart := List.all_eq_true.mp hgaps g hg
  simp only [Bool.or_eq_true, decide_eq_true_eq] at hapart
  omega

lemma gap_of_isBlank (hc : isBlank c) : ∃ g ∈ gaps, g.1 ≤ c.toNat ∧ c.toNat ≤ g.2 := by
  simp only [isBlank, Bool.or_eq_true, Bool.and_eq_true, decide_eq_true_eq, beq_iff_eq] at hc
  simp only [gaps, List.mem_cons, List.not_mem_nil, or_false, exists_eq_or_imp, exists_eq_left]
  omega

/-- What a range yields is the number of a character that is not blank and not mapped. -/
lemma image_lowered (hr : r ∈ lowerRanges) (hn : r.covers n) :
    Lowered (.ofNat (r.image n)) ∧ isBlank (.ofNat (r.image n)) = false := by
  obtain ⟨hmax, hgaps⟩ := not_gap_image hr hn
  have htoNat : (Char.ofNat (r.image n)).toNat = r.image n := by
    have hsurrogate := hgaps (0xD800, 0xDFFF) (by simp [gaps])
    rw [Char.ofNat, dif_pos (by unfold Nat.isValidChar; omega)]
    rfl
  refine ⟨⟨fun hdotted => ?_, fun q hq => ?_⟩, ?_⟩
  · have himage : r.image n = 0x130 := by rw [← htoNat, hdotted]; rfl
    exact hgaps (0x130, 0x130) (by simp [gaps]) ⟨himage.ge, himage.le⟩
  · rw [htoNat]
    exact covers_image hr hq hn
  · by_contra hblank
    obtain ⟨g, hg, hbetween⟩ := gap_of_isBlank (by simpa using hblank)
    exact hgaps g hg (htoNat ▸ hbetween)

end CaseRange

lemma not_lowered_sigma : ¬ Lowered 'Σ' := by
  decide

lemma all_tail_lowerRanges : lowerRanges.tail.all fun q => (128).ble q.first := by
  decide

/-- On ASCII the table agrees with the mapping of capital letters. -/
lemma toLower_eq_lowerChar (hc : c.toNat < 128) : c.toLower = lowerChar c := by
  have htable : lowerRanges = ⟨0x41, 0x5A, 1, 32⟩ :: lowerRanges.tail := rfl
  have htail : lowerRanges.tail.find? (·.covers c.toNat) = none := by
    refine List.find?_eq_none.mpr fun q hq => ?_
    have hfirst := Nat.le_of_ble_eq_true (List.all_eq_true.mp all_tail_lowerRanges q hq)
    simp only [CaseRange.covers, Bool.and_eq_true, decide_eq_true_eq]
    omega
  by_cases hcapital : 0x41 ≤ c.toNat ∧ c.toNat ≤ 0x5A
  · have hfind : lowerRanges.find? (·.covers c.toNat) = some ⟨0x41, 0x5A, 1, 32⟩ := by
      rw [htable]
      exact List.find?_cons_of_pos (by simp [CaseRange.covers, hcapital, Nat.mod_one])
    have hlower : lowerChar c = .ofNat (c.toNat + 32) := by rw [lowerChar, hfind]; rfl
    have hadd : ∀ a < 0x5B, 0x41 ≤ a → (Char.ofNat a).toLower = .ofNat (a + 32) := by decide
    rw [hlower, ← hadd c.toNat (Nat.lt_succ_of_le hcapital.2) hcapital.1, Char.ofNat_toNat]
  · have hfind : lowerRanges.find? (·.covers c.toNat) = none := by
      rw [htable, ← htail]
      refine List.find?_cons_of_neg ?_
      simp only [CaseRange.covers, Bool.and_eq_true, decide_eq_true_eq]
      tauto
    rw [lowerChar, hfind]
    exact dif_neg hcapital

lemma Lowered.lowerChar_eq (hc : Lowered c) : lowerChar c = c := by
  rw [lowerChar, List.find?_eq_none.mpr fun q hq => by simp [hc.2 q hq]]

lemma Lowered.imageAt_eq (hc : Lowered c) (before rest : List Char) : imageAt before c rest = [c] := by
  have hsigma : c ≠ 'Σ' := fun h => not_lowered_sigma (h ▸ hc)
  have hascii (h : c.toNat < 128) : c.toLower = c := (toLower_eq_lowerChar h).trans hc.lowerChar_eq
  simp +contextual [imageAt, hsigma, hc.1, hascii, hc.lowerChar_eq]

/-- The simple mapping of a character is in lower case, and not blank unless the character is. -/
lemma lowered_lowerChar (hc : c ≠ 'İ') :
    Lowered (lowerChar c) ∧ (isBlank c = false → isBlank (lowerChar c) = false) := by
  cases hfind : lowerRanges.find? (·.covers c.toNat) with
  | none =>
    have hlower : lowerChar c = c := by rw [lowerChar, hfind]
    rw [hlower]
    exact ⟨⟨hc, fun q hq => by simpa using List.find?_eq_none.mp hfind q hq⟩, id⟩
  | some r =>
    have hlower : lowerChar c = .ofNat (r.image c.toNat) := by rw [lowerChar, hfind]; rfl
    rw [hlower]
    have hcovers : r.covers c.toNat := by simpa using List.find?_some hfind
    have himage := CaseRange.image_lowered (List.mem_of_find?_eq_some hfind) hcovers
    exact ⟨himage.1, fun _ => himage.2⟩

/-- So is its lower case in any place. -/
lemma lowered_of_mem_imageAt {d : Char} {rest : List Char} (hd : d ∈ imageAt before c rest) :
    Lowered d ∧ (isBlank c = false → isBlank d = false) := by
  have hfixed : ∀ x ∈ ['σ', 'ς', 'i', '\u0307'], Lowered x ∧ isBlank x = false := by decide +kernel
  have hsimple : c ≠ 'İ' → d = lowerChar c → Lowered d ∧ (isBlank c = false → isBlank d = false) := by
    rintro hc rfl
    exact lowered_lowerChar hc
  unfold imageAt at hd
  split_ifs at hd with hsigma hfinal hdotted hascii
  · exact (hfixed d (by simp_all)).imp_right fun h _ => h
  · exact (hfixed d (by simp_all)).imp_right fun h _ => h
  · refine (hfixed d ?_).imp_right fun h _ => h
    exact List.mem_cons_of_mem _ (List.mem_cons_of_mem _ hd)
  · exact hsimple (by simpa using hdotted) ((List.mem_singleton.mp hd).trans (toLower_eq_lowerChar hascii))
  · exact hsimple (by simpa using hdotted) (List.mem_singleton.mp hd)

lemma lowered_of_mem_lowerAfter : ∀ {l before : List Char}, ∀ d ∈ lowerAfter before l, Lowered d
  | [], _, d, hd => absurd hd List.not_mem_nil
  | c :: rest, before, d, hd => by
    rw [lowerAfter_cons, List.mem_append] at hd
    obtain himage | hrest := hd
    · exact (lowered_of_mem_imageAt himage).1
    · exact lowered_of_mem_lowerAfter d hrest

lemma lowerAfter_of_lowered : ∀ {l before : List Char}, (∀ c ∈ l, Lowered c) → lowerAfter before l = l
  | [], _, _ => rfl
  | c :: rest, before, hl => by
    rw [lowerAfter_cons, (hl c List.mem_cons_self).imageAt_eq,
      lowerAfter_of_lowered fun d hd => hl d (List.mem_cons_of_mem c hd), List.singleton_append]

/-! ### Both together -/

lemma imageAt_ne_nil (before : List Char) (c : Char) (rest : List Char) : imageAt before c rest ≠ [] := by
  unfold imageAt
  split_ifs <;> simp

/-- The last character of the lower case comes from the last character. -/
lemma mem_imageAt_of_getLast? {d : Char} : ∀ {l before : List Char}, d ∈ (lowerAfter before l).getLast? →
    ∃ c ∈ l.getLast?, ∃ before rest, d ∈ imageAt before c rest
  | [], _, hd => by simp [lowerAfter] at hd
  | [c], before, hd => by
    rw [lowerAfter_cons] at hd
    exact ⟨c, rfl, before, [], List.mem_of_mem_getLast? (by simpa [lowerAfter] using hd)⟩
  | c :: e :: rest, before, hd => by
    have hrest : lowerAfter (c :: before) (e :: rest) ≠ [] := by
      rw [lowerAfter_cons]
      exact List.append_ne_nil_of_left_ne_nil (imageAt_ne_nil _ _ _) _
    rw [lowerAfter_cons, List.getLast?_append_of_ne_nil _ hrest] at hd
    rw [List.getLast?_cons_cons]
    exact mem_imageAt_of_getLast? hd

/-- Lower case keeps a trimmed text trimmed. -/
lemma Tight.lowerAfter (hl : Tight l) (before : List Char) : Tight (lowerAfter before l) := by
  refine ⟨fun d hd => ?_, fun d hd => ?_⟩
  · cases l with
    | nil => simp [Text.lowerAfter] at hd
    | cons c rest =>
      rw [lowerAfter_cons, List.head?_append_of_ne_nil _ (imageAt_ne_nil _ _ _)] at hd
      exact (lowered_of_mem_imageAt (List.mem_of_mem_head? hd)).2 (hl.1 c rfl)
  · obtain ⟨c, hc, _, _, hd⟩ := mem_imageAt_of_getLast? hd
    exact (lowered_of_mem_imageAt hd).2 (hl.2 c hc)

end Text

/-! ### Emails -/

variable {email : String}

lemma tight_normalizeEmail (email : String) : Text.Tight (normalizeEmail email).toList := by
  rw [normalizeEmail, Text.lower, String.toList_ofList]
  exact (Text.tight_trim email).lowerAfter []

lemma lowered_of_mem_normalizeEmail : ∀ c ∈ (normalizeEmail email).toList, Text.Lowered c := by
  rw [normalizeEmail, Text.lower, String.toList_ofList]
  exact Text.lowered_of_mem_lowerAfter

/-- The form by which authors are known is that of the emails without blanks at the ends and without characters that
a mapping applies to. -/
lemma normalizeEmail_eq_self_iff :
    normalizeEmail email = email ↔ Text.Tight email.toList ∧ ∀ c ∈ email.toList, Text.Lowered c := by
  constructor
  · intro h
    exact h ▸ ⟨tight_normalizeEmail email, lowered_of_mem_normalizeEmail⟩
  · rintro ⟨htight, hlowered⟩
    rw [normalizeEmail, htight.trim_eq, Text.lower, Text.lowerAfter_of_lowered hlowered, String.ofList_toList]

/-- It stays as it is when it is taken again. -/
lemma normalizeEmail_again (email : String) : normalizeEmail (normalizeEmail email) = normalizeEmail email :=
  normalizeEmail_eq_self_iff.mpr ⟨tight_normalizeEmail email, lowered_of_mem_normalizeEmail⟩

end RepoAtlas
