import Mathlib.Data.List.Induction
import RepoAtlas.Scan.FileTree

/-!
# Paths by their parts

A path is the text of its parts, and if they are names its components are those. The entry that ends at one
place of a path, seen from the directory that ends at an earlier place, is the text of the parts in between.
-/

namespace RepoAtlas

namespace Text

variable {α : Type} {p : α → Bool} {l : List α}

lemma pieces_eq_splitOnP (p : α → Bool) (l : List α) : pieces p l = l.splitOnP p := by
  induction l with
  | nil => simp [pieces]
  | cons a l ih =>
    rw [pieces, List.splitOnP_cons_eq_if_modifyHead, ih]
    split
    · rfl
    · cases h : l.splitOnP p with
      | nil => exact absurd h (List.splitOnP_ne_nil p l)
      | cons q qs => rfl

/-- Pieces hold no separators. -/
lemma not_of_mem_pieces : ∀ q ∈ pieces p l, ∀ a ∈ q, p a = false := by
  induction l with
  | nil => simp [pieces]
  | cons a l ih =>
    rw [pieces]
    split
    · simpa using ih
    · rename_i ha
      rw [Bool.not_eq_true] at ha
      cases h : pieces p l with
      | nil => simpa using ha
      | cons q qs =>
        rw [h] at ih
        simp only [List.forall_mem_cons] at ih ⊢
        exact ⟨⟨ha, ih.1⟩, ih.2⟩

lemma splitAt_eq (c : Char) (s : String) : splitAt c s = (s.toList.splitOn c).map String.ofList := by
  rw [splitAt, pieces_eq_splitOnP]
  rfl

/-- What follows a given beginning. -/
lemma after?_eq_some_iff [BEq α] [LawfulBEq α] {start l rest : List α} :
    after? start l = some rest ↔ l = start ++ rest := by
  induction start generalizing l with
  | nil => cases l <;> simp [after?]
  | cons a start ih =>
    cases l with
    | nil => simp [after?]
    | cons b l =>
      by_cases hab : a = b
      · simp [after?, hab, ih]
      · simp [after?, hab, Ne.symm hab]

lemma after?_append [BEq α] [LawfulBEq α] (start rest : List α) : after? start (start ++ rest) = some rest :=
  after?_eq_some_iff.mpr rfl

lemma stripStart?_append (start rest : String) : stripStart? (start ++ rest) start = some rest := by
  rw [stripStart?, String.toList_append, after?_append]
  simp

lemma eq_append_of_stripEnd? {s stop rest : String} (h : stripEnd? s stop = some rest) : s = rest ++ stop := by
  obtain ⟨l, hl, rfl⟩ := Option.map_eq_some_iff.mp h
  have hrev := congrArg List.reverse (after?_eq_some_iff.mp hl)
  simp only [List.reverse_reverse, List.reverse_append] at hrev
  simp [← String.toList_inj, hrev]

/-- What stands before the first occurrence of an element, and after it. -/
lemma eq_append_of_cutList? [BEq α] [LawfulBEq α] {a : α} {l before rest : List α}
    (h : cutList? [a] l = some (before, rest)) : l = before ++ a :: rest ∧ a ∉ before := by
  induction l generalizing before with
  | nil => simp [cutList?, after?] at h
  | cons b l ih =>
    by_cases hab : a = b
    · simp only [cutList?, after?, hab, beq_self_eq_true, if_true, Option.some.injEq, Prod.mk.injEq] at h
      obtain ⟨rfl, rfl⟩ := h
      simp [hab]
    · simp only [cutList?, after?, beq_eq_false_iff_ne.mpr hab, Bool.false_eq_true, if_false,
        Option.map_eq_some_iff, Prod.mk.injEq] at h
      obtain ⟨⟨before, rest⟩, hcut, rfl, rfl⟩ := h
      obtain ⟨rfl, hnot⟩ := ih hcut
      exact ⟨rfl, by simp [hab, hnot]⟩

end Text

namespace Paths

variable {l : List String} {p : String} {k m : Nat}

/-! ### Parts -/

/-- A list of names: each can stand between separators, and none begins with a dot. -/
def Named (l : List String) : Prop := ∀ x ∈ l, x ≠ "" ∧ '/' ∉ x.toList ∧ Text.startsWith x "." = false

lemma not_mem_of_mem_parts {x : String} (hx : x ∈ parts p) : '/' ∉ x.toList := by
  simp only [parts, Text.splitAt, List.mem_map] at hx
  obtain ⟨q, hq, rfl⟩ := hx
  intro hmem
  have := Text.not_of_mem_pieces q hq '/' (by simpa using hmem)
  simp at this

lemma join_parts (p : String) : Text.join "/" (parts p) = p := by
  have hid : String.toList ∘ String.ofList = id := by
    funext q
    simp
  rw [← String.toList_inj, Text.join, String.toList_intercalate, parts, Text.splitAt_eq, List.map_map, hid,
    List.map_id]
  exact List.intercalate_splitOn '/'

lemma parts_join (hl : l ≠ []) (hslash : ∀ x ∈ l, '/' ∉ x.toList) : parts (Text.join "/" l) = l := by
  have hid : String.ofList ∘ String.toList = id := by
    funext q
    simp
  have hchars : ∀ x ∈ l.map String.toList, '/' ∉ x := by simpa using hslash
  have hsplit := List.splitOn_intercalate '/' hchars (by simpa using hl)
  rw [parts, Text.splitAt_eq, Text.join, String.toList_intercalate]
  change List.map String.ofList (List.splitOn '/' (['/'].intercalate (l.map String.toList))) = l
  rw [hsplit, List.map_map, hid, List.map_id]

lemma join_append {a b : List String} (ha : a ≠ []) (hb : b ≠ []) :
    Text.join "/" (a ++ b) = Text.join "/" a ++ "/" ++ Text.join "/" b :=
  String.intercalate_append_of_ne_nil ha hb

/-- The proper beginnings of a list end at its inner places. -/
lemma properPrefixes_eq {α : Type} (l : List α) :
    properPrefixes l = (List.range (l.length - 1)).map fun i => l.take (i + 1) := by
  induction l with
  | nil => rfl
  | cons a l ih =>
    cases l with
    | nil => rfl
    | cons b l =>
      simp only [properPrefixes, ih, List.map_map, List.length_cons, Nat.add_sub_cancel]
      rw [List.range_succ_eq_map, List.map_cons, List.map_map]
      rfl

/-! ### Components -/

lemma componentsOfParts_of_named (h : Named l) (first : Bool) : componentsOfParts first l = l.map .name := by
  induction l generalizing first with
  | nil => rfl
  | cons x l ih =>
    obtain ⟨hne, -, hdot⟩ := h x (by simp)
    have ih := ih (fun y hy => h y (by simp [hy]))
    have hx : x ≠ "." := by
      rintro rfl
      simp [Text.startsWith, Text.stripStart?, Text.after?] at hdot
    have hxx : x ≠ ".." := by
      rintro rfl
      simp [Text.startsWith, Text.stripStart?, Text.after?] at hdot
    simp [componentsOfParts, hne, hx, hxx, ih]

/-- A text of names does not begin with a separator. -/
lemma isAbsolute_join (h : Named l) : isAbsolute (Text.join "/" l) = false := by
  cases l with
  | nil => rfl
  | cons x l =>
    obtain ⟨hne, hslash, -⟩ := h x (by simp)
    have hstart : ∃ c cs, (Text.join "/" (x :: l)).toList = c :: cs ∧ c ≠ '/' := by
      cases hx : x.toList with
      | nil => exact absurd (String.toList_inj.mp (hx.trans String.toList_empty.symm)) hne
      | cons c cs =>
        rw [hx] at hslash
        have hc : c ≠ '/' := fun hc => hslash (by simp [hc])
        cases l with
        | nil => exact ⟨c, cs, by simp [Text.join, hx], hc⟩
        | cons y l => exact ⟨c, _, by simp [Text.join, String.intercalate_cons_cons, hx]; rfl, hc⟩
    obtain ⟨c, cs, hlist, hc⟩ := hstart
    simp [isAbsolute, Text.startsWith, Text.stripStart?, hlist, Text.after?, Ne.symm hc]

lemma components_join (h : Named l) : components (Text.join "/" l) = l.map .name := by
  by_cases hl : l = []
  · subst hl
    rfl
  · have habs : Text.startsWith (Text.join "/" l) "/" = false := isAbsolute_join h
    have hparts : Text.splitAt '/' (Text.join "/" l) = l := parts_join hl fun x hx => (h x hx).2.1
    simp only [components, habs, hparts, Bool.false_eq_true, if_false]
    exact componentsOfParts_of_named h true

lemma ofComponents_names (l : List String) : ofComponents (l.map .name) = Text.join "/" l := by
  cases l with
  | nil => rfl
  | cons x l =>
    simp only [List.map_cons, ofComponents, ofComponents.joined, List.map_map]
    exact congrArg (Text.join "/" <| x :: ·) (List.map_id l)

/-- The text of names and those above it, nearest first; the last one is empty. -/
lemma ancestors_join (h : Named l) :
    ancestors (Text.join "/" l) = (List.range (l.length + 1)).reverse.map fun i => Text.join "/" (l.take i) := by
  have hgo : ∀ b : List String, ancestors.go (b.map Component.name).reverse =
      (List.range b.length).reverse.map fun i => Text.join "/" (b.take i) := by
    intro b
    induction b using List.reverseRecOn with
    | nil => rfl
    | append_singleton b x ih =>
      simp only [List.map_append, List.map_cons, List.map_nil, List.reverse_append, List.reverse_cons,
        List.reverse_nil, List.nil_append, List.cons_append, ancestors.go, List.reverse_reverse,
        List.length_append, List.length_cons, List.length_nil, List.range_succ, Nat.zero_add]
      rw [ih, ofComponents_names]
      simp only [List.take_left', List.cons.injEq, true_and]
      refine List.map_congr_left fun i hi => ?_
      rw [List.take_append_of_le_length]
      simp at hi
      omega
  rw [ancestors, components_join h, hgo, List.range_succ, List.reverse_append]
  simp

/-! ### Places of a path -/

/-- The entry that ends at place `m`, seen from the directory that ends at place `k`. -/
def between (l : List String) (k m : Nat) : String := Text.join "/" ((l.take m).drop k)

lemma between_zero_length (p : String) : between (parts p) 0 (parts p).length = p := by
  simp [between, join_parts]

lemma between_same (l : List String) (k : Nat) : between l k k = "" := by
  simp [between, Text.join]

lemma take_ne_nil (hk : 0 < k) (hl : k ≤ l.length) : l.take k ≠ [] := by
  simp only [ne_eq, List.take_eq_nil_iff, not_or]
  constructor
  · omega
  · rintro rfl
    simp at hl
    omega

/-- An entry is below its directory. -/
lemma between_zero (hk : 0 < k) (hkm : k < m) (hm : m ≤ l.length) :
    between l 0 m = between l 0 k ++ "/" ++ between l k m := by
  have hsplit : l.take m = l.take k ++ (l.take m).drop k := by
    conv_lhs => rw [← List.take_append_drop k (l.take m), List.take_take, Nat.min_eq_left (Nat.le_of_lt hkm)]
  simp only [between, List.drop_zero]
  conv_lhs => rw [hsplit]
  refine join_append (take_ne_nil hk (by omega)) ?_
  simp only [ne_eq, List.drop_eq_nil_iff, List.length_take, Nat.not_le]
  omega

/-- The entry itself and the entries above it, seen from one directory, nearest first; the last one is the
directory. -/
lemma ancestors_between (h : Named l) (k : Nat) : ancestors (between l k l.length) =
    (List.range (l.length - k + 1)).reverse.map fun i => between l k (k + i) := by
  have hdrop : Named (l.drop k) := fun x hx => h x (List.mem_of_mem_drop hx)
  rw [between, List.take_length, ancestors_join hdrop, List.length_drop]
  refine List.map_congr_left fun i _ => ?_
  rw [between, List.take_drop]

/-! ### Directories -/

lemma Named.take (h : Named l) (k : Nat) : Named (l.take k) := fun x hx => h x (List.mem_of_mem_take hx)

/-- The text of some names ends with a character of the last one. -/
lemma exists_toList_reverse (h : Named l) (hl : l ≠ []) :
    ∃ c cs, (Text.join "/" l).toList.reverse = c :: cs ∧ c ≠ '/' := by
  obtain ⟨a, x, rfl⟩ : ∃ a x, l = a ++ [x] := ⟨_, _, (List.dropLast_concat_getLast hl).symm⟩
  obtain ⟨hne, hslash, -⟩ := h x (by simp)
  have hsuffix : ∃ before, (Text.join "/" (a ++ [x])).toList = before ++ x.toList := by
    by_cases ha : a = []
    · exact ⟨[], by simp [ha, Text.join]⟩
    · refine ⟨(Text.join "/" a ++ "/").toList, ?_⟩
      rw [join_append ha (by simp), String.toList_append]
      simp [Text.join]
  obtain ⟨before, hlist⟩ := hsuffix
  rw [hlist, List.reverse_append]
  cases hx : x.toList.reverse with
  | nil => exact absurd (String.toList_inj.mp ((List.reverse_eq_nil_iff.mp hx).trans String.toList_empty.symm)) hne
  | cons c cs =>
    refine ⟨c, _, rfl, ?_⟩
    rintro rfl
    exact hslash (List.mem_reverse.mp (by rw [hx]; simp))

lemma isEmpty_between (h : Named l) (hk : 0 < k) (hl : k ≤ l.length) : (between l 0 k).isEmpty = false := by
  obtain ⟨c, cs, hlist, -⟩ := exists_toList_reverse (h.take k) (take_ne_nil hk hl)
  rw [between, List.drop_zero, Bool.eq_false_iff, ne_eq, String.isEmpty_iff]
  intro he
  simp [he] at hlist

/-- A file in the directory at a place. -/
lemma join_between (h : Named l) (hk : 0 < k) (hl : k ≤ l.length) {name : String}
    (hname : isAbsolute name = false) : join (between l 0 k) name = between l 0 k ++ "/" ++ name := by
  obtain ⟨c, cs, hlist, hc⟩ := exists_toList_reverse (h.take k) (take_ne_nil hk hl)
  have hend : Text.endsWith (between l 0 k) "/" = false := by
    simp only [between, List.drop_zero, Text.endsWith, Text.stripEnd?, hlist]
    simp [Text.after?, Ne.symm hc]
  simp [join, hname, isEmpty_between h hk hl, hend]

/-! ### The path above -/

/-- The text of a component. -/
def Component.text : Component → String
  | .root => ""
  | .here => "."
  | .up => ".."
  | .name s => s

/-- The length of some parts, each with a separator. -/
def weight : List String → Nat
  | [] => 0
  | x :: l => x.length + 1 + weight l

@[simp] lemma weight_nil : weight [] = 0 := rfl

@[simp] lemma weight_cons (x : String) (l : List String) : weight (x :: l) = x.length + 1 + weight l := rfl

@[simp] lemma weight_append (l l' : List String) : weight (l ++ l') = weight l + weight l' := by
  induction l with
  | nil => simp
  | cons x l ih => simp [ih, Nat.add_assoc]

lemma length_join (l : List String) : (Text.join "/" l).length = weight l - 1 := by
  induction l with
  | nil => rfl
  | cons x l ih =>
    cases l with
    | nil => simp [Text.join]
    | cons y l =>
      have hslash : "/".length = 1 := rfl
      simp only [Text.join, String.intercalate_cons_cons, String.length_append, weight_cons, hslash] at ih ⊢
      omega

lemma weight_parts (p : String) : weight (parts p) = p.length + 1 := by
  have hlength := length_join (parts p)
  rw [join_parts] at hlength
  have hpos : 0 < weight (parts p) := by
    cases hparts : parts p with
    | nil => exact absurd (List.map_eq_nil_iff.mp hparts) (by simp [Text.pieces_eq_splitOnP])
    | cons x l =>
      rw [weight_cons]
      omega
  omega

lemma directory_length_le {q : String} (h : q ∈ FileTree.directoriesAbove p) : q.length ≤ p.length := by
  simp only [FileTree.directoriesAbove, properPrefixes_eq, List.map_map, List.mem_map, Function.comp_apply] at h
  obtain ⟨i, -, rfl⟩ := h
  have hsplit := congrArg weight (List.take_append_drop (i + 1) (parts p))
  rw [weight_append, weight_parts] at hsplit
  rw [length_join]
  omega

lemma text_ne_empty (l : List String) (first : Bool) :
    ∀ c ∈ componentsOfParts first l, c ≠ .root ∧ c.text ≠ "" := by
  induction l generalizing first with
  | nil => simp [componentsOfParts]
  | cons x l ih =>
    intro c hc
    simp only [componentsOfParts] at hc
    split at hc
    · exact ih _ c hc
    rename_i hx
    split at hc
    · split at hc
      · rcases List.mem_cons.mp hc with rfl | hc
        · simp [Component.text]
        · exact ih _ c hc
      · exact ih _ c hc
    · split at hc
      · rcases List.mem_cons.mp hc with rfl | hc
        · simp [Component.text]
        · exact ih _ c hc
      · rcases List.mem_cons.mp hc with rfl | hc
        · simpa [Component.text] using hx
        · exact ih _ c hc

/-- Components are parts, and some parts are left out. -/
lemma weight_components_le (l : List String) (first : Bool) :
    weight ((componentsOfParts first l).map Component.text) ≤ weight l := by
  induction l generalizing first with
  | nil => simp [componentsOfParts]
  | cons x l ih =>
    have hrest := ih false
    simp only [componentsOfParts, weight_cons]
    split
    · exact Nat.le_trans (ih first) (Nat.le_add_left _ _)
    · split
      · rename_i hx
        rw [beq_iff_eq.mp hx]
        split <;> simp [Component.text] <;> omega
      · split
        · rename_i hx
          rw [beq_iff_eq.mp hx]
          simpa [Component.text] using hrest
        · simpa [Component.text] using hrest

lemma joined_eq (cs : List Component) : ofComponents.joined cs = Text.join "/" (cs.map Component.text) := by
  refine congrArg (Text.join "/") (List.map_congr_left fun c _ => ?_)
  cases c <;> rfl

lemma ofComponents_eq {cs : List Component} (h : .root ∉ cs) :
    ofComponents cs = Text.join "/" (cs.map Component.text) := by
  rw [← joined_eq]
  match cs with
  | [] => rfl
  | .root :: _ => exact absurd (by simp) h
  | .here :: _ | .up :: _ | .name _ :: _ => rfl

/-- The parts of an absolute path begin with an empty one. -/
lemma parts_of_absolute (h : Text.startsWith p "/" = true) : ∃ l, parts p = "" :: l := by
  cases hp : p.toList with
  | nil => simp [Text.startsWith, Text.stripStart?, Text.after?, hp] at h
  | cons c cs =>
    have hc : c = '/' := by
      by_contra hne
      simp [Text.startsWith, Text.stripStart?, Text.after?, hp, Ne.symm hne] at h
    subst hc
    exact ⟨(Text.pieces (· == '/') cs).map String.ofList, by simp [parts, Text.splitAt, hp, Text.pieces]⟩

/-- What comes before the last component of some parts. -/
lemma of_components_concat {first : Bool} {init : List Component} {x : Component}
    (h : componentsOfParts first l = init ++ [x]) :
    .root ∉ init ∧ 0 < x.text.length ∧ weight (init.map Component.text) + x.text.length + 1 ≤ weight l := by
  have hle := weight_components_le l first
  have hclean := text_ne_empty l first
  rw [h] at hle hclean
  refine ⟨fun hmem => (hclean _ (by simp [hmem])).1 rfl, ?_, ?_⟩
  · exact Nat.pos_of_ne_zero fun hzero => (hclean x (by simp)).2 (String.length_eq_zero_iff.mp hzero)
  · simp only [List.map_append, weight_append, List.map_cons, List.map_nil, weight_cons, weight_nil] at hle
    omega

/-- The path above is shorter. -/
lemma length_parent_lt (hp : p ≠ "") : ((parent? p).getD "").length < p.length := by
  have hpos : 0 < p.length := Nat.pos_of_ne_zero fun hzero => hp (String.length_eq_zero_iff.mp hzero)
  have hparts := weight_parts p
  rcases List.eq_nil_or_concat (components p) with hnil | ⟨init, x, hconcat⟩
  · simpa [parent?, hnil] using hpos
  rw [List.concat_eq_append] at hconcat
  by_cases hx : x = .root
  · simpa [parent?, hconcat, hx] using hpos
  have hparent : parent? p = some (ofComponents init) := by
    cases x <;> simp_all [parent?]
  rw [hparent, Option.getD_some]
  by_cases habs : Text.startsWith p "/" = true
  · obtain ⟨l, hl⟩ := parts_of_absolute habs
    have hcomponents : components p = .root :: componentsOfParts false l := by
      simp [components, habs, show Text.splitAt '/' p = "" :: l from hl, componentsOfParts]
    rw [hconcat] at hcomponents
    match init with
    | [] => exact absurd (List.cons.inj hcomponents).1 hx
    | c :: init =>
      obtain ⟨rfl, hrest⟩ := List.cons.inj hcomponents
      obtain ⟨-, hlast, hle⟩ := of_components_concat hrest.symm
      have hslash : "/".length = 1 := rfl
      rw [ofComponents, String.length_append, joined_eq, length_join, hslash]
      rw [hl, weight_cons, String.length_empty] at hparts
      omega
  · have hcomponents : components p = componentsOfParts true (parts p) := by
      simp [components, habs, parts]
    obtain ⟨hroot, -, hle⟩ := of_components_concat (hcomponents.symm.trans hconcat)
    rw [ofComponents_eq hroot, length_join]
    omega

/-! ### Another extension -/

/-- An extension with a point is no name's own. -/
lemma stem_append_ne {ext : String} (hext : '.' ∈ ext.toList) (name : String) : stem name ++ "." ++ ext ≠ name := by
  have hlonger : name ++ "." ++ ext ≠ name := by
    intro h
    have hlength := congrArg String.length h
    rw [String.length_append, String.length_append, show ".".length = 1 from rfl] at hlength
    omega
  rw [stem]
  cases hcut : Text.cutLast? name "." with
  | none => exact hlonger
  | some cut =>
    obtain ⟨⟨after, before⟩, hlist, rfl⟩ := Option.map_eq_some_iff.mp hcut
    obtain ⟨hname, hnot⟩ := Text.eq_append_of_cutList? (show Text.cutList? ['.'] name.toList.reverse = _ from hlist)
    dsimp only
    split
    · exact hlonger
    · intro h
      have hrev := congrArg (fun s : String => s.toList.reverse) h
      simp only [String.toList_append, String.toList_ofList, List.reverse_append, List.reverse_reverse, hname] at hrev
      have hafter : ext.toList.reverse = after := by simpa using hrev
      exact hnot (hafter ▸ List.mem_reverse.mpr hext)

lemma withExtension?_ne {ext other : String} (hext : '.' ∈ ext.toList) (h : withExtension? p ext = some other) :
    other ≠ p := by
  simp only [withExtension?, Option.bind_eq_bind, Option.bind_eq_some_iff, Option.pure_def, Option.some.injEq] at h
  obtain ⟨name, -, front, hfront, rfl⟩ := h
  intro heq
  have hrest : front ++ (stem name ++ "." ++ ext) = front ++ name := by
    rw [← Text.eq_append_of_stripEnd? hfront, ← heq]
    simp only [String.append_assoc]
  exact stem_append_ne hext name ((String.append_right_inj front).mp hrest)

end Paths

end RepoAtlas
