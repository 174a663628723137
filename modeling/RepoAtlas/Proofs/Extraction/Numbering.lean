import RepoAtlas.Proofs.Extraction.Naming
import RepoAtlas.Proofs.Extraction.Scopes

/-!
# The numbers of names

The units of a file that would share a name are numbered in the order in which a walk meets them: the first one has
the name itself. What is numbered is the name that the scopes, the owner and the definition make up together, and a
numbered name is none of these, so that the names are distinct.
-/

namespace RepoAtlas

open Syntax

/-- Two selections from a list, made at the same places, go through it together. -/
lemma zip_filterMap {α β γ : Type} {f : α → Option β} {g : α → Option γ} {l : List α}
    (h : ∀ a ∈ l, (f a).isSome = (g a).isSome) :
    (l.filterMap f).zip (l.filterMap g) = l.filterMap fun a => (f a).bind fun b => (g a).map (b, ·) := by
  induction l with
  | nil => rfl
  | cons a l ih =>
    have ha := h a List.mem_cons_self
    have hl := ih fun b hb => h b (List.mem_cons_of_mem a hb)
    cases hf : f a with
    | none =>
      have hg : g a = none := by simpa [hf] using ha
      simpa [hf, hg] using hl
    | some b =>
      obtain ⟨c, hg⟩ := Option.isSome_iff_exists.mp (ha.symm.trans (by rw [hf]; rfl))
      simpa [hf, hg] using hl

/-! ### Numbered definitions -/

namespace Numbers

variable {seen : List String} {defs : List Definition}

lemma length_eq (h : Numbers seen defs) : seen.length = defs.length := by
  induction h with
  | nil => rfl
  | cons _ _ _ ih => rw [List.length_cons, List.length_cons, ih]

/-- The definitions that share a name are numbered in their order. -/
lemma map_qualifiedName (h : Numbers seen defs) (base : String) :
    ((seen.reverse.zip defs.reverse).filter (·.1 = base)).map (·.2.qualifiedName) =
      (List.range' 1 (seen.count base)).map (numbered base) := by
  induction h with
  | nil => rfl
  | @cons seen defs d q h _ hname ih =>
    rw [List.reverse_cons, List.reverse_cons, List.zip_append (by simp [h.length_eq]), List.filter_append,
      List.map_append, ih]
    by_cases hq : q = base
    · rw [hq, List.count_cons_self, List.range'_1_concat, List.map_append]
      simp [hname, hq, Nat.add_comm]
    · rw [List.count_cons_of_ne hq]
      simp [hq]

end Numbers

/-! ### The units of a tree -/

section

variable {lang : Classifier} {src : Source} {t : Tree} {s : Site}

/-- The sites with units are those whose units have names. -/
lemma Site.isSome_unitBase? : (s.unitBase? lang src).isSome = (s.unit? lang src t).isSome := by
  rw [unit?, unitName?, unitBase?]
  cases s.definition? lang src with
  | none => rfl
  | some d => cases h : s.unitKind? lang src d <;> simp [h]

/-- A unit has the name of the definition at its site, and so the scopes around the site and the owner. -/
lemma Site.exists_definition {base : String} {d : Definition} (hbase : s.unitBase? lang src = some base)
    (hd : s.unit? lang src t = some d) :
    ∃ m, s.definition? lang src = some m ∧ base = s.baseName lang src m ∧ d.name = m.name := by
  obtain ⟨m, hm, hkind⟩ := Option.bind_eq_some_iff.mp hbase
  obtain ⟨kind, -, rfl⟩ := Option.map_eq_some_iff.mp hkind
  obtain ⟨m', hm', hrest⟩ := Option.bind_eq_some_iff.mp hd
  obtain rfl : m = m' := Option.some.inj (hm.symm.trans hm')
  obtain ⟨_, -, hrest⟩ := Option.bind_eq_some_iff.mp hrest
  obtain ⟨_, -, hrest⟩ := Option.bind_eq_some_iff.mp hrest
  cases hrest
  exact ⟨m, hm, rfl, rfl⟩

/-- The names of the units of a tree, in the order in which a walk meets them, before they are numbered. -/
def baseNames (lang : Classifier) (src : Source) (t : Tree) : List String :=
  (preorder t).filterMap (·.unitBase? lang src)

/-- How a walk names the units of a tree. -/
structure NumbersNames (lang : Classifier) (src : Source) (t : Tree) (units : List Definition) : Prop where
  /-- Each unit has one name before it is numbered. -/
  length : (baseNames lang src t).length = units.length
  /-- This name is made up of the scopes around the definition, of its owner and of its own name. -/
  base : ∀ p ∈ (baseNames lang src t).zip units, ∃ s ∈ preorder t, ∃ m, s.definition? lang src = some m ∧
    p.1 = Text.join "." ((s.enclosing lang src).reverse.map (·.name) ++ m.owner.toList ++ [m.name]) ∧
    p.2.name = m.name
  /-- The first unit keeps the name, and the further ones are numbered from two on. -/
  nth : ∀ base, (((baseNames lang src t).zip units).filter (·.1 = base)).map (·.2.qualifiedName) =
    (List.range' 1 ((baseNames lang src t).count base)).map fun n =>
      if n = 1 then base else base ++ "#" ++ toString n
  /-- Unless a definition has a name that looks numbered itself, the names are distinct. -/
  nodup : (∀ d ∈ units, ¬LooksNumbered d.name) → (units.map (·.qualifiedName)).Nodup

/-- A walk of any tree numbers the names of its units. -/
theorem walk_numbersNames (lang : Classifier) (src : Source) (t : Tree) :
    NumbersNames lang src t (walk lang src t).definitions.reverse := by
  have hnumbers : Numbers (walk lang src t).seen (walk lang src t).definitions :=
    numbers_performAll lang src (2 * t.size) (some (.enter (.root t))) {} .nil
  have hwalk := walk_eq lang src t
  have hseen : (walk lang src t).seen.reverse = baseNames lang src t := by
    rw [hwalk]
    exact List.reverse_reverse _
  have hunits : (walk lang src t).definitions.reverse = (preorder t).filterMap (·.unit? lang src t) := by
    rw [hwalk]
    exact List.reverse_reverse _
  constructor
  case length => rw [← hseen, List.length_reverse, List.length_reverse, hnumbers.length_eq]
  case base =>
    intro p hp
    rw [hunits, baseNames, zip_filterMap fun s _ => s.isSome_unitBase?] at hp
    obtain ⟨s, hs, hp⟩ := List.mem_filterMap.mp hp
    obtain ⟨base, hbase, hp⟩ := Option.bind_eq_some_iff.mp hp
    obtain ⟨d, hd, rfl⟩ := Option.map_eq_some_iff.mp hp
    exact ⟨s, hs, Site.exists_definition hbase hd⟩
  case nth =>
    intro base
    rw [← hseen, hnumbers.map_qualifiedName, List.count_reverse]
    refine List.map_congr_left fun n hn => ?_
    have hpos : 1 ≤ n := (List.mem_range'_1.mp hn).1
    rw [numbered]
    exact if_congr ⟨fun h => Nat.le_antisymm h hpos, Nat.le_of_eq⟩ rfl rfl
  case nodup =>
    intro hplain
    rw [List.map_reverse, List.nodup_reverse]
    exact hnumbers.nodup fun d hd => hplain d (List.mem_reverse.mpr hd)

end

/-- A class with a method that is defined twice, and a function that has the name of the class. -/
def repeatingText : String := "class C:\n  def f(): 0\n  def f(): 0\ndef C(): 0\n"

theorem walk_numbersNames_repeatingText :
    let units := (walk Python.classifier (.ofText repeatingText) (Python.parse repeatingText)).definitions.reverse
    units.map (·.qualifiedName) = ["C", "C.f", "C.f#2", "C#2"] ∧ (∀ d ∈ units, ¬LooksNumbered d.name) ∧
      (units.map (·.qualifiedName)).Nodup := by
  intro units
  have hnames : units.map (·.name) = ["C", "f", "f", "C"] := by decide +kernel
  have hplain : ∀ d ∈ units, ¬LooksNumbered d.name := by
    rintro d hd ⟨before, digits, hd', -, -⟩
    have hhash : '#' ∈ d.name.toList := by simp [hd']
    have hmem : d.name ∈ units.map (·.name) := List.mem_map_of_mem hd
    have hno : ∀ name ∈ units.map (·.name), '#' ∉ name.toList := by
      rw [hnames]
      decide
    exact hno _ hmem hhash
  exact ⟨by decide +kernel, hplain, (walk_numbersNames _ _ _).nodup hplain⟩

end RepoAtlas
