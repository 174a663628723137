import RepoAtlas.Proofs.Extraction.Traversal

/-!
# What a walk finds

The names, kinds and callers that a walk records are determined by the ancestors of a node: by the
definitions at them, innermost first, whatever the walk has kept of them. The scopes that are open when a walk
enters a node are those of its ancestors, so what it records are the imports, calls and definitions of the
sites in pre-order.
-/

namespace RepoAtlas

open Syntax

/-! ### Definitions around a site -/

namespace Site

/-- The sites around a place, innermost first. -/
def ancestorsFrom : List Nat → List (Tree × List Tree) → List Site
  | _, [] => []
  | path, (t, before) :: around => ⟨t, path.drop 1, before, around⟩ :: ancestorsFrom (path.drop 1) around

/-- The sites around a site, innermost first. -/
def ancestors (s : Site) : List Site := ancestorsFrom s.path s.around

lemma ancestors_child (s : Site) (i : Nat) (before : List Tree) (t : Tree) :
    (s.child i before t).ancestors = s :: s.ancestors := rfl

variable (lang : Classifier) (src : Source) (t : Tree) (s : Site) (d : DefinitionMatch)

/-- The definition at a site; a faulty node defines nothing. -/
def definition? : Option DefinitionMatch := if s.tree.isFaulty then none else lang.definition? src s

/-- The definitions around a site, innermost first. -/
def enclosing : List DefinitionMatch := s.ancestors.filterMap (·.definition? lang src)

/-- The names of the definitions around a site from the outermost on, of the owner, and of the definition. -/
def baseName : String :=
  Text.join "." ((s.enclosing lang src).reverse.map (·.name) ++ d.owner.toList ++ [d.name])

/-- The owner of a definition, or else the nearest class around it. -/
def enclosingClass? : Option String :=
  d.owner.or (((s.enclosing lang src).find? (·.kind.isClassLike)).map (·.name))

/-- A function with an owner, or with a class as the innermost definition around it, is a method. -/
def unitKind? : Option UnitKind :=
  match d.kind with
  | .classUnit => some .classUnit
  | .function =>
    if d.owner.isSome || (s.enclosing lang src).head?.any (·.kind.isClassLike) then some .method
    else some .function
  | .type | .module => none

/-- The name of the unit at a site before it is numbered. -/
def unitBase? : Option String :=
  (s.definition? lang src).bind fun d => (s.unitKind? lang src d).map fun _ => s.baseName lang src d

/-- The sites of a tree that come before a site. -/
def earlier : List Site := (preorder t).takeWhile (·.path != s.path)

/-- The name of the unit at a site, with its number among the units of the tree that share its base name. -/
def unitName? : Option String :=
  (s.unitBase? lang src).map fun base =>
    numbered base (((s.earlier t).filterMap (·.unitBase? lang src)).count base + 1)

/-- The unit at a site. -/
def unit? : Option Definition := do
  let d ← s.definition? lang src
  let kind ← s.unitKind? lang src d
  let name ← s.unitName? lang src t
  return {
    name := d.name
    qualifiedName := name
    kind := kind
    enclosingClass := s.enclosingClass? lang src d
    parameters := d.parameters
    signature := signature? src s.tree
    docstring := lang.docstring? src s
    source := src.text s.tree
    span := .ofTree s.tree }

/-- The qualified name of the innermost unit around a site. -/
def caller? : Option String := s.ancestors.findSome? fun a => (a.unit? lang src t).map (·.qualifiedName)

/-- The imports at a site. -/
def imports : List ImportRef :=
  if s.tree.isFaulty then []
  else (lang.imports src s).map fun target => ⟨target, Text.trim (src.text s.tree), .ofTree s.tree⟩

/-- The call at a site. -/
def call? : Option CallSite :=
  if s.tree.isFaulty then none
  else (lang.call? src s).map fun c => ⟨c.callee, c.name, s.caller? lang src t, .ofTree s.tree⟩

/-- The scope that a site opens. -/
def scope? : Option Scope :=
  (s.definition? lang src).map fun d => ⟨s.path, d.kind, d.name, s.unitName? lang src t⟩

/-- The scopes around a site, innermost first. -/
def scopes : List Scope := s.ancestors.filterMap (·.scope? lang src t)

end Site

/-! ### One step of a walk -/

section

variable {lang : Classifier} {src : Source} {t : Tree} {s : Site} {d : DefinitionMatch}

/-- The scopes around a site are those of the definitions around it. -/
lemma Site.map_scopes (lang : Classifier) (src : Source) (t : Tree) (s : Site) :
    (s.scopes lang src t).map (fun scope => (scope.kind, scope.name)) =
      (s.enclosing lang src).map fun d => (d.kind, d.name) := by
  rw [scopes, enclosing, List.map_filterMap, List.map_filterMap]
  refine List.filterMap_congr fun a _ => ?_
  rw [scope?, Option.map_map]
  rfl

/-- The unit of a scope is that of its site, and a site without a scope has none. -/
lemma Site.bind_unit :
    (s.scope? lang src t).bind (·.unit) = (s.unit? lang src t).map (·.qualifiedName) := by
  rw [scope?, unit?, unitName?, unitBase?]
  cases s.definition? lang src with
  | none => rfl
  | some d => cases h : s.unitKind? lang src d <;> simp [h]

namespace WalkState

section

variable {w : WalkState} (hscopes : w.scopes = s.scopes lang src t)
include hscopes

lemma qualifiedName_eq : w.qualifiedName d = s.baseName lang src d := by
  have hnames := congrArg (List.map Prod.snd) (s.map_scopes lang src t)
  simp only [List.map_map, Function.comp_def] at hnames
  rw [qualifiedName, Site.baseName, hscopes, List.map_reverse, List.map_reverse, hnames]

lemma enclosingClass?_eq : w.enclosingClass? d = s.enclosingClass? lang src d := by
  have hfind := congrArg (fun l : List (ScopeKind × String) => (l.find? (·.1.isClassLike)).map Prod.snd)
    (s.map_scopes lang src t)
  simp only [List.find?_map, Option.map_map, Function.comp_def] at hfind
  rw [enclosingClass?, Site.enclosingClass?, hscopes, hfind]
  cases d.owner <;> rfl

lemma unitKind?_eq : w.unitKind? d = s.unitKind? lang src d := by
  have hhead := congrArg (fun l : List (ScopeKind × String) => l.head?.any (·.1.isClassLike))
    (s.map_scopes lang src t)
  simp only [List.head?_map, Option.any_map] at hhead
  rw [unitKind?, Site.unitKind?, hscopes]
  cases d.kind with
  | function =>
    simp only [hhead]
    split <;> rfl
  | _ => rfl

lemma caller?_eq : w.caller? = s.caller? lang src t := by
  rw [caller?, Site.caller?, hscopes, Site.scopes]
  induction s.ancestors with
  | nil => rfl
  | cons a l ih =>
    rw [List.filterMap_cons, List.findSome?_cons, ← a.bind_unit]
    cases a.scope? lang src t with
    | none => exact ih
    | some scope => rw [List.findSome?_cons, ih, Option.bind_some]

/-- A definition is recorded with the names of the definitions around it and a number, if it is a unit, and
its scope is opened. -/
lemma define_eq (hd : s.definition? lang src = some d)
    (hseen : w.seen = ((s.earlier t).filterMap (·.unitBase? lang src)).reverse) :
    w.define lang src s d = { w with
      scopes := (s.scope? lang src t).toList ++ w.scopes
      seen := (s.unitBase? lang src).toList ++ w.seen
      definitions := (s.unit? lang src t).toList ++ w.definitions } := by
  rw [define, unitKind?_eq hscopes]
  simp only [qualifiedName_eq hscopes, enclosingClass?_eq hscopes, hseen, Site.scope?, Site.unit?,
    Site.unitName?, Site.unitBase?, hd]
  cases hkind : s.unitKind? lang src d with
  | none => simp [hkind]
  | some kind => simp [hkind]

/-- Entering a site records its imports, its call and its unit, and opens its scope. -/
lemma enter_eq (hseen : w.seen = ((s.earlier t).filterMap (·.unitBase? lang src)).reverse) :
    w.enter lang src s = {
      scopes := (s.scope? lang src t).toList ++ w.scopes
      seen := (s.unitBase? lang src).toList ++ w.seen
      definitions := (s.unit? lang src t).toList ++ w.definitions
      imports := (s.imports lang src).reverse ++ w.imports
      calls := (s.call? lang src t).toList ++ w.calls
      faults := w.faults + if s.tree.isFaulty then 1 else 0 } := by
  by_cases hfaulty : s.tree.isFaulty = true
  · have hnone : s.definition? lang src = none := if_pos hfaulty
    rw [enter, if_pos hfaulty]
    simp [hfaulty, Site.scope?, Site.unit?, Site.unitBase?, Site.imports, Site.call?, hnone]
  · have hd : s.definition? lang src = lang.definition? src s := if_neg hfaulty
    have hcall : s.call? lang src t = (lang.call? src s).map fun c =>
        ⟨c.callee, c.name, s.caller? lang src t, .ofTree s.tree⟩ := if_neg hfaulty
    have himports : s.imports lang src = (lang.imports src s).map fun target =>
        ⟨target, Text.trim (src.text s.tree), .ofTree s.tree⟩ := if_neg hfaulty
    rw [enter, if_neg hfaulty, himports, hcall]
    cases hdef : lang.definition? src s with
    | none =>
      have hnone : s.definition? lang src = none := hd.trans hdef
      cases lang.call? src s <;>
        simp [hfaulty, Site.scope?, Site.unit?, Site.unitBase?, hnone, caller?, ← caller?_eq hscopes]
    | some d =>
      cases lang.call? src s <;> dsimp only <;>
        rw [define_eq (by exact hscopes) (hd.trans hdef) (by exact hseen)] <;>
        simp [hfaulty, caller?, ← caller?_eq hscopes]

end

/-- Leaving a site closes the scope that it opened, and none around it. -/
lemma leave_eq {w : WalkState} (hpath : ∀ a ∈ s.ancestors, a.path ≠ s.path)
    (hscopes : w.scopes = (s.scope? lang src t).toList ++ s.scopes lang src t) :
    w.leave s.path = { w with scopes := s.scopes lang src t } := by
  cases hscope : s.scope? lang src t with
  | some scope =>
    have hopener : scope.opener = s.path := by
      obtain ⟨d, -, rfl⟩ := Option.map_eq_some_iff.mp hscope
      rfl
    rw [leave, hscopes, hscope]
    simp [hopener]
  | none =>
    have hw : w.scopes = s.scopes lang src t := by simpa [hscope] using hscopes
    have hsame : w = { w with scopes := s.scopes lang src t } := by rw [← hw]
    rw [← hsame, leave]
    cases houter : w.scopes with
    | nil => rfl
    | cons scope rest =>
      have hmem : scope ∈ s.scopes lang src t := by simp [← hw, houter]
      obtain ⟨a, ha, hscope⟩ := List.mem_filterMap.mp hmem
      obtain ⟨d, -, rfl⟩ := Option.map_eq_some_iff.mp hscope
      simp [hpath a ha]

/-- The state of a walk that has entered some sites of a tree and not left the openers of some scopes. -/
def having (lang : Classifier) (src : Source) (t : Tree) (sites : List Site) (scopes : List Scope) :
    WalkState where
  scopes := scopes
  seen := (sites.filterMap (·.unitBase? lang src)).reverse
  definitions := (sites.filterMap (·.unit? lang src t)).reverse
  imports := (sites.flatMap (·.imports lang src)).reverse
  calls := (sites.filterMap (·.call? lang src t)).reverse
  faults := sites.countP (·.tree.isFaulty)

lemma enter_having {sites : List Site} (hearlier : s.earlier t = sites) :
    (having lang src t sites (s.scopes lang src t)).enter lang src s =
      having lang src t (sites ++ [s]) ((s.scope? lang src t).toList ++ s.scopes lang src t) := by
  rw [enter_eq (t := t) rfl (by rw [hearlier]; rfl)]
  simp only [having, List.filterMap_append, List.flatMap_append, List.reverse_append, List.countP_append]
  congr 1
  · cases h : s.unitBase? lang src <;> simp [h]
  · cases h : s.unit? lang src t <;> simp [h]
  · simp
  · cases h : s.call? lang src t <;> simp [h]
  · simp

end WalkState

/-! ### Whole walks -/

/-- A site comes after the sites that stand before it in the pre-order of its tree. -/
lemma Site.earlier_eq {sites rest : List Site} (h : preorder t = sites ++ s :: rest) : s.earlier t = sites := by
  have hnodup : ((preorder t).map (·.path)).Nodup := nodup_sitesAt _ t
  rw [h, List.map_append, List.map_cons, List.nodup_append] at hnodup
  have hbefore : ∀ r ∈ sites, (r.path != s.path) = true := by
    intro r hr
    simpa using hnodup.2.2 r.path (List.mem_map_of_mem hr) s.path (by simp)
  rw [earlier, h, List.takeWhile_append_of_pos hbefore, List.takeWhile_cons]
  simp

/-- The ways to the sites around a child are shorter than the way to it. -/
def Site.Deep (s : Site) : Prop := ∀ a ∈ s.ancestors, a.path.length < s.path.length

lemma Site.Deep.child (h : s.Deep) (i : Nat) (before : List Tree) (u : Tree) :
    (s.child i before u).Deep := by
  intro a ha
  rw [ancestors_child, List.mem_cons] at ha
  rcases ha with rfl | ha
  · exact Nat.lt_succ_self _
  · exact Nat.lt_succ_of_lt (h a ha)

lemma Site.scopes_child (i : Nat) (before : List Tree) (u : Tree) :
    (s.child i before u).scopes lang src t = (s.scope? lang src t).toList ++ s.scopes lang src t := by
  rw [scopes, ancestors_child, List.filterMap_cons, scopes]
  cases s.scope? lang src t <;> rfl

mutual
/-- From entering a site to leaving it a walk finds what the sites at and below it hold, and closes the scopes
that it opened. -/
lemma foldl_stepsAt (c : Cursor) (hdeep : c.site.Deep) (sites rest : List Site) : ∀ u : Tree,
    preorder t = sites ++ sitesAt c.site u ++ rest →
    (stepsAt c u).foldl (WalkStep.act lang src) (.having lang src t sites (c.site.scopes lang src t)) =
      .having lang src t (sites ++ sitesAt c.site u) (c.site.scopes lang src t)
  | .node _ cs => fun h => by
    rw [sitesAt, List.append_assoc, List.cons_append] at h
    have hbelow := foldl_stepsUnder c hdeep 0 [] (sites ++ [c.site]) rest cs (by simpa using h)
    rw [stepsAt, List.foldl_cons, List.foldl_append, WalkStep.act,
      WalkState.enter_having (Site.earlier_eq h), hbelow, List.foldl_cons, List.foldl_nil, WalkStep.act,
      WalkState.leave_eq (t := t) (fun a ha heq => absurd (hdeep a ha) (by simp [heq])) rfl, sitesAt]
    simp [WalkState.having]

lemma foldl_stepsUnder (c : Cursor) (hdeep : c.site.Deep) (i : Nat) (before : List Tree)
    (sites rest : List Site) : ∀ us : List Tree,
    preorder t = sites ++ sitesUnder c.site i before us ++ rest →
    (stepsUnder c i before us).foldl (WalkStep.act lang src)
        (.having lang src t sites ((c.site.scope? lang src t).toList ++ c.site.scopes lang src t)) =
      .having lang src t (sites ++ sitesUnder c.site i before us)
        ((c.site.scope? lang src t).toList ++ c.site.scopes lang src t)
  | [] => fun _ => by rw [stepsUnder, sitesUnder, List.append_nil]; rfl
  | u :: us => fun h => by
    rw [sitesUnder] at h
    have hchild := foldl_stepsAt (c.child i before u us) (hdeep.child i before u) sites
      (sitesUnder c.site (i + 1) (u :: before) us ++ rest) u (by simpa [Cursor.child] using h)
    have hothers := foldl_stepsUnder c hdeep (i + 1) (u :: before) (sites ++ sitesAt (c.site.child i before u) u)
      rest us (by simpa using h)
    rw [Cursor.child, Site.scopes_child] at hchild
    rw [stepsUnder, List.foldl_append, Cursor.child, hchild, hothers, sitesUnder, List.append_assoc]
end

lemma walk_eq (lang : Classifier) (src : Source) (t : Tree) :
    walk lang src t = .having lang src t (preorder t) [] := by
  have hsteps := steps_root t 0
  rw [Nat.add_zero] at hsteps
  rw [walk, performAll_eq, hsteps]
  exact foldl_stepsAt (.root t) (fun a ha => absurd ha List.not_mem_nil) [] [] t (by simp; rfl)

end

/-- A walk enters each site of a tree once, in pre-order, and then has left the root. No scope is open in the
end, and what it has found are the units, calls and imports of the sites in that order. -/
theorem walk_finds_preorder (lang : Classifier) (src : Source) (t : Tree) :
    (∃ done : List WalkStep, (∀ n, steps (2 * t.size + n) (some (.enter (.root t))) = done) ∧
      walk lang src t = done.foldl (WalkStep.act lang src) {} ∧ entered done = preorder t) ∧
    ((preorder t).map (·.path)).Nodup ∧ (preorder t).length = t.size ∧
    (walk lang src t).scopes = [] ∧
    (walk lang src t).definitions.reverse = (preorder t).filterMap (·.unit? lang src t) ∧
    (walk lang src t).calls.reverse = (preorder t).filterMap (·.call? lang src t) ∧
    (walk lang src t).imports.reverse = (preorder t).flatMap (·.imports lang src) ∧
    (walk lang src t).faults = (preorder t).countP (·.tree.isFaulty) := by
  refine ⟨⟨stepsAt (.root t) t, steps_root t, ?_, entered_stepsAt (.root t) t⟩, nodup_sitesAt _ t,
    length_sitesAt _ t, ?_⟩
  · have hsteps := steps_root t 0
    rw [Nat.add_zero] at hsteps
    rw [walk, performAll_eq, hsteps]
  · rw [walk_eq]
    simp only [WalkState.having, List.reverse_reverse, and_self]

end RepoAtlas
