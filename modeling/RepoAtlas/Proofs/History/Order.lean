import Mathlib.Data.Fintype.EquivFin
import Mathlib.Data.List.Nodup
import Mathlib.Logic.Relation
import RepoAtlas.History.Order

/-!
# Parents first

The order of commits places one that waits for no parent any more, and counts it down for its children. The
counts are right at every moment, so what is ready is what has all its parents placed; and when nothing is
ready any more, whoever is left waits for a parent that is left too, which without cycles is nobody.
-/

namespace RepoAtlas

namespace CommitOrder

variable {parents : List (List Nat)} {placed ready pending : List Nat}

/-! ### Counting down -/

/-- Count down one child. -/
def release (s : List Nat × List Nat) (c : Nat) : List Nat × List Nat :=
  (s.1.set c (s.1.getD c 0 - 1), if s.1.getD c 0 - 1 = 0 then s.2 ++ [c] else s.2)

/-- The children of a commit. -/
def children (parents : List (List Nat)) (i : Nat) : List Nat :=
  (List.range parents.length).filter fun c => (parents.getD c []).contains i

lemma countDown_eq (parents : List (List Nat)) (i : Nat) (pending : List Nat) :
    countDown parents i pending = (children parents i).foldl release (pending, []) := rfl

lemma mem_children {i c : Nat} : c ∈ children parents i ↔ c < parents.length ∧ i ∈ parents.getD c [] := by
  simp [children]

lemma children_nodup (parents : List (List Nat)) (i : Nat) : (children parents i).Nodup :=
  List.nodup_range.filter _

lemma getD_set_self {l : List Nat} {c n : Nat} (h : c < l.length) : (l.set c n).getD c 0 = n := by
  simp [List.getD_eq_getElem?_getD, h]

lemma getD_set_ne {l : List Nat} {c k n : Nat} (h : c ≠ k) : (l.set c n).getD k 0 = l.getD k 0 := by
  simp [List.getD_eq_getElem?_getD, h]

/-- Different children are counted down once each, and those that reach zero are released. -/
lemma foldl_release {l : List Nat} (hl : l.Nodup) {s : List Nat × List Nat} (hlt : ∀ c ∈ l, c < s.1.length) :
    (l.foldl release s).1.length = s.1.length ∧
      (∀ k, (l.foldl release s).1.getD k 0 = if k ∈ l then s.1.getD k 0 - 1 else s.1.getD k 0) ∧
      (l.foldl release s).2 = s.2 ++ l.filter fun c => s.1.getD c 0 - 1 = 0 := by
  induction l generalizing s with
  | nil => simp
  | cons c l ih =>
    obtain ⟨hc, hl⟩ := List.nodup_cons.mp hl
    have hlength : (release s c).1.length = s.1.length := List.length_set
    obtain ⟨hlen, hcount, hreleased⟩ := ih hl (s := release s c) fun k hk => by
      rw [hlength]
      exact hlt k (by simp [hk])
    have hother : ∀ k, k ≠ c → (release s c).1.getD k 0 = s.1.getD k 0 := fun k hk => getD_set_ne hk.symm
    refine ⟨hlen.trans hlength, fun k => ?_, ?_⟩
    · rw [List.foldl_cons, hcount]
      by_cases hk : k = c
      · subst hk
        simp only [hc, if_false, List.mem_cons, true_or, if_true]
        exact getD_set_self (hlt k (by simp))
      · simp only [List.mem_cons, hk, false_or, hother k hk]
    · have hsame : (l.filter fun k => (release s c).1.getD k 0 - 1 = 0) =
          l.filter fun k => s.1.getD k 0 - 1 = 0 := by
        refine List.filter_congr fun k hk => ?_
        rw [hother k fun h => hc (h ▸ hk)]
      rw [List.foldl_cons, hreleased, hsame, List.filter_cons]
      simp only [release]
      by_cases hzero : s.1.getD c 0 - 1 = 0
      · simp only [hzero, if_true, decide_true, List.append_assoc, List.singleton_append]
      · simp only [hzero, if_false, decide_false, Bool.false_eq_true]

/-! ### Placing -/

/-- The parents of a commit that are not placed yet. -/
def waiting (parents : List (List Nat)) (placed : List Nat) (i : Nat) : List Nat :=
  (parents.getD i []).filter (!placed.contains ·)

/-- What holds while commits are placed: the counts are those of the parents that are not placed, and the
commits that are ready are the others that wait for none. -/
structure Placing (parents : List (List Nat)) (placed ready pending : List Nat) : Prop where
  nodup : (placed ++ ready).Nodup
  lt : ∀ i ∈ placed, i < parents.length
  closed : ∀ i ∈ placed, ∀ j ∈ parents.getD i [], j ∈ placed
  ready : ∀ i, i ∈ ready ↔ i ∉ placed ∧ i < parents.length ∧ ∀ j ∈ parents.getD i [], j ∈ placed
  length : pending.length = parents.length
  counted : ∀ i, i < parents.length → pending.getD i 0 = (waiting parents placed i).length

lemma waiting_snoc (hp : ∀ i, (parents.getD i []).Nodup) {i : Nat} (hi : i ∉ placed) (k : Nat) :
    (waiting parents (placed ++ [i]) k).length =
      if i ∈ parents.getD k [] then (waiting parents placed k).length - 1
      else (waiting parents placed k).length := by
  have hsplit : waiting parents (placed ++ [i]) k = (waiting parents placed k).filter (· != i) := by
    simp only [waiting, List.filter_filter]
    refine List.filter_congr fun j _ => ?_
    by_cases hj : j = i <;> simp [hj, hi]
  have hnodup : (waiting parents placed k).Nodup := (hp k).filter _
  rw [hsplit, ← hnodup.erase_eq_filter]
  have hmem : i ∈ waiting parents placed k ↔ i ∈ parents.getD k [] := by simp [waiting, hi]
  by_cases h : i ∈ parents.getD k []
  · rw [if_pos h, List.length_erase_of_mem (hmem.mpr h)]
  · rw [if_neg h, List.erase_of_not_mem fun hw => h (hmem.mp hw)]

lemma waiting_eq_nil {k : Nat} : (waiting parents placed k).length = 0 ↔
    ∀ j ∈ parents.getD k [], j ∈ placed := by
  simp [waiting]

/-- Placing the first ready commit. -/
lemma Placing.step (hp : ∀ i, (parents.getD i []).Nodup) {i : Nat}
    (h : Placing parents placed (i :: ready) pending) :
    Placing parents (placed ++ [i]) (ready ++ (countDown parents i pending).2)
      (countDown parents i pending).1 := by
  obtain ⟨hi, hilt, hiready⟩ := (h.ready i).mp (by simp)
  obtain ⟨hlen, hcount, hreleased⟩ := foldl_release (children_nodup parents i) (s := (pending, []))
    fun c hc => h.length ▸ (mem_children.mp hc).1
  rw [← countDown_eq] at hlen hcount hreleased
  have hcounted : ∀ k, k < parents.length →
      (countDown parents i pending).1.getD k 0 = (waiting parents (placed ++ [i]) k).length := by
    intro k hk
    rw [hcount, waiting_snoc hp hi, ← h.counted k hk]
    simp only [mem_children, hk, true_and]
  have hmem : ∀ k, k ∈ (countDown parents i pending).2 ↔ k < parents.length ∧ i ∈ parents.getD k [] ∧
      ∀ j ∈ parents.getD k [], j ∈ placed ++ [i] := by
    intro k
    rw [hreleased, List.nil_append, List.mem_filter, mem_children, and_assoc, decide_eq_true_eq]
    refine and_congr_right fun hk => and_congr_right fun hik => ?_
    rw [← waiting_eq_nil, waiting_snoc hp hi, if_pos hik, h.counted k hk]
  -- a commit that has just been counted down has not been ready before
  have hfresh : ∀ k, i ∈ parents.getD k [] → k ∉ placed ∧ k ∉ i :: ready := by
    intro k hik
    exact ⟨fun hk => hi (h.closed k hk i hik), fun hk => hi (((h.ready k).mp hk).2.2 i hik)⟩
  have hnodup := h.nodup
  rw [List.append_cons] at hnodup
  constructor
  case nodup =>
    rw [← List.append_assoc]
    refine List.nodup_append'.mpr ⟨hnodup, ?_, ?_⟩
    · rw [hreleased, List.nil_append]
      exact (children_nodup parents i).filter _
    · intro k hk hrel
      obtain ⟨hnot, hnot'⟩ := hfresh k ((hmem k).mp hrel).2.1
      simp only [List.mem_append, List.mem_singleton] at hk
      rcases hk with (hk | rfl) | hk
      · exact hnot hk
      · exact hnot' (by simp)
      · exact hnot' (by simp [hk])
  case lt =>
    intro k hk
    rcases List.mem_append.mp hk with hk | hk
    · exact h.lt k hk
    · rw [List.mem_singleton.mp hk]
      exact hilt
  case closed =>
    intro k hk j hj
    rw [List.mem_append] at hk ⊢
    rcases hk with hk | hk
    · exact Or.inl (h.closed k hk j hj)
    · rw [List.mem_singleton.mp hk] at hj
      exact Or.inl (hiready j hj)
  case ready =>
    intro k
    rw [List.mem_append, hmem]
    constructor
    · rintro (hk | ⟨hlt, hik, hall⟩)
      · obtain ⟨hnot, hlt, hall⟩ := (h.ready k).mp (by simp [hk])
        refine ⟨?_, hlt, fun j hj => List.mem_append_left _ (hall j hj)⟩
        intro hplaced
        exact (List.nodup_append'.mp hnodup).2.2 hplaced hk
      · obtain ⟨hnot, hnot'⟩ := hfresh k hik
        refine ⟨?_, hlt, hall⟩
        simp only [List.mem_append, List.mem_singleton, not_or]
        exact ⟨hnot, fun hki => hnot' (by simp [hki])⟩
    · rintro ⟨hnot, hlt, hall⟩
      simp only [List.mem_append, List.mem_singleton, not_or] at hnot
      by_cases hik : i ∈ parents.getD k []
      · exact Or.inr ⟨hlt, hik, hall⟩
      · refine Or.inl ?_
        have hready := (h.ready k).mpr ⟨hnot.1, hlt, fun j hj => ?_⟩
        · exact (List.mem_cons.mp hready).resolve_left hnot.2
        · rcases List.mem_append.mp (hall j hj) with hj' | hj'
          · exact hj'
          · rw [List.mem_singleton.mp hj'] at hj
            exact absurd hj hik
  case length => exact hlen.trans h.length
  case counted => exact hcounted

/-- Nothing is placed twice, so that everything is placed once as much is placed as there is. -/
lemma Placing.mem_of_full (h : Placing parents placed ready pending) (hfull : placed.length = parents.length) {i : Nat}
    (hi : i < parents.length) : i ∈ placed := by
  have hnodup : placed.Nodup := (List.nodup_append'.mp h.nodup).1
  have hsub : placed ⊆ List.range parents.length := fun i hi => List.mem_range.mpr (h.lt i hi)
  have hperm := (List.subperm_of_subset hnodup hsub).perm_of_length_le (by rw [hfull, List.length_range])
  exact hperm.mem_iff.mpr (List.mem_range.mpr hi)

/-- An order in which every commit comes after its parents, of which some are placed already. -/
def Legal (parents : List (List Nat)) : List Nat → List Nat → Prop
  | _, [] => True
  | placed, i :: l => (∀ j ∈ parents.getD i [], j ∈ placed) ∧ Legal parents (placed ++ [i]) l

/-- The commits are placed legally, each at most once, and those that are left each wait for another one
that is left. -/
lemma placeReady_spec (hp : ∀ i, (parents.getD i []).Nodup) {n : Nat}
    (h : Placing parents placed ready pending) (hn : n + placed.length = parents.length) :
    Legal parents placed (placeReady parents n ready pending) ∧
      (placed ++ placeReady parents n ready pending).Nodup ∧
      (∀ i ∈ placeReady parents n ready pending, i < parents.length) ∧
      ∀ i, i < parents.length → i ∉ placed ++ placeReady parents n ready pending →
        ∃ j ∈ parents.getD i [], j ∉ placed ++ placeReady parents n ready pending := by
  induction n generalizing placed ready pending with
  | zero =>
    simp only [placeReady, List.append_nil]
    exact ⟨trivial, (List.nodup_append'.mp h.nodup).1, by simp, fun i hi hnot =>
      absurd (h.mem_of_full (by omega) hi) hnot⟩
  | succ n ih =>
    cases ready with
    | nil =>
      simp only [placeReady, List.append_nil]
      refine ⟨trivial, (List.nodup_append'.mp h.nodup).1, by simp, fun i hi hnot => ?_⟩
      by_contra hall
      push Not at hall
      exact absurd ((h.ready i).mpr ⟨hnot, hi, hall⟩) (by simp)
    | cons i ready =>
      obtain ⟨-, hilt, hiready⟩ := (h.ready i).mp (by simp)
      have hrest := ih (h.step hp) (by rw [List.length_append, List.length_singleton]; omega)
      simp only [placeReady]
      set l := placeReady parents n (ready ++ (countDown parents i pending).2)
        (countDown parents i pending).1
      rw [List.append_cons]
      obtain ⟨hlegal, hnodup, hlt, hleft⟩ := hrest
      refine ⟨⟨hiready, hlegal⟩, hnodup, fun k hk => ?_, hleft⟩
      rcases List.mem_cons.mp hk with rfl | hk
      · exact hilt
      · exact hlt k hk

/-- A commit from which no parents lead to a cycle is not left. -/
lemma mem_of_left {l : List Nat}
    (hp : ∀ i, ∀ j ∈ parents.getD i [], j < parents.length)
    (hleft : ∀ i, i < parents.length → i ∉ l → ∃ j ∈ parents.getD i [], j ∉ l) {i : Nat}
    (hi : i < parents.length)
    (hacyclic : ∀ c, Relation.ReflTransGen (fun a b => b ∈ parents.getD a []) i c →
      ¬Relation.TransGen (fun a b => b ∈ parents.getD a []) c c) : i ∈ l := by
  let Ancestor := {k : Fin parents.length // Relation.ReflTransGen (fun a b : Nat => b ∈ parents.getD a []) i k}
  let above (a b : Ancestor) : Prop := Relation.TransGen (fun a b : Nat => b ∈ parents.getD a []) b.1 a.1
  have : IsTrans Ancestor above := ⟨fun _ _ _ hab hbc => Relation.TransGen.trans hbc hab⟩
  have : Std.Irrefl above := ⟨fun a => hacyclic a.1 a.2⟩
  have hwell : WellFounded above := Finite.wellFounded_of_trans_of_irrefl above
  have hall : ∀ k : Ancestor, k.1.1 ∈ l := by
    intro k
    induction k using hwell.induction with
    | _ k ih =>
      by_contra hnot
      obtain ⟨j, hj, hjl⟩ := hleft k.1 k.1.2 hnot
      exact hjl (ih ⟨⟨j, hp k.1 j hj⟩, k.2.tail hj⟩ (Relation.TransGen.single hj))
  exact hall ⟨⟨i, hi⟩, .refl⟩

/-! ### Places -/

variable {records : List CommitRecord}

lemma place?_eq_some {revision : String} {i : Nat} (h : place? records revision = some i) :
    ∃ r, records[i]? = some r ∧ r.revision = revision := by
  obtain ⟨⟨r, k⟩, hfind, rfl⟩ := Option.map_eq_some_iff.mp h
  have hmem := List.mem_of_find?_eq_some hfind
  rw [List.mem_reverse, List.mem_zipIdx_iff_getElem?] at hmem
  have hfound := List.find?_some hfind
  exact ⟨r, hmem, beq_iff_eq.mp hfound⟩

lemma place?_of_mem {r : CommitRecord} (h : r ∈ records) : ∃ i, place? records r.revision = some i := by
  obtain ⟨i, hi⟩ := List.getElem?_of_mem h
  cases hplace : place? records r.revision with
  | some j => exact ⟨j, rfl⟩
  | none =>
    rw [place?, Option.map_eq_none_iff, List.find?_eq_none] at hplace
    have hmem : (r, i) ∈ records.zipIdx.reverse := by
      rw [List.mem_reverse, List.mem_zipIdx_iff_getElem?]
      exact hi
    exact absurd (beq_self_eq_true r.revision) (hplace (r, i) hmem)

lemma nodup_eraseDups (l : List String) : l.eraseDups.Nodup := by
  induction hn : l.length using Nat.strong_induction_on generalizing l with
  | _ n ih =>
    cases l with
    | nil => simp
    | cons a l =>
      rw [List.eraseDups_cons, List.nodup_cons]
      refine ⟨by simp [List.mem_eraseDups], ih _ ?_ _ rfl⟩
      have := List.length_filter_le (fun b => !b == a) l
      simp only [List.length_cons] at hn
      omega

lemma parentPlaces_nodup (records : List CommitRecord) (r : CommitRecord) :
    (parentPlaces records r).Nodup := by
  refine (nodup_eraseDups _).filterMap fun a b i ha hb => ?_
  obtain ⟨s, hs, rfl⟩ := place?_eq_some ha
  obtain ⟨s', hs', rfl⟩ := place?_eq_some hb
  rw [hs] at hs'
  cases hs'
  rfl

lemma mem_parentPlaces {r : CommitRecord} {j : Nat} :
    j ∈ parentPlaces records r ↔ ∃ p ∈ r.parents, place? records p = some j := by
  simp [parentPlaces, List.mem_eraseDups]

/-- The places of the parents of each commit of a list. -/
def table (records : List CommitRecord) : List (List Nat) := records.map (parentPlaces records)

lemma mem_table {i j : Nat} : j ∈ (table records).getD i [] ↔
    ∃ r s, records[i]? = some r ∧ records[j]? = some s ∧ s.revision ∈ r.parents ∧
      place? records s.revision = some j := by
  simp only [table, List.getD_eq_getElem?_getD, List.getElem?_map]
  cases records[i]? with
  | none => simp
  | some r =>
    simp only [Option.map_some, Option.getD_some, mem_parentPlaces, Option.some.injEq]
    constructor
    · rintro ⟨p, hp, hplace⟩
      obtain ⟨s, hs, rfl⟩ := place?_eq_some hplace
      exact ⟨r, s, rfl, hs, hp, hplace⟩
    · rintro ⟨_, s, rfl, -, hp, hplace⟩
      exact ⟨_, hp, hplace⟩

lemma table_nodup (i : Nat) : ((table records).getD i []).Nodup := by
  simp only [table, List.getD_eq_getElem?_getD, List.getElem?_map]
  cases records[i]? with
  | none => simp
  | some r => exact parentPlaces_nodup records r

/-- At the beginning nothing is placed, and the commits without parents in the list are ready. -/
lemma placing_start (records : List CommitRecord) :
    Placing (table records) []
      ((List.range records.length).filter fun i => ((table records).map List.length).getD i 0 == 0)
      ((table records).map List.length) := by
  have hlength : (table records).length = records.length := List.length_map ..
  have hcount : ∀ i, i < (table records).length →
      ((table records).map List.length).getD i 0 = (waiting (table records) [] i).length := by
    intro i hi
    have hall : waiting (table records) [] i = (table records).getD i [] := by simp [waiting]
    rw [hall]
    simp [List.getD_eq_getElem?_getD, hi]
  refine ⟨?_, by simp, by simp, fun i => ?_, List.length_map .., hcount⟩
  · rw [List.nil_append]
    exact List.nodup_range.filter _
  · rw [List.mem_filter, List.mem_range, ← hlength, ← waiting_eq_nil, beq_iff_eq]
    simp only [List.not_mem_nil, not_false_eq_true, true_and]
    exact and_congr_right fun hi => by rw [hcount i hi]

/-- The places in the order in which they become ready. -/
def readyPlaces (records : List CommitRecord) : List Nat :=
  placeReady (table records) records.length
    ((List.range records.length).filter fun i => ((table records).map List.length).getD i 0 == 0)
    ((table records).map List.length)

lemma places_eq (records : List CommitRecord) : places records =
    readyPlaces records ++ (List.range records.length).filter (!(readyPlaces records).contains ·) := rfl

lemma readyPlaces_spec (records : List CommitRecord) :
    Legal (table records) [] (readyPlaces records) ∧ (readyPlaces records).Nodup ∧
      (∀ i ∈ readyPlaces records, i < records.length) ∧
      ∀ i, i < records.length → i ∉ readyPlaces records →
        ∃ j ∈ (table records).getD i [], j ∉ readyPlaces records := by
  have hlength : (table records).length = records.length := List.length_map ..
  have hspec := placeReady_spec table_nodup (placing_start records) (n := records.length)
    (by rw [hlength]; rfl)
  rw [hlength] at hspec
  exact hspec

/-- Each place occurs once. -/
lemma perm_places (records : List CommitRecord) : (places records).Perm (List.range records.length) := by
  obtain ⟨-, hnodup, hlt, -⟩ := readyPlaces_spec records
  rw [places_eq]
  refine (List.perm_ext_iff_of_nodup ?_ List.nodup_range).mpr fun i => ?_
  · refine List.nodup_append'.mpr ⟨hnodup, List.nodup_range.filter _, fun i hi hleft => ?_⟩
    simp [hi] at hleft
  · simp only [List.mem_append, List.mem_filter, List.mem_range, Bool.not_eq_true',
      List.contains_eq_mem, decide_eq_false_iff_not]
    by_cases hi : i ∈ readyPlaces records
    · simp [hi, hlt i hi]
    · simp [hi]

/-- A place from which no parents lead to a cycle becomes ready. -/
lemma mem_readyPlaces {i : Nat} (hi : i < records.length)
    (hacyclic : ∀ c, Relation.ReflTransGen (fun a b => b ∈ (table records).getD a []) i c →
      ¬Relation.TransGen (fun a b => b ∈ (table records).getD a []) c c) : i ∈ readyPlaces records := by
  have hlength : (table records).length = records.length := List.length_map ..
  have hlt : ∀ i, ∀ j ∈ (table records).getD i [], j < (table records).length := by
    intro i j hj
    obtain ⟨r, s, -, hs, -⟩ := mem_table.mp hj
    rw [hlength]
    exact (List.getElem?_eq_some_iff.mp hs).1
  obtain ⟨-, -, -, hleft⟩ := readyPlaces_spec records
  exact mem_of_left hlt (hlength ▸ hleft) (hlength.symm ▸ hi) hacyclic

/-- Without cycles every place becomes ready. -/
lemma places_eq_readyPlaces
    (hacyclic : ∀ i, ¬Relation.TransGen (fun a b => b ∈ (table records).getD a []) i i) :
    places records = readyPlaces records := by
  have hnone : (List.range records.length).filter (!(readyPlaces records).contains ·) = [] := by
    rw [List.filter_eq_nil_iff]
    intro i hi
    have hmem := mem_readyPlaces (List.mem_range.mp hi) fun c _ => hacyclic c
    simp [hmem]
  rw [places_eq, hnone, List.append_nil]

end CommitOrder

/-! ### The order of commits -/

section

variable {records : List CommitRecord}

lemma filterMap_range (records : List CommitRecord) :
    (List.range records.length).filterMap (records[·]?) = records := by
  have hmap : (List.range records.length).map (records[·]?) = records.map some :=
    List.ext_getElem? fun i => by by_cases hi : i < records.length <;> simp [hi]
  have hid : (List.range records.length).filterMap (records[·]?) =
      ((List.range records.length).map (records[·]?)).filterMap id := by
    rw [List.filterMap_map]
    rfl
  rw [hid, hmap, List.filterMap_map]
  exact List.filterMap_some

/-- Ordering commits neither loses nor repeats any. -/
lemma perm_topologicalOrder (records : List CommitRecord) : (topologicalOrder records).Perm records := by
  have hperm := (CommitOrder.perm_places records).filterMap (records[·]?)
  rwa [filterMap_range] at hperm

/-- A list in which every commit comes after its parents, of which some may be known before. -/
def ParentsFirst : (String → Prop) → List CommitRecord → Prop
  | _, [] => True
  | known, r :: rs => (∀ p ∈ r.parents, known p) ∧ ParentsFirst (fun c => known c ∨ c = r.revision) rs

/-- Nothing leads back to itself. -/
def Acyclic (parents : String → List String) : Prop :=
  ∀ c, ¬Relation.TransGen (fun a b => b ∈ parents a) c c

lemma ParentsFirst.of_legal {known : String → Prop}
    (hknown : ∀ r ∈ records, ∀ p ∈ r.parents, known p ∨ ∃ s ∈ records, s.revision = p)
    {placed l : List Nat} (hl : CommitOrder.Legal (CommitOrder.table records) placed l)
    {known' : String → Prop} (hsub : ∀ c, known c → known' c)
    (hplaced : ∀ j ∈ placed, ∀ s, records[j]? = some s → known' s.revision) :
    ParentsFirst known' (l.filterMap (records[·]?)) := by
  induction l generalizing placed known' with
  | nil => exact trivial
  | cons i l ih =>
    obtain ⟨hfirst, hrest⟩ := hl
    cases hi : records[i]? with
    | none =>
      rw [List.filterMap_cons_none hi]
      refine ih hrest hsub fun j hj s hs => ?_
      rcases List.mem_append.mp hj with hj | hj
      · exact hplaced j hj s hs
      · rw [List.mem_singleton.mp hj, hi] at hs
        cases hs
    | some r =>
      rw [List.filterMap_cons_some hi]
      refine ⟨fun p hp => ?_, ih hrest (fun c hc => Or.inl (hsub c hc)) fun j hj s hs => ?_⟩
      · rcases hknown r (List.mem_of_getElem? hi) p hp with hk | ⟨s, hs, rfl⟩
        · exact hsub p hk
        · obtain ⟨j, hj⟩ := CommitOrder.place?_of_mem hs
          obtain ⟨s', hs', hrevision⟩ := CommitOrder.place?_eq_some hj
          have htable : j ∈ (CommitOrder.table records).getD i [] :=
            CommitOrder.mem_table.mpr ⟨r, s', hi, hs', hrevision ▸ hp, hrevision ▸ hj⟩
          exact hrevision ▸ hplaced j (hfirst j htable) s' hs'
      · rcases List.mem_append.mp hj with hj | hj
        · exact Or.inl (hplaced j hj s hs)
        · rw [List.mem_singleton.mp hj, hi] at hs
          cases hs
          exact Or.inr rfl

/-- Commits whose parents are known or listed are ordered parents first. -/
theorem parentsFirst_topologicalOrder {parents : String → List String} (hacyclic : Acyclic parents)
    (hparents : ∀ r ∈ records, r.parents = parents r.revision) {known : String → Prop}
    (hknown : ∀ r ∈ records, ∀ p ∈ r.parents, known p ∨ ∃ s ∈ records, s.revision = p) :
    ParentsFirst known (topologicalOrder records) := by
  -- a cycle among the places would be one among the revisions
  let revision (i : Nat) : String := ((records[i]?).map CommitRecord.revision).getD ""
  have hlift : ∀ i j, Relation.TransGen (fun a b => b ∈ (CommitOrder.table records).getD a []) i j →
      Relation.TransGen (fun a b => b ∈ parents a) (revision i) (revision j) := by
    refine fun i j h => Relation.TransGen.lift revision (fun a b hab => ?_) i j h
    obtain ⟨r, s, hr, hs, hp, -⟩ := CommitOrder.mem_table.mp hab
    show revision b ∈ parents (revision a)
    simp only [revision, hr, hs, Option.map_some, Option.getD_some]
    rw [← hparents r (List.mem_of_getElem? hr)]
    exact hp
  rw [topologicalOrder, CommitOrder.places_eq_readyPlaces fun i hi => hacyclic _ (hlift i i hi)]
  exact ParentsFirst.of_legal hknown (CommitOrder.readyPlaces_spec records).1 (fun _ h => h) (by simp)

end

end RepoAtlas
