import RepoAtlas.Proofs.History.Gathering

/-!
# Orders of lists with cycles

In a list with cycles, the commits that no cycle is behind of come first, parents before children, and the rest follows
as it was listed. A commit that is placed descends only from what was placed before it, so no cycle is behind of it;
and from one that is left, parents that are left lead to a cycle, as there are only so many.
-/

namespace RepoAtlas

namespace CommitOrder

variable {parents : List (List Nat)} {placed : List Nat} {records : List CommitRecord} {i : Nat}

/-! ### Places that become ready -/

/-- In a legal order parents stand before their children. -/
lemma Legal.mem_left {pre post : List Nat} (h : Legal parents placed (pre ++ i :: post)) {j : Nat}
    (hj : j ∈ parents.getD i []) : j ∈ placed ++ pre := by
  induction pre generalizing placed with
  | nil =>
    rw [List.append_nil]
    exact h.1 j hj
  | cons k pre ih =>
    have hmem := ih h.2
    rwa [List.append_assoc] at hmem

lemma Legal.idxOf_lt {order : List Nat} (h : Legal parents [] order) (hi : i ∈ order) {j : Nat}
    (hj : j ∈ parents.getD i []) : order.idxOf j < order.idxOf i := by
  obtain ⟨pre, post, rfl, hnot⟩ := List.eq_append_cons_of_mem hi
  have hpre : j ∈ pre := h.mem_left hj
  rw [List.idxOf_append_of_mem hpre, List.idxOf_append_of_notMem hnot]
  exact Nat.lt_add_right _ (List.idxOf_lt_length_iff.mpr hpre)

/-- What is placed descends only from what was placed before. -/
lemma Legal.idxOf_lt_of_transGen {order : List Nat} (h : Legal parents [] order) {j : Nat} (hi : i ∈ order)
    (hpath : Relation.TransGen (fun a b => b ∈ parents.getD a []) i j) : order.idxOf j < order.idxOf i := by
  induction hpath with
  | single hj => exact h.idxOf_lt hi hj
  | tail _ hj ih =>
    have hmem := List.idxOf_lt_length_iff.mp (Nat.lt_trans ih (List.idxOf_lt_length_iff.mpr hi))
    exact Nat.lt_trans (h.idxOf_lt hmem hj) ih

lemma mem_readyPlaces_iff (hi : i < records.length) : i ∈ readyPlaces records ↔
    ¬∃ c, Relation.ReflTransGen (fun a b => b ∈ (table records).getD a []) i c ∧
      Relation.TransGen (fun a b => b ∈ (table records).getD a []) c c := by
  obtain ⟨hlegal, -⟩ := readyPlaces_spec records
  constructor
  · rintro hmem ⟨c, hpath, hcycle⟩
    have hc : c ∈ readyPlaces records := by
      rcases Relation.reflTransGen_iff_eq_or_transGen.mp hpath with rfl | hpath
      · exact hmem
      · have hlt := hlegal.idxOf_lt_of_transGen hmem hpath
        exact List.idxOf_lt_length_iff.mp (Nat.lt_trans hlt (List.idxOf_lt_length_iff.mpr hmem))
    exact Nat.lt_irrefl _ (hlegal.idxOf_lt_of_transGen hc hcycle)
  · exact fun hnone => mem_readyPlaces hi fun c hpath hcycle => hnone ⟨c, hpath, hcycle⟩

end CommitOrder

/-! ### Cycles of commits -/

section

variable {records : List CommitRecord} {r s : CommitRecord} {i : Nat}

/-- Both commits are listed, and the second one is a parent of the first. -/
def HasParent (records : List CommitRecord) (r s : CommitRecord) : Prop :=
  r ∈ records ∧ s ∈ records ∧ s.revision ∈ r.parents

/-- A commit that is on a cycle or descends from one. -/
def Tangled (records : List CommitRecord) (r : CommitRecord) : Prop :=
  ∃ c, Relation.ReflTransGen (HasParent records) r c ∧ Relation.TransGen (HasParent records) c c

/-- An order that has parents first, except that what is tangled comes last, as it is listed. -/
structure CyclesLast (records order : List CommitRecord) : Prop where
  perm : order.Perm records
  split : ∃ placed rest, order = placed ++ rest ∧
    ParentsFirst (fun c => ∀ s ∈ records, s.revision ≠ c) placed ∧
    (∀ r, r ∈ placed ↔ r ∈ records ∧ ¬Tangled records r) ∧
    (∀ r, r ∈ rest ↔ r ∈ records ∧ Tangled records r) ∧ rest.Sublist records
  acyclic : (∀ r, ¬Relation.TransGen (HasParent records) r r) →
    ParentsFirst (fun c => ∀ s ∈ records, s.revision ≠ c) order

lemma eq_of_getElem? (hdistinct : (records.map (·.revision)).Nodup) {j : Nat} (hi : records[i]? = some r)
    (hj : records[j]? = some s) (hrevision : r.revision = s.revision) : i = j := by
  have hi' : (records.map (·.revision))[i]? = some r.revision := by rw [List.getElem?_map, hi, Option.map_some]
  have hj' : (records.map (·.revision))[j]? = some r.revision := by
    rw [List.getElem?_map, hj, Option.map_some, hrevision]
  exact (List.getElem?_inj (List.getElem?_eq_some_iff.mp hi').1 hdistinct).mp (hi'.trans hj'.symm)

/-- Parents are found by their places. -/
lemma hasParent_iff (hdistinct : (records.map (·.revision)).Nodup) (hr : records[i]? = some r) :
    HasParent records r s ↔ ∃ j, j ∈ (CommitOrder.table records).getD i [] ∧ records[j]? = some s := by
  constructor
  · rintro ⟨-, hs, hp⟩
    obtain ⟨j, hj⟩ := CommitOrder.place?_of_mem hs
    obtain ⟨s', hs', hrevision⟩ := CommitOrder.place?_eq_some hj
    obtain ⟨k, hk⟩ := List.getElem?_of_mem hs
    have hjk := eq_of_getElem? hdistinct hs' hk hrevision
    rw [← hjk] at hk
    exact ⟨j, CommitOrder.mem_table.mpr ⟨r, s, hr, hk, hp, hj⟩, hk⟩
  · rintro ⟨j, hj, hs⟩
    obtain ⟨r', s', hr', hs', hp, -⟩ := CommitOrder.mem_table.mp hj
    cases hr.symm.trans hr'
    cases hs.symm.trans hs'
    exact ⟨List.mem_of_getElem? hr, List.mem_of_getElem? hs, hp⟩

/-- Ancestors are found by their places. -/
lemma reflTransGen_hasParent_iff (hdistinct : (records.map (·.revision)).Nodup) (hr : records[i]? = some r) :
    Relation.ReflTransGen (HasParent records) r s ↔
      ∃ j, Relation.ReflTransGen (fun a b => b ∈ (CommitOrder.table records).getD a []) i j ∧
        records[j]? = some s := by
  constructor
  · intro h
    induction h with
    | refl => exact ⟨i, .refl, hr⟩
    | tail _ hlast ih =>
      obtain ⟨j, hpath, hj⟩ := ih
      obtain ⟨k, hk, hs⟩ := (hasParent_iff hdistinct hj).mp hlast
      exact ⟨k, hpath.tail hk, hs⟩
  · rintro ⟨j, hpath, hs⟩
    induction hpath generalizing s with
    | refl =>
      cases hr.symm.trans hs
      exact .refl
    | tail _ hlast ih =>
      obtain ⟨t, -, ht, -⟩ := CommitOrder.mem_table.mp hlast
      exact (ih ht).tail ((hasParent_iff hdistinct ht).mpr ⟨_, hlast, hs⟩)

lemma transGen_hasParent_self_iff (hdistinct : (records.map (·.revision)).Nodup) (hr : records[i]? = some r) :
    Relation.TransGen (HasParent records) r r ↔
      Relation.TransGen (fun a b => b ∈ (CommitOrder.table records).getD a []) i i := by
  rw [Relation.TransGen.tail'_iff, Relation.TransGen.tail'_iff]
  constructor
  · rintro ⟨s, hpath, hlast⟩
    obtain ⟨j, hpath, hs⟩ := (reflTransGen_hasParent_iff hdistinct hr).mp hpath
    obtain ⟨k, hk, hr'⟩ := (hasParent_iff hdistinct hs).mp hlast
    cases eq_of_getElem? hdistinct hr' hr rfl
    exact ⟨j, hpath, hk⟩
  · rintro ⟨j, hpath, hlast⟩
    obtain ⟨s, -, hs, -⟩ := CommitOrder.mem_table.mp hlast
    exact ⟨s, (reflTransGen_hasParent_iff hdistinct hr).mpr ⟨j, hpath, hs⟩,
      (hasParent_iff hdistinct hs).mpr ⟨i, hlast, hr⟩⟩

/-- The places that become ready are those of the commits that are not tangled. -/
lemma mem_readyPlaces_iff_not_tangled (hdistinct : (records.map (·.revision)).Nodup)
    (hr : records[i]? = some r) : i ∈ CommitOrder.readyPlaces records ↔ ¬Tangled records r := by
  rw [CommitOrder.mem_readyPlaces_iff (List.getElem?_eq_some_iff.mp hr).1, not_iff_not]
  constructor
  · rintro ⟨j, hpath, hcycle⟩
    have hj : ∃ c, records[j]? = some c := by
      obtain ⟨k, hfirst, -⟩ := Relation.TransGen.head'_iff.mp hcycle
      obtain ⟨c, -, hc, -⟩ := CommitOrder.mem_table.mp hfirst
      exact ⟨c, hc⟩
    obtain ⟨c, hc⟩ := hj
    exact ⟨c, (reflTransGen_hasParent_iff hdistinct hr).mpr ⟨j, hpath, hc⟩,
      (transGen_hasParent_self_iff hdistinct hc).mpr hcycle⟩
  · rintro ⟨c, hpath, hcycle⟩
    obtain ⟨j, hpath, hc⟩ := (reflTransGen_hasParent_iff hdistinct hr).mp hpath
    exact ⟨j, hpath, (transGen_hasParent_self_iff hdistinct hc).mp hcycle⟩

lemma mem_placed_iff (hdistinct : (records.map (·.revision)).Nodup) :
    r ∈ (CommitOrder.readyPlaces records).filterMap (records[·]?) ↔ r ∈ records ∧ ¬Tangled records r := by
  rw [List.mem_filterMap]
  constructor
  · rintro ⟨i, hi, hr⟩
    exact ⟨List.mem_of_getElem? hr, (mem_readyPlaces_iff_not_tangled hdistinct hr).mp hi⟩
  · rintro ⟨hmem, hfree⟩
    obtain ⟨i, hr⟩ := List.getElem?_of_mem hmem
    exact ⟨i, (mem_readyPlaces_iff_not_tangled hdistinct hr).mpr hfree, hr⟩

lemma mem_left_iff (hdistinct : (records.map (·.revision)).Nodup) :
    r ∈ ((List.range records.length).filter (!(CommitOrder.readyPlaces records).contains ·)).filterMap
      (records[·]?) ↔ r ∈ records ∧ Tangled records r := by
  have hleft : ∀ {i}, records[i]? = some r →
      ((!(CommitOrder.readyPlaces records).contains i) = true ↔ Tangled records r) := fun hr => by
    rw [Bool.not_eq_true', List.contains_eq_mem, decide_eq_false_iff_not,
      mem_readyPlaces_iff_not_tangled hdistinct hr, not_not]
  simp only [List.mem_filterMap, List.mem_filter]
  constructor
  · rintro ⟨i, ⟨-, hi⟩, hr⟩
    exact ⟨List.mem_of_getElem? hr, (hleft hr).mp hi⟩
  · rintro ⟨hmem, htangled⟩
    obtain ⟨i, hr⟩ := List.getElem?_of_mem hmem
    exact ⟨i, ⟨List.mem_range.mpr (List.getElem?_eq_some_iff.mp hr).1, (hleft hr).mpr htangled⟩, hr⟩

/-- The order of different commits has cycles last, and it is found link by link, without a count below zero and in
whatever order the parents of each commit are gone through. -/
theorem cyclesLast_topologicalOrder (hdistinct : (records.map (·.revision)).Nodup) :
    CyclesLast records (topologicalOrder records) ∧
      ∀ sets, CommitOrder.Listings sets records →
        CommitOrder.orderBy? sets records = some (topologicalOrder records) := by
  have hknown : ∀ r ∈ records, ∀ p ∈ r.parents,
      (∀ s ∈ records, s.revision ≠ p) ∨ ∃ s ∈ records, s.revision = p := by
    intro r _ p _
    by_cases hp : ∃ s ∈ records, s.revision = p
    · exact Or.inr hp
    · exact Or.inl fun s hs heq => hp ⟨s, hs, heq⟩
  have hplaced := ParentsFirst.of_legal hknown (CommitOrder.readyPlaces_spec records).1 (fun _ h => h) (by simp)
  have hsplit : topologicalOrder records = (CommitOrder.readyPlaces records).filterMap (records[·]?) ++
      ((List.range records.length).filter (!(CommitOrder.readyPlaces records).contains ·)).filterMap
        (records[·]?) := by
    rw [topologicalOrder, CommitOrder.places_eq, List.filterMap_append]
  refine ⟨⟨perm_topologicalOrder records, ?split, ?acyclic⟩, fun sets => CommitOrder.orderBy?_eq⟩
  case split =>
    refine ⟨_, _, hsplit, hplaced, fun r => mem_placed_iff hdistinct, fun r => mem_left_iff hdistinct, ?_⟩
    have hsub := (List.filter_sublist (p := (!(CommitOrder.readyPlaces records).contains ·))
      (l := List.range records.length)).filterMap (records[·]?)
    rwa [filterMap_range] at hsub
  case acyclic =>
    intro hacyclic
    have hnone : ((List.range records.length).filter
        (!(CommitOrder.readyPlaces records).contains ·)).filterMap (records[·]?) = [] := by
      refine List.eq_nil_iff_forall_not_mem.mpr fun r hr => ?_
      obtain ⟨-, c, -, hcycle⟩ := (mem_left_iff hdistinct).mp hr
      exact hacyclic c hcycle
    rw [hsplit, hnone, List.append_nil]
    exact hplaced

/-- A commit with some parents. -/
def commitOf (revision : String) (parents : List String) : CommitRecord :=
  { (default : CommitRecord) with revision, parents }

/-- Two commits that are each other's parents, a child of theirs, a commit that is its own parent, and a commit
with a child that names it twice. -/
def knotted : List CommitRecord :=
  [commitOf "c" ["b", "e"], commitOf "a" ["b"], commitOf "f" ["e", "x", "e"], commitOf "d" ["d"],
    commitOf "b" ["a"], commitOf "e" []]

/-- Only the last commit and its child that names no other one come first. -/
theorem cyclesLast_topologicalOrder_knotted :
    (topologicalOrder knotted).map (·.revision) = ["e", "f", "c", "a", "d", "b"] ∧
      CyclesLast knotted (topologicalOrder knotted) ∧
      CommitOrder.orderBy? [["e", "b"], ["b"], ["x", "e"], ["d"], ["a"], []] knotted =
        some (topologicalOrder knotted) := by
  have hdistinct : (knotted.map (·.revision)).Nodup := by decide
  obtain ⟨hlast, hlinks⟩ := cyclesLast_topologicalOrder hdistinct
  refine ⟨by decide, hlast, hlinks _ ?_⟩
  simp [CommitOrder.Listings, knotted, commitOf, or_comm]

end

end RepoAtlas
