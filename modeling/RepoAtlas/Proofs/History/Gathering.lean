import RepoAtlas.Proofs.History.Order

/-!
# Links between commits, one by one

The order of commits is also found link by link: the parents of each commit are gone through in any order, every link is
counted at the child and noted at the parent, and a placed commit counts its children down. That way no count falls below
zero, and the order in which the parents were gone through leaves no trace.
-/

namespace RepoAtlas

namespace CommitOrder

/-! ### Link by link -/

/-- How many parents each commit waits for, and the children of each. -/
structure Links where
  pending : List Nat
  children : List (List Nat)

/-- Note that `j` is a parent of `i`. -/
def Links.add (i : Nat) (l : Links) (j : Nat) : Links where
  pending := l.pending.modify i (· + 1)
  children := l.children.modify j (· ++ [i])

/-- Note the parents of each commit, which are given by their places. -/
def gather (n : Nat) (found : List (List Nat)) : Links :=
  found.zipIdx.foldl (fun l (js, i) => js.foldl (Links.add i) l)
    { pending := List.replicate n 0, children := List.replicate n [] }

/-- Count down one child. There is no result if it waits for no parent. -/
def release? (s : List Nat × List Nat) (c : Nat) : Option (List Nat × List Nat) :=
  match s.1.getD c 0 with
  | 0 => none
  | n + 1 => some (s.1.set c n, if n = 0 then s.2 ++ [c] else s.2)

/-- Place what is in the queue, first come first. There is no result if more than `n` come. -/
def placeReady? (children : List (List Nat)) : Nat → List Nat → List Nat → Option (List Nat)
  | _, [], _ => some []
  | 0, _ :: _, _ => none
  | n + 1, i :: ready, pending => do
    let (pending, ready) ← (children.getD i []).foldlM release? (pending, ready)
    let placed ← placeReady? children n ready pending
    return i :: placed

/-- The order of commits whose parents are gone through as `sets` lists them. -/
def orderBy? (sets : List (List String)) (records : List CommitRecord) : Option (List CommitRecord) := do
  let links := gather records.length (sets.map fun ps => ps.filterMap (place? records))
  let all := List.range records.length
  let ready := all.filter fun i => links.pending.getD i 0 == 0
  let placed ← placeReady? links.children records.length ready links.pending
  let order := if placed.length < records.length then placed ++ all.filter (!placed.contains ·) else placed
  return order.filterMap (records[·]?)

/-- Lists of the parents of each commit, each parent once, in any order. -/
def Listings (sets : List (List String)) (records : List CommitRecord) : Prop :=
  List.Forall₂ (fun ps (r : CommitRecord) => ps.Nodup ∧ ∀ p, p ∈ ps ↔ p ∈ r.parents) sets records

/-! ### Gathering -/

variable {n i : Nat} {l : Links} {js : List Nat} {found : List (List Nat)}

lemma getD_modify_self {α : Type} {l : List α} {f : α → α} {d : α} (h : i < l.length) :
    (l.modify i f).getD i d = f (l.getD i d) := by
  simp [List.getD_eq_getElem?_getD, h]

lemma getD_modify_ne {α : Type} {l : List α} {f : α → α} {d : α} {k : Nat} (h : i ≠ k) :
    (l.modify i f).getD k d = l.getD k d := by
  simp [List.getD_eq_getElem?_getD, h]

/-- What noting the parents of one commit adds. -/
structure Adds (i : Nat) (js : List Nat) (l l' : Links) : Prop where
  pendingLength : l'.pending.length = l.pending.length
  childrenLength : l'.children.length = l.children.length
  pending : ∀ k, l'.pending.getD k 0 = l.pending.getD k 0 + if k = i then js.length else 0
  children : ∀ j, l'.children.getD j [] = l.children.getD j [] ++ if j ∈ js then [i] else []

lemma adds_foldl_add (hi : i < l.pending.length) (hjs : js.Nodup) (hlt : ∀ j ∈ js, j < l.children.length) :
    Adds i js l (js.foldl (Links.add i) l) := by
  induction js generalizing l with
  | nil => exact ⟨rfl, rfl, by simp, by simp⟩
  | cons j js ih =>
    obtain ⟨hj, hjs⟩ := List.nodup_cons.mp hjs
    have hpending : (l.add i j).pending.length = l.pending.length := List.length_modify ..
    have hchildren : (l.add i j).children.length = l.children.length := List.length_modify ..
    have hrest := ih (l := l.add i j) (hpending ▸ hi) hjs fun k hk => hchildren ▸ hlt k (by simp [hk])
    refine ⟨hrest.pendingLength.trans hpending, hrest.childrenLength.trans hchildren, fun k => ?_, fun k => ?_⟩
    · rw [List.foldl_cons, hrest.pending]
      by_cases hk : k = i
      · subst hk
        simp only [Links.add, getD_modify_self hi, if_true, List.length_cons]
        omega
      · simp only [Links.add, getD_modify_ne (Ne.symm hk), hk, if_false]
    · rw [List.foldl_cons, hrest.children]
      by_cases hk : k = j
      · subst hk
        simp only [Links.add, getD_modify_self (hlt k (by simp)), hj, if_false, List.append_nil, List.mem_cons,
          true_or, if_true]
      · simp only [Links.add, getD_modify_ne (Ne.symm hk), List.mem_cons, hk, false_or]

/-- The links that were gathered: the counts are those of the parents, and the children of a commit are listed in
their order. -/
structure Gathered (n : Nat) (found : List (List Nat)) (l : Links) : Prop where
  pendingLength : l.pending.length = n
  childrenLength : l.children.length = n
  pending : ∀ k, l.pending.getD k 0 = (found.getD k []).length
  children : ∀ j, l.children.getD j [] = children found j

lemma gathered_gather (hn : found.length ≤ n) (hnodup : ∀ js ∈ found, js.Nodup)
    (hlt : ∀ js ∈ found, ∀ j ∈ js, j < n) : Gathered n found (gather n found) := by
  induction found using List.reverseRecOn with
  | nil =>
    refine ⟨List.length_replicate, List.length_replicate, fun k => ?_, fun j => ?_⟩
    · by_cases hk : k < n <;> simp [gather, List.getD_eq_getElem?_getD, hk]
    · by_cases hj : j < n <;> simp [gather, children, List.getD_eq_getElem?_getD, hj]
  | append_singleton found js ih =>
    rw [List.length_append, List.length_singleton] at hn
    have hbefore := ih (by omega) (fun js hjs => hnodup js (by simp [hjs])) fun js hjs => hlt js (by simp [hjs])
    have hsplit : gather n (found ++ [js]) = js.foldl (Links.add found.length) (gather n found) := by
      simp [gather, List.zipIdx_append]
    have hadds := adds_foldl_add (i := found.length) (l := gather n found)
      (by rw [hbefore.pendingLength]; omega) (hnodup js (by simp))
      (by rw [hbefore.childrenLength]; exact hlt js (by simp))
    rw [← hsplit] at hadds
    have hold : ∀ k, k < found.length → (found ++ [js]).getD k [] = found.getD k [] := fun k hk => by
      simp [List.getD_eq_getElem?_getD, List.getElem?_append_left hk]
    have hnew : (found ++ [js]).getD found.length [] = js := by simp [List.getD_eq_getElem?_getD]
    refine ⟨hadds.pendingLength.trans hbefore.pendingLength,
      hadds.childrenLength.trans hbefore.childrenLength, fun k => ?_, fun j => ?_⟩
    · rw [hadds.pending, hbefore.pending]
      rcases Nat.lt_trichotomy k found.length with hk | rfl | hk
      · rw [hold k hk, if_neg (by omega), Nat.add_zero]
      · rw [hnew, if_pos rfl]
        simp
      · have hpast : (found ++ [js]).length ≤ k := by
          rw [List.length_append, List.length_singleton]
          exact hk
        have hnone : found.getD k [] = [] := by
          rw [List.getD_eq_getElem?_getD, List.getElem?_eq_none (Nat.le_of_lt hk), Option.getD_none]
        have hnone' : (found ++ [js]).getD k [] = [] := by
          rw [List.getD_eq_getElem?_getD, List.getElem?_eq_none hpast, Option.getD_none]
        rw [if_neg (by omega), hnone, hnone', List.length_nil]
    · rw [hadds.children, hbefore.children, children, children, List.length_append, List.length_singleton,
        List.range_succ, List.filter_append, List.filter_singleton, hnew]
      congr 1
      · refine List.filter_congr fun k hk => ?_
        rw [hold k (List.mem_range.mp hk)]
      · by_cases hj : j ∈ js <;> simp [hj]

/-! ### Counting down from what was gathered -/

variable {parents : List (List Nat)} {placed ready pending : List Nat}

lemma release?_of_pos {s : List Nat × List Nat} {c : Nat} (h : 0 < s.1.getD c 0) :
    release? s c = some (release s c) := by
  obtain ⟨n, hn⟩ := Nat.exists_eq_succ_of_ne_zero (Nat.ne_of_gt h)
  simp only [release?, release, hn, Nat.succ_eq_add_one, Nat.add_sub_cancel]

/-- Different children that each wait for a parent are counted down. -/
lemma foldlM_release? {cs : List Nat} (hcs : cs.Nodup) {s : List Nat × List Nat}
    (hpos : ∀ c ∈ cs, 0 < s.1.getD c 0) : cs.foldlM release? s = some (cs.foldl release s) := by
  induction cs generalizing s with
  | nil => rfl
  | cons c cs ih =>
    obtain ⟨hc, hcs⟩ := List.nodup_cons.mp hcs
    rw [List.foldlM_cons, release?_of_pos (hpos c (by simp))]
    refine ih hcs fun k hk => ?_
    have hne : c ≠ k := fun h => hc (h ▸ hk)
    simp only [release, getD_set_ne hne]
    exact hpos k (by simp [hk])

/-- What is released goes to the end of the queue. -/
lemma foldl_release_append (cs pending ready released : List Nat) :
    cs.foldl release (pending, ready ++ released) =
      ((cs.foldl release (pending, released)).1, ready ++ (cs.foldl release (pending, released)).2) := by
  induction cs generalizing pending released with
  | nil => rfl
  | cons c cs ih =>
    simp only [List.foldl_cons, release]
    split
    · rw [List.append_assoc, ih]
    · rw [ih]

/-- With the right counts and children, no count falls below zero and the queue runs empty in time. -/
lemma placeReady?_eq (hp : ∀ i, (parents.getD i []).Nodup) {cs : List (List Nat)}
    (hcs : ∀ i, cs.getD i [] = children parents i) (h : Placing parents placed ready pending)
    (hn : n + placed.length = parents.length) :
    placeReady? cs n ready pending = some (placeReady parents n ready pending) := by
  induction n generalizing placed ready pending with
  | zero =>
    cases ready with
    | nil => rfl
    | cons i ready =>
      obtain ⟨hnot, hi, -⟩ := (h.ready i).mp (by simp)
      exact absurd (h.mem_of_full (by omega) hi) hnot
  | succ n ih =>
    cases ready with
    | nil => rfl
    | cons i ready =>
      obtain ⟨hnot, -⟩ := (h.ready i).mp (by simp)
      -- a child of `i` still waits for `i`
      have hpos : ∀ c ∈ children parents i, 0 < pending.getD c 0 := by
        intro c hc
        obtain ⟨hlt, hic⟩ := mem_children.mp hc
        rw [h.counted c hlt]
        have hwaits : i ∈ waiting parents placed c := List.mem_filter.mpr ⟨hic, by simpa using hnot⟩
        exact List.length_pos_of_mem hwaits
      have hcounts := foldlM_release? (children_nodup parents i) (s := (pending, ready)) hpos
      have hqueue := foldl_release_append (children parents i) pending ready []
      rw [List.append_nil, ← countDown_eq] at hqueue
      rw [hqueue] at hcounts
      have hrest := ih (h.step hp) (by rw [List.length_append, List.length_singleton]; omega)
      simp only [placeReady?, placeReady, hcs, hcounts, bind, Option.bind, hrest, pure]

variable {records : List CommitRecord} {sets : List (List String)}

lemma perm_getD {as bs : List (List Nat)} (h : List.Forall₂ List.Perm as bs) (i : Nat) :
    (as.getD i []).Perm (bs.getD i []) := by
  induction h generalizing i with
  | nil => exact List.Perm.refl _
  | cons hab _ ih =>
    cases i with
    | zero => exact hab
    | succ i => exact ih i

/-- The places that are found are those of the table, in some order. -/
lemma Listings.perm (h : Listings sets records) :
    List.Forall₂ List.Perm (sets.map fun ps => ps.filterMap (place? records)) (table records) := by
  rw [table, List.forall₂_map_left_iff, List.forall₂_map_right_iff]
  refine h.imp fun ps r hps => List.Perm.filterMap _ ?_
  refine (List.perm_ext_iff_of_nodup hps.1 (nodup_eraseDups _)).mpr fun p => ?_
  rw [hps.2, List.mem_eraseDups]

/-- What is gathered are the counts and the children of the table. -/
lemma Listings.gathered (h : Listings sets records) :
    Gathered records.length (table records)
      (gather records.length (sets.map fun ps => ps.filterMap (place? records))) := by
  set found := sets.map fun ps => ps.filterMap (place? records)
  have hperm : ∀ i, (found.getD i []).Perm ((table records).getD i []) := perm_getD h.perm
  have hlength : found.length = (table records).length := h.perm.length_eq
  have hmem : ∀ js ∈ found, ∃ i, js.Perm ((table records).getD i []) := by
    intro js hjs
    obtain ⟨i, hi⟩ := List.getElem?_of_mem hjs
    have hi' := hperm i
    rw [List.getD_eq_getElem?_getD, hi] at hi'
    exact ⟨i, hi'⟩
  have hgathered : Gathered records.length found (gather records.length found) := by
    refine gathered_gather (by rw [hlength, table, List.length_map]) (fun js hjs => ?_) fun js hjs j hj => ?_
    · obtain ⟨i, hi⟩ := hmem js hjs
      exact hi.nodup_iff.mpr (table_nodup i)
    · obtain ⟨i, hi⟩ := hmem js hjs
      obtain ⟨r, s, -, hs, -⟩ := mem_table.mp (hi.mem_iff.mp hj)
      exact (List.getElem?_eq_some_iff.mp hs).1
  refine ⟨hgathered.pendingLength, hgathered.childrenLength, fun k => ?_, fun j => ?_⟩
  · rw [hgathered.pending, (hperm k).length_eq]
  · rw [hgathered.children, children, children, hlength]
    exact List.filter_congr fun k _ => by simp only [List.contains_eq_mem, (hperm k).mem_iff]

/-- Link by link, in whatever order the parents are gone through, the order is the same. -/
lemma orderBy?_eq (h : Listings sets records) : orderBy? sets records = some (topologicalOrder records) := by
  have hgathered := h.gathered
  have hlength : (table records).length = records.length := List.length_map ..
  simp only [orderBy?]
  set links := gather records.length (sets.map fun ps => ps.filterMap (place? records))
  have hpending : links.pending = (table records).map List.length := by
    refine List.ext_getElem (by rw [hgathered.pendingLength, List.length_map, hlength]) fun k hk hk' => ?_
    have hcount := hgathered.pending k
    rw [List.length_map] at hk'
    simpa [List.getD_eq_getElem?_getD, hk, hk'] using hcount
  have hplaced := placeReady?_eq table_nodup hgathered.children (placing_start records) (n := records.length)
    (by rw [hlength]; rfl)
  have hreadyPlaces : placeReady (table records) records.length
      ((List.range records.length).filter fun i => ((table records).map List.length).getD i 0 == 0)
      ((table records).map List.length) = readyPlaces records := rfl
  rw [hreadyPlaces] at hplaced
  have hplaces : (if (readyPlaces records).length < records.length then
      readyPlaces records ++ (List.range records.length).filter (!(readyPlaces records).contains ·)
      else readyPlaces records) = places records := by
    split
    · rfl
    · rename_i hfull
      have hall := (perm_places records).length_eq
      rw [places_eq, List.length_append, List.length_range] at hall
      have hnone : ((List.range records.length).filter (!(readyPlaces records).contains ·)).length = 0 := by omega
      rw [places_eq, List.eq_nil_of_length_eq_zero hnone, List.append_nil]
  simp only [hpending, hplaced, bind, Option.bind, pure, hplaces]
  rfl

end CommitOrder

end RepoAtlas
