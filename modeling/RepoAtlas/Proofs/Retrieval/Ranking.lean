import Mathlib.Data.List.Basic
import Mathlib.Data.List.Induction
import Mathlib.Tactic.Common
import RepoAtlas.Proofs.Graph.Entries
import RepoAtlas.Proofs.Retrieval.Window

/-!
# Rankings

A ranking gives each candidate a score, which depends on its similarity and on the counts of its path and on the
largest counts among the candidates, and sorts by these scores. So nothing but the candidates decides over it, and a
further candidate with counts that are no larger finds its place without moving the others.
-/

namespace RepoAtlas

/-! ### Descending lists -/

section

variable {α : Type} {key : α → Int} {l k : List α} {a : α} {n : Int}

/-- The keys of a list descend. -/
def Descending (key : α → Int) (l : List α) : Prop := l.Pairwise fun a b => key b ≤ key a

/-- Whether the key of one member is no less than that of another one. -/
def reaches (key : α → Int) (a b : α) : Bool := key b ≤ key a

lemma reaches_iff {b : α} : reaches key a b = true ↔ key b ≤ key a := decide_eq_true_iff

lemma reaches_trans (a b c : α) (hab : reaches key a b = true) (hbc : reaches key b c = true) :
    reaches key a c = true := by
  rw [reaches_iff] at *
  exact Int.le_trans hbc hab

lemma reaches_total (a b : α) : (reaches key a b || reaches key b a) = true := by
  rw [Bool.or_eq_true, reaches_iff, reaches_iff]
  exact Int.le_total ..

lemma Descending.le_head {b : α} (hl : Descending key (a :: l)) (hb : b ∈ a :: l) : key b ≤ key a :=
  (List.mem_cons.mp hb).elim (fun h => Int.le_of_eq (congrArg key h)) ((List.pairwise_cons.mp hl).1 b)

lemma mem_of_filter_eq (hsame : ∀ n, l.filter (key · = n) = k.filter (key · = n)) (ha : a ∈ l) : a ∈ k := by
  have hclass : a ∈ l.filter (key · = key a) := List.mem_filter.mpr ⟨ha, by simp⟩
  rw [hsame] at hclass
  exact (List.mem_filter.mp hclass).1

/-- A descending list is known by its members of each key, in their order. -/
lemma Descending.eq_of_filter_eq : ∀ {l k : List α}, Descending key l → Descending key k →
    (∀ n, l.filter (key · = n) = k.filter (key · = n)) → l = k
  | [], [], _, _, _ => rfl
  | [], b :: k, _, _, hsame => by simpa using hsame (key b)
  | a :: l, [], _, _, hsame => by simpa using hsame (key a)
  | a :: l, b :: k, hl, hk, hsame => by
    have hkey : key a = key b := Int.le_antisymm
      (hk.le_head (mem_of_filter_eq hsame List.mem_cons_self))
      (hl.le_head (mem_of_filter_eq (fun n => (hsame n).symm) List.mem_cons_self))
    obtain rfl : a = b := by
      have hfirst := hsame (key a)
      rw [List.filter_cons_of_pos (by simp), List.filter_cons_of_pos (by simp [hkey])] at hfirst
      exact (List.cons.inj hfirst).1
    refine congrArg (a :: ·) (Descending.eq_of_filter_eq hl.of_cons hk.of_cons fun n => ?_)
    have hn := hsame n
    by_cases ha : key a = n
    · rw [List.filter_cons_of_pos (by simpa using ha), List.filter_cons_of_pos (by simpa using ha)] at hn
      exact (List.cons.inj hn).2
    · rwa [List.filter_cons_of_neg (by simpa using ha), List.filter_cons_of_neg (by simpa using ha)] at hn

lemma descending_mergeSort (l : List α) : Descending key (l.mergeSort (reaches key)) :=
  (List.pairwise_mergeSort reaches_trans reaches_total l).imp reaches_iff.mp

/-- Sorting keeps the order of the members with one key. -/
lemma filter_mergeSort (l : List α) (n : Int) :
    (l.mergeSort (reaches key)).filter (key · = n) = l.filter (key · = n) := by
  have hclass : (l.filter (key · = n)).Pairwise fun a b => reaches key a b = true := by
    refine List.pairwise_iff_forall_sublist.mpr fun {a b} hsub => ?_
    have ha := List.mem_filter.mp (hsub.subset (List.mem_cons_self ..))
    have hb := List.mem_filter.mp (hsub.subset (List.mem_cons_of_mem a (List.mem_cons_self ..)))
    exact reaches_iff.mpr (Int.le_of_eq ((of_decide_eq_true hb.2).trans (of_decide_eq_true ha.2).symm))
  have hsub := (List.sublist_mergeSort reaches_trans reaches_total hclass List.filter_sublist).filter (key · = n)
  rw [List.filter_filter] at hsub
  simp only [Bool.and_self] at hsub
  exact (hsub.eq_of_length ((List.mergeSort_perm l _).filter _).length_eq.symm).symm

/-- A descending list is split by a key. -/
lemma Descending.exists_append_eq (hl : Descending key l) (n : Int) : ∃ before after,
    l = before ++ after ∧ (∀ b ∈ before, n ≤ key b) ∧ ∀ b ∈ after, key b < n := by
  induction l with
  | nil => exact ⟨[], [], rfl, by simp, by simp⟩
  | cons b l ih =>
    obtain ⟨hbl, hl'⟩ := List.pairwise_cons.mp hl
    by_cases hb : n ≤ key b
    · obtain ⟨before, after, rfl, habove, hbelow⟩ := ih hl'
      exact ⟨b :: before, after, rfl, List.forall_mem_cons.mpr ⟨hb, habove⟩, hbelow⟩
    · have hlow : key b < n := Int.lt_of_not_ge hb
      exact ⟨[], b :: l, rfl, by simp, List.forall_mem_cons.mpr ⟨hlow, fun c hc => Int.lt_of_le_of_lt (hbl c hc) hlow⟩⟩

lemma Descending.insert {before after : List α} (hl : Descending key (before ++ after))
    (habove : ∀ b ∈ before, key a ≤ key b) (hbelow : ∀ b ∈ after, key b < key a) :
    Descending key (before ++ a :: after) := by
  obtain ⟨hbefore, hafter, hacross⟩ := List.pairwise_append.mp hl
  refine List.pairwise_append.mpr ⟨hbefore, List.pairwise_cons.mpr ⟨?_, hafter⟩, fun b hb => ?_⟩
  · exact fun b hb => Int.le_of_lt (hbelow b hb)
  · exact List.forall_mem_cons.mpr ⟨habove b hb, hacross b hb⟩

/-- A member that comes last is sorted in, and the others stay as they are. -/
lemma mergeSort_concat (l : List α) (a : α) : ∃ before after,
    l.mergeSort (reaches key) = before ++ after ∧ (l ++ [a]).mergeSort (reaches key) = before ++ a :: after := by
  have hl : Descending key (l.mergeSort (reaches key)) := descending_mergeSort l
  obtain ⟨before, after, hsplit, habove, hbelow⟩ := hl.exists_append_eq (key a)
  rw [hsplit] at hl
  refine ⟨before, after, hsplit, (descending_mergeSort _).eq_of_filter_eq (hl.insert habove hbelow) fun n => ?_⟩
  rw [filter_mergeSort, List.filter_append, List.filter_append, ← filter_mergeSort l, hsplit, List.filter_append,
    List.append_assoc]
  congr 1
  by_cases ha : key a = n
  · -- Whatever has the key of the new member stands before it.
    have hnone : after.filter (key · = n) = [] :=
      List.filter_eq_nil_iff.mpr fun b hb => by have := hbelow b hb; simp; omega
    simp [ha, hnone]
  · simp [ha]

end

namespace Hybrid

variable {hits : List SearchHit} {h : SearchHit} {c c' : Counts} {s s' : FileSignals} {w : HybridWeights} {x y : Float}

/-! ### Scores -/

/-- The order of scores tells apart all that is not the same in every bit. -/
lemma order_eq_iff : order x = order y ↔ x.toBits = y.toBits := by
  have hx := x.toBits.toNat_lt
  have hy := y.toBits.toNat_lt
  rw [← UInt64.toNat_inj]
  simp only [order]
  omega

lemma largest_concat (hits : List SearchHit) (h : SearchHit) (c : Counts) :
    largest c (hits ++ [h]) = max (largest c hits) (count c h.path) := by
  rw [largest, List.foldl_append]
  rfl

lemma count_le_largest (hh : h ∈ hits) : count c h.path ≤ largest c hits := by
  induction hits using List.reverseRecOn with
  | nil => cases hh
  | append_singleton hits h' ih =>
    rw [largest_concat]
    rcases List.mem_append.mp hh with hh | hh
    · exact Nat.le_trans (ih hh) (Nat.le_max_left ..)
    · rw [List.mem_singleton.mp hh]
      exact Nat.le_max_right ..

lemma largest_attained (c : Counts) (hits : List SearchHit) :
    largest c hits = 0 ∨ ∃ h ∈ hits, count c h.path = largest c hits := by
  induction hits using List.reverseRecOn with
  | nil => exact .inl rfl
  | append_singleton hits h ih =>
    rw [largest_concat]
    rcases Nat.le_total (count c h.path) (largest c hits) with hle | hle
    · rw [Nat.max_eq_left hle]
      exact ih.imp_right fun ⟨h', hh', heq⟩ => ⟨h', List.mem_append_left _ hh', heq⟩
    · rw [Nat.max_eq_right hle]
      exact .inr ⟨h, by simp, rfl⟩

lemma largest_congr (hsame : ∀ h ∈ hits, count c' h.path = count c h.path) : largest c' hits = largest c hits :=
  List.foldl_ext _ _ _ fun n h hh => by rw [hsame h hh]

/-! ### Candidates -/

/-- A candidate with its signals among some candidates. -/
def evaluate (hits : List SearchHit) (s : FileSignals) (w : HybridWeights) : SearchHit → RankedHit :=
  signal w s (largest s.fanIn hits) (largest s.churn hits)

lemma rank_eq_mergeSort (hits : List SearchHit) (s : FileSignals) (w : HybridWeights) :
    rank hits s w = (hits.map (evaluate hits s w)).mergeSort (reaches (order ·.hybridScore)) := rfl

lemma perm_rank (hits : List SearchHit) (s : FileSignals) (w : HybridWeights) :
    (rank hits s w).Perm (hits.map (evaluate hits s w)) := List.mergeSort_perm ..

lemma mem_rank {r : RankedHit} : r ∈ rank hits s w ↔ ∃ h ∈ hits, evaluate hits s w h = r := by
  rw [(perm_rank hits s w).mem_iff, List.mem_map]

/-- Only the counts of the paths of candidates matter. -/
lemma rank_congr (hfanIn : ∀ h ∈ hits, count s'.fanIn h.path = count s.fanIn h.path)
    (hchurn : ∀ h ∈ hits, count s'.churn h.path = count s.churn h.path) : rank hits s' w = rank hits s w := by
  rw [rank_eq_mergeSort, rank_eq_mergeSort]
  congr 1
  refine List.map_congr_left fun h hh => ?_
  simp only [evaluate, signal, largest_congr hfanIn, largest_congr hchurn, hfanIn h hh, hchurn h hh]

/-- A ranking is decided by its candidates. -/
structure DecidedByCandidates (hits : List SearchHit) (s : FileSignals) (w : HybridWeights) : Prop where
  /-- Every candidate is listed once for each time that it is given. -/
  perm : ((rank hits s w).map (·.hit)).Perm hits
  /-- Scores descend. -/
  descending : (rank hits s w).Pairwise fun a b => order b.hybridScore ≤ order a.hybridScore
  /-- Candidates with the same score keep the order in which they are given. -/
  stable : ∀ x : Float, ((rank hits s w).filter (·.hybridScore.toBits = x.toBits)).map (·.hit) =
    hits.filter fun h => (evaluate hits s w h).hybridScore.toBits = x.toBits
  /-- The score depends on the similarity, and on each count together with the largest one. -/
  scored : ∀ r ∈ rank hits s w, r = evaluate hits s w r.hit ∧ r.semantic = clamped r.hit.score ∧
    r.centrality = normalized (count s.fanIn r.hit.path) (largest s.fanIn hits) ∧
    r.churn = normalized (count s.churn r.hit.path) (largest s.churn hits) ∧
    r.hybridScore = score w r.semantic r.centrality r.churn
  /-- The largest count is that of a candidate. -/
  maxima : ∀ c, (∀ h ∈ hits, count c h.path ≤ largest c hits) ∧
    (largest c hits = 0 ∨ ∃ h ∈ hits, count c h.path = largest c hits)
  /-- Counts of other paths change nothing. -/
  others : ∀ s', (∀ h ∈ hits, count s'.fanIn h.path = count s.fanIn h.path) →
    (∀ h ∈ hits, count s'.churn h.path = count s.churn h.path) → rank hits s' w = rank hits s w
  /-- Candidates of one path share the signals of the path. -/
  samePath : ∀ a ∈ rank hits s w, ∀ b ∈ rank hits s w, a.hit.path = b.hit.path →
    a.centrality = b.centrality ∧ a.churn = b.churn
  /-- A further candidate whose counts are no larger than the largest ones leaves the others as they are. -/
  appended : ∀ h, count s.fanIn h.path ≤ largest s.fanIn hits → count s.churn h.path ≤ largest s.churn hits →
    ∃ before after, rank hits s w = before ++ after ∧
      rank (hits ++ [h]) s w = before ++ evaluate hits s w h :: after

theorem rank_decidedByCandidates (hits : List SearchHit) (s : FileSignals) (w : HybridWeights) :
    DecidedByCandidates hits s w := by
  have hhit : ∀ h, (evaluate hits s w h).hit = h := fun _ => rfl
  constructor
  case perm =>
    have := (perm_rank hits s w).map (·.hit)
    simpa [Function.comp_def, hhit] using this
  case descending => exact descending_mergeSort _
  case stable =>
    intro x
    have hclass : (rank hits s w).filter (order ·.hybridScore = order x) =
        (hits.map (evaluate hits s w)).filter (order ·.hybridScore = order x) := filter_mergeSort _ _
    simp only [order_eq_iff] at hclass
    rw [hclass, List.filter_map, List.map_map]
    simp [Function.comp_def, hhit]
  case scored =>
    intro r hr
    obtain ⟨h, -, rfl⟩ := mem_rank.mp hr
    exact ⟨rfl, rfl, rfl, rfl, rfl⟩
  case maxima => exact fun c => ⟨fun h hh => count_le_largest hh, largest_attained c hits⟩
  case others => exact fun s' => rank_congr
  case samePath =>
    intro a ha b hb hpath
    obtain ⟨h, -, rfl⟩ := mem_rank.mp ha
    obtain ⟨k, -, rfl⟩ := mem_rank.mp hb
    have hpath : h.path = k.path := hpath
    simp only [evaluate, signal, hpath, and_self]
  case appended =>
    intro h hfanIn hchurn
    have hsame : evaluate (hits ++ [h]) s w = evaluate hits s w := by
      rw [evaluate, largest_concat, largest_concat, Nat.max_eq_left hfanIn, Nat.max_eq_left hchurn, evaluate]
    rw [rank_eq_mergeSort, rank_eq_mergeSort, hsame, List.map_append, List.map_singleton]
    exact mergeSort_concat _ _

end Hybrid

/-! ### Rankings of the engine -/

namespace Retrieval

open Act Hybrid

variable {hits : List SearchHit} {s s' : FileSignals} {since now : Instant} {w w' : World}

/-- How many files import a file. -/
def importerCount (g : KnowledgeGraph) (path : String) : Nat :=
  (g.neighbors (.file path) .imports .incoming).length

/-- How many commits of a span of time touched a file. -/
def recentCount (g : KnowledgeGraph) (since now : Instant) (path : String) : Nat :=
  (g.history path (some since)).countP fun e => decide (e.commit.committedAt ≤ now)

lemma count_insert (c : Counts) (path p : String) (n : Nat) :
    count (c.insert path n) p = if path = p then n else count c p := by
  simp only [count, Std.ExtTreeMap.getElem?_insert, Std.LawfulEqCmp.compare_eq_iff_eq]
  split <;> rfl

/-- The signals of the paths that are asked for are those of the graph; the others stay. -/
lemma signals_ok {paths : List String} (h : signals since now s paths w = (.ok s', w')) : Quiet w w' ∧ ∀ p,
    count s'.fanIn p = (if p ∈ paths then importerCount w.store.graph p else count s.fanIn p) ∧
    count s'.churn p = (if p ∈ paths then recentCount w.store.graph since now p else count s.churn p) := by
  induction paths generalizing s w with
  | nil =>
    cases h
    exact ⟨Quiet.refl _, fun p => ⟨rfl, rfl⟩⟩
  | cons path paths ih =>
    rw [signals] at h
    obtain ⟨importers, w₁, himporters, h⟩ := bind_ok h
    obtain ⟨history, w₂, hhistory, h⟩ := bind_ok h
    obtain ⟨himporters, hquiet₁⟩ := ask_ok himporters
    obtain ⟨hhistory, hquiet₂⟩ := ask_ok hhistory
    obtain ⟨hquiet, hcounts⟩ := ih h
    have hstore : w₂.store = w.store := hquiet₂.store.trans hquiet₁.store
    refine ⟨Quiet.trans _ _ _ hquiet₁ (Quiet.trans _ _ _ hquiet₂ hquiet), fun p => ?_⟩
    obtain ⟨hfanIn, hchurn⟩ := hcounts p
    rw [hfanIn, hchurn, hstore, count_insert, count_insert, himporters, hhistory, hquiet₁.store]
    by_cases hp : p ∈ paths
    · simp [hp]
    · by_cases hpath : path = p
      · subst hpath
        simp [hp, importerCount, recentCount]
      · simp [hp, hpath, Ne.symm hpath]

/-- A ranking of the engine is one by the files that import the candidates' files in the graph, and by the commits of
the window that touched them. -/
theorem rankAt_ok {window : Option Int} {ranked : List RankedHit} (h : rankAt hits window now w = (.ok ranked, w')) :
    ∃ since s, window.bind now.before? = some since ∧
      ranked = Hybrid.rank hits s w.settings.retrieval.hybrid ∧ ∀ hit ∈ hits,
        count s.fanIn hit.path = importerCount w.store.graph hit.path ∧
        count s.churn hit.path = recentCount w.store.graph since now hit.path := by
  cases hsince : window.bind now.before? with
  | none =>
    rw [rankAt_of_none hsince] at h
    cases h
  | some since =>
    rw [rankAt, hsince] at h
    obtain ⟨s, w₁, hsignals, h⟩ := bind_ok h
    obtain ⟨hquiet, hcounts⟩ := signals_ok hsignals
    cases h
    refine ⟨since, s, rfl, ?_, fun hit hhit => ?_⟩
    · rw [hquiet.settings]
    · have hmem : hit.path ∈ (hits.foldl (fun s h => s.insert h.path) ∅ : Std.ExtTreeSet String).toList := by
        rw [← List.foldl_map (f := SearchHit.path) (g := fun s p => Std.ExtTreeSet.insert s p),
          Std.ExtTreeSet.mem_toList, ← Std.ExtTreeSet.contains_iff_mem, contains_foldl_insert]
        exact .inl (List.mem_map_of_mem hhit)
      simpa [hmem] using hcounts hit.path

end Retrieval

end RepoAtlas
