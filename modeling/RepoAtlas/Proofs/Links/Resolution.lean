import Mathlib.Data.List.Basic
import Mathlib.Data.List.Infix
import RepoAtlas.Proofs.Links.Index
import RepoAtlas.Proofs.Text.Bytes
import RepoAtlas.Proofs.Text.Cutting

/-!
# What an import refers to

An import is resolved by texts: keys are joined from segments and looked for in stems. What that means is
stated by lists of segments: a module path refers to the preferred path whose stem ends in the longest
beginning of it that ends any stem, or else holds the longest end of it that stands in any stem, and a
relative one to the path or stem that the longest beginning of its segments names. The resolution finds
exactly that file, unless it is the importing one, and depends only on which paths there are.
-/

namespace RepoAtlas

open Text
open Paths hiding join

/-! ### Segments of a text -/

namespace Text

lemma endsWith_iff {s stop : String} : endsWith s stop = true ↔ stop.toList <:+ s.toList := by
  rw [endsWith, stripEnd?, Option.isSome_map, after?_isSome_iff, List.reverse_prefix]

lemma occursIn_iff {marker s : String} : occursIn marker s = true ↔ marker.toList <:+: s.toList := by
  rw [occursIn, cut?, Option.isSome_map, cutList?_isSome_iff]

end Text

namespace Imports

variable {stem : String} {l : List String}

lemma parts_append (a b : String) : parts (a ++ "/" ++ b) = parts a ++ parts b := by
  have hne : ∀ s, parts s ≠ [] := fun s => by simp [parts, splitAt_eq, List.splitOn_ne_nil]
  conv_lhs => rw [← join_parts a, ← join_parts b, ← join_append (hne a) (hne b)]
  refine parts_join (by simp [hne]) fun x hx => ?_
  rcases List.mem_append.mp hx with hx | hx <;> exact not_mem_of_mem_parts hx

section

variable (hl : l ≠ []) (hslash : ∀ x ∈ l, '/' ∉ x.toList)
include hl hslash

/-- A key ends a stem where its segments do. -/
lemma endsWithSegments_iff : endsWithSegments stem (join "/" l) = true ↔ l <:+ parts stem := by
  rw [endsWithSegments, Bool.or_eq_true, beq_iff_eq, endsWith_iff]
  constructor
  · rintro (rfl | ⟨x, hx⟩)
    · rw [parts_join hl hslash]
    · have hstem : stem = String.ofList x ++ "/" ++ join "/" l := by
        rw [← String.toList_inj, ← hx]
        simp
      rw [hstem, parts_append, parts_join hl hslash]
      exact List.suffix_append _ _
  · rintro ⟨a, ha⟩
    rw [← join_parts stem, ← ha]
    rcases eq_or_ne a [] with rfl | hne
    · exact .inl (by rw [List.nil_append])
    · refine .inr ⟨(join "/" a).toList, ?_⟩
      rw [join_append hne hl]
      simp

/-- A key stands between separators in a stem where its segments stand together. -/
lemma containsSegments_iff : containsSegments stem (join "/" l) = true ↔ l <:+: parts stem := by
  have hpadded : parts ("/" ++ stem ++ "/") = [""] ++ parts stem ++ [""] := by
    have h := parts_append ("" ++ "/" ++ stem) ""
    rwa [parts_append "" stem, String.empty_append, String.append_empty, show parts "" = [""] by decide] at h
  have hne : ∀ s, parts s ≠ [] := fun s => by simp [parts, splitAt_eq, List.splitOn_ne_nil]
  rw [containsSegments, occursIn_iff]
  constructor
  · rintro ⟨x, y, hxy⟩
    have htext : "/" ++ stem ++ "/" = String.ofList x ++ "/" ++ join "/" l ++ "/" ++ String.ofList y := by
      rw [← String.toList_inj, ← hxy]
      simp
    rw [htext, parts_append, parts_append, parts_join hl hslash] at hpadded
    obtain ⟨a, before, ha⟩ := List.exists_cons_of_ne_nil (hne (String.ofList x))
    obtain ⟨after, b, hb⟩ := (List.eq_nil_or_concat' (parts (String.ofList y))).resolve_left (hne _)
    have hinner : (before ++ l ++ after) ++ [b] = parts stem ++ [""] := by
      rw [ha, hb] at hpadded
      simpa using (List.cons.inj hpadded).2
    exact ⟨before, after, (List.append_inj' hinner rfl).1⟩
  · rintro ⟨before, after, hP⟩
    refine ⟨(join "/" ([""] ++ before)).toList, (join "/" (after ++ [""])).toList, ?_⟩
    have htext : "/" ++ stem ++ "/" = join "/" ((([""] ++ before) ++ l) ++ (after ++ [""])) := by
      rw [← join_parts ("/" ++ stem ++ "/"), hpadded, ← hP]
      simp only [List.append_assoc]
    have hstart : [""] ++ before ≠ [] := by simp
    rw [htext, join_append (List.append_ne_nil_of_left_ne_nil hstart l) (by simp), join_append hstart hl]
    simp

end

end Imports

/-! ### The least path -/

/-- A path precedes another one if it has fewer bytes, or as many and they come first in order. -/
def Precedes (p q : String) : Prop :=
  (bytes p).length < (bytes q).length ∨ (bytes p).length = (bytes q).length ∧ bytes p < bytes q

/-- A path with a property that precedes all others with it. -/
def Least (P : String → Prop) (r : String) : Prop := P r ∧ ∀ q, P q → q ≠ r → Precedes r q

section

variable {p q r : String} {P : String → Prop} {l : List String}

lemma preferred_iff : preferred p q = true ↔ Precedes p q := by
  simp [preferred, Precedes, length_bytes, bytes_lt_iff]

lemma Precedes.trans (hpq : Precedes p q) (hqr : Precedes q r) : Precedes p r := by
  simp only [Precedes, bytes_lt_iff] at *
  rcases hpq with hpq | ⟨hpq, hpq'⟩ <;> rcases hqr with hqr | ⟨hqr, hqr'⟩
  · exact .inl (by omega)
  · exact .inl (by omega)
  · exact .inl (by omega)
  · exact .inr ⟨by omega, String.lt_trans hpq' hqr'⟩

lemma not_precedes_self (p : String) : ¬Precedes p p := by
  rintro (h | ⟨-, h⟩)
  · exact Nat.lt_irrefl _ h
  · exact String.lt_irrefl p (bytes_lt_iff.mp h)

lemma precedes_or_precedes (hne : p ≠ q) : Precedes p q ∨ Precedes q p := by
  simp only [Precedes, bytes_lt_iff]
  rcases Nat.lt_trichotomy (bytes p).length (bytes q).length with hlt | heq | hgt
  · exact .inl (.inl hlt)
  · by_cases hpq : p < q
    · exact .inl (.inr ⟨heq, hpq⟩)
    · refine .inr (.inr ⟨heq.symm, ?_⟩)
      by_contra hqp
      exact hne (String.le_antisymm (String.not_lt.mp hqp) (String.not_lt.mp hpq))
  · exact .inr (.inl hgt)

lemma Least.unique (hp : Least P p) (hq : Least P q) : p = q := by
  by_contra hne
  exact not_precedes_self p ((hp.2 q hq.1 (Ne.symm hne)).trans (hq.2 p hp.1 hne))

lemma least_of_not_precedes (hr : P r) (h : ∀ q, P q → ¬Precedes q r) : Least P r :=
  ⟨hr, fun q hq hne => (precedes_or_precedes hne).resolve_left (h q hq)⟩

lemma least_foldl (p : String) (l : List String) :
    Least (· ∈ p :: l) (l.foldl (fun best q => if preferred q best then q else best) p) := by
  induction l generalizing p with
  | nil => exact ⟨by simp, by simp⟩
  | cons q l ih =>
    rw [List.foldl_cons]
    have hbest : ∀ s, s = p ∨ s = q → ¬Precedes s (if preferred q p then q else p) := by
      rintro s (rfl | rfl)
      · split
        · rename_i hqs
          exact fun hsq => not_precedes_self s (hsq.trans (preferred_iff.mp hqs))
        · exact not_precedes_self s
      · split
        · exact not_precedes_self s
        · rename_i hsp
          exact fun h => hsp (preferred_iff.mpr h)
    have hmem : (if preferred q p then q else p) = p ∨ (if preferred q p then q else p) = q := by
      split <;> simp
    generalize (if preferred q p then q else p) = best at hbest hmem ⊢
    have h := ih best
    generalize l.foldl (fun best q => if preferred q best then q else best) best = r at h ⊢
    obtain ⟨hfound, hleast⟩ := h
    refine least_of_not_precedes ?_ fun s hs hsr => ?_
    · rcases List.mem_cons.mp hfound with rfl | hfound
      · rcases hmem with rfl | rfl <;> simp
      · simp [hfound]
    · have hlater : ∀ t ∈ best :: l, ¬Precedes t r := fun t ht htr => by
        rcases eq_or_ne t r with rfl | hne
        · exact not_precedes_self t htr
        · exact not_precedes_self t (htr.trans (hleast t ht hne))
      rw [List.mem_cons, List.mem_cons, ← or_assoc] at hs
      rcases hs with hs | hs
      · rcases eq_or_ne best r with rfl | hne
        · exact hbest s hs hsr
        · exact hbest s hs (hsr.trans (hleast best (by simp) hne))
      · exact hlater s (List.mem_cons_of_mem best hs) hsr

lemma pick?_eq_some_iff : pick? l = some r ↔ Least (· ∈ l) r := by
  cases l with
  | nil => simp [pick?, Least]
  | cons p l =>
    rw [pick?, Option.some.injEq]
    exact ⟨fun h => h ▸ least_foldl p l, (least_foldl p l).unique⟩

lemma isSome_pick? : (pick? l).isSome = true ↔ ∃ p, p ∈ l := by
  cases l with
  | nil => simp [pick?]
  | cons p l => exact iff_of_true rfl ⟨p, by simp⟩

end

/-! ### The longest match -/

/-- Segments with a property, of which no longer ones have it. -/
def Longest (P : List String → Prop) (l : List String) : Prop := P l ∧ ∀ k, P k → k.length ≤ l.length

lemma Longest.congr {P Q : List String → Prop} (h : ∀ l, P l ↔ Q l) {l : List String} :
    Longest P l ↔ Longest Q l := by
  simp only [Longest, h]

/-- The first answer in a list that gets shorter is that of the longest segments with an answer. -/
lemma findSome?_eq_some_iff_longest {f : List String → Option String} {ls : List (List String)}
    (hsorted : ls.Pairwise fun k l => l.length < k.length) {r : String} :
    ls.findSome? f = some r ↔ ∃ l, Longest (fun l => l ∈ ls ∧ (f l).isSome = true) l ∧ f l = some r := by
  induction ls with
  | nil => simp [Longest]
  | cons k ls ih =>
    obtain ⟨hshorter, hsorted⟩ := List.pairwise_cons.mp hsorted
    rw [List.findSome?_cons]
    cases hk : f k with
    | some b =>
      constructor
      · rintro h
        refine ⟨k, ⟨by simp [hk], fun l hl => ?_⟩, hk.trans h⟩
        rcases List.mem_cons.mp hl.1 with rfl | hl
        · exact Nat.le_refl _
        · exact Nat.le_of_lt (hshorter l hl)
      · rintro ⟨l, ⟨⟨hl, -⟩, hlongest⟩, hr⟩
        rcases List.mem_cons.mp hl with rfl | hl
        · exact hk.symm.trans hr
        · exact absurd (hlongest k (by simp [hk])) (Nat.not_le.mpr (hshorter l hl))
    | none =>
      have hsame : ∀ l, l ∈ k :: ls ∧ (f l).isSome = true ↔ l ∈ ls ∧ (f l).isSome = true := by
        intro l
        rw [List.mem_cons]
        refine and_congr_left fun hl => or_iff_right ?_
        rintro rfl
        simp [hk] at hl
      simp only [ih hsorted, Longest.congr hsame]

namespace Imports

/-- The nonempty beginnings of a list, the longest first. -/
def beginnings (s : List String) : List (List String) :=
  (List.range s.length).reverse.map fun n => s.take (n + 1)

/-- The nonempty ends of a list, the longest first. -/
def endings (s : List String) : List (List String) := (List.range s.length).map fun n => s.drop n

section

variable {s l : List String}

lemma mem_beginnings : l ∈ beginnings s ↔ l ≠ [] ∧ l <+: s := by
  simp only [beginnings, List.mem_map, List.mem_reverse, List.mem_range]
  constructor
  · rintro ⟨n, hn, rfl⟩
    exact ⟨List.ne_nil_of_length_pos (by rw [List.length_take]; omega), List.take_prefix _ _⟩
  · rintro ⟨hne, hl⟩
    have hpos := List.length_pos_of_ne_nil hne
    have hle := hl.length_le
    refine ⟨l.length - 1, by omega, ?_⟩
    rw [show l.length - 1 + 1 = l.length by omega]
    exact (List.prefix_iff_eq_take.mp hl).symm

lemma pairwise_beginnings (s : List String) : (beginnings s).Pairwise fun k l => l.length < k.length := by
  rw [beginnings, List.pairwise_map, List.pairwise_reverse]
  refine List.pairwise_lt_range.imp_of_mem fun {m n} hm hn hmn => ?_
  rw [List.mem_range] at hm hn
  rw [List.length_take, List.length_take]
  omega

lemma mem_endings : l ∈ endings s ↔ l ≠ [] ∧ l <:+ s := by
  simp only [endings, List.mem_map, List.mem_range]
  constructor
  · rintro ⟨n, hn, rfl⟩
    exact ⟨List.ne_nil_of_length_pos (by rw [List.length_drop]; omega), List.drop_suffix _ _⟩
  · rintro ⟨hne, hl⟩
    have hpos := List.length_pos_of_ne_nil hne
    have hle := hl.length_le
    exact ⟨s.length - l.length, by omega, (List.suffix_iff_eq_drop.mp hl).symm⟩

lemma pairwise_endings (s : List String) : (endings s).Pairwise fun k l => l.length < k.length := by
  rw [endings, List.pairwise_map]
  refine List.pairwise_lt_range.imp_of_mem fun {m n} hm hn hmn => ?_
  rw [List.mem_range] at hm hn
  rw [List.length_drop, List.length_drop]
  omega

lemma longestFirst_eq (f : List String → Option String) (s : List String) :
    longestFirst f s = (beginnings s).findSome? f := by
  rw [beginnings, List.findSome?_map]
  rfl

end

/-! ### Candidates -/

/-- Nonempty segments at the start of a list that match a path. -/
def StartMatching (M : List String → String → Prop) (s l : List String) : Prop :=
  (l ≠ [] ∧ l <+: s) ∧ ∃ q, M l q

/-- Nonempty segments at the end of a list that match a path. -/
def EndMatching (M : List String → String → Prop) (s l : List String) : Prop :=
  (l ≠ [] ∧ l <:+ s) ∧ ∃ q, M l q

/-- The segments of the stem of a path. -/
def stemSegments (path : String) : List String := parts (moduleStem path)

/-- One of the paths has a stem that ends in the segments. -/
def Ends (paths : List String) (l : List String) (q : String) : Prop := q ∈ paths ∧ l <:+ stemSegments q

/-- One of the paths has a stem in which the segments stand together. -/
def Stands (paths : List String) (l : List String) (q : String) : Prop := q ∈ paths ∧ l <:+: stemSegments q

/-- The segments are one of the paths, or its stem. -/
def Names (paths : List String) (l : List String) (q : String) : Prop :=
  q ∈ paths ∧ (q = join "/" l ∨ moduleStem q = join "/" l)

/-- The path that an import refers to, whichever file it stands in. -/
inductive Candidate (paths : List String) (importer target : String) : String → Prop
  | ends {l r} (hmodule : reference importer target = .module)
      (hlongest : Longest (StartMatching (Ends paths) (segments target)) l) (hleast : Least (Ends paths l) r) :
      Candidate paths importer target r
  | stands {l r} (hmodule : reference importer target = .module)
      (hnone : ∀ k, ¬StartMatching (Ends paths) (segments target) k)
      (hlongest : Longest (EndMatching (Stands paths) (segments target)) l)
      (hleast : Least (Stands paths l) r) : Candidate paths importer target r
  | path {b l} (hrelative : reference importer target = .relative b)
      (hlongest : Longest (StartMatching (Names paths) b) l) (hpath : join "/" l ∈ paths) :
      Candidate paths importer target (join "/" l)
  | stem {b l r} (hrelative : reference importer target = .relative b)
      (hlongest : Longest (StartMatching (Names paths) b) l) (hpath : join "/" l ∉ paths)
      (hleast : Least (fun q => q ∈ paths ∧ moduleStem q = join "/" l) r) : Candidate paths importer target r

section

variable {paths : List String} {importer target r : String} {l : List String}

lemma pick?_pathsWhere {p : String → Bool} :
    pick? ((FileIndex.ofPaths paths).pathsWhere p) = some r ↔
      Least (fun q => q ∈ paths ∧ p (moduleStem q) = true) r := by
  rw [pick?_eq_some_iff]
  simp only [Least, FileIndex.mem_pathsWhere]

lemma isSome_pick?_pathsWhere {p : String → Bool} :
    (pick? ((FileIndex.ofPaths paths).pathsWhere p)).isSome = true ↔
      ∃ q, q ∈ paths ∧ p (moduleStem q) = true := by
  rw [isSome_pick?]
  simp only [FileIndex.mem_pathsWhere]

/-- Segments hold no separators. -/
lemma not_mem_of_mem_segments {x : String} (hx : x ∈ segments target) : '/' ∉ x.toList := by
  have hparts : x ∈ (Text.pieces (fun c => c == '.' || c == '/' || c == ':' || c == '\\')
      target.toList).map String.ofList := by
    simp only [segments] at hx
    split at hx
    · rename_i rest heq
      exact List.mem_of_mem_filter (heq ▸ List.mem_cons_of_mem _ hx)
    · exact List.mem_of_mem_filter hx
  obtain ⟨q, hq, rfl⟩ := List.mem_map.mp hparts
  intro hmem
  simpa using Text.not_of_mem_pieces q hq '/' (by simpa using hmem)

section

variable {p : String → String → Bool} {M : List String → String → Prop} {ls : List (List String)}
  (hM : ∀ l ∈ ls, ∀ q, q ∈ paths ∧ p (moduleStem q) (join "/" l) = true ↔ M l q)
include hM

/-- The first match in a list that gets shorter is the least path that the longest match matches. -/
lemma findSome?_pick?_iff (hsorted : ls.Pairwise fun k l => l.length < k.length) :
    (ls.findSome? fun l => pick? ((FileIndex.ofPaths paths).pathsWhere (p · (join "/" l)))) = some r ↔
      ∃ l, Longest (fun l => l ∈ ls ∧ ∃ q, M l q) l ∧ Least (M l) r := by
  have hmatch : ∀ l, l ∈ ls ∧
      (pick? ((FileIndex.ofPaths paths).pathsWhere (p · (join "/" l)))).isSome = true ↔
        l ∈ ls ∧ ∃ q, M l q := by
    intro l
    refine and_congr_right fun hl => ?_
    simp only [isSome_pick?_pathsWhere, hM l hl]
  rw [findSome?_eq_some_iff_longest hsorted]
  refine exists_congr fun l => (and_congr_left' (Longest.congr hmatch)).trans (and_congr_right fun hl => ?_)
  simp only [pick?_pathsWhere, hM l hl.1.1]

lemma findSome?_pick?_eq_none_iff :
    (ls.findSome? fun l => pick? ((FileIndex.ofPaths paths).pathsWhere (p · (join "/" l)))) = none ↔
      ∀ l, ¬(l ∈ ls ∧ ∃ q, M l q) := by
  rw [List.findSome?_eq_none_iff]
  refine forall_congr' fun l => ?_
  rw [not_and]
  refine forall_congr' fun hl => ?_
  rw [← Option.not_isSome_iff_eq_none, isSome_pick?_pathsWhere]
  simp only [hM l hl]

end

lemma resolveModule?_iff :
    resolveModule? target (.ofPaths paths) = some r ↔
      (∃ l, Longest (StartMatching (Ends paths) (segments target)) l ∧ Least (Ends paths l) r) ∨
        (∀ k, ¬StartMatching (Ends paths) (segments target) k) ∧
          ∃ l, Longest (EndMatching (Stands paths) (segments target)) l ∧ Least (Stands paths l) r := by
  have hstart : ∀ l ∈ beginnings (segments target), ∀ q,
      q ∈ paths ∧ endsWithSegments (moduleStem q) (join "/" l) = true ↔ Ends paths l q := by
    intro l hl q
    obtain ⟨hne, hpre⟩ := mem_beginnings.mp hl
    rw [endsWithSegments_iff hne fun x hx => not_mem_of_mem_segments (hpre.subset hx)]
    rfl
  have hend : ∀ l ∈ endings (segments target), ∀ q,
      q ∈ paths ∧ containsSegments (moduleStem q) (join "/" l) = true ↔ Stands paths l q := by
    intro l hl q
    obtain ⟨hne, hsuf⟩ := mem_endings.mp hl
    rw [containsSegments_iff hne fun x hx => not_mem_of_mem_segments (hsuf.subset hx)]
    rfl
  have hends : ((List.range (segments target).length).findSome? fun n =>
      pick? ((FileIndex.ofPaths paths).pathsWhere (containsSegments · (join "/" ((segments target).drop n))))) =
      (endings (segments target)).findSome? fun l =>
        pick? ((FileIndex.ofPaths paths).pathsWhere (containsSegments · (join "/" l))) := by
    rw [endings, List.findSome?_map]
    rfl
  rw [resolveModule?, longestFirst_eq, hends, Option.or_eq_some_iff,
    findSome?_pick?_iff hstart (pairwise_beginnings _), findSome?_pick?_eq_none_iff hstart,
    findSome?_pick?_iff hend (pairwise_endings _)]
  simp only [mem_beginnings, mem_endings]
  rfl

lemma resolveRelative?_iff {b : List String} :
    resolveRelative? b (.ofPaths paths) = some r ↔
      ∃ l, Longest (StartMatching (Names paths) b) l ∧
        (join "/" l ∈ paths ∧ join "/" l = r ∨
          join "/" l ∉ paths ∧ Least (fun q => q ∈ paths ∧ moduleStem q = join "/" l) r) := by
  rw [resolveRelative?, longestFirst_eq, findSome?_eq_some_iff_longest (pairwise_beginnings b)]
  refine exists_congr fun l => and_congr (Longest.congr fun k => ?_) ?_
  · rw [mem_beginnings, StartMatching]
    refine and_congr_right fun _ => ?_
    by_cases hk : join "/" k ∈ paths
    · rw [if_pos (FileIndex.contains_ofPaths.mpr hk)]
      exact iff_of_true rfl ⟨join "/" k, hk, .inl rfl⟩
    · rw [if_neg (mt FileIndex.contains_ofPaths.mp hk), isSome_pick?_pathsWhere]
      simp only [Names, beq_iff_eq]
      refine exists_congr fun q => and_congr_right fun hq => (or_iff_right ?_).symm
      rintro rfl
      exact hk hq
  · by_cases hl : join "/" l ∈ paths
    · rw [if_pos (FileIndex.contains_ofPaths.mpr hl)]
      simp [hl]
    · rw [if_neg (mt FileIndex.contains_ofPaths.mp hl), pick?_pathsWhere]
      simp [hl]

/-- What the resolution finds before it is compared with the importing file. -/
def found? (importer target : String) (files : FileIndex) : Option String :=
  match reference importer target with
  | .relative segments => resolveRelative? segments files
  | .module => resolveModule? target files
  | .outside => none

lemma found?_iff : found? importer target (.ofPaths paths) = some r ↔ Candidate paths importer target r := by
  rw [found?]
  constructor
  · split
    · rename_i b hrelative
      rw [resolveRelative?_iff]
      rintro ⟨l, hlongest, ⟨hpath, rfl⟩ | ⟨hpath, hleast⟩⟩
      · exact .path hrelative hlongest hpath
      · exact .stem hrelative hlongest hpath hleast
    · rename_i hmodule
      rw [resolveModule?_iff]
      rintro (⟨l, hlongest, hleast⟩ | ⟨hnone, l, hlongest, hleast⟩)
      · exact .ends hmodule hlongest hleast
      · exact .stands hmodule hnone hlongest hleast
    · exact fun h => nomatch h
  · rintro (⟨hmodule, hlongest, hleast⟩ | ⟨hmodule, hnone, hlongest, hleast⟩ | ⟨hrelative, hlongest, hpath⟩ |
      ⟨hrelative, hlongest, hpath, hleast⟩)
    · simp only [hmodule]
      exact resolveModule?_iff.mpr (.inl ⟨_, hlongest, hleast⟩)
    · simp only [hmodule]
      exact resolveModule?_iff.mpr (.inr ⟨hnone, _, hlongest, hleast⟩)
    · simp only [hrelative]
      exact resolveRelative?_iff.mpr ⟨_, hlongest, .inl ⟨hpath, rfl⟩⟩
    · simp only [hrelative]
      exact resolveRelative?_iff.mpr ⟨_, hlongest, .inr ⟨hpath, hleast⟩⟩

/-- A blank import refers to nothing, as it has no segments. -/
lemma found?_empty (importer : String) : found? importer "" (.ofPaths paths) = none := by
  have hmodule : reference importer "" = .module := by
    simp [reference, startsWith, stripStart?, after?]
  have hsegments : segments "" = [] := by decide
  rw [found?, hmodule]
  simp [resolveModule?, hsegments, longestFirst]

lemma resolve?_eq : resolve? importer target (.ofPaths paths) =
    (found? importer (Text.trim target) (.ofPaths paths)).filter (· != importer) := by
  rw [resolve?]
  split
  · rename_i h
    rw [String.isEmpty_iff.mp h, found?_empty, Option.filter_none]
  · unfold found?
    cases reference importer (trim target) <;> rfl

/-- A candidate is one of the paths. -/
lemma Candidate.mem (h : Candidate paths importer target r) : r ∈ paths := by
  rcases h with ⟨-, -, hleast⟩ | ⟨-, -, -, hleast⟩ | ⟨-, -, hpath⟩ | ⟨-, -, -, hleast⟩
  · exact hleast.1.1
  · exact hleast.1.1
  · exact hpath
  · exact hleast.1.1

lemma resolve?_eq_some_iff :
    resolve? importer target (.ofPaths paths) = some r ↔
      Candidate paths importer (Text.trim target) r ∧ r ≠ importer := by
  rw [resolve?_eq, Option.filter_eq_some_iff, found?_iff, bne_iff_ne]

/-- An import refers to one of the files that it is resolved against. -/
lemma mem_of_resolve? (h : resolve? importer target (.ofPaths paths) = some r) : r ∈ paths :=
  (resolve?_eq_some_iff.mp h).1.mem

end

/-- An import refers to its candidate unless that is the importing file. A candidate is the least path that
matches the longest part of the import, in the sense of `Candidate`; there is none above the root, and which
one it is depends only on which paths there are. -/
theorem resolve?_candidate (paths : List String) (importer target : String) :
    (∀ r, Candidate paths importer (Text.trim target) r →
      resolve? importer target (.ofPaths paths) = if r = importer then none else some r) ∧
    ((∀ r, ¬Candidate paths importer (Text.trim target) r) →
      resolve? importer target (.ofPaths paths) = none) ∧
    (reference importer (Text.trim target) = .outside →
      resolve? importer target (.ofPaths paths) = none) ∧
    (∀ r, resolve? importer target (.ofPaths paths) = some r → r ∈ paths ∧ r ≠ importer) ∧
    ∀ paths', (∀ p, p ∈ paths' ↔ p ∈ paths) →
      resolve? importer target (.ofPaths paths') = resolve? importer target (.ofPaths paths) := by
  refine ⟨fun r hr => ?_, fun hnone => ?_, fun houtside => ?_, fun r hr => ?_, fun paths' hsame => ?_⟩
  · rw [resolve?_eq, found?_iff.mpr hr]
    by_cases himporter : r = importer
    · simp [himporter]
    · simp [himporter]
  · rw [Option.eq_none_iff_forall_ne_some]
    exact fun r hr => hnone r (resolve?_eq_some_iff.mp hr).1
  · rw [resolve?_eq, found?, houtside]
    rfl
  · exact ⟨mem_of_resolve? hr, (resolve?_eq_some_iff.mp hr).2⟩
  · rw [FileIndex.ofPaths_congr hsame]

/-- Of two files whose stems end in the longest matching part of an import, the shorter path is its
candidate, in whichever order the paths are given. -/
theorem resolve?_candidate_shorter :
    Candidate ["lib/app/util.py", "app/util.py", "app/main.py"] "app/main.py" "app.util.helper" "app/util.py" ∧
      resolve? "app/main.py" "app.util.helper" (.ofPaths ["app/main.py", "app/util.py", "lib/app/util.py"]) =
        some "app/util.py" := by
  have hcandidate : Candidate ["lib/app/util.py", "app/util.py", "app/main.py"] "app/main.py"
      (Text.trim "app.util.helper") "app/util.py" := found?_iff.mp (by decide)
  obtain ⟨hfound, -, -, -, hset⟩ := resolve?_candidate ["lib/app/util.py", "app/util.py", "app/main.py"]
    "app/main.py" "app.util.helper"
  refine ⟨by simpa only [show Text.trim "app.util.helper" = "app.util.helper" by decide] using hcandidate, ?_⟩
  rw [hset _ (by simp [or_comm, or_left_comm]), hfound _ hcandidate]
  decide

end Imports

end RepoAtlas
