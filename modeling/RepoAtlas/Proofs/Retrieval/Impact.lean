import RepoAtlas.Proofs.Engine.Repetition
import RepoAtlas.Proofs.Graph.Reachability
import RepoAtlas.Proofs.History.Order
import RepoAtlas.Retrieval.Basic

/-!
# What depends on a file

The search for the files that depend on a file goes in waves: the importers of the last wave that were not seen
before are the next one. A wave holds exactly the files at its distance, which is what the induction over the waves
carries; so cycles do no harm, and no file is asked about twice. The search is written once for every way to ask for
importers; here it is compared with the waves over a function that answers at once, and whatever answers as this
function does finds the same files with the same questions. A queue of files with their distances goes through the
waves one after the other.
-/

namespace RepoAtlas

namespace Impact

/-! ### Distances -/

section

variable {imports : String → String → Prop} {path p q : String} {d n : Nat}

/-- A chain of `n` imports leads from a file to `path`. -/
inductive Chain (imports : String → String → Prop) (path : String) : Nat → String → Prop
  | start : Chain imports path 0 path
  | step {n : Nat} {p q : String} : Chain imports path n p → imports q p → Chain imports path (n + 1) q

/-- The shortest chain of imports from a file to `path` has `d` of them. -/
def AtDistance (imports : String → String → Prop) (path : String) (d : Nat) (q : String) : Prop :=
  Chain imports path d q ∧ ∀ n, Chain imports path n q → d ≤ n

lemma AtDistance.unique {d' : Nat} (h : AtDistance imports path d q) (h' : AtDistance imports path d' q) : d = d' :=
  le_antisymm (h.2 d' h'.1) (h'.2 d h.1)

lemma chain_zero_iff : Chain imports path 0 q ↔ q = path := by
  constructor
  · intro h
    cases h
    rfl
  · rintro rfl
    exact .start

lemma atDistance_zero_iff : AtDistance imports path 0 q ↔ q = path := by
  simp [AtDistance, chain_zero_iff]

/-- The files one step further are the importers of those at a distance to which no shorter chain leads. -/
lemma atDistance_succ_iff : AtDistance imports path (d + 1) q ↔
    (∃ p, AtDistance imports path d p ∧ imports q p) ∧ ∀ n ≤ d, ¬Chain imports path n q := by
  constructor
  · rintro ⟨hchain, hleast⟩
    have hno : ∀ n ≤ d, ¬Chain imports path n q := fun n hn h => absurd (hleast n h) (by omega)
    cases hchain with
    | step hp hq =>
      refine ⟨⟨_, ⟨hp, fun n hn => ?_⟩, hq⟩, hno⟩
      have := hleast (n + 1) (hn.step hq)
      omega
  · rintro ⟨⟨p, hp, hq⟩, hno⟩
    refine ⟨hp.1.step hq, fun n hn => ?_⟩
    by_contra hlt
    exact hno n (by omega) hn

/-- Whoever has a chain of imports has a distance. -/
lemma Chain.exists_atDistance (h : Chain imports path n q) : ∃ d ≤ n, AtDistance imports path d q := by
  classical
  have hex : ∃ m, Chain imports path m q := ⟨n, h⟩
  exact ⟨Nat.find hex, Nat.find_min' hex h, Nat.find_spec hex, fun m hm => Nat.find_min' hex hm⟩

end

/-! ### Waves -/

/-- The importers of some files that were not seen before. -/
def fresh (importers : String → List String) : List String → List String → List String
  | [], _ => []
  | p :: ps, seen =>
    let new := ((importers p).filter (!seen.contains ·)).eraseDups
    new ++ fresh importers ps (seen ++ new)

/-- The entries of the next `n` waves. -/
def waves (importers : String → List String) : Nat → Nat → List String → List String → List ImpactEntry
  | 0, _, _, _ => []
  | n + 1, depth, frontier, seen =>
    let found := fresh importers frontier seen
    found.map (ImpactEntry.mk depth) ++ waves importers n (depth + 1) found (seen ++ found)

/-- The files whose importers are asked for during the next `n` waves. -/
def questions (importers : String → List String) : Nat → List String → List String → List String
  | 0, _, _ => []
  | n + 1, frontier, seen =>
    let found := fresh importers frontier seen
    frontier ++ questions importers n found (seen ++ found)

section

variable {importers : String → List String} {frontier seen : List String} {n depth : Nat} {q : String}

lemma mem_fresh : q ∈ fresh importers frontier seen ↔ q ∉ seen ∧ ∃ p ∈ frontier, q ∈ importers p := by
  induction frontier generalizing seen with
  | nil => simp [fresh]
  | cons p ps ih =>
    have hnew : q ∈ ((importers p).filter (!seen.contains ·)).eraseDups ↔ q ∈ importers p ∧ q ∉ seen := by
      simp [List.mem_eraseDups]
    simp only [fresh, List.mem_append, ih, hnew, List.mem_cons, exists_eq_or_imp]
    tauto

lemma nodup_fresh : (fresh importers frontier seen).Nodup := by
  induction frontier generalizing seen with
  | nil => exact List.nodup_nil
  | cons p ps ih =>
    refine (CommitOrder.nodup_eraseDups _).append ih fun q hq hq' => ?_
    exact (mem_fresh.mp hq').1 (List.mem_append_right seen hq)

lemma waves_nil : waves importers n depth [] seen = [] := by
  induction n generalizing depth seen with
  | zero => rfl
  | succ n ih => simp only [waves, fresh, List.map_nil, List.nil_append, ih]

lemma questions_nil : questions importers n [] seen = [] := by
  induction n generalizing seen with
  | zero => rfl
  | succ n ih => simp only [questions, fresh, List.nil_append, ih]

/-- The files of each wave but the last are asked about in the next one. -/
lemma questions_succ (depth : Nat) : questions importers (n + 1) frontier seen =
    frontier ++ (waves importers n depth frontier seen).map ImpactEntry.path := by
  induction n generalizing depth frontier seen with
  | zero => simp [questions, waves]
  | succ n ih =>
    rw [questions, ih (depth + 1), waves]
    simp [Function.comp_def]

end

/-! ### Waves are distances -/

section

variable {importers : String → List String} {imports : String → String → Prop} {path q : String}
  {frontier seen : List String} {n d : Nat}

/-- Before a wave the frontier holds the files at a distance, and those up to there are seen. -/
structure Swept (imports : String → String → Prop) (path : String) (d : Nat) (frontier seen : List String) :
    Prop where
  frontier : ∀ q, q ∈ frontier ↔ AtDistance imports path d q
  seen : ∀ q, q ∈ seen ↔ ∃ n ≤ d, Chain imports path n q

lemma swept_start : Swept imports path 0 [path] [path] where
  frontier q := by rw [List.mem_singleton, atDistance_zero_iff]
  seen q := by simp [chain_zero_iff]

-- each file is answered with its importers
variable (himports : ∀ q p, q ∈ importers p ↔ imports q p)

include himports

lemma Swept.mem_fresh (h : Swept imports path d frontier seen) :
    q ∈ fresh importers frontier seen ↔ AtDistance imports path (d + 1) q := by
  simp only [Impact.mem_fresh, h.frontier, h.seen, himports, atDistance_succ_iff]
  push Not
  exact and_comm

lemma Swept.next (h : Swept imports path d frontier seen) :
    Swept imports path (d + 1) (fresh importers frontier seen) (seen ++ fresh importers frontier seen) where
  frontier _ := h.mem_fresh himports
  seen q := by
    rw [List.mem_append, h.mem_fresh himports, h.seen]
    constructor
    · rintro (⟨n, hn, hchain⟩ | hq)
      · exact ⟨n, by omega, hchain⟩
      · exact ⟨d + 1, le_rfl, hq.1⟩
    · rintro ⟨n, hn, hchain⟩
      obtain ⟨m, hm, hq⟩ := hchain.exists_atDistance
      rcases Nat.lt_or_ge d m with hlt | hle
      · obtain rfl : m = d + 1 := by omega
        exact Or.inr hq
      · exact Or.inl ⟨m, hle, hq.1⟩

/-- The entries of the next waves are the files at the next distances. -/
lemma Swept.mem_waves (h : Swept imports path d frontier seen) {e : ImpactEntry} :
    e ∈ waves importers n (d + 1) frontier seen ↔
      d < e.depth ∧ e.depth ≤ d + n ∧ AtDistance imports path e.depth e.path := by
  induction n generalizing d frontier seen with
  | zero =>
    simp only [waves, List.not_mem_nil, false_iff]
    omega
  | succ n ih =>
    have hhere : e ∈ (fresh importers frontier seen).map (ImpactEntry.mk (d + 1)) ↔
        e.depth = d + 1 ∧ AtDistance imports path e.depth e.path := by
      rw [List.mem_map]
      constructor
      · rintro ⟨q, hq, rfl⟩
        exact ⟨rfl, (h.mem_fresh himports).mp hq⟩
      · rintro ⟨hdepth, hq⟩
        exact ⟨e.path, (h.mem_fresh himports).mpr (hdepth ▸ hq), by rw [← hdepth]⟩
    rw [waves, List.mem_append, hhere, ih (h.next himports)]
    constructor
    · rintro (⟨hdepth, hq⟩ | ⟨hlt, hle, hq⟩)
      · exact ⟨by omega, by omega, hq⟩
      · exact ⟨by omega, by omega, hq⟩
    · rintro ⟨hlt, hle, hq⟩
      rcases Nat.eq_or_lt_of_le hlt with hdepth | hlater
      · exact Or.inl ⟨hdepth.symm, hq⟩
      · exact Or.inr ⟨hlater, by omega, hq⟩

lemma Swept.nodup_waves (h : Swept imports path d frontier seen) :
    ((waves importers n (d + 1) frontier seen).map ImpactEntry.path).Nodup := by
  induction n generalizing d frontier seen with
  | zero => exact List.nodup_nil
  | succ n ih =>
    have hpaths : ((fresh importers frontier seen).map (ImpactEntry.mk (d + 1))).map ImpactEntry.path =
        fresh importers frontier seen := by
      simp [Function.comp_def]
    rw [waves, List.map_append, hpaths]
    refine nodup_fresh.append (ih (h.next himports)) fun q hq hlater => ?_
    obtain ⟨e, he, rfl⟩ := List.mem_map.mp hlater
    obtain ⟨hlt, -, hdistance⟩ := ((h.next himports).mem_waves himports).mp he
    have := ((h.mem_fresh himports).mp hq).unique hdistance
    omega

end

/-! ### The queue -/

/-- A search with a queue. -/
structure Search where
  /-- The files that wait, with their distances. -/
  queue : List (String × Nat)
  visited : List String
  affected : List ImpactEntry := []
  /-- The files whose importers were asked for. -/
  asked : List String := []

namespace Search

/-- The start of a search. -/
def start (path : String) : Search := { queue := [(path, 0)], visited := [path] }

/-- An importer is put in the queue unless it was visited. -/
def visit (depth : Nat) (s : Search) (q : String) : Search :=
  if s.visited.contains q then s
  else
    { s with
      queue := s.queue ++ [(q, depth)]
      visited := s.visited ++ [q]
      affected := s.affected ++ [⟨depth, q⟩] }

/-- The importers of the first file in the queue are visited, unless it is at the greatest distance. -/
def next? (importers : String → List String) (maxDepth : Nat) (s : Search) : Option Search :=
  match s.queue with
  | [] => none
  | (p, depth) :: queue =>
    if depth = maxDepth then some { s with queue }
    else some ((importers p).foldl (visit (depth + 1)) { s with queue, asked := s.asked ++ [p] })

/-- One search goes on to another. -/
def Leads (importers : String → List String) (maxDepth : Nat) : Search → Search → Prop :=
  Relation.ReflTransGen fun s s' => s.next? importers maxDepth = some s'

variable {importers : String → List String} {frontier seen asked : List String} {affected : List ImpactEntry}
  {depth maxDepth : Nat} {s s' s'' : Search}

lemma Leads.refl (s : Search) : Leads importers maxDepth s s := Relation.ReflTransGen.refl

lemma Leads.trans (h : Leads importers maxDepth s s') (h' : Leads importers maxDepth s' s'') :
    Leads importers maxDepth s s'' := Relation.ReflTransGen.trans h h'

lemma Leads.next (hnext : s.next? importers maxDepth = some s') (h : Leads importers maxDepth s' s'') :
    Leads importers maxDepth s s'' := Relation.ReflTransGen.head hnext h

/-- Visiting files one by one puts those in the queue that were not seen before, each once. -/
lemma foldl_visit (qs : List String) (queue : List (String × Nat)) :
    qs.foldl (visit depth) ⟨queue, seen, affected, asked⟩ =
      ⟨queue ++ (qs.filter (!seen.contains ·)).eraseDups.map (·, depth),
        seen ++ (qs.filter (!seen.contains ·)).eraseDups,
        affected ++ (qs.filter (!seen.contains ·)).eraseDups.map (ImpactEntry.mk depth), asked⟩ := by
  induction qs generalizing queue seen affected with
  | nil => simp
  | cons q qs ih =>
    rw [List.foldl_cons, visit]
    by_cases hq : seen.contains q = true
    · simp only [if_pos hq, ih, List.filter_cons_of_neg (p := (!seen.contains ·)) (by simpa using hq)]
    · have hrest : qs.filter (!(seen ++ [q]).contains ·) = (qs.filter (!seen.contains ·)).filter (!· == q) := by
        rw [List.filter_filter]
        exact List.filter_congr fun r _ => by simp [Bool.beq_eq_decide_eq, Bool.and_comm]
      simp only [if_neg hq, ih, hrest, List.filter_cons_of_pos (p := (!seen.contains ·)) (by simpa using hq),
        List.eraseDups_cons, List.map_cons, List.append_assoc, List.singleton_append]

/-- The files of a wave are taken one by one, and the next wave queues up behind. -/
lemma leads_wave (hdepth : depth < maxDepth) (frontier later seen asked : List String)
    (affected : List ImpactEntry) : Leads importers maxDepth
      ⟨frontier.map (·, depth) ++ later.map (·, depth + 1), seen, affected, asked⟩
      ⟨(later ++ fresh importers frontier seen).map (·, depth + 1), seen ++ fresh importers frontier seen,
        affected ++ (fresh importers frontier seen).map (ImpactEntry.mk (depth + 1)), asked ++ frontier⟩ := by
  induction frontier generalizing later seen affected asked with
  | nil =>
    simp only [fresh, List.map_nil, List.nil_append, List.append_nil]
    exact Leads.refl _
  | cons p ps ih =>
    refine Leads.next (by simp only [next?, List.map_cons, List.cons_append, if_neg hdepth.ne, foldl_visit]; rfl) ?_
    set new := ((importers p).filter (!seen.contains ·)).eraseDups
    have hrest := ih (later ++ new) (seen ++ new) (asked ++ [p])
      (affected ++ new.map (ImpactEntry.mk (depth + 1)))
    simp only [List.map_append, List.append_assoc, List.singleton_append] at hrest
    simpa only [fresh, List.map_append, List.append_assoc] using hrest

/-- Files at the greatest distance only leave the queue. -/
lemma leads_last : Leads importers maxDepth ⟨frontier.map (·, maxDepth), seen, affected, asked⟩
    ⟨[], seen, affected, asked⟩ := by
  induction frontier with
  | nil => exact Leads.refl _
  | cons p ps ih => exact Leads.next (by simp only [next?, List.map_cons, if_true]) ih

/-- The waves up to the greatest distance pass through the queue. -/
lemma leads_waves (n : Nat) (hdepth : depth + n = maxDepth) (frontier seen asked : List String)
    (affected : List ImpactEntry) : ∃ visited, Leads importers maxDepth
    ⟨frontier.map (·, depth), seen, affected, asked⟩
    ⟨[], visited, affected ++ waves importers n (depth + 1) frontier seen,
      asked ++ questions importers n frontier seen⟩ := by
  induction n generalizing depth frontier seen affected asked with
  | zero =>
    subst hdepth
    exact ⟨seen, by simpa [waves, questions] using leads_last⟩
  | succ n ih =>
    have hwave : Leads importers maxDepth _ _ :=
      leads_wave (show depth < maxDepth by omega) frontier [] seen asked affected
    obtain ⟨visited, hrest⟩ := ih (show depth + 1 + n = maxDepth by omega) (fresh importers frontier seen)
      (seen ++ fresh importers frontier seen) (asked ++ frontier)
      (affected ++ (fresh importers frontier seen).map (ImpactEntry.mk (depth + 1)))
    simp only [List.map_nil, List.append_nil, List.nil_append] at hwave
    exact ⟨visited, Leads.trans hwave (by simpa only [waves, questions, List.append_assoc] using hrest)⟩

/-- A search with a queue ends; it finds the files of the waves in their order, and asks the same questions in the same
order. -/
theorem start_leads_waves (importers : String → List String) (path : String) (maxDepth : Nat) :
    ∃ visited, Leads importers maxDepth (start path)
      ⟨[], visited, waves importers maxDepth 1 [path] [path], questions importers maxDepth [path] [path]⟩ := by
  have hwaves : ∃ visited, Leads importers maxDepth _ _ :=
    leads_waves maxDepth (Nat.zero_add maxDepth) [path] [path] [] []
  simpa [start] using hwaves

end Search

/-! ### The search -/

/-- The files at distances up to `n`, each once, by distance and path. -/
structure Exact (imports : String → String → Prop) (path : String) (n : Nat) (l : List ImpactEntry) : Prop where
  mem : ∀ e, e ∈ l ↔
    e.path ≠ path ∧ 1 ≤ e.depth ∧ e.depth ≤ n ∧ AtDistance imports path e.depth e.path
  once : (l.map ImpactEntry.path).Nodup
  sorted : l.Pairwise fun a b => a.depth < b.depth ∨ a.depth = b.depth ∧ a.path < b.path

/-- The order of the answer. -/
def before (a b : ImpactEntry) : Bool := a.depth < b.depth || (a.depth == b.depth && a.path ≤ b.path)

lemma before_iff {a b : ImpactEntry} :
    before a b = true ↔ a.depth < b.depth ∨ a.depth = b.depth ∧ a.path ≤ b.path := by
  simp [before]

lemma before_trans (a b c : ImpactEntry) (h : before a b = true) (h' : before b c = true) :
    before a c = true := by
  rw [before_iff] at *
  rcases h with h | ⟨h, hp⟩ <;> rcases h' with h' | ⟨h', hp'⟩
  · exact Or.inl (h.trans h')
  · exact Or.inl (h' ▸ h)
  · exact Or.inl (h ▸ h')
  · exact Or.inr ⟨h.trans h', String.le_trans hp hp'⟩

lemma before_total (a b : ImpactEntry) : (before a b || before b a) = true := by
  rw [Bool.or_eq_true, before_iff, before_iff]
  rcases Nat.lt_trichotomy a.depth b.depth with h | h | h
  · exact Or.inl (Or.inl h)
  · rcases String.le_total a.path b.path with hp | hp
    · exact Or.inl (Or.inr ⟨h, hp⟩)
    · exact Or.inr (Or.inr ⟨h.symm, hp⟩)
  · exact Or.inr (Or.inl h)

section

variable {importers : String → List String} {imports : String → String → Prop} {path : String} {n : Nat}
  (himports : ∀ q p, q ∈ importers p ↔ imports q p)

include himports

/-- The sorted entries of the waves are the exact answer. -/
lemma exact_waves :
    Exact imports path n ((waves importers n 1 [path] [path]).mergeSort before) := by
  have hperm := List.mergeSort_perm (waves importers n 1 [path] [path]) before
  have honce : (((waves importers n 1 [path] [path]).mergeSort before).map ImpactEntry.path).Nodup :=
    (hperm.map _).nodup_iff.mpr (swept_start.nodup_waves himports)
  refine ⟨fun e => ?_, honce, ?_⟩
  · rw [hperm.mem_iff, swept_start.mem_waves himports, Nat.zero_add]
    constructor
    · rintro ⟨hlt, hle, hdistance⟩
      refine ⟨fun hpath => ?_, hlt, hle, hdistance⟩
      have := hdistance.unique (atDistance_zero_iff.mpr hpath)
      omega
    · rintro ⟨-, hlt, hle, hdistance⟩
      exact ⟨hlt, hle, hdistance⟩
  · have hsorted := List.pairwise_mergeSort before_trans before_total (waves importers n 1 [path] [path])
    refine (hsorted.and (List.pairwise_map.mp honce)).imp fun {a b} hab => ?_
    refine (before_iff.mp hab.1).imp id fun h => ⟨h.1, Std.lt_of_le_of_ne h.2 hab.2⟩

/-- The files that are asked about are those at smaller distances, each once. -/
lemma mem_questions {q : String} :
    q ∈ questions importers (n + 1) [path] [path] ↔ ∃ d ≤ n, AtDistance imports path d q := by
  rw [questions_succ 1, List.mem_append, List.mem_singleton, List.mem_map]
  simp only [swept_start.mem_waves himports]
  constructor
  · rintro (rfl | ⟨e, ⟨-, hle, hdistance⟩, rfl⟩)
    · exact ⟨0, by omega, atDistance_zero_iff.mpr rfl⟩
    · exact ⟨e.depth, by omega, hdistance⟩
  · rintro ⟨d, hle, hdistance⟩
    rcases Nat.eq_zero_or_pos d with rfl | hpos
    · exact Or.inl (atDistance_zero_iff.mp hdistance)
    · exact Or.inr ⟨⟨d, q⟩, ⟨hpos, by simpa using hle, hdistance⟩, rfl⟩

lemma nodup_questions : (questions importers (n + 1) [path] [path]).Nodup := by
  rw [questions_succ 1, List.singleton_append, List.nodup_cons]
  refine ⟨fun hmem => ?_, swept_start.nodup_waves himports⟩
  obtain ⟨e, he, hpath⟩ := List.mem_map.mp hmem
  obtain ⟨hlt, -, hdistance⟩ := (swept_start.mem_waves himports).mp he
  have := hdistance.unique (atDistance_zero_iff.mpr hpath)
  omega

end

/-- A relation of values, questions and actions: the action answers with the value and asks these questions. It is
kept by what the search is made of, so it holds of the search if it holds of a single question. -/
structure Answering {m : Type → Type} [Monad m] (ask : String → m (List String))
    (importers : String → List String) (R : ∀ {α : Type}, α → List String → m α → Prop) : Prop where
  pure : ∀ {α : Type} (a : α), R a [] (pure a)
  bind : ∀ {α β : Type} {a : α} {b : β} {asked asked' : List String} {x : m α} {k : α → m β},
    R a asked x → R b asked' (k a) → R b (asked ++ asked') (x >>= k)
  ask : ∀ p, R (importers p) [p] (ask p)

namespace Answering

variable {m : Type → Type} [Monad m] {ask : String → m (List String)} {importers : String → List String}
  {R : ∀ {α : Type}, α → List String → m α → Prop}

lemma importersOf (h : Answering ask importers R) (paths found seen : List String) :
    R (found ++ fresh importers paths seen, seen ++ fresh importers paths seen) paths
      (Impact.importersOf ask paths found seen) := by
  induction paths generalizing found seen with
  | nil => simpa [Impact.importersOf, fresh] using h.pure (found, seen)
  | cons p ps ih =>
    have hrest := ih (found ++ ((importers p).filter (!seen.contains ·)).eraseDups)
      (seen ++ ((importers p).filter (!seen.contains ·)).eraseDups)
    simp only [List.append_assoc] at hrest
    exact h.bind (h.ask p) hrest

lemma levels (h : Answering ask importers R) (n depth : Nat) (frontier seen : List String) :
    R (waves importers n depth frontier seen) (questions importers n frontier seen)
      (Impact.levels ask n depth frontier seen) := by
  induction n generalizing depth frontier seen with
  | zero => exact h.pure _
  | succ n ih =>
    rw [waves, questions]
    refine h.bind (h.importersOf frontier [] seen) ?_
    simp only [List.nil_append]
    cases fresh importers frontier seen with
    | nil =>
      -- nothing is found any more, so the search stops
      rw [waves_nil, questions_nil]
      exact h.pure _
    | cons q qs =>
      rw [← List.append_nil (questions importers n (q :: qs) (seen ++ q :: qs))]
      exact h.bind (ih (depth + 1) (q :: qs) (seen ++ q :: qs)) (h.pure _)

lemma dependents (h : Answering ask importers R) (path : String) (maxDepth : Nat) :
    R ((waves importers (max maxDepth 1) 1 [path] [path]).mergeSort before)
      (questions importers (max maxDepth 1) [path] [path]) (Impact.dependents ask path maxDepth) := by
  rw [← List.append_nil (questions importers (max maxDepth 1) [path] [path])]
  exact h.bind (h.levels (max maxDepth 1) 1 [path] [path]) (h.pure _)

end Answering

end Impact

/-! ### The graph -/

namespace KnowledgeGraph

variable {g : KnowledgeGraph} {p q : String}

/-- A file imports a file: an edge is recorded at the file that is imported. -/
def ImportEdge (g : KnowledgeGraph) (q p : String) : Prop := .file q ∈ g.neighbors (.file p) .imports .incoming

/-- The files that import a file. -/
def importers (g : KnowledgeGraph) (p : String) : List String :=
  (g.neighbors (.file p) .imports .incoming).filterMap NodeKey.file?

lemma mem_importers : q ∈ g.importers p ↔ g.ImportEdge q p := by
  rw [importers, List.mem_filterMap]
  constructor
  · rintro ⟨k, hk, hq⟩
    cases k with
    | file q' =>
      cases hq
      exact hk
    | _ => cases hq
  · exact fun h => ⟨_, h, rfl⟩

end KnowledgeGraph

namespace Impact

/-- The importers of a file, with a note that they were asked for. -/
def noting (g : KnowledgeGraph) (p : String) : StateM (List String) (List String) := do
  modify (· ++ [p])
  return g.importers p

lemma answering_noting (g : KnowledgeGraph) :
    Answering (noting g) g.importers fun a asked x => ∀ notes, x.run notes = (a, notes ++ asked) where
  pure a notes := by rw [List.append_nil]; rfl
  bind {_ _ a b asked asked' x k} hx hk notes := by
    rw [StateT.run_bind, hx notes, ← List.append_assoc]
    exact hk (notes ++ asked)
  ask _ _ := rfl

/-- A query of the graph leaves it as it is, so the next one gets its answer from the same graph. -/
lemma answering_importers (w : World) :
    Answering Retrieval.importers w.store.graph.importers fun a _ x => ∀ w', Waits w w' → Act.Idles a w' x where
  pure a w' _ := Act.idles_pure a w'
  bind hx hk w' hw := (hx w' hw).bind fun w'' hw' => hk w'' (Waits.trans _ _ _ hw hw')
  ask p w' hw := by
    obtain ⟨faults, clock, rfl⟩ := hw
    exact (Act.idles_ask _ _ _).bind fun w'' _ => Act.idles_pure _ w''

end Impact

namespace Impact

/-- The search by waves answers as a search with a queue does: it sorts what the queue finds, and asks the same
questions in the same order. -/
theorem dependents_of_queue (g : KnowledgeGraph) (path : String) (maxDepth : Nat) :
    ∃ s, Search.Leads g.importers (max maxDepth 1) (.start path) s ∧ s.queue = [] ∧
      (Impact.dependents (noting g) path maxDepth).run [] = (s.affected.mergeSort before, s.asked) := by
  obtain ⟨visited, hleads⟩ := Search.start_leads_waves g.importers path (max maxDepth 1)
  exact ⟨_, hleads, rfl, (answering_noting g).dependents path maxDepth []⟩

end Impact

namespace Retrieval

open Impact

/-- Whatever the graph and the greatest depth, the search finds exactly the files other than the one it starts from
with a distance up to this depth, each once with its distance, by distance and path. It asks for the importers of the
files at smaller distances, each once. This is the answer of the store's search and of the report, unless a guarded
store fails; there is no report on a file that is not stored. In reachable graphs the imports that the search goes
by are the edges. -/
theorem impact_exact (w : World) (path : String) (maxDepth : Nat) :
    ∃ affected asked, Exact w.store.graph.ImportEdge path (max maxDepth 1) affected ∧
      (Impact.dependents (noting w.store.graph) path maxDepth).run [] = (affected, asked) ∧ asked.Nodup ∧
      (∀ q, q ∈ asked ↔ ∃ d < max maxDepth 1, AtDistance w.store.graph.ImportEdge path d q) ∧
      Act.Idles affected w (Impact.dependents importers path maxDepth) ∧
      Act.Idles
        (if w.store.graph.contains (.file path) = true then some ⟨path, max maxDepth 1, affected⟩ else none) w
        (impact path maxDepth) ∧
      (w.store.graph.Reachable → ∀ q p, w.store.graph.ImportEdge q p ↔
        w.store.graph.hasEdge ⟨.imports, .file q, .file p⟩ = true) := by
  have himports : ∀ q p, q ∈ w.store.graph.importers p ↔ w.store.graph.ImportEdge q p :=
    fun _ _ => KnowledgeGraph.mem_importers
  have hsearch := (answering_importers w).dependents path
  obtain ⟨n, hn⟩ : ∃ n, max maxDepth 1 = n + 1 := ⟨max maxDepth 1 - 1, by omega⟩
  refine ⟨_, questions w.store.graph.importers (max maxDepth 1) [path] [path], exact_waves himports,
    (answering_noting w.store.graph).dependents path maxDepth [], ?_, fun q => ?_,
    hsearch maxDepth w (Waits.refl w), ?_,
    fun hg q p => KnowledgeGraph.mem_neighbors_incoming hg.wellFormed.adjacent.mirrored⟩
  · rw [hn]
    exact nodup_questions himports
  · rw [hn, mem_questions himports]
    simp only [Nat.lt_succ_iff]
  · refine (Act.idles_ask _ _ w).bind fun w' hw => ?_
    cases w.store.graph.contains (.file path) with
    | false => exact Act.idles_pure none w'
    | true =>
      have hreport := hsearch (max maxDepth 1) w' hw
      rw [max_eq_left (le_max_right maxDepth 1)] at hreport
      exact hreport.bind fun w'' _ => Act.idles_pure _ w''

/-- The file at the start is imported by two others, one of which it imports itself. -/
example : Id.run (Impact.dependents
    (fun p => if p = "d" then ["a", "b"] else if p = "b" then ["a"] else if p = "a" then ["d"] else []) "d" 10) =
      [⟨1, "a"⟩, ⟨1, "b"⟩] := by
  cbv

end Retrieval

end RepoAtlas
