import RepoAtlas.Proofs.Graph.Reachability
import RepoAtlas.Proofs.History.Following

/-!
# Parents that come late

The edges from a commit to its parents are written with the commit, to those parents that the graph has by
then. Among the commits of one listing these are all, since parents come first. But a commit that the graph
has already is skipped, by a full run too, and with it the edges to parents that were not listed when it was
recorded. So a full run leaves an edge out exactly if the commit was there before, and the edge was not.
-/

namespace RepoAtlas

open Act KnowledgeGraph
open Draft (GoneWithHistory Doomed)

namespace HistorySync

variable {repo : String} {parents : String → List String} {report report' : HistoryReport} {w w' : World}
variable {l records : List CommitRecord} {r : CommitRecord} {c p : String}

/-- The edge from a commit to a parent. -/
def parentEdge (repo c p : String) : GraphEdge := ⟨.parent, .commit ⟨repo, c⟩, .commit ⟨repo, p⟩⟩

/-! ### Recording -/

/-- What recording one commit does to the graph: nothing, if the graph has the commit, and else it writes
the commit with the parents that the graph has. -/
lemma record_cons_adds {rs : List CommitRecord} (h : record repo report (r :: rs) w = (.ok report', w')) :
    ∃ w₁ next, record repo next rs w₁ = (.ok report', w') ∧
      (Holds repo w r.revision ∧ w₁.store.graph = w.store.graph ∨
        ¬Holds repo w r.revision ∧ (w.store.graph.Reachable → w₁.store.graph.Reachable) ∧
          r.Adds repo (r.parents.filter fun p => w.store.graph.commits.contains ⟨repo, p⟩)
            w.store.graph w₁.store.graph) := by
  obtain ⟨w₁, next, -, hrest, -, hstep⟩ := record_cons_ok h
  refine ⟨w₁, next, hrest, hstep.imp_right ?_⟩
  rintro ⟨hnew, summary, happly⟩
  refine ⟨hnew, fun hg => .applied hg happly, ?_⟩
  rw [(GraphStore.apply_eq_ok happly).1]
  exact CommitRecord.adds_batch ((Bool.not_eq_true _).mp hnew)

lemma repo_of_record (h : record repo report l w = (.ok report', w')) : report'.repo = report.repo := by
  induction l generalizing w report with
  | nil =>
    cases h
    rfl
  | cons r rs ih =>
    obtain ⟨w₁, next, hrepo, hrest, -⟩ := record_cons_ok h
    exact (ih hrest).trans hrepo

lemma reachable_record (hg : w.store.graph.Reachable) (h : record repo report l w = (.ok report', w')) :
    w'.store.graph.Reachable := by
  induction l generalizing w report with
  | nil =>
    cases h
    exact hg
  | cons r rs ih =>
    obtain ⟨w₁, next, hrest, ⟨-, hgraph⟩ | ⟨-, hkept, -⟩⟩ := record_cons_adds h
    · exact ih (hgraph ▸ hg) hrest
    · exact ih (hkept hg) hrest

/-- After a commit is recorded the graph has it, besides those that it had. -/
lemma holds_of_adds {w₁ : World} {ps : List String} (h : r.Adds repo ps w.store.graph w₁.store.graph) :
    Holds repo w₁ c ↔ Holds repo w c ∨ c = r.revision := by
  refine (contains_of_adds h).trans (or_comm.trans (or_congr_right ?_))
  rw [CommitId.mk.injEq, and_iff_right rfl]

/-- A commit that the graph has keeps the edges that it has. -/
lemma record_of_held (hheld : Holds repo w c) (h : record repo report l w = (.ok report', w')) (p : String) :
    w'.store.graph.hasEdge (parentEdge repo c p) = true ↔
      w.store.graph.hasEdge (parentEdge repo c p) = true := by
  induction l generalizing w report with
  | nil =>
    cases h
    exact Iff.rfl
  | cons r rs ih =>
    obtain ⟨w₁, next, hrest, ⟨-, hgraph⟩ | ⟨hnew, -, hadds⟩⟩ := record_cons_adds h
    · rw [ih (by rw [Holds, hgraph]; exact hheld) hrest, hgraph]
    · have hne : c ≠ r.revision := fun hc => hnew (hc ▸ hheld)
      exact (ih ((holds_of_adds hadds).mpr (Or.inl hheld)) hrest).trans
        (hadds.edge_of_ne (by simp) hne _)

/-- A commit that the graph does not have gets the edges to its listed parents, if the list has parents
first. -/
lemma record_of_new (listed : String → Prop) (hparents : ∀ s ∈ l, s.parents = parents s.revision)
    (hfirst : ParentsFirst (fun c => Holds repo w c ∨ ¬listed c) l) (hr : r ∈ l)
    (hnew : ¬Holds repo w r.revision) (hp : p ∈ r.parents) (hlisted : listed p)
    (h : record repo report l w = (.ok report', w')) :
    w'.store.graph.hasEdge (parentEdge repo r.revision p) = true := by
  induction l generalizing w report with
  | nil => cases hr
  | cons s rs ih =>
    obtain ⟨hknown, hlater⟩ := hfirst
    obtain ⟨w₁, next, hrest, hstep⟩ := record_cons_adds h
    have hholds : ∀ c, Holds repo w₁ c ↔ Holds repo w c ∨ c = s.revision := by
      intro c
      rcases hstep with ⟨hheld, hgraph⟩ | ⟨-, -, hadds⟩
      · rw [Holds, hgraph]
        exact (or_iff_left_of_imp fun hc => hc ▸ hheld).symm
      · exact holds_of_adds hadds
    by_cases hsame : r.revision = s.revision
    · -- the commit is written now, and its listed parents are there
      have hsource : ¬Holds repo w s.revision := hsame ▸ hnew
      obtain ⟨hheld, -⟩ | ⟨-, -, hadds⟩ := hstep
      · exact absurd hheld hsource
      have hps : p ∈ s.parents := by
        rwa [hparents s (by simp), ← hsame, ← hparents r hr]
      have hstored : Holds repo w p := (hknown p hps).resolve_right fun hno => hno hlisted
      refine (record_of_held ((hholds _).mpr (Or.inr hsame)) hrest _).mpr ?_
      refine (hadds.edge _ (by simp [parentEdge])).mpr
        (Or.inr (Or.inl ⟨p, List.mem_filter.mpr ⟨hps, hstored⟩, ?_⟩))
      rw [hsame]
      rfl
    · have hr : r ∈ rs := (List.mem_cons.mp hr).resolve_left fun he => hsame (he ▸ rfl)
      refine ih (fun t ht => hparents t (by simp [ht])) ?_ hr (fun hheld => ?_) hrest
      · have hknown₁ : (fun c => Holds repo w₁ c ∨ ¬listed c) =
            fun c => (Holds repo w c ∨ ¬listed c) ∨ c = s.revision := by
          funext c
          rw [hholds, or_right_comm]
        rw [hknown₁]
        exact hlater
      · exact ((hholds _).mp hheld).elim hnew hsame

/-! ### Runs -/

/-- Forgetting all commits but some leaves the edges between these alone. -/
lemma retain_parentEdge {keep : List String} {summary : WriteSummary} (hg : w.store.graph.Reachable)
    (h : applyBatch [.retainHistory repo keep] w = (.ok summary, w')) (hc : c ∈ keep) (hp : p ∈ keep) :
    w'.store.graph.hasEdge (parentEdge repo c p) = true ↔
      w.store.graph.hasEdge (parentEdge repo c p) = true := by
  obtain ⟨-, happly⟩ := applyBatch_ok h
  have hadjacent := hg.wellFormed.adjacent
  have hr := Draft.removes_retainHistory (d := { graph := w.store.graph }) hadjacent.mirrored
    hadjacent.typed repo (keep.foldl (·.insert ·) ∅)
  have hkept : ∀ c ∈ keep, ¬GoneWithHistory w.store.graph repo (keep.foldl (·.insert ·) ∅) (.commit ⟨repo, c⟩) := by
    rintro c hc ⟨-, -, hno⟩
    have hmem := (contains_foldl_insert keep ∅ c).mpr (Or.inl hc)
    rw [hmem] at hno
    cases hno
  rw [(GraphStore.apply_eq_ok happly).1]
  exact (hr.edge _).trans (and_iff_left ⟨hkept c hc, hkept p hp⟩)

lemma reachable_retain {keep : List String} {summary : WriteSummary} (hg : w.store.graph.Reachable)
    (h : applyBatch [.retainHistory repo keep] w = (.ok summary, w')) : w'.store.graph.Reachable :=
  .applied hg (applyBatch_ok h).2

/-- A full run with a head records what version control lists for it and forgets the rest. -/
lemma reconcile_of_run {head : String} (hhead : w.vcs.head = .ok (some head))
    (hlist : w.vcs.commitsSince none head = .ok records) (h : run true w = (.ok report', w')) :
    reconcile { opening true w with head := some head } (some head) records w = (.ok report', w') := by
  rw [run_apply, if_pos rfl, full, bind_of_ok (askVcs_of_ok hhead)] at h
  have hrun : (askVcs (·.commitsSince none head) >>=
      reconcile { opening true w with head := some head } (some head)) w = (.ok report', w') := h
  rwa [bind_of_ok (askVcs_of_ok hlist)] at hrun

/-- Reconciling step by step: commits are recorded, others are forgotten, and the graph is saved. -/
lemma reconcile_steps {head : Option String} (h : reconcile report head records w = (.ok report', w')) :
    ∃ next w₁ summary w₂, record report.repo { report with commitsSeen := records.length }
        (topologicalOrder records) w = (.ok next, w₁) ∧
      applyBatch [.retainHistory report.repo (records.map (·.revision))] w₁ = (.ok summary, w₂) ∧
        w'.store.graph = w₂.store.graph := by
  obtain ⟨next, w₁, hrecord, hrest⟩ := bind_ok h
  obtain ⟨summary, w₂, hretain, hfinish⟩ := bind_ok hrest
  rw [repo_of_record hrecord] at hretain
  exact ⟨next, w₁, summary, w₂, hrecord, hretain, (finish_ok hfinish).1⟩

/-- After a full run the edge between two listed commits is there, unless the child was recorded before
without it. -/
theorem run_parentEdge_iff {head : String} (hg : w.store.graph.Reachable)
    (hhead : w.vcs.head = .ok (some head)) (hlist : w.vcs.commitsSince none head = .ok records)
    (hacyclic : Acyclic parents) (hparents : ∀ s ∈ records, s.parents = parents s.revision)
    (hrun : run true w = (.ok report, w')) (hr : r ∈ records) (hp : p ∈ r.parents)
    (hlisted : ∃ s ∈ records, s.revision = p) :
    w'.store.graph.hasEdge (parentEdge w.root r.revision p) = true ↔
      (w.store.graph.commits.contains ⟨w.root, r.revision⟩ = true →
        w.store.graph.hasEdge (parentEdge w.root r.revision p) = true) := by
  obtain ⟨next, w₁, summary, w₂, hrecord, hretain, hgraph⟩ :=
    reconcile_steps (reconcile_of_run hhead hlist hrun)
  have hperm := perm_topologicalOrder records
  have hkept := retain_parentEdge (reachable_record hg hrecord) hretain (c := r.revision) (p := p)
    (List.mem_map_of_mem hr) (List.mem_map.mpr hlisted)
  rw [hgraph]
  refine hkept.trans ?_
  by_cases hheld : Holds w.root w r.revision
  · -- the commit is skipped
    exact (record_of_held hheld hrecord p).trans ⟨fun h _ => h, fun h => h hheld⟩
  · -- the commit is written with the listed parents
    refine iff_of_true ?_ fun h => absurd h hheld
    refine record_of_new (fun c => ∃ s ∈ records, s.revision = c)
      (fun s hs => hparents s (hperm.mem_iff.mp hs)) ?_ (hperm.mem_iff.mpr hr) hheld hp hlisted hrecord
    refine parentsFirst_topologicalOrder hacyclic hparents fun s _ q _ => ?_
    by_cases hq : ∃ s ∈ records, s.revision = q
    · exact Or.inr hq
    · exact Or.inl (Or.inr hq)

/-- A full run with a head keeps the graph reachable. -/
lemma reachable_run {head : String} (hg : w.store.graph.Reachable) (hhead : w.vcs.head = .ok (some head))
    (hlist : w.vcs.commitsSince none head = .ok records) (h : run true w = (.ok report, w')) :
    w'.store.graph.Reachable := by
  obtain ⟨next, w₁, summary, w₂, hrecord, hretain, hgraph⟩ :=
    reconcile_steps (reconcile_of_run hhead hlist h)
  exact hgraph ▸ reachable_retain (reachable_record hg hrecord) hretain

/-! ### A history that was shallow -/

theorem run_parentEdge_iff_branch : ∃ report w', run true (onBranch "2") = (.ok report, w') ∧
    w'.store.graph.hasEdge (parentEdge "/repo" "2" "1") = true := by
  have hok : (run true (onBranch "2")).1.toOption.isSome = true := by decide
  rcases hrun : run true (onBranch "2") with ⟨e | report, w'⟩
  · rw [hrun] at hok
    cases hok
  · have hlist : (onBranch "2").vcs.commitsSince none "2" = .ok branch := by decide
    refine ⟨report, w', rfl, (run_parentEdge_iff (r := branch[0]) (p := "1") .empty rfl hlist acyclic_branch
      ?_ hrun (by simp [branch]) (by simp [branch]) ?_).mpr ?_⟩
    · simp [branch, branchParents]
    · exact ⟨branch[1], by simp [branch], rfl⟩
    · intro hheld
      simp [onBranch] at hheld

/-- An engine on a shallow clone of the branch, which lists the second commit only. -/
def shallow : World := { onBranch "2" with vcs := .ofCommits (branch.take 1) (some "2") none }

/-- The rest of the branch was fetched after a full run on the shallow clone. -/
def deepened : World :=
  { onBranch "2" with
    store := (run true shallow).2.store
    checkpoints := (run true shallow).2.checkpoints }

/-- Full runs do not put back all edges to parents: a commit that was recorded from a shallow clone stays
without the edge to its parent, which the next full run records. -/
theorem not_run_parentEdge : ¬∀ (w w' : World) (head : String) (records : List CommitRecord)
    (parents : String → List String) (report : HistoryReport), w.store.graph.Reachable →
      w.vcs.head = .ok (some head) → w.vcs.commitsSince none head = .ok records → Acyclic parents →
      (∀ s ∈ records, s.parents = parents s.revision) → run true w = (.ok report, w') →
      ∀ r ∈ records, ∀ p ∈ r.parents, (∃ s ∈ records, s.revision = p) →
        w'.store.graph.hasEdge (parentEdge w.root r.revision p) = true := by
  intro hall
  have hedge : (run true shallow).1.toOption.isSome = true ∧ (run true deepened).1.toOption.isSome = true ∧
      (run true deepened).2.store.graph.hasEdge (parentEdge "/repo" "2" "1") = false := by
    decide
  rcases hbegun : run true shallow with ⟨e | report, begun⟩
  · rw [hbegun] at hedge
    cases hedge.1
  rcases hrun : run true deepened with ⟨e | report', w'⟩
  · rw [hrun] at hedge
    cases hedge.2.1
  have hfirst : shallow.vcs.commitsSince none "2" = .ok (branch.take 1) := by decide
  have hlist : deepened.vcs.commitsSince none "2" = .ok branch := by decide
  have hreachable : deepened.store.graph.Reachable := by
    have hstore : deepened.store = begun.store := by rw [deepened, hbegun]
    rw [hstore]
    exact reachable_run .empty rfl hfirst hbegun
  have hstored := hall deepened w' "2" branch branchParents report' hreachable rfl hlist acyclic_branch
    (by simp [branch, branchParents]) hrun branch[0] (by simp [branch]) "1" (by simp [branch])
    ⟨branch[1], by simp [branch], rfl⟩
  rw [hrun] at hedge
  exact Bool.false_ne_true (hedge.2.2.symm.trans hstored)

end HistorySync

end RepoAtlas
