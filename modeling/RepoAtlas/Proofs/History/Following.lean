import RepoAtlas.Proofs.Engine.Act
import RepoAtlas.Proofs.History.Commits
import RepoAtlas.Proofs.History.Order

/-!
# Following version control

Runs over the history keep the stored commits of a repository equal to the revisions that lead to its
checkpoint. An incremental run adds what leads to the new head and not to the checkpoint, which it makes sure
leads to the head itself; a full run adds what leads to the head and forgets the rest. Either way the parents
of a commit are there when it is recorded, since commits are recorded parents first.
-/

namespace RepoAtlas

open Act

/-! ### Version control -/

/-- One revision leads to another over parents, or is it. -/
def Reaches (parents : String → List String) (head c : String) : Prop :=
  Relation.ReflTransGen (fun a b => b ∈ parents a) head c

/-- Version control answers, whenever it answers, by the parents of all revisions and by those of them that
it knows now: whether it knows a revision, whether one is an ancestor of another, and, in any order, the
commits that one leads to and another one does not. The records that it lists may differ from one time to the
next, but not in their parents. -/
structure Vcs.Exact (v : Vcs) (known : String → Prop) (parents : String → List String)
    (genuine : CommitRecord → Prop) : Prop where
  head : ∀ h, v.head = .ok (some h) → known h
  containsRevision : ∀ c b, v.containsRevision c = .ok b → (b = true ↔ known c)
  isAncestor : ∀ a d b, known a → known d → v.isAncestor a d = .ok b → (b = true ↔ Reaches parents d a)
  listed : ∀ since h l, known h → (∀ s ∈ since, known s) → v.commitsSince since h = .ok l →
    ∀ c, (∃ r ∈ l, r.revision = c) ↔ Reaches parents h c ∧ ∀ s ∈ since, ¬Reaches parents s c
  genuine : ∀ since h l, known h → (∀ s ∈ since, known s) → v.commitsSince since h = .ok l →
    ∀ r ∈ l, genuine r ∧ r.parents = parents r.revision

namespace Act

variable {α β : Type} {w w' : World}

lemma askVcs_of_ok {question : Vcs → Except String α} {a : α} (h : question w.vcs = .ok a) :
    askVcs question w = (.ok a, w) := by
  simp only [askVcs, bind_apply, get_apply, h]
  rfl

lemma askVcs_of_error {question : Vcs → Except String α} {e : String} (h : question w.vcs = .error e) :
    askVcs question w = (.error (.vcs e), w) := by
  simp only [askVcs, bind_apply, get_apply, h]
  rfl

/-- What version control answered. -/
lemma askVcs_ok {question : Vcs → Except String α} {a : α} (h : askVcs question w = (.ok a, w')) :
    question w.vcs = .ok a ∧ w' = w := by
  cases hq : question w.vcs with
  | error e =>
    rw [askVcs_of_error hq] at h
    cases h
  | ok b =>
    rw [askVcs_of_ok hq] at h
    cases h
    exact ⟨rfl, rfl⟩

/-! ### Actions that do not find the history diverged -/

/-- An action does not fail for a history that diverged. -/
def Undiverging (m : Act α) : Prop :=
  ∀ (w w' : World) (recorded head : String), m w ≠ (.error (.historyDivergence recorded head), w')

lemma Undiverging.pure (a : α) : Undiverging (pure a : Act α) := fun _ _ _ _ h => by cases h

lemma Undiverging.bind {m : Act α} {f : α → Act β} (hm : Undiverging m) (hf : ∀ a, Undiverging (f a)) :
    Undiverging (m >>= f) := by
  intro w w' recorded head h
  rcases hrun : m w with ⟨e | a, w₁⟩
  · rw [bind_of_error hrun] at h
    cases h
    exact hm _ _ _ _ hrun
  · rw [bind_of_ok hrun] at h
    exact hf a _ _ _ _ h

lemma undiverging_askVcs (question : Vcs → Except String α) : Undiverging (askVcs question) := by
  intro w w' recorded head h
  cases hq : question w.vcs with
  | error e =>
    rw [askVcs_of_error hq] at h
    cases h
  | ok a =>
    rw [askVcs_of_ok hq] at h
    cases h

lemma undiverging_ask (method : String) (question : KnowledgeGraph → α) :
    Undiverging (ask method question) := by
  intro w w' recorded head h
  obtain ⟨r, w₁, hquery, -, -⟩ := query_apply method question w
  rw [ask, bind_of_ok hquery] at h
  cases r <;> cases h

/-- Operations of the store that always answer fail for the store alone. -/
lemma undiverging_retrying {operation : Act (Except StoreError α)}
    (hop : ∀ w, ∃ r w', operation w = (.ok r, w')) (retries : Nat) :
    ∀ delay, Undiverging (retrying operation delay retries) := by
  induction retries with
  | zero =>
    intro delay w w' recorded head h
    obtain ⟨r, w₁, hrun⟩ := hop w
    rw [retrying, bind_of_ok hrun] at h
    cases r with
    | ok a => cases h
    | error e =>
      by_cases htransient : e.isTransient = true
      · simp only [htransient, if_true] at h
        cases h
      · simp only [htransient, if_false, Bool.false_eq_true] at h
        cases h
  | succ retries ih =>
    intro delay w w' recorded head h
    obtain ⟨r, w₁, hrun⟩ := hop w
    rw [retrying, bind_of_ok hrun] at h
    cases r with
    | ok a => cases h
    | error e =>
      simp only at h
      split at h
      · exact (Undiverging.bind (fun _ _ _ _ h => by cases h) fun _ => ih _) _ _ _ _ h
      · cases h

lemma undiverging_applyBatch (b : WriteBatch) : Undiverging (applyBatch b) := by
  refine undiverging_retrying (fun w => ?_) 2 200
  obtain ⟨r, w₁, hguard, -⟩ := guardStore_apply "apply" w
  rw [applyOnce, bind_of_ok hguard]
  cases r with
  | error e => exact ⟨_, _, rfl⟩
  | ok _ =>
    simp only [bind_apply, get_apply]
    cases w₁.store.apply b with
    | error e => exact ⟨_, _, rfl⟩
    | ok r => exact ⟨_, _, rfl⟩

lemma undiverging_commit : Undiverging commit := by
  refine undiverging_retrying (fun w => ?_) 2 200
  obtain ⟨r, w₁, hguard, -⟩ := guardStore_apply "commit" w
  rw [commitOnce, bind_of_ok hguard]
  cases r with
  | error e => exact ⟨_, _, rfl⟩
  | ok _ =>
    simp only [bind_apply, get_apply, set_apply]
    cases (w₁.store.commit w₁.tree).2.2 with
    | some e => exact ⟨_, _, rfl⟩
    | none => exact ⟨_, _, rfl⟩

lemma undiverging_setCheckpoints (updates : List CheckpointUpdate) :
    Undiverging (setCheckpoints updates) := by
  intro w w' recorded head h
  simp only [setCheckpoints, bind_apply, get_apply, set_apply] at h
  cases hset : (w.checkpoints.setBatch w.tree updates).2.2 with
  | some e =>
    rw [hset] at h
    cases h
  | none =>
    rw [hset] at h
    cases h

end Act

namespace HistorySync

variable {repo : String} {parents : String → List String} {genuine : CommitRecord → Prop}
variable {known : String → Prop}
variable {report report' : HistoryReport} {w w' : World}

/-! ### Recording -/

/-- The revisions of a repository that the graph holds. -/
def Holds (repo : String) (w : World) (c : String) : Prop :=
  w.store.graph.commits.contains ⟨repo, c⟩ = true

lemma contains_ok {key : NodeKey} {b : Bool} (h : Act.contains key w = (.ok b, w')) :
    b = w.store.graph.contains key ∧ Quiet w w' := ask_ok h

lemma knownParents_ok {ps known : List String} (h : knownParents repo ps w = (.ok known, w')) :
    known = ps.filter (fun p => w.store.graph.commits.contains ⟨repo, p⟩) ∧ Quiet w w' := by
  induction ps generalizing w w' known with
  | nil =>
    cases h
    exact ⟨rfl, Quiet.refl _⟩
  | cons p ps ih =>
    obtain ⟨b, w₁, hp, hrest⟩ := bind_ok h
    obtain ⟨rest, w₂, hps, hreturn⟩ := bind_ok hrest
    obtain ⟨rfl, hq⟩ := contains_ok hp
    obtain ⟨rfl, hq'⟩ := ih hps
    cases hreturn
    rw [hq.store]
    refine ⟨?_, Quiet.trans _ _ _ hq hq'⟩
    rw [List.filter_cons]
    rfl

/-- One commit is recorded, or was there before. -/
lemma record_cons_ok {r : CommitRecord} {rs : List CommitRecord}
    (h : record repo report (r :: rs) w = (.ok report', w')) : ∃ w₁ next, next.repo = report.repo ∧
      record repo next rs w₁ = (.ok report', w') ∧ w₁.checkpoints = w.checkpoints ∧
        (Holds repo w r.revision ∧ w₁.store.graph = w.store.graph ∨
          ¬Holds repo w r.revision ∧ ∃ summary, w.store.apply (r.batch repo (r.parents.filter fun p =>
            w.store.graph.commits.contains ⟨repo, p⟩)) = .ok (w₁.store, summary)) := by
  obtain ⟨b, w₁, hcontains, hrest⟩ := bind_ok h
  obtain ⟨hb, hq⟩ := contains_ok hcontains
  cases b with
  | true =>
    exact ⟨w₁, { report with commitsSkipped := report.commitsSkipped + 1 }, rfl, hrest, hq.checkpoints,
      Or.inl ⟨hb.symm, by rw [hq.store]⟩⟩
  | false =>
    obtain ⟨known, w₂, hknown, hwrite⟩ := bind_ok hrest
    obtain ⟨summary, w₃, happly, hlater⟩ := bind_ok hwrite
    obtain ⟨rfl, hq'⟩ := knownParents_ok hknown
    obtain ⟨hcalm, happly⟩ := applyBatch_ok happly
    rw [hq'.store, hq.store] at happly
    refine ⟨w₃, { report with
      commitsWritten := report.commitsWritten + 1
      revisionsWritten := report.revisionsWritten + r.changes.length }, rfl, hlater, ?_,
        Or.inr ⟨fun hh => ?_, summary, happly⟩⟩
    · rw [hcalm.checkpoints, hq'.checkpoints, hq.checkpoints]
    · have : w.store.graph.contains (.commit ⟨repo, r.revision⟩) = true := hh
      rw [← hb] at this
      cases this

/-- Recording commits parents first keeps the history coherent and adds exactly these commits. -/
lemma record_ok {l : List CommitRecord} (hc : Coherent repo genuine w.store.graph)
    (hl : ∀ r ∈ l, genuine r) (hfirst : ParentsFirst (Holds repo w) l)
    (h : record repo report l w = (.ok report', w')) : Coherent repo genuine w'.store.graph ∧
      (∀ c, Holds repo w' c ↔ Holds repo w c ∨ ∃ r ∈ l, r.revision = c) ∧
        w'.checkpoints = w.checkpoints ∧ report'.repo = report.repo := by
  induction l generalizing w report with
  | nil =>
    cases h
    exact ⟨hc, fun c => by simp, rfl, rfl⟩
  | cons r rs ih =>
    obtain ⟨hparents, hrest⟩ := hfirst
    obtain ⟨w₁, next, hrepo, hrun, hcheckpoints, hstep⟩ := record_cons_ok h
    have hstep : Coherent repo genuine w₁.store.graph ∧
        ∀ c, Holds repo w₁ c ↔ Holds repo w c ∨ c = r.revision := by
      rcases hstep with ⟨hheld, hgraph⟩ | ⟨hnew, summary, happly⟩
      · refine ⟨hgraph ▸ hc, fun c => ?_⟩
        rw [Holds, hgraph]
        exact (or_iff_left_of_imp fun hcr => hcr ▸ hheld).symm
      · -- all parents are there, so all edges to them are written
        have hall : r.parents.filter (fun p => w.store.graph.commits.contains ⟨repo, p⟩) = r.parents :=
          List.filter_eq_self.mpr hparents
        rw [hall] at happly
        have hnew := (Bool.not_eq_true _).mp hnew
        have hadds : r.Adds repo r.parents w.store.graph w₁.store.graph := by
          rw [(GraphStore.apply_eq_ok happly).1]
          exact CommitRecord.adds_batch hnew
        refine ⟨hc.adds hadds (GraphStore.wellFormed_apply hc.wellFormed happly).1 hnew (hl r (by simp)),
          fun c => (contains_of_adds hadds).trans ?_⟩
        rw [CommitId.mk.injEq, or_comm]
        simp only [true_and]
        rfl
    obtain ⟨hc₁, hholds⟩ := hstep
    have hfirst : ParentsFirst (Holds repo w₁) rs := by
      have : Holds repo w₁ = fun c => Holds repo w c ∨ c = r.revision := funext fun c => propext (hholds c)
      rw [this]
      exact hrest
    obtain ⟨hc', hholds', hcheckpoints', hrepo'⟩ := ih hc₁ (fun s hs => hl s (by simp [hs])) hfirst hrun
    refine ⟨hc', fun c => ?_, hcheckpoints'.trans hcheckpoints, hrepo'.trans hrepo⟩
    rw [hholds', hholds, or_assoc]
    simp only [List.mem_cons, exists_eq_or_imp, eq_comm (a := c)]

/-- What the records of version control have in common. -/
def Faithful (parents : String → List String) (genuine : CommitRecord → Prop) (r : CommitRecord) : Prop :=
  genuine r ∧ r.parents = parents r.revision

lemma recordAll_ok {records : List CommitRecord} (hacyclic : Acyclic parents)
    (hc : Coherent repo (Faithful parents genuine) w.store.graph)
    (hl : ∀ r ∈ records, Faithful parents genuine r)
    (hknown : ∀ r ∈ records, ∀ p ∈ r.parents, Holds repo w p ∨ ∃ s ∈ records, s.revision = p)
    (h : recordAll repo report records w = (.ok report', w')) :
    Coherent repo (Faithful parents genuine) w'.store.graph ∧
      (∀ c, Holds repo w' c ↔ Holds repo w c ∨ ∃ r ∈ records, r.revision = c) ∧
        w'.checkpoints = w.checkpoints ∧ report'.repo = report.repo := by
  have hperm := perm_topologicalOrder records
  obtain ⟨hc', hholds, hrest⟩ := record_ok hc (fun r hr => hl r (hperm.mem_iff.mp hr))
    (parentsFirst_topologicalOrder hacyclic (fun r hr => (hl r hr).2) hknown) h
  simp only [hperm.mem_iff] at hholds
  exact ⟨hc', hholds, hrest⟩

/-- The graph is saved as it is, and the checkpoint is set. -/
lemma finish_ok {head : Option String} (h : finish report head w = (.ok report', w')) :
    w'.store.graph = w.store.graph ∧ w'.checkpoints.state.get? (.revision report.repo) = head := by
  obtain ⟨_, w₁, hcommit, hrest⟩ := bind_ok h
  obtain ⟨_, w₂, hset, hreturn⟩ := bind_ok hrest
  cases hreturn
  have hcommitted := committed_commit.of_ok hcommit
  obtain ⟨hsaved, hget⟩ := setCheckpoints_ok hset
  refine ⟨hsaved.graph.trans hcommitted.graph, ?_⟩
  rw [hget]
  exact Checkpoints.get?_setAll_of_mem (by simp) (by simp)

/-! ### Runs -/

/-- The stored commits of the repository are those that lead to its checkpoint. -/
structure Matches (repo : String) (parents : String → List String) (genuine : CommitRecord → Prop)
    (w : World) : Prop where
  coherent : Coherent repo (Faithful parents genuine) w.store.graph
  stored : ∀ c, Holds repo w c ↔
    ∃ s, w.checkpoints.state.get? (.revision repo) = some s ∧ Reaches parents s c

lemma Matches.congr (h : Matches repo parents genuine w) (hgraph : w'.store.graph = w.store.graph)
    (hcheckpoint : w'.checkpoints.state.get? (.revision repo) =
      w.checkpoints.state.get? (.revision repo)) : Matches repo parents genuine w' where
  coherent := hgraph ▸ h.coherent
  stored c := by
    rw [Holds, hgraph, hcheckpoint]
    exact h.stored c

/-- Record what leads to a head and not to the checkpoint. -/
def append (report : HistoryReport) (head : String) : Act HistoryReport := do
  let records ← askVcs (·.commitsSince report.checkpointBefore head)
  finish (← recordAll report.repo report records) (some head)

/-- The commits that version control lists have their parents among them or in the graph. -/
lemma Matches.parents_known {since : Option String} {head : String} {records : List CommitRecord}
    (hm : Matches repo parents genuine w)
    (hsince : ∀ s ∈ since, w.checkpoints.state.get? (.revision repo) = some s)
    (hlisted : ∀ c, (∃ r ∈ records, r.revision = c) ↔
      Reaches parents head c ∧ ∀ s ∈ since, ¬Reaches parents s c)
    (hfaithful : ∀ r ∈ records, Faithful parents genuine r) :
    ∀ r ∈ records, ∀ p ∈ r.parents, Holds repo w p ∨ ∃ s ∈ records, s.revision = p := by
  intro r hr p hp
  rw [(hfaithful r hr).2] at hp
  have hleads : Reaches parents head p := (((hlisted _).mp ⟨r, hr, rfl⟩).1).tail hp
  by_cases hold : ∃ s ∈ since, Reaches parents s p
  · obtain ⟨s, hs, hreaches⟩ := hold
    exact Or.inl ((hm.stored p).mpr ⟨s, hsince s hs, hreaches⟩)
  · exact Or.inr ((hlisted p).mpr ⟨hleads, fun s hs hreaches => hold ⟨s, hs, hreaches⟩⟩)

lemma append_ok {head : String} (hacyclic : Acyclic parents) (hv : w.vcs.Exact known parents genuine)
    (hm : Matches repo parents genuine w) (hrepo : report.repo = repo)
    (hbefore : report.checkpointBefore = w.checkpoints.state.get? (.revision repo)) (hhead : known head)
    (hleads : ∀ s, report.checkpointBefore = some s → known s ∧ Reaches parents head s)
    (h : append report head w = (.ok report', w')) : Matches repo parents genuine w' ∧
      w'.checkpoints.state.get? (.revision repo) = some head := by
  obtain ⟨records, w₁, hask, hrest⟩ := bind_ok h
  obtain ⟨hanswer, rfl⟩ := askVcs_ok hask
  have hlisted := hv.listed _ _ _ hhead (fun s hs => (hleads s hs).1) hanswer
  have hfaithful := hv.genuine _ _ _ hhead (fun s hs => (hleads s hs).1) hanswer
  obtain ⟨next, w₂, hrecord, hfinish⟩ := bind_ok hrest
  rw [hrepo] at hrecord
  obtain ⟨hc, hholds, -, hrepo'⟩ := recordAll_ok hacyclic hm.coherent hfaithful
    (hm.parents_known (fun s hs => hbefore.symm.trans hs) hlisted hfaithful) hrecord
  obtain ⟨hgraph, hcheckpoint⟩ := finish_ok hfinish
  rw [hrepo', hrepo] at hcheckpoint
  refine ⟨⟨hgraph ▸ hc, fun c => ?_⟩, hcheckpoint⟩
  have hiff : Holds repo w₂ c ↔ Reaches parents head c := by
    rw [hholds, hm.stored, hlisted, ← hbefore]
    constructor
    · rintro (⟨s, hs, hreaches⟩ | ⟨hreaches, -⟩)
      · exact (hleads s hs).2.trans hreaches
      · exact hreaches
    · intro hreaches
      by_cases hold : ∃ s, report.checkpointBefore = some s ∧ Reaches parents s c
      · exact Or.inl hold
      · exact Or.inr ⟨hreaches, fun s hs hr => hold ⟨s, hs, hr⟩⟩
  simp only [Holds, hgraph, hcheckpoint, Option.some.injEq, exists_eq_left']
  exact hiff

/-- Forgetting all commits but some with their parents. -/
lemma retain_ok {keep : List String} {summary : WriteSummary}
    (hc : Coherent repo genuine w.store.graph)
    (hkeep : ∀ r, genuine r → r.revision ∈ keep → ∀ p ∈ r.parents, p ∈ keep)
    (h : applyBatch [.retainHistory repo keep] w = (.ok summary, w')) :
    Coherent repo genuine w'.store.graph ∧ (∀ c, Holds repo w' c ↔ Holds repo w c ∧ c ∈ keep) := by
  obtain ⟨-, happly⟩ := applyBatch_ok h
  have hmem : ∀ c, (keep.foldl (·.insert ·) (∅ : Std.ExtTreeSet String)).contains c = true ↔ c ∈ keep := by
    intro c
    rw [contains_foldl_insert]
    simp
  have hadjacent := hc.wellFormed.adjacent
  have hr := Draft.removes_retainHistory (d := { graph := w.store.graph }) hadjacent.mirrored
    hadjacent.typed repo (keep.foldl (·.insert ·) ∅)
  have hgraph : w'.store.graph = (Draft.retainHistory { graph := w.store.graph } repo
      (keep.foldl (·.insert ·) ∅)).graph := (GraphStore.apply_eq_ok happly).1
  rw [← hgraph] at hr
  obtain ⟨hc', hstored⟩ := hc.forget hr (GraphStore.wellFormed_apply hc.wellFormed happly).1
    fun r hr hmem' p hp => (hmem p).mpr (hkeep r hr ((hmem _).mp hmem') p hp)
  exact ⟨hc', fun c => (hstored c).trans (and_congr_right fun _ => hmem c)⟩

/-- Record the commits that lead to a head, and forget the others. -/
def reconcile (report : HistoryReport) (head : Option String) (records : List CommitRecord) :
    Act HistoryReport := do
  let next ← recordAll report.repo report records
  let summary ← applyBatch [.retainHistory next.repo (records.map (·.revision))]
  finish { next with nodesRemoved := summary.nodesRemoved } head

lemma reconcile_ok {head : Option String} {records : List CommitRecord} (hacyclic : Acyclic parents)
    (hm : Matches repo parents genuine w) (hrepo : report.repo = repo)
    (hlisted : ∀ c, (∃ r ∈ records, r.revision = c) ↔ ∃ h, head = some h ∧ Reaches parents h c)
    (hfaithful : ∀ r ∈ records, Faithful parents genuine r)
    (h : reconcile report head records w = (.ok report', w')) : Matches repo parents genuine w' ∧
      w'.checkpoints.state.get? (.revision repo) = head := by
  have hmem : ∀ c, c ∈ records.map (·.revision) ↔ ∃ r ∈ records, r.revision = c := fun c => List.mem_map
  -- what is listed is listed with its parents
  have hclosed : ∀ r, Faithful parents genuine r → (∃ s ∈ records, s.revision = r.revision) →
      ∀ p ∈ r.parents, ∃ s ∈ records, s.revision = p := by
    intro r hr hmem p hp
    obtain ⟨h, hhead, hreaches⟩ := (hlisted _).mp hmem
    exact (hlisted p).mpr ⟨h, hhead, hreaches.tail (by rw [← hr.2]; exact hp)⟩
  obtain ⟨next, w₁, hrecord, hrest⟩ := bind_ok h
  obtain ⟨summary, w₂, hretain, hfinish⟩ := bind_ok hrest
  rw [hrepo] at hrecord
  obtain ⟨hc, hholds, -, hrepo'⟩ := recordAll_ok hacyclic hm.coherent hfaithful
    (fun r hr p hp => Or.inr (hclosed r (hfaithful r hr) ⟨r, hr, rfl⟩ p hp)) hrecord
  rw [hrepo', hrepo] at hretain
  obtain ⟨hc', hholds'⟩ := retain_ok hc (fun r hr hkeep p hp => (hmem p).mpr
    (hclosed r hr ((hmem _).mp hkeep) p hp)) hretain
  obtain ⟨hgraph, hcheckpoint⟩ := finish_ok hfinish
  rw [show ({ next with nodesRemoved := summary.nodesRemoved } : HistoryReport).repo = repo from
    hrepo'.trans hrepo] at hcheckpoint
  refine ⟨⟨hgraph ▸ hc', fun c => ?_⟩, hcheckpoint⟩
  have hiff : Holds repo w₂ c ↔ ∃ h, head = some h ∧ Reaches parents h c := by
    rw [hholds', hholds, hmem, ← hlisted]
    exact and_iff_right_of_imp Or.inr
  simp only [Holds, hgraph, hcheckpoint]
  exact hiff

lemma full_ok (hacyclic : Acyclic parents) (hv : w.vcs.Exact known parents genuine)
    (hm : Matches repo parents genuine w) (hrepo : report.repo = repo)
    (h : full report w = (.ok report', w')) : Matches repo parents genuine w' ∧
      w.vcs.head = .ok (w'.checkpoints.state.get? (.revision repo)) := by
  obtain ⟨head, w₁, hask, hrest⟩ := bind_ok h
  obtain ⟨hhead, rfl⟩ := askVcs_ok hask
  have hrepo' : ({ report with head } : HistoryReport).repo = repo := hrepo
  cases head with
  | none =>
    have hrun : reconcile { report with head := none } none [] w₁ = (.ok report', w') := hrest
    obtain ⟨hm', hcheckpoint⟩ := reconcile_ok hacyclic hm hrepo' (by simp) (by simp) hrun
    exact ⟨hm', by rw [hhead, hcheckpoint]⟩
  | some head =>
    have hrun : (askVcs (·.commitsSince none head) >>=
        reconcile { report with head := some head } (some head)) w₁ = (.ok report', w') := hrest
    obtain ⟨records, w₂, hlist, hreconcile⟩ := bind_ok hrun
    obtain ⟨hanswer, rfl⟩ := askVcs_ok hlist
    have hknown := hv.head head hhead
    obtain ⟨hm', hcheckpoint⟩ := reconcile_ok hacyclic hm hrepo'
      (fun c => (hv.listed _ _ _ hknown (by simp) hanswer c).trans (by simp))
      (hv.genuine _ _ _ hknown (by simp) hanswer) hreconcile
    exact ⟨hm', by rw [hhead, hcheckpoint]⟩

/-- Make sure that the checkpoint leads to the head. -/
def checkSince (since : Option String) (head : String) : Act Unit :=
  match since with
  | some recorded => checkDivergence recorded head
  | none => pure ()

lemma checkSince_ok {since : Option String} {head : String} (hv : w.vcs.Exact known parents genuine)
    (hhead : known head) (h : checkSince since head w = (.ok (), w')) :
    w' = w ∧ ∀ s, since = some s → known s ∧ Reaches parents head s := by
  cases since with
  | none =>
    cases h
    exact ⟨rfl, by simp⟩
  | some recorded =>
    obtain ⟨found, w₁, hfound, hrest⟩ := bind_ok h
    obtain ⟨hcontains, rfl⟩ := askVcs_ok hfound
    cases found with
    | false => cases hrest
    | true =>
      have hknown := (hv.containsRevision _ _ hcontains).mp rfl
      obtain ⟨leads, w₂, hleads, hrest⟩ := bind_ok hrest
      obtain ⟨hancestor, rfl⟩ := askVcs_ok hleads
      cases leads with
      | false => cases hrest
      | true =>
        cases hrest
        refine ⟨rfl, fun s hs => ?_⟩
        cases hs
        exact ⟨hknown, (hv.isAncestor _ _ _ hknown hhead hancestor).mp rfl⟩

/-- Checking changes nothing, whatever comes of it. -/
lemma checkSince_error {since : Option String} {head : String} {e : SyncError}
    (h : checkSince since head w = (.error e, w')) : w' = w := by
  cases since with
  | none => cases h
  | some recorded =>
    cases hknown : w.vcs.containsRevision recorded with
    | error e =>
      rw [checkSince, checkDivergence, bind_of_error (askVcs_of_error hknown)] at h
      cases h
      rfl
    | ok known =>
      rw [checkSince, checkDivergence, bind_of_ok (askVcs_of_ok hknown)] at h
      cases known with
      | false =>
        cases h
        rfl
      | true =>
        cases hancestor : w.vcs.isAncestor recorded head with
        | error e =>
          simp only [if_true] at h
          rw [bind_of_error (askVcs_of_error hancestor)] at h
          cases h
          rfl
        | ok leads =>
          simp only [if_true] at h
          rw [bind_of_ok (askVcs_of_ok hancestor)] at h
          cases leads <;> cases h
          rfl

/-- A run from another checkpoint than the head. -/
lemma incremental_of_ne {head : String} (hhead : w.vcs.head = .ok (some head))
    (hne : report.checkpointBefore ≠ some head) : incremental report w =
      (checkSince report.checkpointBefore head >>= fun _ =>
        append { report with head := some head } head) w := by
  rw [incremental, bind_of_ok (askVcs_of_ok hhead)]
  simp only [beq_eq_false_iff_ne.mpr hne, Bool.false_eq_true, if_false]
  cases report.checkpointBefore <;> rfl

lemma incremental_ok (hacyclic : Acyclic parents) (hv : w.vcs.Exact known parents genuine)
    (hm : Matches repo parents genuine w) (hrepo : report.repo = repo)
    (hbefore : report.checkpointBefore = w.checkpoints.state.get? (.revision repo))
    (h : incremental report w = (.ok report', w')) : Matches repo parents genuine w' ∧
      ∀ head, w.vcs.head = .ok (some head) →
        w'.checkpoints.state.get? (.revision repo) = some head := by
  have hask := h
  obtain ⟨head, w₁, hask, hrest⟩ := bind_ok hask
  obtain ⟨hhead, rfl⟩ := askVcs_ok hask
  rw [hhead]
  cases head with
  | none =>
    cases hrest
    exact ⟨hm, by simp⟩
  | some head =>
    by_cases hsame : report.checkpointBefore = some head
    · simp only [beq_iff_eq.mpr hsame, if_true] at hrest
      cases hrest
      refine ⟨hm, fun head' hhead' => ?_⟩
      cases hhead'
      rw [← hbefore, hsame]
    · rw [incremental_of_ne hhead hsame] at h
      obtain ⟨_, w₂, hcheck, happend⟩ := bind_ok h
      have hknown := hv.head head hhead
      obtain ⟨rfl, hleads⟩ := checkSince_ok hv hknown hcheck
      obtain ⟨hm', hcheckpoint⟩ := append_ok hacyclic hv hm
        (show ({ report with head := some head } : HistoryReport).repo = repo from hrepo) hbefore hknown
        hleads happend
      refine ⟨hm', fun head' hhead' => ?_⟩
      cases hhead'
      exact hcheckpoint

/-! ### Divergence -/

lemma undiverging_recordAll (repo : String) (report : HistoryReport) (records : List CommitRecord) :
    Undiverging (recordAll repo report records) := by
  have hknown : ∀ ps, Undiverging (knownParents repo ps) := by
    intro ps
    induction ps with
    | nil => exact Undiverging.pure _
    | cons p ps ih =>
      exact (undiverging_ask _ _).bind fun _ => ih.bind fun _ => Undiverging.pure _
  have hrecord : ∀ (l : List CommitRecord) (report : HistoryReport), Undiverging (record repo report l) := by
    intro l
    induction l with
    | nil => exact fun report => Undiverging.pure report
    | cons r rs ih =>
      refine fun report => (undiverging_ask _ _).bind fun known => ?_
      cases known with
      | true => exact ih _
      | false => exact (hknown _).bind fun _ => (undiverging_applyBatch _).bind fun _ => ih _
  exact hrecord _ _

lemma undiverging_finish (report : HistoryReport) (head : Option String) :
    Undiverging (finish report head) :=
  undiverging_commit.bind fun _ => (undiverging_setCheckpoints _).bind fun _ => Undiverging.pure _

lemma undiverging_append (report : HistoryReport) (head : String) : Undiverging (append report head) :=
  (undiverging_askVcs _).bind fun _ => (undiverging_recordAll _ _ _).bind fun _ => undiverging_finish _ _

lemma undiverging_full (report : HistoryReport) : Undiverging (full report) := by
  have hreconcile : ∀ report head records, Undiverging (reconcile report head records) := fun _ _ _ =>
    (undiverging_recordAll _ _ _).bind fun _ => (undiverging_applyBatch _).bind fun _ => undiverging_finish _ _
  refine (undiverging_askVcs _).bind fun head => ?_
  cases head with
  | none => exact hreconcile _ none []
  | some head => exact (undiverging_askVcs _).bind fun records => hreconcile _ (some head) records

/-- The report that a run starts with. -/
def opening (isFull : Bool) (w : World) : HistoryReport :=
  { repo := w.root, isFull, checkpointBefore := w.checkpoints.state.get? (.revision w.root) }

lemma run_apply (isFull : Bool) (w : World) :
    run isFull w = (if isFull then full (opening isFull w) else incremental (opening isFull w)) w := by
  rw [run, bind_apply, get_apply]
  rfl

/-- A run that finds the history diverged has changed nothing. -/
lemma run_diverged {isFull : Bool} {recorded head : String}
    (h : run isFull w = (.error (.historyDivergence recorded head), w')) : w' = w := by
  rw [run_apply] at h
  generalize opening isFull w = report at h
  cases isFull with
  | true => exact absurd h (undiverging_full report _ _ _ _)
  | false =>
    have hrun : incremental report w = (.error (.historyDivergence recorded head), w') := h
    cases hhead : w.vcs.head with
    | error e =>
      rw [incremental, bind_of_error (askVcs_of_error hhead)] at hrun
      cases hrun
    | ok current =>
      cases current with
      | none =>
        rw [incremental, bind_of_ok (askVcs_of_ok hhead)] at hrun
        cases hrun
      | some current =>
        by_cases hsame : report.checkpointBefore = some current
        · rw [incremental, bind_of_ok (askVcs_of_ok hhead)] at hrun
          simp only [beq_iff_eq.mpr hsame, if_true] at hrun
          cases hrun
        · rw [incremental_of_ne hhead hsame] at hrun
          rcases hcheck : checkSince report.checkpointBefore current w with ⟨e | _, w₁⟩
          · rw [bind_of_error hcheck] at hrun
            cases hrun
            exact checkSince_error hcheck
          · rw [bind_of_ok hcheck] at hrun
            exact absurd hrun (undiverging_append _ _ _ _ _ _)

/-! ### Histories -/

/-- States of an engine whose runs over the history of one repository, from an empty graph on, either
succeeded or found the history diverged. Between the runs version control and everything else may change,
but for the graph and the checkpoint of the repository. -/
inductive Followed (repo : String) (parents : String → List String) (genuine : CommitRecord → Prop) :
    World → Prop
  | start {w : World} : w.store.graph = {} → w.checkpoints.state.get? (.revision repo) = none →
      Followed repo parents genuine w
  | moved {w w' : World} : Followed repo parents genuine w → w'.store.graph = w.store.graph →
      w'.checkpoints.state.get? (.revision repo) = w.checkpoints.state.get? (.revision repo) →
      Followed repo parents genuine w'
  | ran {w w' : World} {known : String → Prop} {isFull : Bool} {report : HistoryReport} :
      Followed repo parents genuine w → w.root = repo → w.vcs.Exact known parents genuine →
      run isFull w = (.ok report, w') → Followed repo parents genuine w'
  | diverged {w w' : World} {isFull : Bool} {recorded head : String} : Followed repo parents genuine w →
      run isFull w = (.error (.historyDivergence recorded head), w') → Followed repo parents genuine w'

/-- A run that succeeds. -/
lemma run_ok {isFull : Bool} (hacyclic : Acyclic parents) (hv : w.vcs.Exact known parents genuine)
    (hm : Matches repo parents genuine w) (hroot : w.root = repo)
    (h : run isFull w = (.ok report', w')) : Matches repo parents genuine w' ∧
      ∀ head, w.vcs.head = .ok (some head) →
        w'.checkpoints.state.get? (.revision repo) = some head := by
  rw [run_apply] at h
  have hrepo : (opening isFull w).repo = repo := hroot
  have hbefore : (opening isFull w).checkpointBefore = w.checkpoints.state.get? (.revision repo) := by
    rw [opening, hroot]
  generalize opening isFull w = report at h hrepo hbefore
  cases isFull with
  | true =>
    obtain ⟨hm', hhead⟩ := full_ok hacyclic hv hm hrepo h
    refine ⟨hm', fun head hhead' => ?_⟩
    rw [hhead] at hhead'
    exact Except.ok.inj hhead'
  | false => exact incremental_ok hacyclic hv hm hrepo hbefore h

lemma Followed.matches (hacyclic : Acyclic parents) (h : Followed repo parents genuine w) :
    Matches repo parents genuine w := by
  induction h with
  | start hgraph hnone =>
    refine ⟨hgraph ▸ coherent_empty repo _, fun c => ?_⟩
    rw [Holds, hgraph, hnone]
    simp
  | moved _ hgraph hcheckpoint ih => exact ih.congr hgraph hcheckpoint
  | ran _ hroot hv hrun ih => exact (run_ok hacyclic hv ih hroot hrun).1
  | diverged _ hrun ih => exact run_diverged hrun ▸ ih

/-- The stored history matches the repository. After a run that succeeds with a head, the checkpoint is the
head, the stored commits of the repository are those that lead to it, and each is held with its author, its
parents and its changes. A run that finds the history diverged changes nothing. -/
theorem Followed.run_spec (hacyclic : Acyclic parents) (h : Followed repo parents genuine w)
    (hroot : w.root = repo) (hv : w.vcs.Exact known parents genuine) (isFull : Bool) :
    (∀ report w' head, run isFull w = (.ok report, w') → w.vcs.head = .ok (some head) →
      w'.checkpoints.state.get? (.revision repo) = some head ∧
        (∀ c, w'.store.graph.commits.contains ⟨repo, c⟩ = true ↔ Reaches parents head c) ∧
        ∀ c, Reaches parents head c → ∃ r, genuine r ∧ r.revision = c ∧ r.parents = parents c ∧
          r.StoredIn repo w'.store.graph) ∧
    ∀ recorded head w', run isFull w = (.error (.historyDivergence recorded head), w') → w' = w := by
  refine ⟨fun report w' head hrun hhead => ?_, fun recorded head w' hrun => run_diverged hrun⟩
  obtain ⟨hm, hcheckpoint⟩ := run_ok hacyclic hv (h.matches hacyclic) hroot hrun
  have hstored : ∀ c, w'.store.graph.commits.contains ⟨repo, c⟩ = true ↔ Reaches parents head c := by
    intro c
    refine (hm.stored c).trans ?_
    rw [hcheckpoint head hhead]
    simp
  refine ⟨hcheckpoint head hhead, hstored, fun c hc => ?_⟩
  obtain ⟨r, ⟨hr, hparents⟩, rfl, hheld⟩ := hm.coherent.stored c ((hstored c).mpr hc)
  exact ⟨r, hr, rfl, hparents, hheld⟩

/-! ### A branch of two commits -/

/-- Two commits, of which the second one is listed first and names a path twice. -/
def branch : List CommitRecord :=
  [⟨"2", ["1"], "n", "e", default, default, "s", "",
      [⟨"b.py", none, .added, 1, 0⟩, ⟨"b.py", none, .modified, 1, 1⟩]⟩,
    ⟨"1", [], "n", "e", default, default, "s", "", [⟨"a.py", none, .added, 1, 0⟩]⟩]

/-- The parents on the branch. -/
def branchParents (c : String) : List String := if c = "2" then ["1"] else []

/-- An engine on the branch. -/
def onBranch (head : String) : World where
  root := "/repo"
  embedder := { provider := .offline 1 }
  vcs := .ofCommits branch (some head) none

/-- The branch has advanced after an incremental run. -/
def advanced : World :=
  { onBranch "2" with
    store := (run false (onBranch "1")).2.store
    checkpoints := (run false (onBranch "1")).2.checkpoints }

lemma mem_branchParents {a b : String} : b ∈ branchParents a ↔ a = "2" ∧ b = "1" := by
  simp only [branchParents]
  split <;> simp [*]

lemma reaches_branch {h c : String} : Reaches branchParents h c ↔ c = h ∨ h = "2" ∧ c = "1" := by
  constructor
  · intro hr
    induction hr with
    | refl => exact Or.inl rfl
    | tail _ hstep ih =>
      obtain ⟨rfl, rfl⟩ := mem_branchParents.mp hstep
      rcases ih with rfl | ⟨-, hno⟩
      · exact Or.inr ⟨rfl, rfl⟩
      · exact absurd hno (by decide)
  · rintro (rfl | ⟨rfl, rfl⟩)
    · exact Relation.ReflTransGen.refl
    · exact Relation.ReflTransGen.single (mem_branchParents.mpr ⟨rfl, rfl⟩)

lemma acyclic_branch : Acyclic branchParents := by
  intro c hc
  obtain ⟨b, hb, hrest⟩ := Relation.TransGen.head'_iff.mp hc
  obtain ⟨rfl, rfl⟩ := mem_branchParents.mp hb
  rcases reaches_branch.mp hrest with hno | ⟨hno, -⟩ <;> exact absurd hno (by decide)

lemma reachable_branch {h c : String} (hh : h = "1" ∨ h = "2") :
    (Vcs.reachable branch h).contains c = true ↔ Reaches branchParents h c := by
  have hfirst : Vcs.reachable branch "1" = ["1"] := by decide
  have hsecond : Vcs.reachable branch "2" = ["2", "1"] := by decide
  rcases hh with rfl | rfl
  · rw [hfirst, reaches_branch]
    simp
  · rw [hsecond, reaches_branch]
    simp

lemma exact_branch {head : String} (hhead : head = "1" ∨ head = "2") :
    (onBranch head).vcs.Exact (fun c => c = "1" ∨ c = "2") branchParents (· ∈ branch) where
  head h hh := by
    cases hh
    exact hhead
  containsRevision c b hb := by
    cases hb
    simp only [branch, List.any_cons, List.any_nil, Bool.or_false, Bool.or_eq_true, beq_iff_eq,
      eq_comm (b := c), or_comm]
  isAncestor a d b _ hd hb := by
    cases hb
    exact reachable_branch hd
  listed since h l hh hs hl c := by
    cases hl
    simp only [List.mem_filter, Bool.and_eq_true, Bool.not_eq_true', ← Bool.not_eq_true]
    have hexcluded : ∀ c, ((since.map (Vcs.reachable branch)).getD []).contains c = true ↔
        ∃ s ∈ since, Reaches branchParents s c := by
      intro c
      cases since with
      | none => simp
      | some s =>
        simp only [Option.map_some, Option.getD_some, reachable_branch (hs s rfl), Option.mem_some_iff,
          exists_eq_left']
    constructor
    · rintro ⟨r, ⟨-, hin, hout⟩, rfl⟩
      exact ⟨(reachable_branch hh).mp hin, fun s hs' hr => hout ((hexcluded _).mpr ⟨s, hs', hr⟩)⟩
    · rintro ⟨hin, hout⟩
      obtain ⟨r, hr, rfl⟩ : ∃ r ∈ branch, r.revision = c := by
        rcases reaches_branch.mp hin with rfl | ⟨-, rfl⟩
        · rcases hh with rfl | rfl <;> simp [branch]
        · simp [branch]
      refine ⟨r, ⟨hr, (reachable_branch hh).mpr hin, fun he => ?_⟩, rfl⟩
      obtain ⟨s, hs', hr'⟩ := (hexcluded _).mp he
      exact hout s hs' hr'
  genuine since h l hh hs hl r hr := by
    cases hl
    have hmem := List.mem_of_mem_filter hr
    refine ⟨hmem, ?_⟩
    simp only [branch, List.mem_cons, List.not_mem_nil, or_false] at hmem
    rcases hmem with rfl | rfl <;> rfl

/-- The branch advances by a commit, and the next incremental run holds both with their edges. -/
theorem Followed.run_spec_branch : ∃ report w', run false advanced = (.ok report, w') ∧
    w'.checkpoints.state.get? (.revision "/repo") = some "2" ∧
      (∀ c, w'.store.graph.commits.contains ⟨"/repo", c⟩ = true ↔ c = "2" ∨ c = "1") ∧
        ∀ c, c = "2" ∨ c = "1" → ∃ r ∈ branch, r.revision = c ∧ r.StoredIn "/repo" w'.store.graph := by
  have hok : (run false (onBranch "1")).1.toOption.isSome = true ∧
      (run false advanced).1.toOption.isSome = true := by decide
  cases hbegun : run false (onBranch "1") with
  | mk result begun =>
    cases hrun : run false advanced with
    | mk result' w' =>
      rw [hbegun, hrun] at hok
      cases result with
      | error e => cases hok.1
      | ok report =>
        cases result' with
        | error e => cases hok.2
        | ok report' =>
          have hfollowed : Followed "/repo" branchParents (· ∈ branch) advanced :=
            .moved (.ran (.start rfl rfl) rfl (exact_branch (Or.inl rfl)) hbegun)
              (by rw [advanced, hbegun]) (by rw [advanced, hbegun])
          obtain ⟨hcheckpoint, hstored, hheld⟩ := (Followed.run_spec acyclic_branch hfollowed rfl
            (exact_branch (Or.inr rfl)) false).1 report' w' "2" hrun rfl
          refine ⟨report', w', rfl, hcheckpoint, fun c => ?_, fun c hc => ?_⟩
          · rw [hstored, reaches_branch]
            simp
          · obtain ⟨r, hr, hrevision, -, hstored⟩ := hheld c (reaches_branch.mpr (by simpa using hc))
            exact ⟨r, hr, hrevision, hstored⟩

end HistorySync

end RepoAtlas
