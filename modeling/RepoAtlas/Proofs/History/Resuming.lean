import RepoAtlas.Proofs.History.Following
import RepoAtlas.Proofs.History.Sparing

/-!
# Recording that is resumed

Recording goes through the commits in their order and writes those that the graph does not have, each as a
whole. When it fails, it has dealt with the commits up to some point. Recording the same commits again passes
over those, since they are there now, and what is written for the others depends on the graph alone. So the
graph comes out as if nothing had failed: the names of authors too, which later commits overwrite.
-/

namespace RepoAtlas

open Act

/-- Of the store, only the graph and the length of embeddings matter to a batch. -/
lemma GraphStore.apply_congr {s s' t : GraphStore} {b : WriteBatch} {summary : WriteSummary}
    (hgraph : t.graph = s.graph) (hdims : t.dimensions = s.dimensions) (h : s.apply b = .ok (s', summary)) :
    ∃ t', t.apply b = .ok (t', summary) ∧ t'.graph = s'.graph ∧ t'.dimensions = s'.dimensions := by
  cases hempty : b.isEmpty with
  | true =>
    simp only [apply, hempty, if_true] at h ⊢
    cases h
    exact ⟨t, rfl, hgraph, hdims⟩
  | false =>
    cases hflaw : s.graph.batchFlaw? s.dimensions b with
    | some reason => simp [apply, hempty, hflaw] at h
    | none =>
      cases hnoop : (s.graph.applyBatch b).summary.isNoop with
      | true =>
        simp only [apply, hgraph, hdims, hempty, hflaw, hnoop, if_true, Bool.false_eq_true, if_false] at h ⊢
        cases h
        exact ⟨_, rfl, rfl, rfl⟩
      | false =>
        simp only [apply, hgraph, hdims, hempty, hflaw, hnoop, Bool.false_eq_true, if_false] at h ⊢
        cases h
        exact ⟨_, rfl, rfl, rfl⟩

namespace HistorySync

variable {repo : String} {report report' : HistoryReport} {w w' w₁ w₂ w₃ : World}
variable {s s' s₁ t t' : GraphStore} {r : CommitRecord} {rs l done rest records : List CommitRecord}

/-! ### From commit to commit -/

/-- The batch of a record, with edges to those of its parents that the graph has. -/
def batchOn (g : KnowledgeGraph) (repo : String) (r : CommitRecord) : WriteBatch :=
  r.batch repo (r.parents.filter fun p => g.commits.contains ⟨repo, p⟩)

/-- The store after records were gone through: a commit that the graph has is skipped, and the batch of any other
one is admitted. -/
inductive Recorded (repo : String) : GraphStore → List CommitRecord → GraphStore → Prop
  | nil {s : GraphStore} : Recorded repo s [] s
  | skipped {s s' : GraphStore} {r : CommitRecord} {rs : List CommitRecord} :
      s.graph.commits.contains ⟨repo, r.revision⟩ = true → Recorded repo s rs s' → Recorded repo s (r :: rs) s'
  | written {s s₁ s' : GraphStore} {summary : WriteSummary} {r : CommitRecord} {rs : List CommitRecord} :
      s.graph.commits.contains ⟨repo, r.revision⟩ = false →
      s.apply (batchOn s.graph repo r) = .ok (s₁, summary) → Recorded repo s₁ rs s' →
      Recorded repo s (r :: rs) s'

/-- A batch that is admitted adds its commit to those that are there. -/
lemma contains_of_apply {summary : WriteSummary} {i : CommitId}
    (hnew : s.graph.commits.contains ⟨repo, r.revision⟩ = false)
    (happly : s.apply (batchOn s.graph repo r) = .ok (s₁, summary)) :
    s₁.graph.commits.contains i = true ↔ i = ⟨repo, r.revision⟩ ∨ s.graph.commits.contains i = true := by
  rw [(GraphStore.apply_eq_ok happly).1]
  exact contains_of_adds (CommitRecord.adds_batch hnew)

namespace Recorded

/-- What was gone through is there, besides what was there before. -/
lemma contains_iff (h : Recorded repo s l s') {c : String} : s'.graph.commits.contains ⟨repo, c⟩ = true ↔
    s.graph.commits.contains ⟨repo, c⟩ = true ∨ ∃ r ∈ l, r.revision = c := by
  induction h with
  | nil => simp
  | skipped hheld _ ih =>
    rw [ih]
    constructor
    · rintro (hc | ⟨r, hr, rfl⟩)
      · exact Or.inl hc
      · exact Or.inr ⟨r, by simp [hr], rfl⟩
    · rintro (hc | ⟨r, hr, rfl⟩)
      · exact Or.inl hc
      · rcases List.mem_cons.mp hr with rfl | hr
        · exact Or.inl hheld
        · exact Or.inr ⟨r, hr, rfl⟩
  | written hnew happly _ ih =>
    rw [ih, contains_of_apply hnew happly, CommitId.mk.injEq, and_iff_right rfl, or_assoc, or_left_comm]
    simp only [List.mem_cons, exists_eq_or_imp, eq_comm (a := c)]

lemma append (h : Recorded repo s done s₁) (h' : Recorded repo s₁ rest s') :
    Recorded repo s (done ++ rest) s' := by
  induction h with
  | nil => exact h'
  | skipped hheld _ ih => exact .skipped hheld (ih h')
  | written hnew happly _ ih => exact .written hnew happly (ih h')

/-- Commits that are there are passed over. -/
lemma pass (hheld : ∀ r ∈ done, s.graph.commits.contains ⟨repo, r.revision⟩ = true)
    (h : Recorded repo s (done ++ rest) s') : Recorded repo s rest s' := by
  induction done with
  | nil => exact h
  | cons r done ih =>
    have hfirst := hheld r (by simp)
    cases h with
    | skipped _ h => exact ih (fun r hr => hheld r (by simp [hr])) h
    | written hnew _ _ =>
      rw [hfirst] at hnew
      cases hnew

/-- From the same graph another one that admits as much comes to the same graph. -/
lemma congr (h : Recorded repo s l s') (hgraph : t.graph = s.graph) (hdims : t.dimensions = s.dimensions) :
    ∃ t', Recorded repo t l t' ∧ t'.graph = s'.graph := by
  induction h generalizing t with
  | nil => exact ⟨t, .nil, hgraph⟩
  | skipped hheld _ ih =>
    obtain ⟨t', h, hsame⟩ := ih hgraph hdims
    exact ⟨t', .skipped (by rw [hgraph]; exact hheld) h, hsame⟩
  | written hnew happly _ ih =>
    obtain ⟨t₁, happly', hgraph', hdims'⟩ := GraphStore.apply_congr hgraph hdims happly
    obtain ⟨t', h, hsame⟩ := ih hgraph' hdims'
    exact ⟨t', .written (by rw [hgraph]; exact hnew) (by rw [hgraph]; exact happly') h, hsame⟩

/-- The graph that is come to is determined by the one that was started from. -/
lemma graph_unique (h : Recorded repo s l s') (h' : Recorded repo t l t') (hgraph : t.graph = s.graph) :
    t'.graph = s'.graph := by
  induction h generalizing t with
  | nil =>
    cases h'
    exact hgraph
  | skipped hheld _ ih =>
    cases h' with
    | skipped _ h' => exact ih h' hgraph
    | written hnew _ _ =>
      rw [hgraph, hheld] at hnew
      cases hnew
  | written hnew happly _ ih =>
    cases h' with
    | skipped hheld _ =>
      rw [hgraph, hnew] at hheld
      cases hheld
    | written _ happly' h' =>
      refine ih h' ?_
      rw [(GraphStore.apply_eq_ok happly').1, (GraphStore.apply_eq_ok happly).1, hgraph]

/-- What went through some commits, and then through all of them again, went through all of them. -/
lemma resume (h : Recorded repo s done s₁) (h' : Recorded repo s₁ (done ++ rest) s') :
    Recorded repo s (done ++ rest) s' :=
  h.append (h'.pass fun r hr => h.contains_iff.mpr (Or.inr ⟨r, hr, rfl⟩))

end Recorded

/-! ### Runs -/

lemma record_of_known (h : Act.contains (.commit ⟨repo, r.revision⟩) w = (.ok true, w₁)) :
    record repo report (r :: rs) w =
      record repo { report with commitsSkipped := report.commitsSkipped + 1 } rs w₁ := bind_of_ok h

/-- A new commit is written, which counts in the report only. -/
lemma record_of_new_ok {parents : List String} {summary : WriteSummary}
    (hcontains : Act.contains (.commit ⟨repo, r.revision⟩) w = (.ok false, w₁))
    (hparents : knownParents repo r.parents w₁ = (.ok parents, w₂))
    (happly : applyBatch (r.batch repo parents) w₂ = (.ok summary, w₃)) :
    ∃ next, record repo report (r :: rs) w = record repo next rs w₃ :=
  ⟨_, (bind_of_ok hcontains).trans ((bind_of_ok hparents).trans (bind_of_ok happly))⟩

/-- Whatever becomes of recording, it has gone through some of the commits, and through all of them if it ends well. -/
lemma recorded_record (repo : String) (l : List CommitRecord) : ∀ (report : HistoryReport) (w : World),
    ∃ done rest, l = done ++ rest ∧ Recorded repo w.store done (record repo report l w).2.store ∧
      ∀ report', (record repo report l w).1 = .ok report' → rest = [] := by
  induction l with
  | nil => exact fun report w => ⟨[], [], rfl, .nil, fun _ _ => rfl⟩
  | cons r rs ih =>
    intro report w
    -- the run ends before anything is written
    have hends : ∀ {e : SyncError} {w' : World}, record repo report (r :: rs) w = (.error e, w') → Quiet w w' →
        ∃ done rest, r :: rs = done ++ rest ∧ Recorded repo w.store done (record repo report (r :: rs) w).2.store ∧
          ∀ report', (record repo report (r :: rs) w).1 = .ok report' → rest = [] := by
      intro e w' hrun hq
      rw [hrun]
      exact ⟨[], r :: rs, rfl, hq.store ▸ .nil, fun _ h => by cases h⟩
    rcases hcontains : Act.contains (.commit ⟨repo, r.revision⟩) w with ⟨e | known, w₁⟩
    · exact hends (bind_of_error hcontains) ((quiet_ask _ _).of_error hcontains)
    · obtain ⟨hknown, hq⟩ := contains_ok hcontains
      have hstored : known = w.store.graph.commits.contains ⟨repo, r.revision⟩ := hknown
      cases known with
      | true =>
        obtain ⟨done, rest, hsplit, hdone, hok⟩ :=
          ih { report with commitsSkipped := report.commitsSkipped + 1 } w₁
        rw [hq.store] at hdone
        rw [record_of_known hcontains]
        exact ⟨r :: done, rest, by rw [hsplit]; rfl, .skipped hstored.symm hdone, hok⟩
      | false =>
        rcases hparents : knownParents repo r.parents w₁ with ⟨e | parents, w₂⟩
        · exact hends ((bind_of_ok hcontains).trans (bind_of_error hparents))
            (Quiet.trans _ _ _ hq ((keeps_knownParents asks_quiet repo r.parents).of_error hparents))
        · obtain ⟨hlisted, hq'⟩ := knownParents_ok hparents
          have hquiet := Quiet.trans _ _ _ hq hq'
          rw [hq.store] at hlisted
          rcases happly : applyBatch (r.batch repo parents) w₂ with ⟨e | summary, w₃⟩
          · exact hends ((bind_of_ok hcontains).trans ((bind_of_ok hparents).trans (bind_of_error happly)))
              (Quiet.trans _ _ _ hquiet (applyBatch_error happly))
          · obtain ⟨-, hadmitted⟩ := applyBatch_ok happly
            rw [hquiet.store, hlisted] at hadmitted
            obtain ⟨next, hrun⟩ := record_of_new_ok hcontains hparents happly
            obtain ⟨done, rest, hsplit, hdone, hok⟩ := ih next w₃
            rw [hrun]
            exact ⟨r :: done, rest, by rw [hsplit]; rfl, .written hstored.symm hadmitted hdone, hok⟩

/-- A run that ends well has gone through all commits. -/
lemma recorded_of_record_ok (h : record repo report l w = (.ok report', w')) :
    Recorded repo w.store l w'.store := by
  obtain ⟨done, rest, rfl, hdone, hok⟩ := recorded_record repo l report w
  rw [h] at hdone hok
  rw [hok report' rfl, List.append_nil]
  exact hdone

/-! ### Runs that nothing disturbs -/

section

variable (hunguarded : w.guarded = false)

include hunguarded

lemma knownParents_of_unguarded (ps : List String) :
    ∃ known, knownParents repo ps w = (.ok known, w) := by
  induction ps with
  | nil => exact ⟨[], rfl⟩
  | cons p ps ih =>
    obtain ⟨known, hknown⟩ := ih
    exact ⟨_, (bind_of_ok (ask_of_unguarded hunguarded _ _)).trans (bind_of_ok hknown)⟩

lemma applyBatch_of_unguarded {b : WriteBatch} {summary : WriteSummary} (h : w.store.apply b = .ok (s', summary)) :
    applyBatch b w = (.ok summary, { w with store := s' }) := by
  have honce : applyOnce b w = (.ok (.ok summary), { w with store := s' }) := by
    rw [applyOnce, bind_of_ok (guardStore_of_unguarded "apply" hunguarded)]
    simp only [bind_apply, get_apply, h]
    rfl
  exact bind_of_ok honce

end

/-- What can be gone through is gone through by a run that meets no failure of the store. -/
lemma record_of_recorded (h : Recorded repo s l s') : ∀ (report : HistoryReport) (w : World), w.store = s →
    w.guarded = false → ∃ report', record repo report l w = (.ok report', { w with store := s' }) := by
  induction h with
  | nil =>
    rintro report w rfl _
    exact ⟨report, rfl⟩
  | @skipped s s' r rs hheld _ ih =>
    rintro report w rfl hg
    have hcontains : Act.contains (.commit ⟨repo, r.revision⟩) w = (.ok true, w) := by
      rw [Act.contains, ask_of_unguarded hg]
      exact congrArg (fun b => (Except.ok b, w)) hheld
    obtain ⟨report', hrest⟩ := ih { report with commitsSkipped := report.commitsSkipped + 1 } w rfl hg
    exact ⟨report', (record_of_known hcontains).trans hrest⟩
  | @written s s₁ s' summary r rs hnew happly _ ih =>
    rintro report w rfl hg
    have hcontains : Act.contains (.commit ⟨repo, r.revision⟩) w = (.ok false, w) := by
      rw [Act.contains, ask_of_unguarded hg]
      exact congrArg (fun b => (Except.ok b, w)) hnew
    obtain ⟨parents, hparents⟩ : ∃ parents, knownParents repo r.parents w = (.ok parents, w) :=
      knownParents_of_unguarded hg r.parents
    have hlisted := (knownParents_ok hparents).1
    have hadmitted : w.store.apply (r.batch repo parents) = .ok (s₁, summary) := hlisted ▸ happly
    obtain ⟨next, hrun⟩ := record_of_new_ok hcontains hparents (applyBatch_of_unguarded hg hadmitted)
    obtain ⟨report', hrest⟩ := ih next { w with store := s₁ } rfl hg
    exact ⟨report', hrun.trans hrest⟩

/-- A run that stopped somewhere in the order of the commits, whatever became of it, and another one on the same graph
that ends well come to the graph that every run from the start comes to if it ends well; and a run that meets no
failure of the store does. -/
theorem recordAll_resumed {stopped : Except SyncError HistoryReport} {report₁ report₂ report₃ : HistoryReport}
    (hstopped : recordAll repo report₁ records w = (stopped, w₁)) (hgraph : w₂.store.graph = w₁.store.graph)
    (hdims : w₂.store.dimensions = w₁.store.dimensions)
    (hresumed : recordAll repo report₂ records w₂ = (.ok report₃, w₃)) :
    (∃ done rest, topologicalOrder records = done ++ rest ∧ Recorded repo w.store done w₁.store) ∧
    (∀ report report' w' w'', w'.store.graph = w.store.graph →
      recordAll repo report records w' = (.ok report', w'') → w''.store.graph = w₃.store.graph) ∧
    ∃ report' w', recordAll repo report₁ records { w with guarded := false } = (.ok report', w') ∧
      w'.store.graph = w₃.store.graph := by
  obtain ⟨done, rest, hsplit, hdone, -⟩ :=
    recorded_record repo (topologicalOrder records) { report₁ with commitsSeen := records.length } w
  have hrun : (record repo { report₁ with commitsSeen := records.length } (topologicalOrder records) w).2 = w₁ :=
    congrArg Prod.snd hstopped
  rw [hrun] at hdone
  obtain ⟨s, hagain, hs⟩ := (recorded_of_record_ok hresumed).congr hgraph.symm hdims.symm
  rw [hsplit] at hagain
  have hwhole := hdone.resume hagain
  rw [← hsplit] at hwhole
  refine ⟨⟨done, rest, hsplit, hdone⟩, fun report report' w' w'' hsame hok => ?_, ?_⟩
  · exact (hwhole.graph_unique (recorded_of_record_ok hok) hsame).trans hs
  · obtain ⟨report', hclean⟩ := record_of_recorded hwhole { report₁ with commitsSeen := records.length }
      { w with guarded := false } rfl rfl
    exact ⟨report', _, hclean, hs⟩

/-- Two commits of an author who took another name in between. -/
def renamed : List CommitRecord :=
  [⟨"2", ["1"], "new", "e", default, default, "s", "", [⟨"b.py", none, .added, 1, 0⟩]⟩,
    ⟨"1", [], "old", "e", default, default, "s", "", [⟨"a.py", none, .added, 1, 0⟩]⟩]

/-- An engine whose store fails after one batch, until a run gives up. -/
def failing : World :=
  { onBranch "2" with guarded := true, faults := [⟨"apply", .unavailable "busy", 1, 3⟩] }

/-- The run fails with the old name written, and the next one comes to the new name, as a run without failures. -/
theorem recordAll_resumed_renamed : ∃ e w₁ report₃ w₃ report' w',
    recordAll "/repo" (opening false failing) renamed failing = (.error e, w₁) ∧
    w₁.store.graph.authors.values = [⟨"/repo", "e", "old"⟩] ∧
    recordAll "/repo" (opening false w₁) renamed w₁ = (.ok report₃, w₃) ∧
    w₃.store.graph.authors.values = [⟨"/repo", "e", "new"⟩] ∧
    recordAll "/repo" (opening false failing) renamed { failing with guarded := false } = (.ok report', w') ∧
    w'.store.graph = w₃.store.graph := by
  have hread : let w₁ := (recordAll "/repo" (opening false failing) renamed failing).2
      (recordAll "/repo" (opening false failing) renamed failing).1.toOption.isSome = false ∧
      w₁.store.graph.authors.values = [⟨"/repo", "e", "old"⟩] ∧
      (recordAll "/repo" (opening false w₁) renamed w₁).1.toOption.isSome = true ∧
      (recordAll "/repo" (opening false w₁) renamed w₁).2.store.graph.authors.values =
        [⟨"/repo", "e", "new"⟩] := by
    decide +kernel
  obtain ⟨hfailed, hold, hended, hnew⟩ := hread
  rcases hstopped : recordAll "/repo" (opening false failing) renamed failing with ⟨e | report, w₁⟩
  · rw [hstopped] at hold hended hnew
    rcases hresumed : recordAll "/repo" (opening false w₁) renamed w₁ with ⟨e' | report₃, w₃⟩
    · simp only [hresumed] at hended
      cases hended
    · simp only [hresumed] at hnew
      obtain ⟨-, -, report', w', hclean, hgraph⟩ := recordAll_resumed hstopped rfl rfl hresumed
      exact ⟨e, w₁, report₃, w₃, report', w', rfl, hold, hresumed, hnew, hclean, hgraph⟩
  · rw [hstopped] at hfailed
    cases hfailed

end HistorySync

end RepoAtlas
