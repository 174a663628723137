import RepoAtlas.Proofs.Engine.Convergence

/-!
# Interrupted runs

A full run may be cancelled while it stores files, and saving the graph may fail at its end. By then the
graph has changed, but no checkpoint of a file has advanced. The next run over the same files stores what
was stored once more. It leaves what an uninterrupted run leaves exactly if it notices every link that the
interrupted run left out of date; the only traces are the checkpoints and the graph itself.

A run that linked all files leaves no such link behind if it cannot save the graph. A run that was cancelled
may: the checkpoints of the files that it removed are gone, so the next run does not know that files
disappeared, and does not link the imports of the others again.
-/

namespace RepoAtlas.Sync

open KnowledgeGraph

variable {𝒟 : Document → Prop} {vec : String → Embedding} {w w₁ w₂ v v₁ v' u u' : World} {work : Worklist}
  {p p' : Progress}

/-! ### Interruptions -/

/-- A full run that was cancelled while it stored files, or could not save the graph. -/
inductive Interrupted (w w' : World) : Prop
  | cancelled {r : SyncReport} : full w = (.ok r, w') → (prepare w).2.cancelled = true → Interrupted w w'
  /-- Cancelled, and the graph was not saved. -/
  | cancelledUnsaved {work : Worklist} {p : Progress} {w₁ : World} {e : SyncError} :
      prepare w = (.ok (work, p), w₁) → w₁.cancelled = true → Act.commit w₁ = (.error e, w') →
      Interrupted w w'
  /-- Linked, and the graph was not saved. -/
  | unsaved {work : Worklist} {p p' : Progress} {w₁ w₂ : World} {e : SyncError} :
      prepare w = (.ok (work, p), w₁) → w₁.cancelled = false → link work p w₁ = (.ok p', w₂) →
      Act.commit w₂ = (.error e, w') → Interrupted w w'

/-- A run that was cancelled clears the checkpoints of the files that it removed, and nothing else. -/
lemma full_of_cancelled (hprepare : prepare w = (.ok (work, p), w₁)) (hcancelled : w₁.cancelled = true) :
    full w = (finish p.updates >>= fun _ => withUsage { p.report with cancelled := true }) w₁ := by
  simp only [full]
  rw [Act.bind_of_ok hprepare, Act.bind_of_ok Act.get_apply, if_pos hcancelled]

lemma full_of_not_cancelled (hprepare : prepare w = (.ok (work, p), w₁)) (hcancelled : w₁.cancelled = false) :
    full w = (link work p >>= fun p => finish (p.updates ++ p.advances) >>= fun _ =>
      withUsage p.report) w₁ := by
  simp only [full]
  rw [Act.bind_of_ok hprepare, Act.bind_of_ok Act.get_apply, if_neg (by simp [hcancelled])]

/-- The parts of a run that was cancelled. -/
lemma cancelled_parts {r : SyncReport} (hrun : full w = (.ok r, w₁)) (hcancelled : (prepare w).2.cancelled = true) :
    ∃ work p w₂, prepare w = (.ok (work, p), w₂) ∧ finish p.updates w₂ = (.ok (), w₁) ∧
      r.cancelled = true := by
  rcases hprepare : prepare w with ⟨e | ⟨work, p⟩, w₂⟩
  · simp only [full] at hrun
    rw [Act.bind_of_error hprepare] at hrun
    cases hrun
  · rw [hprepare] at hcancelled
    rw [full_of_cancelled hprepare hcancelled] at hrun
    obtain ⟨⟨⟩, w₃, hfinish, hrun⟩ := Act.bind_ok hrun
    cases hrun
    exact ⟨work, p, w₂, rfl, hfinish, rfl⟩

/-- An interrupted run says that it was cancelled, or fails. -/
lemma Interrupted.outcome (h : Interrupted w w₁) :
    (∃ r, full w = (.ok r, w₁) ∧ r.cancelled = true) ∨ ∃ e, full w = (.error e, w₁) := by
  cases h with
  | cancelled hrun hcancelled =>
    obtain ⟨-, -, -, -, -, hr⟩ := cancelled_parts hrun hcancelled
    exact Or.inl ⟨_, hrun, hr⟩
  | @cancelledUnsaved _ _ _ e hprepare hcancelled hcommit =>
    refine Or.inr ⟨e, ?_⟩
    rw [full_of_cancelled hprepare hcancelled]
    exact Act.bind_of_error (Act.bind_of_error hcommit)
  | @unsaved _ _ _ _ _ e hprepare hcancelled hlink hcommit =>
    refine Or.inr ⟨e, ?_⟩
    rw [full_of_not_cancelled hprepare hcancelled, Act.bind_of_ok hlink]
    exact Act.bind_of_error (Act.bind_of_error hcommit)

lemma interrupted_of_isSome (hok : (full w).1.toOption.isSome = true)
    (hcancelled : (prepare w).2.cancelled = true) : Interrupted w (full w).2 := by
  rcases hrun : full w with ⟨e | r, w'⟩
  · simp [hrun, Except.toOption] at hok
  · exact .cancelled hrun hcancelled

/-- The state continues from another one with the files that a repository shows. -/
structure Continues (vec : String → Embedding) (w earlier w' : World) : Prop where
  graph : w'.store.graph = earlier.store.graph
  checkpoints : w'.checkpoints.state = earlier.checkpoints.state
  shows : ∀ D, w'.Shows D ↔ w.Shows D
  regular : w'.tree.Regular
  steady : w'.embedder.Steady vec

lemma Continues.ready (h : Continues vec w w₁ v) (hready : Ready vec 𝒟 w) : Ready vec 𝒟 v :=
  ⟨h.regular, fun D hD => hready.shown D ((h.shows D).mp hD), h.steady⟩

/-! ### What an interrupted run leaves -/

/-- An interrupted run did its first part, perhaps linked files, and kept the checkpoints of the files that
are shown. -/
lemma Interrupted.leaves (ha : Apart 𝒟) (hready : Ready vec 𝒟 w) (ht : Tidy 𝒟 w.store.graph)
    (h : Interrupted w w₁) : ∃ work p w₂, Prepared (Midway vec 𝒟 w) w work p w₂ ∧
      w₁.store.graph.tables = w₂.store.graph.tables ∧ Tidy 𝒟 w₁.store.graph ∧
      ∀ D, w.Shows D → w₁.checkpoints.state.get? (.file D.path) = w.checkpoints.state.get? (.file D.path) := by
  cases h with
  | cancelled hrun hcancelled =>
    obtain ⟨work, p, w₂, hprepare, hfinish, -⟩ := cancelled_parts hrun hcancelled
    have hp := (prepare_ends ha hready ht).of_ok hprepare
    obtain ⟨hsaved, hget⟩ := finish_ok hfinish
    refine ⟨work, p, w₂, hp, by rw [hsaved.graph], by rw [hsaved.graph]; exact hp.carried.evolves.tidy, ?_⟩
    intro D hD
    rw [hget, hp.carried.calm.checkpoints]
    -- only checkpoints of files that were removed are cleared
    refine Checkpoints.get?_setAll_of_forall_ne fun u hu hkey => ?_
    obtain ⟨q, hr, rfl | rfl⟩ := (hp.carried.updates u).mp hu
    · cases hkey
      exact hp.not_removed hD hr
    · cases hkey
  | cancelledUnsaved hprepare _ hcommit =>
    have hp := (prepare_ends ha hready ht).of_ok hprepare
    have hcommitted := Act.committed_commit.of_error hcommit
    refine ⟨_, _, _, hp, by rw [hcommitted.graph], by rw [hcommitted.graph]; exact hp.carried.evolves.tidy, ?_⟩
    intro D _
    rw [hcommitted.checkpoints, hp.carried.calm.checkpoints]
  | unsaved hprepare _ hlink hcommit =>
    have hp := (prepare_ends ha hready ht).of_ok hprepare
    have hl := link_ok hready.regular (hp.mono fun _ _ h => h.toRecorded) hp.carried.evolves.tidy hlink
    have hcommitted := Act.committed_commit.of_error hcommit
    refine ⟨_, _, _, hp, by rw [hcommitted.graph]; exact hl.tables, by rw [hcommitted.graph]; exact hl.tidy, ?_⟩
    intro D _
    rw [hcommitted.checkpoints, hl.calm.checkpoints, hp.carried.calm.checkpoints]

/-- What the checkpoints say is still backed by the graph. -/
lemma Interrupted.backed (ha : Apart 𝒟) (hready : Ready vec 𝒟 w) (hsync : InSync vec 𝒟 w)
    (h : Interrupted w w₁) (hv : Continues vec w w₁ v) : Backed vec 𝒟 v := by
  obtain ⟨work, p, w₂, hp, htables, ht, hcheckpoints⟩ := h.leaves ha hready hsync.tidy
  have hfiles : w₁.store.graph.files = w₂.store.graph.files := congrArg NodeTables.files htables
  constructor
  case tidy =>
    rw [hv.graph]
    exact ht
  case held =>
    intro D hD hcheck
    have hD := (hv.shows D).mp hD
    rw [hv.checkpoints, hcheckpoints D hD] at hcheck
    have hbefore := hsync.holds ha (hready.shown D hD) hcheck
    rw [hv.graph]
    exact holds_of_tables htables
      (hp.carried.evolves.holds D (hready.shown D hD) (hp.not_touched hD hcheck) hbefore)
  case tracked =>
    intro D hD x hcheck
    have hD := (hv.shows D).mp hD
    rw [hv.checkpoints, hcheckpoints D hD] at hcheck
    obtain ⟨f, hf⟩ := contains_iff_getElem?.mp (hsync.tracked _ x hcheck)
    rw [hv.graph, hfiles, contains_iff_getElem?]
    by_cases hin : p.ingested.contains D.path = true
    · obtain ⟨i, hi⟩ := contains_iff_getElem?.mp hin
      obtain ⟨D', t, -, -, -, -, hfile, -⟩ := hp.carried.stored _ i hi
      exact ⟨_, hfile⟩
    · rw [hp.carried.evolves.file _ (not_or.mpr ⟨hp.not_removed hD, hin⟩)]
      exact ⟨f, hf⟩

/-! ### Repairs -/

/-- A run whose files are backed leaves what mirrors its files, exactly if it notices all links that are
out of date. -/
lemma Backed.same_iff (hb : Backed vec 𝒟 v) (ha : Apart 𝒟) (hready : Ready vec 𝒟 v)
    (hprepare : prepare v = (.ok (work, p), v₁)) (hrun : Completes full v v') {g : KnowledgeGraph}
    (hm : Mirror vec 𝒟 v.Shows g) : SameContents v'.store.graph g ↔ ∀ D, v.Shows D →
      v.checkpoints.state.get? (.file D.path) = some D.fingerprint → Noticed v work p v₁ D := by
  obtain ⟨work', p', v₂, hprepare', hc⟩ := full_completed ha hready hb.tidy hb.held hrun
  rw [hprepare] at hprepare'
  cases hprepare'
  rw [← mirror_iff hready hb hc.toIntegrated]
  constructor
  · intro hs
    exact ⟨hc.tidy, hc.holds, hc.stored, fun D hD => hs.symm.importsCurrent (hm.imports D hD),
      fun D hD => hs.symm.callsCurrent hm.tidy hc.tidy (hm.calls D hD)⟩
  · exact fun hm' => hm'.same hm

/-- An uninterrupted run mirrors what is shown. -/
lemma Continues.mirror (hu : Continues vec w w u) (ha : Apart 𝒟) (hready : Ready vec 𝒟 w)
    (hsync : InSync vec 𝒟 w) (hrun : Completes full u u') : Mirror vec 𝒟 w.Shows u'.store.graph := by
  have hsyncu : InSync vec 𝒟 u := hsync.congr hu.graph fun k => by rw [hu.checkpoints]
  have hshows : u.Shows = w.Shows := funext fun D => propext (hu.shows D)
  rw [← hshows]
  exact (hsyncu.full ha (hu.ready hready) hrun).2

/-- A run after an interrupted one over the same files leaves what an uninterrupted run leaves, exactly if
it notices all links that are out of date. -/
theorem interrupted_repaired_iff (h𝒟 : Unambiguous 𝒟) (hreached : Reached vec 𝒟 w) (hready : Ready vec 𝒟 w)
    (hinterrupted : Interrupted w w₁) (hv : Continues vec w w₁ v) (hprepare : prepare v = (.ok (work, p), v₁))
    (hrun : Completes full v v') (hu : Continues vec w w u) (hrun' : Completes full u u') :
    SameContents v'.store.graph u'.store.graph ↔ ∀ D, v.Shows D →
      v.checkpoints.state.get? (.file D.path) = some D.fingerprint → Noticed v work p v₁ D := by
  have ha := h𝒟.apart
  have hsync := hreached.inSync ha
  have hb := hinterrupted.backed ha hready hsync hv
  have hmirror := hu.mirror ha hready hsync hrun'
  have hshows : w.Shows = v.Shows := funext fun D => propext (hv.shows D).symm
  rw [hshows] at hmirror
  exact hb.same_iff ha (hv.ready hready) hprepare hrun hmirror

/-- A run without failures whose graph could not be saved is repaired, since it linked all files. -/
theorem unsaved_repaired (h𝒟 : Unambiguous 𝒟) (hreached : Reached vec 𝒟 w) (hready : Ready vec 𝒟 w)
    {e : SyncError} (hprepare : prepare w = (.ok (work, p), w₂)) (hcancelled : w₂.cancelled = false)
    {w₃ : World} (hlink : link work p w₂ = (.ok p', w₃)) (hclean : Clean p'.report)
    (hcommit : Act.commit w₃ = (.error e, w₁)) (hv : Continues vec w w₁ v) (hrun : Completes full v v')
    (hu : Continues vec w w u) (hrun' : Completes full u u') :
    SameContents v'.store.graph u'.store.graph := by
  have ha := h𝒟.apart
  have hsync := hreached.inSync ha
  have hb := hsync.backed ha hready
  have hp := (prepare_ends ha hready hb.tidy).of_ok hprepare
  have hlinked : Mirror vec 𝒟 w.Shows w₃.store.graph :=
    (mirror_iff hready hb (link_integrated hready hp hb.held hlink hclean)).mpr
      fun D hD => hsync.noticed ha hready hD
  have hmirror := hu.mirror ha hready hsync hrun'
  have hshows : w.Shows = v.Shows := funext fun D => propext (hv.shows D).symm
  rw [hshows] at hmirror hlinked
  rw [← (Act.committed_commit.of_error hcommit).graph, ← hv.graph] at hlinked
  obtain ⟨work', q, v₁, q', v₂, hprepare', -⟩ := full_parts hrun
  have hleft := Interrupted.unsaved hprepare hcancelled hlink hcommit
  rw [(hleft.backed ha hready hsync hv).same_iff ha (hv.ready hready) hprepare' hrun hmirror]
  exact fun D hD _ => ⟨Or.inr (hlinked.imports D hD), Or.inr (hlinked.calls D hD)⟩

/-! ### A run that is not repaired -/

/-- Two files of the same name, of which an import finds the first. -/
def shadowed : World :=
  .ofTexts [("main.py", "import util\n"), ("a/util.py", "x = 1\n"), ("lib/b/util.py", "x = 1\n")]

/-- The first of the two files was deleted, and the second one changed. -/
def uncovered (rules : List ProviderRule := []) : World :=
  .ofTexts [("main.py", "import util\n"), ("lib/b/util.py", "def alpha():\n    return 1\n")] rules

/-- The provider asks for the run to be cancelled when it receives the function. -/
def cancelsOnce : List ProviderRule := [{ contains := "alpha", action := .cancel, uses := some 1 }]

/-- The files change after a run, and the next run will be cancelled. -/
def disturbed : World := (uncovered cancelsOnce).withStateOf (full shadowed).2

/-- The files change after a run, and the next run will not be cancelled. -/
def undisturbed : World := uncovered.withStateOf (full shadowed).2

/-- The run after the cancelled one. -/
def resumed : World := uncovered.withStateOf (full disturbed).2

section

variable {x y : World} (htree : x.tree = y.tree) (hsettings : x.settings = y.settings)
  (hregistry : x.registry = y.registry) (hregular : x.tree.Regular) (hsteady : x.embedder.Steady vec)
include htree hsettings hregistry hregular hsteady

lemma continues_withStateOf (e earlier : World) :
    Continues vec (y.withStateOf e) earlier (x.withStateOf earlier) where
  graph := rfl
  checkpoints := rfl
  shows _ := shows_congr (v := x.withStateOf earlier) (w := y.withStateOf e) htree hsettings hregistry
  regular := hregular
  steady := hsteady

lemma continues_self (e : World) : Continues vec (y.withStateOf e) (y.withStateOf e) (x.withStateOf e) :=
  let h := continues_withStateOf htree hsettings hregistry hregular hsteady e e
  ⟨h.graph, h.checkpoints, h.shows, h.regular, h.steady⟩

end

/-- The import is lost with the file that was deleted, and not resolved again. -/
lemma resumed_runs : Unambiguous (· ∈ shadowed.documents ++ uncovered.documents) ∧
    Completes full shadowed (full shadowed).2 ∧ (full disturbed).1.toOption.isSome = true ∧
    (prepare disturbed).2.cancelled = true ∧ Completes full resumed (full resumed).2 ∧
    (full resumed).2.store.graph.hasEdge ⟨.imports, .file "main.py", .file "lib/b/util.py"⟩ = false ∧
    Completes full undisturbed (full undisturbed).2 ∧
    (full undisturbed).2.store.graph.hasEdge ⟨.imports, .file "main.py", .file "lib/b/util.py"⟩ = true ∧
    shadowed.tree.Regular ∧ uncovered.tree.Regular := by
  decide +kernel

lemma resumed_interrupted : ∃ 𝒟, Unambiguous 𝒟 ∧ Reached World.countAlpha 𝒟 disturbed ∧
    Ready World.countAlpha 𝒟 disturbed ∧ Interrupted disturbed (full disturbed).2 ∧
    Continues World.countAlpha disturbed (full disturbed).2 resumed ∧
    Continues World.countAlpha disturbed disturbed undisturbed := by
  obtain ⟨hunambiguous, hshadowed, hok, hcancelled, -, -, -, -, hregular, hregular'⟩ := resumed_runs
  have hsteady : uncovered.embedder.Steady World.countAlpha := World.steady_ofTexts _ (by simp)
  have hsteady' : (uncovered cancelsOnce).embedder.Steady World.countAlpha :=
    World.steady_ofTexts _ (by simp [cancelsOnce])
  have hready : Ready World.countAlpha (· ∈ shadowed.documents ++ uncovered.documents) shadowed :=
    ready_of_documents hregular (fun D hD => List.mem_append_left _ hD) hsteady
  refine ⟨_, hunambiguous, ((Reached.start rfl rfl).full hready hshadowed).withStateOf _, ?_, ?_, ?_, ?_⟩
  · refine Ready.withStateOf (w := uncovered cancelsOnce) (ready_of_documents hregular' ?_ hsteady') _
    rw [World.documents_congr (w := uncovered) rfl rfl]
    exact fun D hD => List.mem_append_right _ hD
  · exact interrupted_of_isSome hok hcancelled
  · exact continues_withStateOf (x := uncovered) (y := uncovered cancelsOnce) rfl rfl rfl hregular' hsteady _ _
  · exact continues_self (x := uncovered) (y := uncovered cancelsOnce) rfl rfl rfl hregular' hsteady _

lemma resumed_differs : ¬SameContents (full resumed).2.store.graph (full undisturbed).2.store.graph := by
  intro hs
  obtain ⟨-, -, -, -, -, hlost, -, hfound, -⟩ := resumed_runs
  rw [hs.edges ⟨.imports, _, _⟩ trivial, hfound] at hlost
  cases hlost

/-- A run that was cancelled is not always repaired. -/
theorem not_forall_repaired : ¬∀ (vec : String → Embedding) (𝒟 : Document → Prop) (w w₁ v v' u u' : World),
    Unambiguous 𝒟 → Reached vec 𝒟 w → Ready vec 𝒟 w → Interrupted w w₁ → Continues vec w w₁ v →
      Completes full v v' → Continues vec w w u → Completes full u u' →
        SameContents v'.store.graph u'.store.graph := by
  intro h
  obtain ⟨-, -, -, -, hresumed, -, hundisturbed, -⟩ := resumed_runs
  obtain ⟨𝒟, h𝒟, hreached, hready, hinterrupted, hv, hu⟩ := resumed_interrupted
  exact resumed_differs (h _ 𝒟 _ _ _ _ _ _ h𝒟 hreached hready hinterrupted hv hresumed hu hundisturbed)

theorem interrupted_repaired_iff_resumed : ∃ work p v₁, prepare resumed = (.ok (work, p), v₁) ∧
    ¬∀ D, resumed.Shows D → resumed.checkpoints.state.get? (.file D.path) = some D.fingerprint →
      Noticed resumed work p v₁ D := by
  obtain ⟨-, -, -, -, hresumed, -, hundisturbed, -⟩ := resumed_runs
  obtain ⟨𝒟, h𝒟, hreached, hready, hinterrupted, hv, hu⟩ := resumed_interrupted
  obtain ⟨work, p, v₁, p', v₂, hprepare, -⟩ := full_parts hresumed
  refine ⟨work, p, v₁, hprepare, ?_⟩
  rw [← interrupted_repaired_iff h𝒟 hreached hready hinterrupted hv hprepare hresumed hu hundisturbed]
  exact resumed_differs

end RepoAtlas.Sync
