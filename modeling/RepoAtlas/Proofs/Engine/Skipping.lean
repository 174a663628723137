import RepoAtlas.Proofs.Engine.FullRun

/-!
# Files that a run skips

A full run skips the files whose checkpoint is their fingerprint. Whatever happened before, a run that
completes stores every other file that it collects with its fingerprint, and does not touch the ones that
it skips. So the graph has the fingerprint of a file after the run exactly if it had it before, or the
checkpoint did not have it. Nothing here needs a tidy graph.

A run that stores a file and fails later keeps the checkpoint of the file. If the file is then restored to
what it was at the checkpoint, it is skipped, and the graph keeps what the failed run stored.
-/

namespace RepoAtlas

open KnowledgeGraph

/-- The fingerprint that is stored for a path. -/
def KnowledgeGraph.fingerprint? (g : KnowledgeGraph) (path : String) : Option String :=
  g.files[path]?.map (·.fingerprint)

namespace Sync

variable {w w' : World} {f : ScannedFile}

/-! ### Runs that complete -/

/-- After a run that completes the graph has the fingerprint of a file that the run collected, exactly if
the run did not skip the file or the graph had its fingerprint before. -/
theorem fingerprint_stored_iff (hregular : w.tree.Regular) (h : Completes full w w') (hf : w.Collects f) :
    w'.store.graph.fingerprint? f.path = some f.fingerprint ↔
      (w.checkpoints.state.get? (.file f.path) = some f.fingerprint →
        w.store.graph.fingerprint? f.path = some f.fingerprint) := by
  obtain ⟨work, p, w₁, p', w₂, -, hp, hlink, hgraph, -, hclean⟩ :=
    full_run hregular (carries_recorded w) h
  have hl := link_log hregular hp hlink
  obtain ⟨-, hfinds, -, hingested, -⟩ := hl.done hp hclean
  simp only [fingerprint?, hgraph, hl.files]
  obtain ⟨D, hD, rfl⟩ := hf.shows hregular
  change w₁.store.graph.files[D.path]?.map (·.fingerprint) = some D.fingerprint ↔
    (w.checkpoints.state.get? (.file D.path) = some D.fingerprint →
      w.store.graph.files[D.path]?.map (·.fingerprint) = some D.fingerprint)
  rcases found_cases hp.sorts (hfinds _ hD.collected) with hmem | ⟨-, hcheck⟩
  · -- the file is stored by the run
    have hin : p.ingested.contains D.path = true := hingested _ hmem
    obtain ⟨i, hi⟩ := contains_iff_getElem?.mp hin
    obtain ⟨D', t, hD', hpath, -, -, hfile, -⟩ := hp.carried.stored _ i hi
    rw [hfile, hD'.reads.unique hD.reads hpath]
    refine iff_of_true rfl fun hcheck => ?_
    rw [hp.not_ingested hD hcheck] at hin
    cases hin
  · -- the file is skipped
    rw [hp.carried.kept _ (hp.not_touched hD hcheck)]
    exact ⟨fun hprint _ => hprint, fun hprint => hprint hcheck⟩

theorem fingerprint_stored_iff_drafted :
    (full .drafted).2.store.graph.fingerprint? "a.py" = some (fingerprint "x = 1\n") :=
  (fingerprint_stored_iff (w := .drafted) (f := ⟨"a.py", "python", fingerprint "x = 1\n"⟩)
    (by decide +kernel) (by decide +kernel) (by decide +kernel)).mpr (by decide +kernel)

/-- The states that runs lead to, whatever becomes of them. A history starts with an empty graph and
without checkpoints; between runs everything else may change. -/
inductive Visited : World → Prop
  | start {w : World} : w.store.graph = {} → w.checkpoints.state = {} → Visited w
  | edit {w w' : World} : Visited w → w'.store.graph = w.store.graph →
      w'.checkpoints.state = w.checkpoints.state → Visited w'
  | full {w : World} : Visited w → Visited (full w).2
  | event {w : World} (e : FileEvent) : Visited w → Visited (event e w).2

lemma Visited.withStateOf {earlier : World} (h : Visited earlier) (w : World) :
    Visited (w.withStateOf earlier) := h.edit rfl rfl

/-- A line was stored, and a function in its place that cannot be embedded. -/
def unembedded : World :=
  (World.rewritten [{ contains := "alpha", action := .fail (.permanent ""), uses := some 1 }]).withStateOf
    (full .drafted).2

/-- The line was restored after the function was stored without a chunk. -/
def restored : World := World.drafted.withStateOf (full unembedded).2

/-- A run can skip a file of which the graph has something else. -/
theorem exists_stale_skip : ∃ w f, Visited w ∧ w.tree.Regular ∧ Completes full w (full w).2 ∧
    w.Collects f ∧ (full w).2.store.graph.fingerprint? f.path ≠ some f.fingerprint := by
  have hdrafted : Visited .drafted := .start rfl rfl
  have hunembedded : Visited unembedded := hdrafted.full.withStateOf _
  have hrestored : Visited restored := hunembedded.full.withStateOf _
  exact ⟨restored, ⟨"a.py", "python", fingerprint "x = 1\n"⟩, hrestored, by decide +kernel⟩

end Sync

end RepoAtlas
