import RepoAtlas.Proofs.Engine.EventRun

/-!
# Convergence

Runs over files may be interleaved with any changes of the files. As long as every run completes, a full
run at the end leaves the graph that a single full run builds from the same files into an empty store. It
need not redo everything for that: checkpoints, orphaned callers, affected names and the set of files
tell it what is out of date, whatever the earlier runs were.
-/

namespace RepoAtlas.Sync

open KnowledgeGraph

variable {𝒟 : Document → Prop} {vec : String → Embedding} {w w' v v' : World}

/-! ### Histories -/

/-- The states that histories lead to. A history starts with an empty graph and without checkpoints;
between runs everything else may change, and every run completes. -/
inductive Reached (vec : String → Embedding) (𝒟 : Document → Prop) : World → Prop
  | start {w : World} : w.store.graph = {} → w.checkpoints.state = {} → Reached vec 𝒟 w
  | edit {w w' : World} : Reached vec 𝒟 w → w'.store.graph = w.store.graph →
      w'.checkpoints.state = w.checkpoints.state → Reached vec 𝒟 w'
  | full {w w' : World} : Reached vec 𝒟 w → Ready vec 𝒟 w → Completes full w w' → Reached vec 𝒟 w'
  | event {w w' : World} (e : FileEvent) : Reached vec 𝒟 w → w.embedder.Steady vec →
      (∀ D, w.Reads D → D.path = e.path → 𝒟 D) → Completes (event e) w w' → Reached vec 𝒟 w'

lemma Reached.withStateOf {earlier : World} (h : Reached vec 𝒟 earlier) (w : World) :
    Reached vec 𝒟 (w.withStateOf earlier) := h.edit rfl rfl

lemma Reached.withSchedule (h : Reached vec 𝒟 w) (schedule : Schedule) :
    Reached vec 𝒟 { w with schedule := schedule } := h.edit rfl rfl

/-- Along a history the checkpoints tell what the graph holds. -/
lemma Reached.inSync (ha : Apart 𝒟) (h : Reached vec 𝒟 w) : InSync vec 𝒟 w := by
  induction h with
  | start hgraph hcheckpoints => exact inSync_empty hgraph hcheckpoints
  | edit _ hgraph hcheckpoints ih => exact ih.congr hgraph fun k => by rw [hcheckpoints]
  | full _ hready hrun ih => exact (ih.full ha hready hrun).1
  | event e _ hsteady hknown hrun ih => exact ih.event ha hsteady hknown hrun

/-- Repositories with the same files show the same documents. -/
lemma shows_congr (htree : v.tree = w.tree) (hsettings : v.settings = w.settings)
    (hregistry : v.registry = w.registry) {D : Document} : v.Shows D ↔ w.Shows D := by
  have hcollects : ∀ f, v.Collects f ↔ w.Collects f := by
    intro f
    simp only [World.Collects, htree, hsettings, hregistry]
  constructor
  · rintro ⟨hcollected, hlanguage, hcontent⟩
    rw [hregistry] at hlanguage hcontent
    rw [htree] at hcontent
    exact ⟨(hcollects _).mp hcollected, hlanguage, hcontent⟩
  · rintro ⟨hcollected, hlanguage, hcontent⟩
    rw [← hregistry] at hlanguage hcontent
    rw [← htree] at hcontent
    exact ⟨(hcollects _).mpr hcollected, hlanguage, hcontent⟩

lemma Ready.withStateOf (h : Ready vec 𝒟 w) (earlier : World) : Ready vec 𝒟 (w.withStateOf earlier) where
  regular := h.regular
  shown D hD := h.shown D ((shows_congr (v := w.withStateOf earlier) (w := w) rfl rfl rfl).mp hD)
  steady := h.steady

lemma Ready.withSchedule (h : Ready vec 𝒟 w) (schedule : Schedule) : Ready vec 𝒟 { w with schedule := schedule } where
  regular := h.regular
  shown D hD := h.shown D ((shows_congr (v := { w with schedule := schedule }) (w := w) rfl rfl rfl).mp hD)
  steady := h.steady

/-- After any history a full run leaves what a single full run builds from the same files, whatever the orders in which
the runs do their jobs. -/
theorem full_converges (h𝒟 : Unambiguous 𝒟) (hreached : Reached vec 𝒟 w) (hready : Ready vec 𝒟 w)
    (h : Completes full w w') (hgraph : v.store.graph = {}) (hcheckpoints : v.checkpoints.state = {})
    (htree : v.tree = w.tree) (hsettings : v.settings = w.settings) (hregistry : v.registry = w.registry)
    (hsteady : v.embedder.Steady vec) (h' : Completes full v v') :
    SameContents w'.store.graph v'.store.graph := by
  have ha := h𝒟.apart
  have hshows : v.Shows = w.Shows := by
    funext D
    exact propext (shows_congr htree hsettings hregistry)
  have hready' : Ready vec 𝒟 v := by
    refine ⟨?_, ?_, hsteady⟩
    · rw [htree]
      exact hready.regular
    · rw [hshows]
      exact hready.shown
  have hmirror := ((hreached.inSync ha).full ha hready h).2
  have hmirror' := ((inSync_empty hgraph hcheckpoints).full ha hready' h').2
  rw [hshows] at hmirror'
  exact hmirror.same hmirror'

/-- A file that imports one of a directory. -/
def scattered : World := .ofTexts [("main.py", "import util\n"), ("lib/util.py", "x = 1\n")]

/-- The file that is imported has moved out of the directory. -/
def moved : World := .ofTexts [("main.py", "import util\n"), ("util.py", "x = 1\n")]

/-- Jobs are done in the reverse order. -/
def reversed : Schedule where
  order _ n := (List.range n).reverse
  perm _ _ := List.reverse_perm _

/-- The file has moved after a full run, and an event has told that the old one is gone. The next run does the jobs
of each stage in the reverse order. -/
def halfway : World :=
  { moved.withStateOf (event ⟨"lib/util.py", .deleted⟩ (moved.withStateOf (full scattered).2)).2 with
    schedule := reversed }

/-- The imports of a state. -/
def imports (w : World) : List GraphEdge := w.store.graph.edges.filter (·.kind == .imports)

/-- The import of the file that stayed as it is leads elsewhere, first nowhere and then to the new file. -/
theorem full_converges_moved :
    imports (full scattered).2 = [⟨.imports, .file "main.py", .file "lib/util.py"⟩] ∧
    imports halfway = [] ∧ imports (full halfway).2 = [⟨.imports, .file "main.py", .file "util.py"⟩] ∧
    SameContents (full halfway).2.store.graph (full moved).2.store.graph := by
  have hsteady : moved.embedder.Steady World.countAlpha := World.steady_ofTexts _ (by simp)
  obtain ⟨hunambiguous, hregular, hregular', hgone, hfull, hevent, hrun, hrun', hbefore, hnowhere, hafter⟩ :
      Unambiguous (· ∈ scattered.documents ++ moved.documents) ∧ scattered.tree.Regular ∧ moved.tree.Regular ∧
      ((moved.withStateOf (full scattered).2).document? "lib/util.py").isNone ∧
      Completes full scattered (full scattered).2 ∧
      Completes (event ⟨"lib/util.py", .deleted⟩) (moved.withStateOf (full scattered).2)
        (event ⟨"lib/util.py", .deleted⟩ (moved.withStateOf (full scattered).2)).2 ∧
      Completes full halfway (full halfway).2 ∧ Completes full moved (full moved).2 ∧
      imports (full scattered).2 = [⟨.imports, .file "main.py", .file "lib/util.py"⟩] ∧ imports halfway = [] ∧
      imports (full halfway).2 = [⟨.imports, .file "main.py", .file "util.py"⟩] := by
    decide +kernel
  have hscattered : Ready World.countAlpha (· ∈ scattered.documents ++ moved.documents) scattered :=
    ready_of_documents hregular (fun D hD => List.mem_append_left _ hD) (World.steady_ofTexts _ (by simp))
  have hready : Ready World.countAlpha (· ∈ scattered.documents ++ moved.documents) moved :=
    ready_of_documents hregular' (fun D hD => List.mem_append_right _ hD) hsteady
  have hstored : Reached World.countAlpha (· ∈ scattered.documents ++ moved.documents) (full scattered).2 :=
    .full (.start rfl rfl) hscattered hfull
  have htold : Reached World.countAlpha (· ∈ scattered.documents ++ moved.documents)
      (event ⟨"lib/util.py", .deleted⟩ (moved.withStateOf (full scattered).2)).2 := by
    refine .event ⟨"lib/util.py", .deleted⟩ (hstored.withStateOf moved) (hready.withStateOf _).steady ?_ hevent
    -- the file is not there to be read
    intro D hD hpath
    rw [World.reads_iff, hpath] at hD
    simp [hD] at hgone
  refine ⟨hbefore, hnowhere, hafter, ?_⟩
  exact full_converges (w := halfway) (v := moved) hunambiguous
    ((htold.withStateOf moved).withSchedule reversed)
    ((hready.withStateOf _).withSchedule reversed) hrun rfl rfl rfl rfl rfl hsteady hrun'

end RepoAtlas.Sync
