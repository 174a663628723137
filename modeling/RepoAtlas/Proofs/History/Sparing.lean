import RepoAtlas.History.Sync
import RepoAtlas.Proofs.Engine.Running
import RepoAtlas.Proofs.Graph.Domains

/-!
# The history beside the code

A run over the history asks, saves, and applies batches about the history alone. So it leaves the code in
the graph as it is, with the index of its units, whatever becomes of the run.
-/

namespace RepoAtlas

open KnowledgeGraph

variable {R : World → World → Prop} {g g' g'' : KnowledgeGraph} {w w' : World}

/-! ### What runs over the history write -/

/-- All writes of a batch are about the history. -/
def Historical (b : WriteBatch) : Prop := ∀ op ∈ b, op.domain? = some .history

lemma CommitRecord.historical_batch (r : CommitRecord) (repo : String) (parents : List String) :
    Historical (r.batch repo parents) := by
  intro op hop
  simp only [batch, List.mem_append, List.mem_cons, List.not_mem_nil, or_false, List.mem_map,
    List.mem_flatMap] at hop
  rcases hop with ((rfl | rfl | rfl) | ⟨p, -, rfl⟩) | ⟨c, -, rfl | rfl⟩ <;> rfl

lemma Act.Asks.askVcs {α : Type} (hR : Act.Asks R) (question : Vcs → Except String α) :
    Act.Keeps R (Act.askVcs question) := by
  refine hR.bind hR.get fun w => ?_
  cases question w.vcs with
  | error e => exact hR.throw _
  | ok a => exact hR.pure a

namespace HistorySync

variable (hR : Act.Asks R) (hwrite : ∀ b, Historical b → Act.Keeps R (Act.applyBatch b)) (hsave : Act.Saves R)

section

include hR

lemma keeps_knownParents (repo : String) (ps : List String) : Act.Keeps R (knownParents repo ps) := by
  induction ps with
  | nil => exact hR.pure _
  | cons p ps ih => exact hR.bind (hR.ask _ _) fun _ => hR.bind ih fun _ => hR.pure _

lemma keeps_checkDivergence (recorded head : String) : Act.Keeps R (checkDivergence recorded head) := by
  have hleads : ∀ leads : Bool,
      Act.Keeps R (if !leads then throw (.historyDivergence recorded head) else pure () : Act Unit) := by
    rintro ⟨_ | _⟩
    · exact hR.throw _
    · exact hR.pure _
  refine hR.bind (hR.askVcs _) fun known => ?_
  cases known with
  | true => exact hR.bind (hR.askVcs _) hleads
  | false => exact hleads false

include hsave

lemma keeps_finish (report : HistoryReport) (head : Option String) : Act.Keeps R (finish report head) :=
  hR.bind hsave.commit fun _ => hR.bind (hsave.setCheckpoints _) fun _ => hR.pure _

end

section

include hR hwrite

lemma keeps_record (repo : String) (l : List CommitRecord) : ∀ report, Act.Keeps R (record repo report l) := by
  induction l with
  | nil => exact fun _ => hR.pure _
  | cons r l ih =>
    refine fun report => hR.bind (hR.ask _ _) fun known => ?_
    split
    · exact ih _
    · exact hR.bind (keeps_knownParents hR _ _) fun parents =>
        hR.bind (hwrite _ (r.historical_batch repo parents)) fun _ => ih _

include hsave

lemma keeps_full (report : HistoryReport) : Act.Keeps R (full report) := by
  have hrest : ∀ (report : HistoryReport) head (records : List CommitRecord), Act.Keeps R (do
      let report ← recordAll report.repo report records
      let summary ← Act.applyBatch [.retainHistory report.repo (records.map (·.revision))]
      finish { report with nodesRemoved := summary.nodesRemoved } head) := by
    refine fun report head records => hR.bind (keeps_record hR hwrite _ _ _) fun report => ?_
    refine hR.bind (hwrite _ fun op hop => ?_) fun _ => keeps_finish hR hsave _ _
    cases List.mem_singleton.mp hop
    rfl
  refine hR.bind (hR.askVcs _) fun head => ?_
  cases head with
  | none => exact hR.bind (hR.pure []) fun records => hrest { report with head := none } none records
  | some h => exact hR.bind (hR.askVcs _) fun records => hrest { report with head := some h } (some h) records

lemma keeps_incremental (report : HistoryReport) : Act.Keeps R (incremental report) := by
  refine hR.bind (hR.askVcs _) fun head => ?_
  cases head with
  | none => exact hR.pure _
  | some head =>
    have hrest : ∀ report : HistoryReport, Act.Keeps R (do
        let records ← Act.askVcs (·.commitsSince report.checkpointBefore head)
        finish (← recordAll report.repo report records) (some head)) := fun report =>
      hR.bind (hR.askVcs _) fun _ => hR.bind (keeps_record hR hwrite _ _ _) fun _ => keeps_finish hR hsave _ _
    simp only
    split
    · exact hR.pure _
    · split
      · exact hR.bind (keeps_checkDivergence hR _ _) fun _ => hrest { report with head := some head }
      · exact hrest { report with head := some head }

/-- A run over the history keeps what asking, saving and writes about the history keep. -/
lemma keeps_run (isFull : Bool) : Act.Keeps R (run isFull) := by
  refine hR.bind hR.get fun w => ?_
  split
  · exact keeps_full hR hwrite hsave _
  · exact keeps_incremental hR hwrite hsave _

end

end HistorySync

/-! ### The code -/

/-- A step leaves the code as it is, with the index of units by their files. -/
structure SparesCode (g g' : KnowledgeGraph) : Prop extends Spares .code g g' where
  byFile : ∀ p i, hasEntry g'.unitsByFile p i = true ↔ hasEntry g.unitsByFile p i = true

lemma SparesCode.refl (g : KnowledgeGraph) : SparesCode g g := ⟨Spares.refl .code g, fun _ _ => Iff.rfl⟩

lemma SparesCode.trans (h : SparesCode g g') (h' : SparesCode g' g'') : SparesCode g g'' :=
  ⟨h.toSpares.trans h'.toSpares, fun p i => (h'.byFile p i).trans (h.byFile p i)⟩

/-- Writes about the history keep the index of units. -/
lemma Draft.byFile_applyOp {d : Draft} {op : WriteOp} (hw : d.graph.WellFormed)
    (hop : op.domain? = some .history) (p i : String) :
    hasEntry (d.applyOp op).graph.unitsByFile p i = true ↔ hasEntry d.graph.unitsByFile p i = true := by
  cases op with
  | upsertNode n =>
    cases n with
    | commit c =>
      obtain ⟨_, hgraph⟩ := d.exists_graph_upsertCommit c
      rw [applyOp, upsert, hgraph]
    | author a => rw [applyOp, upsert, graph_upsertAuthor]
    | fileRevision r =>
      obtain ⟨_, _, htables⟩ := d.exists_tables_upsertRevision r
      have hkept : (d.upsertRevision r).graph.unitsByFile = d.graph.unitsByFile :=
        congrArg NodeTables.unitsByFile htables
      rw [applyOp, upsert, hkept]
    | _ => cases hop
  | upsertEdge e =>
    have hkept : (d.insertEdge e).graph.unitsByFile = d.graph.unitsByFile :=
      congrArg NodeTables.unitsByFile tables_insertEdge
    rw [applyOp, hkept]
  | retainHistory repo revisions =>
    have hr := removes_retainHistory hw.adjacent.mirrored hw.adjacent.typed repo
      (revisions.foldl (·.insert ·) ∅)
    refine (hr.byFile p i).trans (and_iff_left ?_)
    rintro ⟨u, -, -, hgone⟩
    exact hgone
  | _ => cases hop

/-- The graph stays well formed, and its code stays as it is. -/
def Beside (w w' : World) : Prop :=
  w.store.graph.WellFormed → w'.store.graph.WellFormed ∧ SparesCode w.store.graph w'.store.graph

lemma Beside.refl (w : World) : Beside w w := fun h => ⟨h, SparesCode.refl _⟩

lemma Beside.trans (u v w : World) (h : Beside u v) (h' : Beside v w) : Beside u w := by
  intro hu
  obtain ⟨hv, hsame⟩ := h hu
  obtain ⟨hw, hsame'⟩ := h' hv
  exact ⟨hw, hsame.trans hsame'⟩

lemma Saved.beside (h : Saved w w') : Beside w w' := by
  intro hw
  rw [h.graph]
  exact ⟨hw, SparesCode.refl _⟩

lemma Act.beside_applyBatch {b : WriteBatch} (hb : Historical b) : Act.Keeps Beside (Act.applyBatch b) := by
  intro w
  rcases hrun : Act.applyBatch b w with ⟨e | summary, w'⟩
  · exact (Act.applyBatch_error hrun).saved.beside
  · intro hw
    have happly := (Act.applyBatch_ok hrun).2
    obtain ⟨hgraph, -, hflaw⟩ := GraphStore.apply_eq_ok happly
    refine ⟨(GraphStore.wellFormed_apply hw happly).1, ?_⟩
    rw [hgraph]
    refine KnowledgeGraph.Reachable.invariant_applyBatch (P := fun g => SparesCode w.store.graph g) ?_ hw
      (SparesCode.refl _) (Overlay.regular_of_batchFlaw? hflaw)
    intro d op hop hd _ hsame
    exact hsame.trans ⟨Draft.spares_applyOp hd (hb op hop) (by decide), Draft.byFile_applyOp hd (hb op hop)⟩

/-- A run over the history leaves the code as it is, whatever becomes of it. -/
theorem HistorySync.beside_run (isFull : Bool) : Act.Keeps Beside (HistorySync.run isFull) := by
  refine keeps_run ⟨Beside.refl, Beside.trans, fun _ _ w => ?_, fun w => ?_⟩ (fun _ => Act.beside_applyBatch)
    (.of_saved fun _ _ => Saved.beside) isFull
  · exact (Act.quiet_query _ _ w).saved.beside
  · exact (Act.quiet_now w).saved.beside

end RepoAtlas
