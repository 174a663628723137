import RepoAtlas.Proofs.Engine.Advancing
import RepoAtlas.Proofs.Engine.Sending
import RepoAtlas.Proofs.History.Sparing

/-!
# Unchanged files are left alone

A batch that replaces the contents of a path leaves the file, the units and the chunks of any other path as
they are: the ids of units and of chunks tell their paths, so nothing of another path goes with the units
that are cleared, and nothing of it is overwritten. A full run replaces the contents of deleted, new and
changed files only, and it embeds only units of new and changed ones. So what it calls unchanged it leaves
alone, whatever becomes of the run.
-/

namespace RepoAtlas

open KnowledgeGraph

variable {𝒟 : Document → Prop} {skip : String → Prop} {S : Touch → Prop} {g g' g'' : KnowledgeGraph}
  {l : List KnowledgeGraph} {p : String}

/-! ### What belongs to a file -/

/-- A file, its units and the chunks of its units are the same in two graphs, to the last field. -/
structure SameFile (path : String) (g g' : KnowledgeGraph) : Prop where
  file : g'.files[path]? = g.files[path]?
  units : ∀ (i : String) (u : CodeUnit), u.path = path → (g'.units[i]? = some u ↔ g.units[i]? = some u)
  chunks : ∀ (h : String) (s : StoredChunk),
    (∃ u : CodeUnit, g.units[s.chunk.unitId]? = some u ∧ u.path = path) →
      (g'.chunks[h]? = some s ↔ g.chunks[h]? = some s)

lemma SameFile.refl (p : String) (g : KnowledgeGraph) : SameFile p g g :=
  ⟨rfl, fun _ _ _ => Iff.rfl, fun _ _ _ => Iff.rfl⟩

lemma SameFile.trans (h : SameFile p g g') (h' : SameFile p g' g'') : SameFile p g g'' where
  file := h'.file.trans h.file
  units i u hu := (h'.units i u hu).trans (h.units i u hu)
  chunks k s := by
    rintro ⟨u, hu, hp⟩
    exact (h'.chunks k s ⟨u, (h.units _ u hp).mpr hu, hp⟩).trans (h.chunks k s ⟨u, hu, hp⟩)

/-- Writes that leave the nodes alone. -/
lemma SameFile.of_tables (h : g'.tables = g.tables) : SameFile p g g' := by
  simp only [tables, NodeTables.mk.injEq] at h
  obtain ⟨hfiles, hunits, hchunks, -⟩ := h
  refine ⟨by rw [hfiles], fun i u _ => by rw [hunits], fun k s _ => by rw [hchunks]⟩

namespace Undivided

/-- A stored unit is one of a document that is stored whole under its path. -/
lemma document_of_unit (hg : Undivided 𝒟 (fun _ => False) g) {i : String} {u : CodeUnit}
    (hu : g.units[i]? = some u) : ∃ D, 𝒟 D ∧ D.path = u.path ∧ D.Whole g ∧ u ∈ D.units ∧ u.id = i := by
  obtain ⟨hid, -, hfile⟩ := hg.unit i u hu
  obtain ⟨f, hf⟩ := contains_iff_getElem?.mp hfile
  obtain ⟨D, -, hD, hpath, -, hwhole⟩ := hg.file _ f hf id
  exact ⟨D, hD, hpath, hwhole, (mem_of_lastUnit ((hwhole.unit i u).mp ⟨hu, hpath.symm⟩)).1, hid⟩

/-- The chunk of a stored unit has the id of a unit of a document of that path. -/
lemma chunkId_of_chunk (hg : Undivided 𝒟 (fun _ => False) g) {h : String} {s : StoredChunk} {u : CodeUnit}
    (hs : g.chunks[h]? = some s) (hu : g.units[s.chunk.unitId]? = some u) :
    ∃ D, 𝒟 D ∧ D.path = u.path ∧ ∃ v ∈ D.units, v.chunkId = h := by
  obtain ⟨D, hD, hpath, hwhole, hmem, hid⟩ := hg.document_of_unit hu
  obtain ⟨v, hv, hvid, htext⟩ := hwhole.chunk h s hs ⟨u, hmem, hid⟩
  refine ⟨D, hD, hpath, v, hv, ?_⟩
  rw [(hg.chunk h s hs).2.1, CodeUnit.chunkId, hvid, htext]

/-- What describes a stored unit has the id of a unit of a document of that path. -/
lemma chunkId_of_describes (hg : Undivided 𝒟 (fun _ => False) g) {h i : String} {u : CodeUnit}
    (hu : g.units[i]? = some u) (he : g.hasEdge ⟨.describes, .chunk h, .unit i⟩ = true) :
    ∃ D, 𝒟 D ∧ D.path = u.path ∧ ∃ v ∈ D.units, v.chunkId = h := by
  obtain ⟨D, hD, hpath, hwhole, hmem, hid⟩ := hg.document_of_unit hu
  obtain ⟨v, hv, -, hkey⟩ := hwhole.describes _ _ he ⟨u, hmem, hid⟩
  exact ⟨D, hD, hpath, v, hv, (NodeKey.chunk.inj hkey).symm⟩

/-- What is stored under an id after a document was stored: the last unit of the id, or what was there and
did not go with the path. -/
lemma units_contents (hg : Undivided 𝒟 skip g) (D : Document) (t : Instant) (cs : List SemanticChunk)
    (i : String) (u : CodeUnit) :
    (g.applyBatch (Ingest.contents (D.node t) D.units cs)).graph.units[i]? = some u ↔
      lastUnit D.units i = some u ∨
        (lastUnit D.units i = none ∧ g.units[i]? = some u ∧ ¬GoneFrom g D.path (.unit i)) := by
  obtain ⟨hr, -⟩ := hg.clearFile (d := { graph := g }) (D.node t).path
  have htables := Draft.tables_upsertFile (d := Draft.clearFile { graph := g } (D.node t).path) (f := D.node t)
  simp only [tables, NodeTables.mk.injEq] at htables
  obtain ⟨-, hunits, -⟩ := htables
  set d := D.units.foldl Draft.upsertUnit ((Draft.clearFile { graph := g } (D.node t).path).upsertFile (D.node t))
  obtain ⟨_, _, htables⟩ := Draft.tables_foldl_upsertChunk cs d
  have hkept : (cs.foldl Draft.upsertChunk d).graph.units = d.graph.units := congrArg NodeTables.units htables
  rw [applyBatch_contents, hkept, Draft.units_foldl_upsertUnit, hunits, hr.unit]
  exact Iff.rfl

end Undivided

/-- Files stay whole while the code is spared. -/
lemma Undivided.sparesCode (hg : Undivided 𝒟 skip g) (h : SparesCode g g') (hw : g'.WellFormed) :
    Undivided 𝒟 skip g' :=
  have ⟨hfiles, hunits, hchunks⟩ := h.nodes
  hg.of_same hw.adjacent.mirrored hfiles hunits hchunks h.byFile fun _ _ => h.edge _ rfl

/-! ### Batches -/

section

variable (hs : Sync.Separate 𝒟) (hg : Undivided 𝒟 (fun _ => False) g)
include hs hg

/-- No chunk of a unit of one path goes with another path. -/
lemma Undivided.not_goneFrom {q h : String} {s : StoredChunk} {u : CodeUnit} (hstored : g.chunks[h]? = some s)
    (hu : g.units[s.chunk.unitId]? = some u) (hne : u.path ≠ q) : ¬GoneFrom g q (.chunk h) := by
  rintro ⟨i, v, hv, hpath, he⟩
  obtain ⟨D, hD, hDpath, u', hu', hid⟩ := hg.chunkId_of_chunk hstored hu
  obtain ⟨D', hD', hDpath', v', hv', hid'⟩ := hg.chunkId_of_describes hv he
  refine hne ?_
  rw [← hDpath, hs.path_eq hD hD' hu' hv' (hid.trans hid'.symm), hDpath', hpath]

lemma SameFile.contents {D : Document} {t : Instant} {cs : List SemanticChunk} (hD : 𝒟 D)
    (hcs : ∀ c ∈ cs, D.Embeds c) (hne : D.path ≠ p) :
    SameFile p g (g.applyBatch (Ingest.contents (D.node t) D.units cs)).graph := by
  constructor
  case file =>
    rw [files_contents, Std.ExtTreeMap.getElem?_insert, if_neg]
    exact fun he => hne (Std.LawfulEqCmp.eq_of_compare he)
  case units =>
    rintro i u rfl
    rw [hg.units_contents]
    constructor
    · rintro (hu | ⟨-, hu, -⟩)
      · exact absurd (Document.path_of_mem_units (mem_of_lastUnit hu).1).symm hne
      · exact hu
    · refine fun hu => Or.inr ⟨lastUnit_eq_none.mpr fun v hv hid => hne ?_, hu, ?_⟩
      · exact (hg.path_eq hu (hid ▸ Document.ownedBy_of_mem_units hv) (hs.path D hD)).symm
      · rintro ⟨v, hv, hpath⟩
        rw [hu] at hv
        cases hv
        exact hne hpath.symm
  case chunks =>
    rintro h s ⟨u, hu, rfl⟩
    rcases hg.chunk_contents D t cs h with ⟨-, hkept⟩ | ⟨c, hc, hid, s', hs', hunit⟩
    · rw [hkept]
      exact and_iff_left_of_imp fun hstored => hg.not_goneFrom hs hstored hu hne.symm
    · -- the id is that of a new chunk, which is about a unit of the document
      obtain ⟨v, hv, -⟩ := hcs c hc
      constructor
      · intro hstored
        rw [hs'] at hstored
        cases hstored
        rw [hunit, ← hv.unit] at hu
        exact absurd (hg.path_eq hu (Document.ownedBy_of_mem_units hv.mem) (hs.path D hD)).symm hne
      · intro hstored
        obtain ⟨D', hD', hpath, u', hu', hid'⟩ := hg.chunkId_of_chunk hstored hu
        refine absurd ?_ hne
        rw [← hpath]
        exact hs.path_eq hD hD' hv.mem hu' ((hv.id.trans hid).trans hid'.symm)

lemma SameFile.removeFile {q : String} (hne : q ≠ p) :
    SameFile p g (g.applyBatch [.removeFile q]).graph := by
  have hr : Removes (fun k => GoneFrom g q k ∨ k = .file q) g (g.applyBatch [.removeFile q]).graph :=
    (Draft.removes_removeFile (d := { graph := g }) hg.mirrored q).congr fun k => or_congr_left hg.goneFrom_iff
  constructor
  case file =>
    refine Option.ext fun f => ?_
    rw [hr.file]
    refine and_iff_left_of_imp fun _ => ?_
    rintro (h | h)
    · exact h
    · exact hne (NodeKey.file.inj h).symm
  case units =>
    rintro i u rfl
    rw [hr.unit]
    refine and_iff_left_of_imp fun hu => ?_
    rintro (⟨v, hv, hpath⟩ | h)
    · rw [hu] at hv
      cases hv
      exact hne hpath.symm
    · cases h
  case chunks =>
    rintro h s ⟨u, hu, rfl⟩
    rw [hr.chunk]
    refine and_iff_left_of_imp fun hstored => ?_
    rintro (hgone | hgone)
    · exact hg.not_goneFrom hs hstored hu hne.symm hgone
    · cases hgone

/-- A batch that replaces something else leaves the contents of a path alone. -/
theorem Step.sameFile {t : Touch} (h : Step 𝒟 t g g') (hne : t ≠ .contents p) : SameFile p g g' := by
  cases h with
  | store t cs hD hcs => exact SameFile.contents hs hg hD hcs fun he => hne (he ▸ rfl)
  | remove path => exact SameFile.removeFile hs hg fun he => hne (he ▸ rfl)
  | imports path targets => exact SameFile.of_tables (Draft.tables_replaceImports (d := { graph := g }))
  | calls path calls => exact SameFile.of_tables (Draft.tables_replaceCalls (d := { graph := g }))

/-- Along a trail that replaces the contents of other paths only, the contents of a path stay. -/
theorem Trail.sameFile (h : Trail 𝒟 S g l g') (hS : ¬S (.contents p)) : SameFile p g g' := by
  have hall := h.forall_of_step (P := fun u => Undivided 𝒟 (fun _ => False) u ∧ SameFile p g u) ?_
    ⟨hg, SameFile.refl p g⟩
  · exact hall.2.2
  · rintro t u v ht hstep ⟨hu, hsame⟩
    exact ⟨hstep.undivided hs.path hu, hsame.trans (hstep.sameFile hs hu fun he => hS (he ▸ ht))⟩

end

/-! ### Full runs -/

namespace Sync

variable {w w' : World} {f f' : ScannedFile}

/-- The files that a full run calls unchanged. -/
def unchanged (w : World) : List ScannedFile :=
  match (scan { w with cancelled := false, embedder := w.embedder.forRun }).1 with
  | .ok work => work.unchanged
  | .error _ => []

lemma mem_unchanged (hf : f ∈ unchanged w) :
    w.Finds f ∧ w.checkpoints.state.get? (.file f.path) = some f.fingerprint := by
  rcases hscan : scan { w with cancelled := false, embedder := w.embedder.forRun } with ⟨e | work, v⟩
  · simp [unchanged, hscan] at hf
  · have hsorts := sorts_of_quiet (quiet_start w) (scan_ok hscan).2
    simp only [unchanged, hscan] at hf
    exact (hsorts.unchanged f).mp hf

/-- What a run stores is not at the path of an unchanged file. -/
lemma path_ne_of_mem_toIngest {work : Worklist} (hsorts : work.Sorts w) (hf : f ∈ work.toIngest)
    (hf' : f' ∈ unchanged w) : f'.path ≠ f.path := by
  obtain ⟨hfinds, hcheckpoint⟩ := mem_unchanged hf'
  intro hpath
  obtain rfl := hfinds.collects.unique (collects_of_mem_toIngest hsorts hf) hpath
  rcases List.mem_append.mp hf with hf | hf
  · have hnone := ((hsorts.new f').mp hf).2
    rw [hcheckpoint] at hnone
    cases hnone
  · obtain ⟨-, v, hv, hne⟩ := (hsorts.changed f').mp hf
    rw [hcheckpoint] at hv
    cases hv
    exact hne rfl

/-- A full run replaces the contents of no unchanged file. -/
lemma full_sameFile (hs : Separate 𝒟) (hg : Undivided 𝒟 (fun _ => False) w.store.graph)
    (hc : Call.full.Known 𝒟 w) (hf : f ∈ unchanged w) :
    SameFile f.path w.store.graph (full w).2.store.graph := by
  have hmoves : Moves 𝒟 (· ≠ .contents f.path) w (full w).2 := by
    refine moves_full (fun _ => offers_of_collects hc.1 hc.2)
      (fun work hsorts => ⟨fun q hq he => ?_, fun f' hf' he => ?_⟩) fun q => ⟨nofun, nofun⟩
    · cases he
      exact ((hsorts.deleted _).mp hq).1 f (mem_unchanged hf).1.collects rfl
    · exact path_ne_of_mem_toIngest hsorts hf' hf (Touch.contents.inj he).symm
  obtain ⟨l, hl⟩ := hmoves
  exact hl.sameFile hs hg fun hS => hS rfl

/-- A text of a unit of a file that is shown, at the path of no unchanged file. -/
def Renews (w : World) (text : String) : Prop :=
  ∃ D, w.Shows D ∧ (∀ f ∈ unchanged w, f.path ≠ D.path) ∧ ∃ u ∈ D.units, u.chunkText = text

/-- A full run embeds units of no unchanged file. -/
lemma full_sends (hregular : w.tree.Regular) : w.Sends (Renews w) (full w).2 := by
  have hprepare : Walks w.Shows (fun _ => True) w (prepare w).2 ∧ w.Sends (Renews w) (prepare w).2 := by
    refine (Act.writes_walks.and Act.writes_sends).prepare fun work v hscan => ⟨fun _ _ => trivial, ?_⟩
    intro f hf u hu
    have hsorts := sorts_of_quiet (quiet_start w) (scan_ok hscan).2
    have hoffers : u.Offers w.Shows f.path f.language :=
      hu.1.calm.offers (offers_of_collects hregular (fun _ h => h) (collects_of_mem_toIngest hsorts hf))
    refine ⟨Ingest.walks_file hoffers trivial, ?_⟩
    refine (Act.writes_sends (S := fun _ => True)).ingest fun content x hread hx => ⟨?_, fun _ _ => ?_⟩
    · refine Act.sends_embedAll fun text htext => ?_
      obtain ⟨unit, hunit, rfl⟩ := List.mem_map.mp htext
      exact ⟨_, hoffers content x hread hx, fun f' hf' => path_ne_of_mem_toIngest hsorts hf hf', unit, hunit, rfl⟩
    · exact (Act.silent_applyBatch _).sends
  exact Act.writes_sends.full Act.saves_sends hprepare.2 (S := fun _ => True) fun _ => ⟨trivial, trivial⟩

/-! ### Histories -/

/-- The states that calls lead to, whatever becomes of them; runs over the history may come in between. A
history starts with an empty graph; between calls everything but the graph may change. -/
inductive Served (𝒟 : Document → Prop) : World → Prop
  | start {w : World} : w.store.graph = {} → Served 𝒟 w
  | edit {w w' : World} : Served 𝒟 w → w'.store.graph = w.store.graph → Served 𝒟 w'
  | call {w : World} (c : Call) : Served 𝒟 w → c.Known 𝒟 w → Served 𝒟 (c.run w).2
  | history {w : World} (isFull : Bool) : Served 𝒟 w → Served 𝒟 (HistorySync.run isFull w).2

lemma Served.wellFormed (h : Served 𝒟 w) : w.store.graph.WellFormed := by
  induction h with
  | start hgraph =>
    rw [hgraph]
    exact wellFormed_empty
  | edit _ hgraph ih =>
    rw [hgraph]
    exact ih
  | @call w c _ _ ih =>
    cases c with
    | full => exact intact_full w ih
    | event e => exact intact_event e w ih
  | @history w isFull _ ih => exact (HistorySync.beside_run isFull w ih).1

lemma Served.undivided (hs : Separate 𝒟) (h : Served 𝒟 w) : Undivided 𝒟 (fun _ => False) w.store.graph := by
  induction h with
  | start hgraph =>
    rw [hgraph]
    exact undivided_empty
  | edit _ hgraph ih =>
    rw [hgraph]
    exact ih
  | call c _ hc ih => exact undivided_run hs hc ih
  | @history w isFull h ih =>
    obtain ⟨hw, hspares⟩ := HistorySync.beside_run isFull w h.wellFormed
    exact ih.sparesCode hspares hw

lemma Served.withStateOf {earlier : World} (h : Served 𝒟 earlier) (w : World) :
    Served 𝒟 (w.withStateOf earlier) := h.edit rfl

/-- Unchanged files are left alone: whatever becomes of a full run, every file that it calls unchanged keeps
its file node, its units and their chunks as they are, and all that the run embeds are units of other files. -/
theorem Served.leaves_unchanged (hs : Separate 𝒟) (h : Served 𝒟 w) (hc : Call.full.Known 𝒟 w) :
    (∀ f ∈ unchanged w, SameFile f.path w.store.graph (full w).2.store.graph) ∧ w.Sends (Renews w) (full w).2 :=
  ⟨fun _ hf => full_sameFile hs (h.undivided hs) hc hf, full_sends hc.1⟩

/-- The repository with one more file, after its function was stored. -/
def extended : World :=
  let texts := [("a.py", "def alpha():\n    return 1\n"), ("b.py", "def beta():\n    alpha()\n")]
  (World.ofTexts texts).withStateOf (full .rewritten).2

/-- A file is stored next to one that is unchanged. -/
theorem leaves_unchanged_extended :
    (unchanged extended).map (·.path) = ["a.py"] ∧ (full extended).2.store.graph.files.contains "b.py" = true ∧
      (∀ f ∈ unchanged extended, SameFile f.path extended.store.graph (full extended).2.store.graph) ∧
      extended.Sends (Renews extended) (full extended).2 := by
  obtain ⟨hunchanged, hstored, hregular, hregular', hunambiguous, hmem⟩ :
      (unchanged extended).map (·.path) = ["a.py"] ∧
        (full extended).2.store.graph.files.contains "b.py" = true ∧
        World.rewritten.tree.Regular ∧ extended.tree.Regular ∧ Unambiguous (· ∈ extended.documents) ∧
        ∀ D ∈ World.rewritten.documents, D ∈ extended.documents := by
    decide +kernel
  have hserved : Served (· ∈ extended.documents) (full .rewritten).2 :=
    .call .full (.start rfl) ⟨hregular, fun D hD => hmem D hD.mem_documents⟩
  exact ⟨hunchanged, hstored, Served.leaves_unchanged hunambiguous.separate (hserved.withStateOf _)
    ⟨hregular', fun D hD => hD.mem_documents⟩⟩

end Sync

end RepoAtlas
