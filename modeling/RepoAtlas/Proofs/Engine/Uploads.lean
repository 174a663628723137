import RepoAtlas.Proofs.Engine.Storing
import RepoAtlas.Proofs.Engine.Undivided
import RepoAtlas.Proofs.Graph.Domains
import RepoAtlas.Proofs.Graph.Unnumbered

/-!
# What uploads make of a graph

An upload is the batch by which a file is stored: it clears the file and puts it with its units and its
chunks. `Uploaded Us g g'` says what a list of uploads of different files makes of a graph, and says it
without the order of the list: each upload puts its own nodes and edges, and what goes with the path of one
of them goes. A single upload does that to every reachable graph whose paths have no colon.
-/

namespace RepoAtlas

open KnowledgeGraph

/-! ### Units are listed under their paths -/

lemma CodeUnit.ownedBy_of_flaw? {u : CodeUnit} (h : (GraphNode.codeUnit u).flaw? = none) :
    OwnedBy u.path u.id := ⟨u.qualifiedName, u.id_eq_of_flaw? h⟩

namespace KnowledgeGraph

/-- Stored units are listed under their paths, and what is listed under a path has an id of that path. -/
structure Shelved (g : KnowledgeGraph) : Prop where
  listed : ∀ (i : String) (u : CodeUnit), g.units[i]? = some u → hasEntry g.unitsByFile u.path i = true
  owned : ∀ p i, hasEntry g.unitsByFile p i = true → OwnedBy p i

namespace Shelved

variable {g g' : KnowledgeGraph} {d : Draft}

lemma empty : Shelved {} where
  listed i u h := by
    have : (∅ : Std.ExtTreeMap String CodeUnit)[i]? = some u := h
    simp at this
  owned p i h := by
    have : hasEntry (∅ : Index String) p i = true := h
    simp at this

lemma ownedBy (h : g.Shelved) {i : String} {u : CodeUnit} (hu : g.units[i]? = some u) : OwnedBy u.path i :=
  h.owned _ _ (h.listed i u hu)

/-- Writes that leave the units alone. -/
lemma congr (h : g.Shelved) (hunits : g'.units = g.units) (hby : g'.unitsByFile = g.unitsByFile) :
    g'.Shelved where
  listed := by
    rw [hunits, hby]
    exact h.listed
  owned := by
    rw [hby]
    exact h.owned

lemma of_tables (h : g.Shelved) (htables : g'.tables = g.tables) : g'.Shelved :=
  h.congr (congrArg NodeTables.units htables) (congrArg NodeTables.unitsByFile htables)

/-- A unit that goes is taken off the list of its own path. -/
lemma removes {gone : NodeKey → Prop} (h : g.Shelved) (hr : Removes gone g g') : g'.Shelved where
  listed i u hu := by
    obtain ⟨hu, hstays⟩ := (hr.unit i u).mp hu
    refine (hr.byFile _ _).mpr ⟨h.listed i u hu, ?_⟩
    rintro ⟨_, -, -, hgone⟩
    exact hstays hgone
  owned p i hi := h.owned p i ((hr.byFile p i).mp hi).1

lemma upsertUnit (h : d.graph.Shelved) {u : CodeUnit} (hu : OwnedBy u.path u.id) :
    (d.upsertUnit u).graph.Shelved := by
  by_cases hold : d.graph.units[u.id]? = some u
  · rw [Draft.upsertUnit_of_eq hold]
    exact h
  have htables := Draft.tables_upsertUnit hold
  simp only [tables, NodeTables.mk.injEq] at htables
  obtain ⟨-, hunits, -, -, -, -, hby, -⟩ := htables
  constructor
  case listed =>
    intro i v hv
    rw [hunits] at hv
    rw [hby, hasEntry_addEntry]
    obtain ⟨rfl, rfl⟩ | ⟨-, hv⟩ := Draft.getElem?_insert_eq_some_iff.mp hv
    · exact Or.inl ⟨rfl, rfl⟩
    · exact Or.inr (h.listed i v hv)
  case owned =>
    intro p i hi
    rw [hby, hasEntry_addEntry] at hi
    obtain ⟨rfl, rfl⟩ | hi := hi
    · exact hu
    · exact h.owned p i hi

lemma upsert (h : d.graph.Shelved) {n : GraphNode} (hn : n.flaw? = none) : (d.upsert n).graph.Shelved := by
  cases n with
  | sourceFile f =>
    have htables := Draft.tables_upsertFile (d := d) (f := f)
    exact h.congr (congrArg NodeTables.units htables) (congrArg NodeTables.unitsByFile htables)
  | codeUnit u => exact h.upsertUnit (CodeUnit.ownedBy_of_flaw? hn)
  | semanticChunk c =>
    obtain ⟨_, _, -, -, htables⟩ := Draft.tables_upsertChunk d c
    exact h.congr (congrArg NodeTables.units htables) (congrArg NodeTables.unitsByFile htables)
  | commit c =>
    obtain ⟨commits, hgraph⟩ := d.exists_graph_upsertCommit c
    rw [Draft.upsert, hgraph]
    exact h.congr rfl rfl
  | author a =>
    rw [Draft.upsert, Draft.graph_upsertAuthor]
    exact h.congr rfl rfl
  | fileRevision r =>
    obtain ⟨revisions, byPath, htables⟩ := d.exists_tables_upsertRevision r
    exact h.congr (congrArg NodeTables.units htables) (congrArg NodeTables.unitsByFile htables)

lemma applyOp (h : d.graph.Shelved) (hw : d.graph.WellFormed) {op : WriteOp} (hop : op.Regular) :
    (d.applyOp op).graph.Shelved := by
  have hm := hw.adjacent.mirrored
  cases op with
  | upsertNode n => exact h.upsert hop
  | upsertEdge e => exact h.of_tables Draft.tables_insertEdge
  | clearFile path => exact h.removes (Draft.removes_clearFile hm path)
  | removeFile path => exact h.removes (Draft.removes_removeFile hm path)
  | replaceImports path targets => exact h.of_tables Draft.tables_replaceImports
  | replaceCalls path calls => exact h.of_tables Draft.tables_replaceCalls
  | retainHistory repo revisions => exact h.removes (Draft.removes_retainHistory hm hw.adjacent.typed repo _)

/-- The index that is built anew lists exactly the stored units. -/
lemma ofSnapshot (h : g.Shelved) (hw : g.WellFormed) : (KnowledgeGraph.ofSnapshot g.snapshot).Shelved := by
  have hr := hw.restores_ofSnapshot
  have hby : ∀ p i, hasEntry (KnowledgeGraph.ofSnapshot g.snapshot).unitsByFile p i = true ↔
      ∃ u, g.units[i]? = some u ∧ u.path = p := by
    intro p i
    have htables := (tables_ofSnapshot g.snapshot).trans hw.tables_nodesOf
    rw [show (KnowledgeGraph.ofSnapshot g.snapshot).unitsByFile = _ from
      congrArg NodeTables.unitsByFile htables]
    exact hw.indexed.units.hasEntry_index CodeUnit.path
  constructor
  case listed =>
    intro i u hu
    rw [hr.units] at hu
    exact (hby _ _).mpr ⟨u, hu, rfl⟩
  case owned =>
    intro p i hi
    obtain ⟨u, hu, rfl⟩ := (hby p i).mp hi
    exact h.ownedBy hu

end Shelved

/-- Every reachable graph lists its units under their paths. -/
lemma Reachable.shelved {g : KnowledgeGraph} (h : g.Reachable) : g.Shelved :=
  h.invariant .empty (fun _ _ hw hop h => h.applyOp hw hop) fun _ hw h => h.ofSnapshot hw

end KnowledgeGraph

variable {g g' : KnowledgeGraph} {d : Draft}

/-- If the units of a path are those that are listed under it, what is cleared with the path is what goes
with it. -/
lemma KnowledgeGraph.Shelved.goneFrom_iff (h : g.Shelved)
    (hstored : ∀ (i : String) (u : CodeUnit), g.units[i]? = some u → ':' ∉ u.path.toList) {path : String}
    (hpath : ':' ∉ path.toList) {k : NodeKey} : Draft.GoneWithContents g path k ↔ GoneFrom g path k := by
  refine goneFrom_iff_of_listed fun i u hu => ⟨fun hi => ?_, ?_⟩
  · exact (h.ownedBy hu).unique (h.owned path i hi) (hstored i u hu) hpath
  · rintro rfl
    exact h.listed i u hu

/-! ### Putting units and chunks -/

/-- The chunk that stands under an id after a chunk was put over what stood there. A chunk that is the same
is not stored again. -/
def SemanticChunk.over (old : Option SemanticChunk) (c : SemanticChunk) : SemanticChunk :=
  match old with
  | some s => if s.same c then s else c
  | none => c

/-- What stands under an id after chunks were put one after the other over what stood there. -/
def putChunks (cs : List SemanticChunk) (id : String) (old : Option SemanticChunk) : Option SemanticChunk :=
  cs.foldl (fun o c => if c.id = id then some (c.over o) else o) old

lemma putChunks_of_forall_ne {cs : List SemanticChunk} {id : String} (h : ∀ c ∈ cs, c.id ≠ id)
    (old : Option SemanticChunk) : putChunks cs id old = old := by
  induction cs with
  | nil => rfl
  | cons c cs ih =>
    rw [putChunks, List.foldl_cons, if_neg (h c (by simp))]
    exact ih fun c' hc' => h c' (by simp [hc'])

lemma putChunks_some (cs : List SemanticChunk) (id : String) (s : SemanticChunk) :
    ∃ s', putChunks cs id (some s) = some s' := by
  induction cs generalizing s with
  | nil => exact ⟨s, rfl⟩
  | cons c cs ih =>
    rw [putChunks, List.foldl_cons]
    split
    · exact ih _
    · exact ih s

/-- Under the id of a chunk that was put stands a chunk. -/
lemma exists_putChunks {cs : List SemanticChunk} {c : SemanticChunk} (hc : c ∈ cs)
    (old : Option SemanticChunk) : ∃ s, putChunks cs c.id old = some s := by
  induction cs generalizing old with
  | nil => cases hc
  | cons c' cs ih =>
    rw [putChunks, List.foldl_cons]
    rcases List.mem_cons.mp hc with rfl | hc
    · rw [if_pos rfl]
      exact putChunks_some cs c.id _
    · exact ih hc _

namespace Draft

/-- Units that are put are listed under their paths and contained in their files, if those of them that
are stored already are. -/
lemma listed_foldl_upsertUnit (l : List CodeUnit) (d : Draft)
    (hl : ∀ u ∈ l, d.graph.units[u.id]? = some u → hasEntry d.graph.unitsByFile u.path u.id = true ∧
      d.graph.hasEdge ⟨.contains, .file u.path, .unit u.id⟩ = true) :
    (∀ p i, hasEntry (l.foldl upsertUnit d).graph.unitsByFile p i = true ↔
      (∃ u ∈ l, p = u.path ∧ i = u.id) ∨ hasEntry d.graph.unitsByFile p i = true) ∧
    ∀ e, (l.foldl upsertUnit d).graph.hasEdge e = true ↔
      (∃ u ∈ l, e = ⟨.contains, .file u.path, .unit u.id⟩) ∨ d.graph.hasEdge e = true := by
  induction l generalizing d with
  | nil => simp
  | cons u l ih =>
    -- what is listed and contained after the first unit is put
    have hput : (∀ p i, hasEntry (d.upsertUnit u).graph.unitsByFile p i = true ↔
          (p = u.path ∧ i = u.id) ∨ hasEntry d.graph.unitsByFile p i = true) ∧
        ∀ e, (d.upsertUnit u).graph.hasEdge e = true ↔
          e = ⟨.contains, .file u.path, .unit u.id⟩ ∨ d.graph.hasEdge e = true := by
      by_cases hold : d.graph.units[u.id]? = some u
      · obtain ⟨hentry, hedge⟩ := hl u (by simp) hold
        rw [upsertUnit_of_eq hold]
        refine ⟨fun p i => (or_iff_right_of_imp ?_).symm, fun e => (or_iff_right_of_imp ?_).symm⟩
        · rintro ⟨rfl, rfl⟩
          exact hentry
        · rintro rfl
          exact hedge
      · have hby := congrArg NodeTables.unitsByFile (tables_upsertUnit hold)
        refine ⟨fun p i => ?_, fun e => hasEdge_upsertUnit hold⟩
        rw [show (d.upsertUnit u).graph.unitsByFile = _ from hby, hasEntry_addEntry]
    obtain ⟨hentries, hedges⟩ := ih (d.upsertUnit u) fun v hv hstored => by
      rw [(d.upsertUnit_tables u).2.1, getElem?_insert_eq_some_iff] at hstored
      rw [hput.1, hput.2]
      obtain ⟨-, rfl⟩ | ⟨-, hstored⟩ := hstored
      · exact ⟨Or.inl ⟨rfl, rfl⟩, Or.inl rfl⟩
      · exact (hl v (by simp [hv]) hstored).imp Or.inr Or.inr
    rw [List.foldl_cons]
    refine ⟨fun p i => ?_, fun e => ?_⟩
    · rw [hentries, hput.1, List.exists_mem_cons_iff]
      exact or_left_comm.trans or_assoc.symm
    · rw [hedges, hput.2, List.exists_mem_cons_iff]
      exact or_left_comm.trans or_assoc.symm

lemma chunks_upsertChunk (d : Draft) (c : SemanticChunk) : ∃ n,
    (d.upsertChunk c).graph.chunks = d.graph.chunks.insert c.id ⟨c.over (d.graph.content c.id), n⟩ := by
  have hkept : ∀ (d' : Draft) e, (d'.insertEdge e).graph.chunks = d'.graph.chunks :=
    fun _ _ => congrArg NodeTables.chunks tables_insertEdge
  simp only [upsertChunk, hkept, content]
  cases hold : d.graph.chunks[c.id]? with
  | none => exact ⟨d.graph.nextSequence, rfl⟩
  | some s =>
    refine ⟨s.sequence, ?_⟩
    by_cases hsame : s.chunk.same c = true
    · simp only [hsame, if_true, Option.map_some, SemanticChunk.over]
      exact (insert_eq_self hold).symm
    · simp only [hsame, Option.map_some, SemanticChunk.over]
      rfl

lemma content_upsertChunk (d : Draft) (c : SemanticChunk) (i : String) :
    (d.upsertChunk c).graph.content i =
      if c.id = i then some (c.over (d.graph.content i)) else d.graph.content i := by
  obtain ⟨n, hchunks⟩ := chunks_upsertChunk d c
  apply Option.ext
  intro s
  rw [content_eq_some, hchunks]
  by_cases hi : c.id = i
  · subst hi
    simp
  · simp [getElem?_insert_eq_some_iff, hi, Ne.symm hi, content_eq_some]

lemma content_foldl_upsertChunk (cs : List SemanticChunk) (d : Draft) (i : String) :
    (cs.foldl upsertChunk d).graph.content i = putChunks cs i (d.graph.content i) := by
  induction cs generalizing d with
  | nil => rfl
  | cons c cs ih =>
    rw [List.foldl_cons, ih, content_upsertChunk, putChunks, putChunks, List.foldl_cons]

lemma hasEdge_foldl_upsertChunk (cs : List SemanticChunk) (d : Draft) {e : GraphEdge} :
    (cs.foldl upsertChunk d).graph.hasEdge e = true ↔
      (∃ c ∈ cs, e = ⟨.describes, .chunk c.id, .unit c.unitId⟩) ∨ d.graph.hasEdge e = true := by
  induction cs generalizing d with
  | nil => simp
  | cons c cs ih =>
    rw [List.foldl_cons, ih, hasEdge_upsertChunk]
    simp only [List.mem_cons, exists_eq_or_imp]
    rw [← or_assoc, or_comm (b := e = _)]

end Draft

/-! ### Uploads -/

/-- What is stored of a file by one batch. -/
structure Upload where
  file : SourceFile
  units : List CodeUnit
  chunks : List SemanticChunk
  unit_path : ∀ u ∈ units, u.path = file.path
  chunk_unit : ∀ c ∈ chunks, ∃ u ∈ units, u.id = c.unitId

namespace Upload

def path (U : Upload) : String := U.file.path

/-- The batch that stores an upload. -/
def batch (U : Upload) : WriteBatch := Ingest.contents U.file U.units U.chunks

/-- The edges that an upload puts: its file contains its units, its chunks describe them, and a file that
is new gets the revisions of its path. -/
inductive Puts (U : Upload) (g : KnowledgeGraph) : GraphEdge → Prop
  | contains {u : CodeUnit} : u ∈ U.units → U.Puts g ⟨.contains, .file U.path, .unit u.id⟩
  | describes {c : SemanticChunk} : c ∈ U.chunks → U.Puts g ⟨.describes, .chunk c.id, .unit c.unitId⟩
  | versionOf {r : RevisionId} {v : FileRevision} : g.files[U.path]? = none → g.revisions[r]? = some v →
      v.path = U.path → U.Puts g ⟨.versionOf, .revision r, .file U.path⟩

end Upload

/-- What uploads of different files make of a graph, whatever their order. -/
structure Uploaded (Us : List Upload) (g g' : KnowledgeGraph) : Prop where
  file : ∀ (p : String) (f : SourceFile), g'.files[p]? = some f ↔
    (∃ U ∈ Us, U.path = p ∧ U.file = f) ∨ ((∀ U ∈ Us, U.path ≠ p) ∧ g.files[p]? = some f)
  unit : ∀ (i : String) (u : CodeUnit), g'.units[i]? = some u ↔
    (∃ U ∈ Us, lastUnit U.units i = some u) ∨ ((∀ U ∈ Us, U.path ≠ u.path) ∧ g.units[i]? = some u)
  byFile : ∀ p i, hasEntry g'.unitsByFile p i = true ↔
    (∃ U ∈ Us, ∃ u ∈ U.units, p = u.path ∧ i = u.id) ∨
      (hasEntry g.unitsByFile p i = true ∧
        ∀ U ∈ Us, U.path = p → ∀ u, g.units[i]? = some u → u.path ≠ p)
  chunk_new : ∀ U ∈ Us, ∀ c ∈ U.chunks, ∃ old,
    (∀ s, old = some s ↔ g.content c.id = some s ∧ ¬GoneFrom g U.path (.chunk c.id)) ∧
      g'.content c.id = putChunks U.chunks c.id old
  chunk_old : ∀ i s, (∀ U ∈ Us, ∀ c ∈ U.chunks, c.id ≠ i) →
    (g'.content i = some s ↔ g.content i = some s ∧ ∀ U ∈ Us, ¬GoneFrom g U.path (.chunk i))
  edge : ∀ e, g'.hasEdge e = true ↔ (∃ U ∈ Us, U.Puts g e) ∨
    (g.hasEdge e = true ∧ ∀ U ∈ Us, ¬GoneFrom g U.path e.source ∧ ¬GoneFrom g U.path e.target)
  history : Spares .history g g'

namespace Upload

variable {U : Upload}

/-- An upload is about the code. -/
lemma domain_batch {op : WriteOp} (hop : op ∈ U.batch) : op.domain? = some .code := by
  simp only [batch, Ingest.contents, List.mem_append, List.mem_cons, List.not_mem_nil, or_false, List.mem_map,
    Function.comp_apply] at hop
  rcases hop with ((rfl | rfl) | ⟨u, -, rfl⟩) | ⟨c, -, rfl⟩ <;> rfl

/-- The units of an upload that is admitted have ids of its path. -/
lemma ownedBy (hb : ∀ op ∈ U.batch, op.Regular) {u : CodeUnit} (hu : u ∈ U.units) : OwnedBy U.path u.id := by
  have hregular := hb (.upsertNode (.codeUnit u)) (by simp [batch, Ingest.contents, hu])
  have hown := CodeUnit.ownedBy_of_flaw? hregular
  rwa [U.unit_path u hu] at hown

lemma puts_iff {e : GraphEdge} : U.Puts g e ↔
    (∃ c ∈ U.chunks, e = ⟨.describes, .chunk c.id, .unit c.unitId⟩) ∨
      (∃ u ∈ U.units, e = ⟨.contains, .file u.path, .unit u.id⟩) ∨
      (g.files[U.path]? = none ∧ ∃ r v, g.revisions[r]? = some v ∧ v.path = U.path ∧
        e = ⟨.versionOf, .revision r, .file U.path⟩) := by
  constructor
  · rintro (⟨hu⟩ | ⟨hc⟩ | ⟨hnew, hv, hp⟩)
    · exact Or.inr (Or.inl ⟨_, hu, by rw [U.unit_path _ hu]; rfl⟩)
    · exact Or.inl ⟨_, hc, rfl⟩
    · exact Or.inr (Or.inr ⟨hnew, _, _, hv, hp, rfl⟩)
  · rintro (⟨c, hc, rfl⟩ | ⟨u, hu, rfl⟩ | ⟨hnew, r, v, hv, hp, rfl⟩)
    · exact .describes hc
    · rw [U.unit_path u hu]
      exact .contains hu
    · exact .versionOf hnew hv hp

/-- What the first two writes of an upload make of a graph: the contents of its file go, and the file is
put. -/
structure Opened (U : Upload) (g g' : KnowledgeGraph) : Prop where
  file : ∀ (p : String) (f : SourceFile), g'.files[p]? = some f ↔
    (U.path = p ∧ U.file = f) ∨ (U.path ≠ p ∧ g.files[p]? = some f)
  unit : ∀ (i : String) (u : CodeUnit), g'.units[i]? = some u ↔ U.path ≠ u.path ∧ g.units[i]? = some u
  byFile : ∀ p i, hasEntry g'.unitsByFile p i = true ↔
    hasEntry g.unitsByFile p i = true ∧ (U.path = p → ∀ u, g.units[i]? = some u → u.path ≠ p)
  content : ∀ i s, g'.content i = some s ↔ g.content i = some s ∧ ¬GoneFrom g U.path (.chunk i)
  edge : ∀ e, g'.hasEdge e = true ↔
    (g.files[U.path]? = none ∧ ∃ r v, g.revisions[r]? = some v ∧ v.path = U.path ∧
      e = ⟨.versionOf, .revision r, .file U.path⟩) ∨
    (g.hasEdge e = true ∧ ¬GoneFrom g U.path e.source ∧ ¬GoneFrom g U.path e.target)

section

variable (hw : g.WellFormed) (hs : g.Shelved)
  (hstored : ∀ (i : String) (u : CodeUnit), g.units[i]? = some u → ':' ∉ u.path.toList)
  (hpath : ':' ∉ U.path.toList)
include hw hs hstored hpath

lemma opened : Opened U g ((Draft.clearFile { graph := g } U.path).upsertFile U.file).graph := by
  have hr : Removes (GoneFrom g U.path) g (Draft.clearFile { graph := g } U.path).graph :=
    (Draft.removes_clearFile (d := { graph := g }) hw.adjacent.mirrored U.path).congr fun k =>
      hs.goneFrom_iff hstored hpath
  set d := Draft.clearFile { graph := g } U.path
  have htables := Draft.tables_upsertFile (d := d) (f := U.file)
  simp only [tables, NodeTables.mk.injEq] at htables
  obtain ⟨hfiles, hunits, hchunks, -, -, -, hby, -⟩ := htables
  constructor
  case file =>
    intro p f
    rw [hfiles, Draft.getElem?_insert_eq_some_iff, hr.file]
    simp only [GoneFrom, not_false_eq_true, and_true]
    exact or_congr (and_congr eq_comm eq_comm) (and_congr_left fun _ => ne_comm)
  case unit =>
    intro i u
    rw [hunits, hr.unit, and_comm]
    refine and_congr_left fun hu => not_congr ⟨?_, fun hp => ⟨u, hu, hp.symm⟩⟩
    rintro ⟨v, hv, hp⟩
    rw [← hp, Option.some.inj (hv.symm.trans hu)]
  case byFile =>
    intro p i
    rw [hby, hr.byFile]
    refine and_congr_right fun _ => ?_
    constructor
    · rintro hno rfl u hu hp
      exact hno ⟨u, hu, hp, u, hu, hp⟩
    · rintro hno ⟨u, hu, rfl, v, hv, hp⟩
      cases hu.symm.trans hv
      exact hno hp.symm u hu rfl
  case content =>
    intro i s
    simp only [content_eq_some, hchunks, hr.chunk]
    tauto
  case edge =>
    intro e
    have hlisted := hw.indexed.byPath
    simp only [tables] at hlisted
    rw [Draft.hasEdge_upsertFile, hr.edge, eq_of_removes hr.file fun _ => id]
    refine or_congr_left (and_congr_right fun _ => exists_congr fun r => ?_)
    rw [hr.byPath]
    simp only [GoneFrom, and_false, not_false_eq_true, and_true]
    rw [show U.file.path = U.path from rfl, hlisted]
    simp only [← exists_and_right, and_assoc]

/-- What a single upload makes of a graph. -/
lemma uploaded (hb : ∀ op ∈ U.batch, op.Regular) : Uploaded [U] g (g.applyBatch U.batch).graph := by
  have hhistory : Spares .history g (g.applyBatch U.batch).graph :=
    Reachable.invariant_applyBatch (P := fun g' => Spares .history g g')
      (fun d op hop hwd _ hd => hd.trans (Draft.spares_applyOp hwd (domain_batch hop) (by simp)))
      hw (Spares.refl _ g) hb
  have ho := opened hw hs hstored hpath
  have hgraph : g.applyBatch U.batch = U.chunks.foldl Draft.upsertChunk (U.units.foldl Draft.upsertUnit
      ((Draft.clearFile { graph := g } U.path).upsertFile U.file)) :=
    applyBatch_contents g U.file U.units U.chunks
  rw [hgraph] at hhistory ⊢
  set d := (Draft.clearFile { graph := g } U.path).upsertFile U.file
  -- the units are put, none of which is there
  have hfree : ∀ u ∈ U.units, ∀ v, d.graph.units[u.id]? ≠ some v := by
    intro u hu v hv
    obtain ⟨hne, hv⟩ := (ho.unit _ _).mp hv
    exact hne ((ownedBy hb hu).unique (hs.ownedBy hv) hpath (hstored _ _ hv))
  obtain ⟨units, byFile, byName, htables₁⟩ := Draft.tables_foldl_upsertUnit U.units d
  simp only [tables, NodeTables.mk.injEq] at htables₁
  obtain ⟨hfiles₁, -, hchunks₁, -⟩ := htables₁
  have hunit₁ := fun i u => Draft.units_foldl_upsertUnit U.units d (i := i) (u := u)
  obtain ⟨hby₁, hedge₁⟩ := Draft.listed_foldl_upsertUnit U.units d fun u hu h => absurd h (hfree u hu u)
  set d₁ := U.units.foldl Draft.upsertUnit d
  have hcontent₁ : ∀ i, d₁.graph.content i = d.graph.content i := fun i => by rw [content, hchunks₁, content]
  -- the chunks are put
  obtain ⟨chunks, n, htables₂⟩ := Draft.tables_foldl_upsertChunk U.chunks d₁
  simp only [tables, NodeTables.mk.injEq] at htables₂
  obtain ⟨hfiles₂, hunits₂, -, -, -, -, hby₂, -⟩ := htables₂
  have hcontent₂ : ∀ i, (U.chunks.foldl Draft.upsertChunk d₁).graph.content i =
      putChunks U.chunks i (d.graph.content i) :=
    fun i => by rw [Draft.content_foldl_upsertChunk, hcontent₁]
  constructor
  case file =>
    intro p f
    rw [hfiles₂, hfiles₁, ho.file]
    simp
  case unit =>
    intro i u
    rw [hunits₂, hunit₁, ho.unit]
    simp only [List.mem_singleton, exists_eq_left, forall_eq]
    refine or_congr_right (and_iff_right_of_imp fun hu => lastUnit_eq_none.mpr fun v hv hid => ?_)
    exact hfree v hv u ((ho.unit _ _).mpr (hid ▸ hu))
  case byFile =>
    intro p i
    rw [hby₂, hby₁, ho.byFile]
    simp
  case chunk_new =>
    intro V hV c hc
    rw [List.mem_singleton.mp hV]
    exact ⟨_, ho.content c.id, hcontent₂ c.id⟩
  case chunk_old =>
    intro i s hi
    simp only [List.mem_singleton, forall_eq] at hi ⊢
    rw [hcontent₂, putChunks_of_forall_ne hi, ho.content]
  case edge =>
    intro e
    rw [Draft.hasEdge_foldl_upsertChunk, hedge₁, ho.edge]
    simp only [List.mem_singleton, exists_eq_left, forall_eq, puts_iff, or_assoc]
  case history => exact hhistory

end

end Upload

/-- What the engine stores of a file is an upload. -/
lemma Ingest.Stores.exists_upload {D : Document} {f : IngestedFile} {w w' : World}
    (h : Ingest.Stores D f w w') :
    ∃ U : Upload, U.path = D.path ∧ w'.store.graph = (w.store.graph.applyBatch U.batch).graph := by
  obtain ⟨t, cs, hcs, hgraph, -⟩ := h.batch
  refine ⟨⟨D.node t, D.units, cs, fun u hu => Document.path_of_mem_units hu, fun c hc => ?_⟩, rfl, hgraph⟩
  obtain ⟨u, hu, -⟩ := hcs c hc
  exact ⟨u, hu.mem, hu.unit⟩

end RepoAtlas
