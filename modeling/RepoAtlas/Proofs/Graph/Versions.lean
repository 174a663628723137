import RepoAtlas.Proofs.Graph.Reachability

/-!
# Versions of files

Files and what commits did to them come and go independently, and a revision is a version of the file at
its path as long as both are there. The link is put with whichever of the two comes last: a new file is
linked from the revisions that are listed for its path, a new revision to the file if it is stored. Both
look at the graph as it is then, so it does not matter what was stored or removed before.
-/

namespace RepoAtlas

open KnowledgeGraph

namespace KnowledgeGraph

/-- Every stored revision of the path of a stored file is a version of it. -/
def Versioned (g : KnowledgeGraph) : Prop :=
  ∀ (p : String) (f : SourceFile) (i : RevisionId) (v : FileRevision), g.files[p]? = some f →
    g.revisions[i]? = some v → v.path = p → g.hasEdge ⟨.versionOf, .revision i, .file p⟩ = true

namespace Versioned

variable {g g' : KnowledgeGraph} {d : Draft}

lemma empty : Versioned {} := by
  intro p f i v hf
  have : (∅ : Std.ExtTreeMap String SourceFile)[p]? = some f := hf
  simp at this

/-- Writes that leave files and revisions alone and take no version away. -/
lemma of_kept (h : g.Versioned) (hfiles : g'.files = g.files) (hrevisions : g'.revisions = g.revisions)
    (hkept : ∀ i p, g.hasEdge ⟨.versionOf, .revision i, .file p⟩ = true →
      g'.hasEdge ⟨.versionOf, .revision i, .file p⟩ = true) : g'.Versioned := by
  intro p f i v hf hv hp
  rw [hfiles] at hf
  rw [hrevisions] at hv
  exact hkept i p (h p f i v hf hv hp)

/-- A version goes with its file or with its revision only. -/
lemma removes {gone : NodeKey → Prop} (h : g.Versioned) (hr : Removes gone g g') : g'.Versioned := by
  intro p f i v hf hv hp
  obtain ⟨hf, hfile⟩ := (hr.file p f).mp hf
  obtain ⟨hv, hrevision⟩ := (hr.revision i v).mp hv
  exact (hr.edge _).mpr ⟨h p f i v hf hv hp, hrevision, hfile⟩

/-- A file that comes last is linked from the revisions that are listed for its path. -/
lemma upsertFile (h : d.graph.Versioned) (hw : d.graph.WellFormed) (f : SourceFile) :
    (d.upsertFile f).graph.Versioned := by
  have htables := Draft.tables_upsertFile (d := d) (f := f)
  simp only [tables, NodeTables.mk.injEq] at htables
  obtain ⟨hfiles, -, -, -, -, hrevisions, -⟩ := htables
  intro p f' i v hf hv hp
  rw [hrevisions] at hv
  rw [hfiles] at hf
  rw [Draft.hasEdge_upsertFile]
  obtain ⟨rfl, -⟩ | ⟨-, hf⟩ := Draft.getElem?_insert_eq_some_iff.mp hf
  · cases hold : d.graph.files[f.path]? with
    | none => exact Or.inl ⟨rfl, i, (hw.indexed.byPath f.path i).mpr ⟨v, hv, hp⟩, rfl⟩
    | some old => exact Or.inr (h f.path old i v hold hv hp)
  · exact Or.inr (h p f' i v hf hv hp)

/-- A revision that comes last is linked to the file at its path. -/
lemma upsertRevision (h : d.graph.Versioned) (r : FileRevision) :
    (d.upsertRevision r).graph.Versioned := by
  by_cases hold : d.graph.revisions.contains r.id = true
  · rw [Draft.upsertRevision_of_contains hold]
    exact h
  replace hold := (Bool.not_eq_true _).mp hold
  have htables := Draft.tables_upsertRevision hold
  simp only [tables, NodeTables.mk.injEq] at htables
  obtain ⟨hfiles, -, -, -, -, hrevisions, -⟩ := htables
  intro p f i v hf hv hp
  rw [hfiles] at hf
  rw [hrevisions] at hv
  rw [Draft.hasEdge_upsertRevision hold]
  obtain ⟨rfl, rfl⟩ | ⟨-, hv⟩ := Draft.getElem?_insert_eq_some_iff.mp hv
  · subst hp
    refine Or.inl ⟨?_, rfl⟩
    rw [Std.ExtTreeMap.contains_eq_isSome_getElem?, hf]
    rfl
  · exact Or.inr (h p f i v hf hv hp)

lemma upsertUnit (h : d.graph.Versioned) (u : CodeUnit) : (d.upsertUnit u).graph.Versioned := by
  by_cases hold : d.graph.units[u.id]? = some u
  · rw [Draft.upsertUnit_of_eq hold]
    exact h
  · have htables := Draft.tables_upsertUnit hold
    exact h.of_kept (congrArg NodeTables.files htables) (congrArg NodeTables.revisions htables)
      fun i p he => (Draft.hasEdge_upsertUnit hold).mpr (Or.inr he)

lemma upsertChunk (h : d.graph.Versioned) (c : SemanticChunk) : (d.upsertChunk c).graph.Versioned := by
  obtain ⟨stored, n, -, -, htables⟩ := Draft.tables_upsertChunk d c
  exact h.of_kept (congrArg NodeTables.files htables) (congrArg NodeTables.revisions htables)
    fun i p he => Draft.hasEdge_upsertChunk.mpr (Or.inr he)

lemma upsert (h : d.graph.Versioned) (hw : d.graph.WellFormed) (n : GraphNode) :
    (d.upsert n).graph.Versioned := by
  cases n with
  | sourceFile f => exact h.upsertFile hw f
  | codeUnit u => exact h.upsertUnit u
  | semanticChunk c => exact h.upsertChunk c
  | commit c =>
    obtain ⟨commits, hgraph⟩ := d.exists_graph_upsertCommit c
    rw [Draft.upsert, hgraph]
    exact h
  | author a =>
    rw [Draft.upsert, Draft.graph_upsertAuthor]
    exact h
  | fileRevision r => exact h.upsertRevision r

/-- No write takes the link away from a revision and a file that are both there after it. -/
lemma applyOp (h : d.graph.Versioned) (hw : d.graph.WellFormed) (op : WriteOp) :
    (d.applyOp op).graph.Versioned := by
  have hm := hw.adjacent.mirrored
  cases op with
  | upsertNode n => exact h.upsert hw n
  | upsertEdge e =>
    have htables := Draft.tables_insertEdge (d := d) (e := e)
    exact h.of_kept (congrArg NodeTables.files htables) (congrArg NodeTables.revisions htables)
      fun i p he => Draft.hasEdge_insertEdge.mpr (Or.inr he)
  | clearFile path => exact h.removes (Draft.removes_clearFile hm path)
  | removeFile path => exact h.removes (Draft.removes_removeFile hm path)
  | replaceImports path targets =>
    have htables : (d.replaceImports path targets).graph.tables = d.graph.tables := Draft.tables_replaceImports
    exact h.of_kept (congrArg NodeTables.files htables) (congrArg NodeTables.revisions htables)
      fun i p he => Draft.hasEdge_replaceImports.mpr (Or.inr ⟨by simp, he⟩)
  | replaceCalls path calls =>
    have htables : (d.replaceCalls path calls).graph.tables = d.graph.tables := Draft.tables_replaceCalls
    exact h.of_kept (congrArg NodeTables.files htables) (congrArg NodeTables.revisions htables)
      fun i p he => Draft.hasEdge_replaceCalls.mpr (Or.inr ⟨by simp, he⟩)
  | retainHistory repo revisions =>
    exact h.removes (Draft.removes_retainHistory hm hw.adjacent.typed repo _)

/-- A link is loaded with the file and the revision that it connects. -/
lemma ofSnapshot (h : g.Versioned) (hw : g.WellFormed) : (KnowledgeGraph.ofSnapshot g.snapshot).Versioned := by
  have hr := hw.restores_ofSnapshot
  intro p f i v hf hv hp
  rw [hr.files] at hf
  rw [hr.revisions] at hv
  refine (hr.edge _).mpr ⟨h p f i v hf hv hp, ?_, ?_⟩
  · simp [KnowledgeGraph.contains, Std.ExtTreeMap.contains_eq_isSome_getElem?, hv]
  · simp [KnowledgeGraph.contains, Std.ExtTreeMap.contains_eq_isSome_getElem?, hf]

end Versioned

lemma Reachable.versioned {g : KnowledgeGraph} (h : g.Reachable) : g.Versioned :=
  h.invariant Versioned.empty (fun _ op hw _ hd => hd.applyOp hw op) fun _ hw hg => hg.ofSnapshot hw

/-- Whatever was added, removed, saved and loaded on the way to a graph, and in whatever order, every stored
revision of the path of a stored file is linked to the file. -/
theorem Reachable.versionOf_stored {g : KnowledgeGraph} (h : g.Reachable) {p : String} {f : SourceFile}
    {i : RevisionId} {v : FileRevision} (hf : g.files[p]? = some f) (hv : g.revisions[i]? = some v)
    (hpath : v.path = f.path) : g.hasEdge ⟨.versionOf, .revision i, .file p⟩ = true := by
  have hkey : f.path = p := h.wellFormed.indexed.files p f hf
  exact h.versioned p f i v hf hv (hpath.trans hkey)

/-- What a commit did to a file that is not stored. -/
def earlyRevision : WriteBatch := [.upsertNode (.fileRevision ⟨"r", "1", "a.py", .added, none, 1, 0⟩)]

/-- The file itself. -/
def lateFile : WriteBatch := [.upsertNode (.sourceFile ⟨"a.py", "python", "f", default, [], []⟩)]

/-- A revision is stored, the graph is saved and loaded, and the file comes after that. -/
theorem Reachable.versionOf_stored_lateFile : ∃ s s' f v,
    ({} : GraphStore).applyAll [earlyRevision] = .ok s ∧
      GraphStore.applyAll { graph := .ofSnapshot s.graph.snapshot } [lateFile] = .ok s' ∧
      s'.graph.files["a.py"]? = some f ∧ s'.graph.revisions[(⟨"r", "1", "a.py"⟩ : RevisionId)]? = some v ∧
      v.path = f.path ∧
      s'.graph.hasEdge ⟨.versionOf, .revision ⟨"r", "1", "a.py"⟩, .file "a.py"⟩ = true := by
  have hstored : (({} : GraphStore).applyAll [earlyRevision]).toOption.bind (fun s =>
      (GraphStore.applyAll { graph := .ofSnapshot s.graph.snapshot } [lateFile]).toOption.map fun s' =>
        ((s'.graph.files["a.py"]?).map SourceFile.path,
          (s'.graph.revisions[(⟨"r", "1", "a.py"⟩ : RevisionId)]?).map FileRevision.path)) =
      some (some "a.py", some "a.py") := by
    decide +kernel
  cases hrun : ({} : GraphStore).applyAll [earlyRevision] with
  | error e => simp [hrun, Except.toOption] at hstored
  | ok s =>
    cases hlater : GraphStore.applyAll { graph := .ofSnapshot s.graph.snapshot } [lateFile] with
    | error e => simp [hrun, hlater, Except.toOption] at hstored
    | ok s' =>
      simp only [hrun, hlater, Except.toOption, Option.bind_some, Option.map_some, Option.some.injEq,
        Prod.mk.injEq, Option.map_eq_some_iff] at hstored
      obtain ⟨⟨f, hf, hfile⟩, v, hv, hrevision⟩ := hstored
      have hpath : v.path = f.path := hrevision.trans hfile.symm
      have hreachable : s'.graph.Reachable := .applyAll (.loaded (.applyAll .empty hrun)) hlater
      exact ⟨s, s', f, v, rfl, hlater, hf, hv, hpath, hreachable.versionOf_stored hf hv hpath⟩

end KnowledgeGraph

end RepoAtlas
