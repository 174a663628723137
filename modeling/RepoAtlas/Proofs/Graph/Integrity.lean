import RepoAtlas.Graph.Store
import RepoAtlas.Proofs.Graph.Insertion

/-!
# Referential integrity

A reference is an edge with one of its ends, a chunk with its unit, or a unit with its file; it dangles
if the node at the other end is not stored. Removals take every reference to a removed node with them,
so a reference can come to dangle only in a write that puts it while its node is missing. The admission
check is meant to rule this out, but its view of the nodes drifts from the graph: `referential_iff_mended`
says exactly which admitted histories keep the integrity, and `not_referential` is one that does not.
-/

namespace RepoAtlas

/-- The things that refer to nodes. -/
inductive Holder where
  | edge (e : GraphEdge)
  | chunk (id : String)
  | unit (id : String)

namespace KnowledgeGraph

variable {g g' : KnowledgeGraph} {h : Holder} {k : NodeKey}

/-- The nodes that a stored thing refers to. -/
def Refers (g : KnowledgeGraph) : Holder → NodeKey → Prop
  | .edge e, k => g.hasEdge e = true ∧ (k = e.source ∨ k = e.target)
  | .chunk i, k => ∃ c, g.chunks[i]? = some c ∧ k = .unit c.chunk.unitId
  | .unit i, k => ∃ u, g.units[i]? = some u ∧ k = .file u.path

/-- A stored thing refers to a node that is not stored. -/
def Dangling (g : KnowledgeGraph) (h : Holder) (k : NodeKey) : Prop :=
  g.Refers h k ∧ g.contains k = false

/-- Edges connect stored nodes, chunks describe stored units, and units stand in stored files. -/
structure Referential (g : KnowledgeGraph) : Prop where
  edges : ∀ e, g.hasEdge e = true → g.contains e.source = true ∧ g.contains e.target = true
  chunks : ∀ (i : String) (c : StoredChunk), g.chunks[i]? = some c → g.units.contains c.chunk.unitId = true
  units : ∀ (i : String) (u : CodeUnit), g.units[i]? = some u → g.files.contains u.path = true

/-- Integrity is that nothing dangles. -/
lemma referential_iff : g.Referential ↔ ∀ h k, ¬g.Dangling h k := by
  constructor
  · rintro hg (e | i | i) k ⟨hr, hk⟩
    · obtain ⟨he, rfl | rfl⟩ := hr
      · rw [(hg.edges e he).1] at hk
        cases hk
      · rw [(hg.edges e he).2] at hk
        cases hk
    · obtain ⟨c, hc, rfl⟩ := hr
      rw [contains, hg.chunks i c hc] at hk
      cases hk
    · obtain ⟨u, hu, rfl⟩ := hr
      rw [contains, hg.units i u hu] at hk
      cases hk
  · intro hno
    have hstored : ∀ {h k}, g.Refers h k → g.contains k = true := fun {h k} hr =>
      by_contra fun hk => hno h k ⟨hr, (Bool.not_eq_true _).mp hk⟩
    exact
      { edges := fun e he => ⟨hstored (h := .edge e) ⟨he, Or.inl rfl⟩,
          hstored (h := .edge e) ⟨he, Or.inr rfl⟩⟩
        chunks := fun i c hc => hstored (h := .chunk i) (k := .unit c.chunk.unitId) ⟨c, hc, rfl⟩
        units := fun i u hu => hstored (h := .unit i) (k := .file u.path) ⟨u, hu, rfl⟩ }

/-- What holds of a graph whatever is written to it, dangling references or not: the indexes and the
edges of chunks lead removals to everything that refers to a removed node. -/
structure Traced (g : KnowledgeGraph) : Prop where
  mirrored : g.Mirrored
  typed : g.Typed
  chunk_edge : ∀ (i : String) (c : StoredChunk), g.chunks[i]? = some c →
    g.hasEdge ⟨.describes, .chunk i, .unit c.chunk.unitId⟩ = true
  unit_listed : ∀ (i : String) (u : CodeUnit), g.units[i]? = some u → hasEntry g.unitsByFile u.path i = true
  revision_stored : ∀ p r, hasEntry g.revisionsByPath p r = true →
    r.path = p ∧ g.revisions.contains r = true

lemma traced_empty : ({} : KnowledgeGraph).Traced where
  mirrored := by
    intro kind s t
    show hasEntry (∅ : Adjacency) t _ = true ↔ hasEntry (∅ : Adjacency) s _ = true
    simp
  typed e he := by
    have : hasEntry (∅ : Adjacency) e.source ⟨e.kind, e.target⟩ = true := he
    simp at this
  chunk_edge i c hc := by
    have : (∅ : Std.ExtTreeMap String StoredChunk)[i]? = some c := hc
    simp at this
  unit_listed i u hu := by
    have : (∅ : Std.ExtTreeMap String CodeUnit)[i]? = some u := hu
    simp at this
  revision_stored p r hr := by
    have : hasEntry (∅ : Index RevisionId) p r = true := hr
    simp at this

lemma referential_empty : ({} : KnowledgeGraph).Referential where
  edges e he := by
    have : hasEntry (∅ : Adjacency) e.source ⟨e.kind, e.target⟩ = true := he
    simp at this
  chunks i c hc := by
    have : (∅ : Std.ExtTreeMap String StoredChunk)[i]? = some c := hc
    simp at this
  units i u hu := by
    have : (∅ : Std.ExtTreeMap String CodeUnit)[i]? = some u := hu
    simp at this

end KnowledgeGraph

/-- The nodes that a write refers to. -/
def WriteOp.Names : WriteOp → NodeKey → Prop
  | .upsertNode (.codeUnit u), k => k = .file u.path
  | .upsertNode (.semanticChunk c), k => k = .unit c.unitId
  | .upsertEdge e, k => k = e.source ∨ k = e.target
  | .replaceImports path targets, k => k = .file path ∨ ∃ t ∈ targets, k = .file t
  | .replaceCalls _ calls, k => ∃ c ∈ calls, k = .unit c.1 ∨ k = .unit c.2
  | _, _ => False

/-- Edges of a write connect nodes of the kinds that they should. -/
def WriteOp.Typed : WriteOp → Prop
  | .upsertEdge e => (e.source.type, e.target.type) = e.kind.endpoints
  | _ => True

/-- Writes that put nodes or edges. -/
def WriteOp.Fills : WriteOp → Prop
  | .upsertNode _ | .upsertEdge _ | .replaceImports .. | .replaceCalls .. => True
  | _ => False

/-- A write keeps what removals rely on, and a reference dangles after it only if it did before or if
the write puts it while its node is missing. -/
structure Careful (op : WriteOp) (g g' : KnowledgeGraph) : Prop where
  traced : g'.Traced
  dangling : ∀ h k, g'.Dangling h k → g.Dangling h k ∨ (op.Names k ∧ g.contains k = false)

open KnowledgeGraph

/-! ### Removals -/

section

variable {gone : NodeKey → Prop} {g g' : KnowledgeGraph}

/-- A set of nodes that goes with all chunks of its units and all units of its files. -/
structure GoesWhole (gone : NodeKey → Prop) (g : KnowledgeGraph) : Prop where
  chunks : ∀ (i : String) (c : StoredChunk), g.chunks[i]? = some c → gone (.unit c.chunk.unitId) → gone (.chunk i)
  units : ∀ (i : String) (u : CodeUnit), g.units[i]? = some u → gone (.file u.path) → gone (.unit i)

lemma Removes.traced (hr : Removes gone g g') (hw : GoesWhole gone g) (ht : g.Traced) : g'.Traced where
  mirrored := hr.mirrored
  typed e he := ht.typed e ((hr.edge e).mp he).1
  chunk_edge i c hc := by
    obtain ⟨hc, hstays⟩ := (hr.chunk i c).mp hc
    exact (hr.edge _).mpr ⟨ht.chunk_edge i c hc, hstays, fun hu => hstays (hw.chunks i c hc hu)⟩
  unit_listed i u hu := by
    obtain ⟨hu, hstays⟩ := (hr.unit i u).mp hu
    exact (hr.byFile u.path i).mpr ⟨ht.unit_listed i u hu, fun ⟨_, _, _, hg⟩ => hstays hg⟩
  revision_stored p r hp := by
    obtain ⟨hp, hstays⟩ := (hr.byPath p r).mp hp
    obtain ⟨rfl, hs⟩ := ht.revision_stored p r hp
    exact ⟨rfl, (hr.contains_iff (.revision r)).mpr ⟨hs, fun hg => hstays ⟨rfl, hg⟩⟩⟩

/-- What dangles after such a removal dangled before. -/
lemma Removes.dangling (hr : Removes gone g g') (hw : GoesWhole gone g) {h : Holder} {k : NodeKey}
    (hd : g'.Dangling h k) : g.Dangling h k := by
  obtain ⟨href, hk⟩ := hd
  have hmissing : ¬gone k → g.contains k = false := by
    intro hstays
    rw [← Bool.not_eq_true] at hk ⊢
    exact fun hc => hk ((hr.contains_iff k).mpr ⟨hc, hstays⟩)
  cases h with
  | edge e =>
    obtain ⟨he, hend⟩ := href
    obtain ⟨he, hs, ht⟩ := (hr.edge e).mp he
    refine ⟨⟨he, hend⟩, hmissing ?_⟩
    rcases hend with rfl | rfl
    · exact hs
    · exact ht
  | chunk i =>
    obtain ⟨c, hc, rfl⟩ := href
    obtain ⟨hc, hstays⟩ := (hr.chunk i c).mp hc
    exact ⟨⟨c, hc, rfl⟩, hmissing fun hg => hstays (hw.chunks i c hc hg)⟩
  | unit i =>
    obtain ⟨u, hu, rfl⟩ := href
    obtain ⟨hu, hstays⟩ := (hr.unit i u).mp hu
    exact ⟨⟨u, hu, rfl⟩, hmissing fun hg => hstays (hw.units i u hu hg)⟩

lemma Removes.careful (hr : Removes gone g g') (hw : GoesWhole gone g) (ht : g.Traced) (op : WriteOp) :
    Careful op g g' :=
  ⟨hr.traced hw ht, fun _ _ hd => Or.inl (hr.dangling hw hd)⟩

open Draft

lemma goesWhole_contents (ht : g.Traced) (path : String) : GoesWhole (GoneWithContents g path) g where
  chunks i c hc := by
    rintro ⟨j, hj, hs, hu | ⟨c', hu, -⟩⟩
    · cases hu
      exact ⟨_, hj, hs, Or.inr ⟨i, rfl, ht.chunk_edge i c hc⟩⟩
    · cases hu
  units i u _ hg := absurd hg goneWithContents_file

lemma goesWhole_file (ht : g.Traced) (path : String) :
    GoesWhole (fun k => GoneWithContents g path k ∨ k = .file path) g where
  chunks i c hc hg := by
    rcases hg with hg | hg
    · exact Or.inl ((goesWhole_contents ht path).chunks i c hc hg)
    · cases hg
  units i u hu hg := by
    rcases hg with hg | hg
    · exact absurd hg goneWithContents_file
    · cases hg
      exact Or.inl ⟨i, mem_entries.mpr (ht.unit_listed i u hu), ⟨u, hu⟩, Or.inl rfl⟩

lemma goesWhole_history (repo : String) (keep : Std.ExtTreeSet String) :
    GoesWhole (GoneWithHistory g repo keep) g where
  chunks _ _ _ hg := hg.elim
  units _ _ _ hg := hg.elim

end

/-! ### Insertions and replacements -/

section

variable {g g' : KnowledgeGraph} {op : WriteOp}

/-- `g'` is `g` with what a write puts: new references are to nodes that the write names or that are
stored after it, and they are entered where removals look for them. -/
structure Puts (op : WriteOp) (g g' : KnowledgeGraph) : Prop where
  mirrored : g'.Mirrored
  stored : ∀ k, g.contains k = true → g'.contains k = true
  edge : ∀ e, g'.hasEdge e = true → g.hasEdge e = true ∨
    ((e.source.type, e.target.type) = e.kind.endpoints ∧
      ∀ k, k = e.source ∨ k = e.target → op.Names k ∨ g'.contains k = true)
  describes : ∀ i u, g.hasEdge ⟨.describes, .chunk i, .unit u⟩ = true →
    g'.hasEdge ⟨.describes, .chunk i, .unit u⟩ = true
  chunk : ∀ (i : String) (c : StoredChunk), g'.chunks[i]? = some c → g.chunks[i]? = some c ∨
    (g'.hasEdge ⟨.describes, .chunk i, .unit c.chunk.unitId⟩ = true ∧
      op.Names (.unit c.chunk.unitId))
  unit : ∀ (i : String) (u : CodeUnit), g'.units[i]? = some u → g.units[i]? = some u ∨
    (hasEntry g'.unitsByFile u.path i = true ∧ op.Names (.file u.path))
  listed : ∀ p i, hasEntry g.unitsByFile p i = true → hasEntry g'.unitsByFile p i = true
  version : ∀ p r, hasEntry g'.revisionsByPath p r = true → hasEntry g.revisionsByPath p r = true ∨
    (r.path = p ∧ g'.revisions.contains r = true)

lemma Puts.traced (hp : Puts op g g') (ht : g.Traced) : g'.Traced where
  mirrored := hp.mirrored
  typed e he := by
    rcases hp.edge e he with he | ⟨hte, -⟩
    · exact ht.typed e he
    · exact hte
  chunk_edge i c hc := by
    rcases hp.chunk i c hc with hc | ⟨he, -⟩
    · exact hp.describes i _ (ht.chunk_edge i c hc)
    · exact he
  unit_listed i u hu := by
    rcases hp.unit i u hu with hu | ⟨hl, -⟩
    · exact hp.listed _ i (ht.unit_listed i u hu)
    · exact hl
  revision_stored p r hr := by
    rcases hp.version p r hr with hr | hr
    · obtain ⟨hpath, hs⟩ := ht.revision_stored p r hr
      exact ⟨hpath, hp.stored (.revision r) hs⟩
    · exact hr

lemma Puts.careful (hp : Puts op g g') (ht : g.Traced) : Careful op g g' := by
  refine ⟨hp.traced ht, fun h k ⟨href, hk⟩ => ?_⟩
  have hmissing : g.contains k = false := by
    rw [← Bool.not_eq_true] at hk ⊢
    exact fun hc => hk (hp.stored k hc)
  cases h with
  | edge e =>
    obtain ⟨he, hend⟩ := href
    rcases hp.edge e he with he | ⟨-, hnamed⟩
    · exact Or.inl ⟨⟨he, hend⟩, hmissing⟩
    · refine Or.inr ⟨(hnamed k hend).resolve_right ?_, hmissing⟩
      simp [hk]
  | chunk i =>
    obtain ⟨c, hc, rfl⟩ := href
    rcases hp.chunk i c hc with hc | ⟨-, hnamed⟩
    · exact Or.inl ⟨⟨c, hc, rfl⟩, hmissing⟩
    · exact Or.inr ⟨hnamed, hmissing⟩
  | unit i =>
    obtain ⟨u, hu, rfl⟩ := href
    rcases hp.unit i u hu with hu | ⟨-, hnamed⟩
    · exact Or.inl ⟨⟨u, hu, rfl⟩, hmissing⟩
    · exact Or.inr ⟨hnamed, hmissing⟩

/-- A write that does nothing. -/
lemma Puts.refl (ht : g.Traced) : Puts op g g where
  mirrored := ht.mirrored
  stored _ hk := hk
  edge _ he := Or.inl he
  describes _ _ he := he
  chunk _ _ hc := Or.inl hc
  unit _ _ hu := Or.inl hu
  listed _ _ hl := hl
  version _ _ hr := Or.inl hr

/-- A write that leaves the nodes and their indexes alone. -/
lemma Puts.of_tables (htables : g'.tables = g.tables) (hm : g'.Mirrored)
    (hedge : ∀ e, g'.hasEdge e = true → g.hasEdge e = true ∨
      ((e.source.type, e.target.type) = e.kind.endpoints ∧
        ∀ k, k = e.source ∨ k = e.target → op.Names k ∨ g.contains k = true))
    (hdescribes : ∀ i u, g.hasEdge ⟨.describes, .chunk i, .unit u⟩ = true →
      g'.hasEdge ⟨.describes, .chunk i, .unit u⟩ = true) : Puts op g g' := by
  have hsame := contains_eq_of_tables htables
  simp only [tables, NodeTables.mk.injEq] at htables
  obtain ⟨-, hunits, hchunks, -, -, -, hby, -, hpaths, -⟩ := htables
  exact
    { mirrored := hm
      stored := fun k hk => by rw [hsame, hk]
      edge := fun e he => (hedge e he).imp_right fun h =>
        ⟨h.1, fun k hend => by rw [hsame]; exact h.2 k hend⟩
      describes := hdescribes
      chunk := fun i c hc => Or.inl (hchunks ▸ hc)
      unit := fun i u hu => Or.inl (hunits ▸ hu)
      listed := fun p i hl => by rw [hby]; exact hl
      version := fun p r hr => Or.inl (hpaths ▸ hr) }

end

namespace Draft

variable {d : Draft}

lemma puts_insertEdge (ht : d.graph.Traced) {e : GraphEdge} (hop : (WriteOp.upsertEdge e).Typed) :
    Puts (.upsertEdge e) d.graph (d.insertEdge e).graph := by
  refine Puts.of_tables tables_insertEdge (mirrored_insertEdge ht.mirrored) (fun e' he => ?_)
    fun i u he => hasEdge_insertEdge.mpr (Or.inr he)
  rcases hasEdge_insertEdge.mp he with rfl | he
  · exact Or.inr ⟨hop, fun k hk => Or.inl hk⟩
  · exact Or.inl he

lemma puts_replaceImports (ht : d.graph.Traced) (path : String) (targets : List String) :
    Puts (.replaceImports path targets) d.graph (d.replaceImports path targets).graph := by
  refine Puts.of_tables tables_replaceImports (mirrored_replaceImports ht.mirrored) (fun e he => ?_)
    fun i u he => hasEdge_replaceImports.mpr (Or.inr ⟨by simp, he⟩)
  obtain ⟨kd, s, t⟩ := e
  rcases hasEdge_replaceImports.mp he with ⟨⟨hk, hs⟩, p, hp, -, ht'⟩ | ⟨-, he⟩
  · simp only at hk hs ht'
    subst hk hs ht'
    refine Or.inr ⟨rfl, ?_⟩
    rintro k (rfl | rfl)
    · exact Or.inl (Or.inl rfl)
    · exact Or.inl (Or.inr ⟨p, hp, rfl⟩)
  · exact Or.inl he

lemma puts_replaceCalls (ht : d.graph.Traced) (path : String) (calls : List (String × String)) :
    Puts (.replaceCalls path calls) d.graph (d.replaceCalls path calls).graph := by
  refine Puts.of_tables tables_replaceCalls (mirrored_replaceCalls ht.mirrored) (fun e he => ?_)
    fun i u he => hasEdge_replaceCalls.mpr (Or.inr ⟨by simp, he⟩)
  obtain ⟨kd, s, t⟩ := e
  rcases hasEdge_replaceCalls.mp he with ⟨⟨hk, -⟩, a, b, hc, -, hs, ht'⟩ | ⟨-, he⟩
  · simp only at hk hs ht'
    subst hk hs ht'
    refine Or.inr ⟨rfl, ?_⟩
    rintro k (rfl | rfl)
    · exact Or.inl ⟨(a, b), hc, Or.inl rfl⟩
    · exact Or.inl ⟨(a, b), hc, Or.inr rfl⟩
  · exact Or.inl he

lemma puts_upsertFile (ht : d.graph.Traced) (f : SourceFile) :
    Puts (.upsertNode (.sourceFile f)) d.graph (d.upsertFile f).graph := by
  have htables := tables_upsertFile (d := d) (f := f)
  simp only [tables, NodeTables.mk.injEq] at htables
  obtain ⟨hfiles, hunits, hchunks, hcom, haut, hrevs, hby, -, hpaths, -⟩ := htables
  constructor
  case mirrored => exact mirrored_upsertFile ht.mirrored
  case stored =>
    intro k hk
    cases k <;> simp_all [contains]
  case edge =>
    intro e he
    rcases hasEdge_upsertFile.mp he with ⟨-, r, hr, rfl⟩ | he
    · refine Or.inr ⟨rfl, ?_⟩
      rintro k (rfl | rfl)
      · have := (ht.revision_stored _ r hr).2
        simp_all [contains]
      · simp [contains, hfiles]
    · exact Or.inl he
  case describes => exact fun i u he => hasEdge_upsertFile.mpr (Or.inr he)
  case chunk => exact fun i c hc => Or.inl (hchunks ▸ hc)
  case unit => exact fun i u hu => Or.inl (hunits ▸ hu)
  case listed =>
    intro p i hl
    rw [hby]
    exact hl
  case version => exact fun p r hr => Or.inl (hpaths ▸ hr)

lemma puts_upsertUnit (ht : d.graph.Traced) (u : CodeUnit) :
    Puts (.upsertNode (.codeUnit u)) d.graph (d.upsertUnit u).graph := by
  by_cases hold : d.graph.units[u.id]? = some u
  · rw [upsertUnit_of_eq hold]
    exact Puts.refl ht
  have htables := tables_upsertUnit hold
  simp only [tables, NodeTables.mk.injEq] at htables
  obtain ⟨hfiles, hunits, hchunks, hcom, haut, hrevs, hby, -, hpaths, -⟩ := htables
  constructor
  case mirrored => exact mirrored_upsertUnit ht.mirrored
  case stored =>
    intro k hk
    cases k <;> simp_all [contains]
  case edge =>
    intro e he
    rcases (hasEdge_upsertUnit hold).mp he with rfl | he
    · refine Or.inr ⟨rfl, ?_⟩
      rintro k (rfl | rfl)
      · exact Or.inl rfl
      · simp [contains, hunits]
    · exact Or.inl he
  case describes => exact fun i c he => (hasEdge_upsertUnit hold).mpr (Or.inr he)
  case chunk => exact fun i c hc => Or.inl (hchunks ▸ hc)
  case unit =>
    intro i v hv
    rw [hunits, getElem?_insert_eq_some_iff] at hv
    rcases hv with ⟨rfl, rfl⟩ | ⟨-, hv⟩
    · exact Or.inr ⟨by simp [hby], rfl⟩
    · exact Or.inl hv
  case listed =>
    intro p i hl
    rw [hby, hasEntry_addEntry]
    exact Or.inr hl
  case version => exact fun p r hr => Or.inl (hpaths ▸ hr)

lemma puts_upsertChunk (ht : d.graph.Traced) (c : SemanticChunk) :
    Puts (.upsertNode (.semanticChunk c)) d.graph (d.upsertChunk c).graph := by
  obtain ⟨stored, n, -, hunit, htables⟩ := tables_upsertChunk d c
  simp only [tables, NodeTables.mk.injEq] at htables
  obtain ⟨hfiles, hunits, hchunks, hcom, haut, hrevs, hby, -, hpaths, -⟩ := htables
  constructor
  case mirrored => exact mirrored_upsertChunk ht.mirrored
  case stored =>
    intro k hk
    cases k <;> simp_all [contains]
  case edge =>
    intro e he
    rcases hasEdge_upsertChunk.mp he with rfl | he
    · refine Or.inr ⟨rfl, ?_⟩
      rintro k (rfl | rfl)
      · simp [contains, hchunks]
      · exact Or.inl rfl
    · exact Or.inl he
  case describes => exact fun i u he => hasEdge_upsertChunk.mpr (Or.inr he)
  case chunk =>
    intro i c' hc
    rw [hchunks, getElem?_insert_eq_some_iff] at hc
    rcases hc with ⟨rfl, rfl⟩ | ⟨-, hc⟩
    · rw [hunit]
      exact Or.inr ⟨hasEdge_upsertChunk.mpr (Or.inl rfl), rfl⟩
    · exact Or.inl hc
  case unit => exact fun i u hu => Or.inl (hunits ▸ hu)
  case listed =>
    intro p i hl
    rw [hby]
    exact hl
  case version => exact fun p r hr => Or.inl (hpaths ▸ hr)

lemma puts_upsertCommit (ht : d.graph.Traced) (c : Commit) :
    Puts (.upsertNode (.commit c)) d.graph (d.upsertCommit c).graph := by
  by_cases hold : d.graph.commits.contains c.id = true
  · rw [upsertCommit_of_contains hold]
    exact Puts.refl ht
  rw [graph_upsertCommit ((Bool.not_eq_true _).mp hold)]
  refine { Puts.refl ht with stored := fun k hk => ?_, edge := fun e he => Or.inl he }
  cases k <;> simp_all [contains]

lemma puts_upsertAuthor (ht : d.graph.Traced) (a : Author) :
    Puts (.upsertNode (.author a)) d.graph (d.upsertAuthor a).graph := by
  rw [graph_upsertAuthor]
  refine { Puts.refl ht with stored := fun k hk => ?_, edge := fun e he => Or.inl he }
  cases k <;> simp_all [contains]

lemma puts_upsertRevision (ht : d.graph.Traced) (r : FileRevision) :
    Puts (.upsertNode (.fileRevision r)) d.graph (d.upsertRevision r).graph := by
  by_cases hold : d.graph.revisions.contains r.id = true
  · rw [upsertRevision_of_contains hold]
    exact Puts.refl ht
  replace hold := (Bool.not_eq_true _).mp hold
  have htables := tables_upsertRevision hold
  simp only [tables, NodeTables.mk.injEq] at htables
  obtain ⟨hfiles, hunits, hchunks, hcom, haut, hrevs, hby, -, hpaths, -⟩ := htables
  constructor
  case mirrored => exact mirrored_upsertRevision ht.mirrored
  case stored =>
    intro k hk
    cases k <;> simp_all [contains]
  case edge =>
    intro e he
    rcases (hasEdge_upsertRevision hold).mp he with ⟨hf, rfl⟩ | he
    · refine Or.inr ⟨rfl, ?_⟩
      rintro k (rfl | rfl)
      · simp [contains, hrevs]
      · simp_all [contains]
    · exact Or.inl he
  case describes => exact fun i u he => (hasEdge_upsertRevision hold).mpr (Or.inr he)
  case chunk => exact fun i c hc => Or.inl (hchunks ▸ hc)
  case unit => exact fun i u hu => Or.inl (hunits ▸ hu)
  case listed =>
    intro p i hl
    rw [hby]
    exact hl
  case version =>
    intro p r' hr
    rw [hpaths, hasEntry_addEntry] at hr
    rcases hr with ⟨rfl, rfl⟩ | hr
    · exact Or.inr ⟨rfl, by simp [hrevs]⟩
    · exact Or.inl hr

/-- What every write that fills the graph does. -/
lemma puts_applyOp (ht : d.graph.Traced) {op : WriteOp} (hop : op.Typed) (hfill : op.Fills) :
    Puts op d.graph (d.applyOp op).graph := by
  cases op with
  | upsertNode n =>
    cases n with
    | sourceFile f => exact puts_upsertFile ht f
    | codeUnit u => exact puts_upsertUnit ht u
    | semanticChunk c => exact puts_upsertChunk ht c
    | commit c => exact puts_upsertCommit ht c
    | author a => exact puts_upsertAuthor ht a
    | fileRevision r => exact puts_upsertRevision ht r
  | upsertEdge e => exact puts_insertEdge ht hop
  | replaceImports p ts => exact puts_replaceImports ht p ts
  | replaceCalls p cs => exact puts_replaceCalls ht p cs
  | _ => exact hfill.elim

/-- Every write is careful. -/
lemma careful_applyOp (ht : d.graph.Traced) {op : WriteOp} (hop : op.Typed) :
    Careful op d.graph (d.applyOp op).graph := by
  cases op with
  | upsertNode n => exact (puts_applyOp ht hop trivial).careful ht
  | upsertEdge e => exact (puts_applyOp ht hop trivial).careful ht
  | replaceImports p ts => exact (puts_applyOp ht hop trivial).careful ht
  | replaceCalls p cs => exact (puts_applyOp ht hop trivial).careful ht
  | clearFile p =>
    exact (removes_clearFile ht.mirrored p).careful (goesWhole_contents ht p) ht _
  | removeFile p =>
    exact (removes_removeFile ht.mirrored p).careful (goesWhole_file ht p) ht _
  | retainHistory repo revisions =>
    exact (removes_retainHistory ht.mirrored ht.typed repo _).careful (goesWhole_history repo _) ht _

end Draft

end RepoAtlas
