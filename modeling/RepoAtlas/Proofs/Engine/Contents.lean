import RepoAtlas.Proofs.Engine.Document

/-!
# Storing a document

The batch that stores a document clears what the graph holds of its file and puts the file, its units
and its chunks. `Replaces` says what is in the graph after it: the contents of the document under its
path, and everything else as before, but without the calls from and to the units that went.
-/

namespace RepoAtlas

open KnowledgeGraph

variable {𝒟 : Document → Prop} {g g' : KnowledgeGraph} {d : Draft}

/-! ### The file -/

lemma Tidy.upsertFile {D : Document} (ht : Tidy 𝒟 d.graph) (hD : 𝒟 D) (t : Instant) :
    Tidy 𝒟 (d.upsertFile (D.node t)).graph := by
  have htables := Draft.tables_upsertFile (d := d) (f := D.node t)
  simp only [tables, NodeTables.mk.injEq] at htables
  obtain ⟨hfiles, hunits, hchunks, -, -, -, hby, hname, -, -⟩ := htables
  have hstored : ∀ p, d.graph.files.contains p = true →
      (d.upsertFile (D.node t)).graph.files.contains p = true := by
    intro p hp
    rw [hfiles]
    simp_all
  constructor
  case mirrored => exact Draft.mirrored_upsertFile ht.mirrored
  case file_known =>
    intro p f hf
    rw [hfiles, Draft.getElem?_insert_eq_some_iff] at hf
    rcases hf with ⟨rfl, rfl⟩ | ⟨-, hf⟩
    · exact ⟨D, t, hD, rfl, rfl⟩
    · exact ht.file_known p f hf
  case unit_known =>
    intro i u hu
    rw [hunits] at hu
    obtain ⟨hid, hf, hD⟩ := ht.unit_known i u hu
    exact ⟨hid, hstored _ hf, hD⟩
  case byFile =>
    rw [hby, hunits]
    exact ht.byFile
  case byName =>
    rw [hname, hunits]
    exact ht.byName
  case chunk_known =>
    rw [hchunks, hunits]
    exact ht.chunk_known
  case describes =>
    intro a b
    rw [Draft.hasEdge_upsertFile_of_ne (by simp), ht.describes, hchunks]
  case contains =>
    intro a b
    rw [Draft.hasEdge_upsertFile_of_ne (by simp), ht.contains, hunits]
  case imports =>
    intro a b he
    obtain ⟨p, q, rfl, rfl, hp, hq⟩ := ht.imports a b ((Draft.hasEdge_upsertFile_of_ne (by simp)).mp he)
    exact ⟨p, q, rfl, rfl, hstored p hp, hstored q hq⟩
  case calls =>
    intro a b he
    rw [hunits]
    exact ht.calls a b ((Draft.hasEdge_upsertFile_of_ne (by simp)).mp he)

/-! ### Units -/

/-- The tables of units and files after a unit is put. -/
lemma Draft.upsertUnit_tables (d : Draft) (u : CodeUnit) :
    (d.upsertUnit u).graph.files = d.graph.files ∧
      (d.upsertUnit u).graph.units = d.graph.units.insert u.id u ∧
      (d.upsertUnit u).graph.chunks = d.graph.chunks := by
  by_cases hold : d.graph.units[u.id]? = some u
  · rw [Draft.upsertUnit_of_eq hold, Draft.insert_eq_self hold]
    exact ⟨rfl, rfl, rfl⟩
  · have htables := Draft.tables_upsertUnit hold
    simp only [tables, NodeTables.mk.injEq] at htables
    exact ⟨htables.1, htables.2.1, htables.2.2.1⟩

/-- Units that are put change the tables of units only. -/
lemma Draft.tables_foldl_upsertUnit (l : List CodeUnit) (d : Draft) : ∃ units byFile byName,
    (l.foldl Draft.upsertUnit d).graph.tables =
      { d.graph.tables with units := units, unitsByFile := byFile, unitsByName := byName } := by
  induction l generalizing d with
  | nil => exact ⟨_, _, _, rfl⟩
  | cons u l ih =>
    obtain ⟨units, byFile, byName, htables⟩ := ih (d.upsertUnit u)
    rw [List.foldl_cons, htables]
    by_cases hold : d.graph.units[u.id]? = some u
    · rw [Draft.upsertUnit_of_eq hold]
      exact ⟨_, _, _, rfl⟩
    · rw [Draft.tables_upsertUnit hold]
      exact ⟨_, _, _, rfl⟩

/-- The last unit of an id stays. -/
lemma Draft.units_foldl_upsertUnit (l : List CodeUnit) (d : Draft) {i : String} {u : CodeUnit} :
    (l.foldl Draft.upsertUnit d).graph.units[i]? = some u ↔
      lastUnit l i = some u ∨ (lastUnit l i = none ∧ d.graph.units[i]? = some u) := by
  induction l generalizing d with
  | nil => simp [lastUnit_nil]
  | cons v l ih =>
    rw [List.foldl_cons, ih, (d.upsertUnit_tables v).2.1, Draft.getElem?_insert_eq_some_iff, lastUnit_cons]
    cases lastUnit l i with
    | some w => simp
    | none =>
      by_cases hi : v.id = i
      · subst hi
        simp [eq_comm]
      · simp [hi, Ne.symm hi]

/-- Putting a unit of a stored file under an id that no other file uses. -/
lemma Tidy.upsertUnit {u : CodeUnit} {D : Document} (ht : Tidy 𝒟 d.graph) (hD : 𝒟 D) (hu : u ∈ D.units)
    (hfile : d.graph.files.contains u.path = true)
    (hown : ∀ o, d.graph.units[u.id]? = some o → o.path = u.path) :
    Tidy 𝒟 (d.upsertUnit u).graph ∧
      (d.upsertUnit u).graph.units = d.graph.units.insert u.id u ∧
      (d.upsertUnit u).graph.files = d.graph.files ∧
      (d.upsertUnit u).graph.chunks = d.graph.chunks ∧
      ∀ kind a b, kind ≠ .contains → ((d.upsertUnit u).graph.hasEdge ⟨kind, a, b⟩ = true ↔
        d.graph.hasEdge ⟨kind, a, b⟩ = true) := by
  by_cases hold : d.graph.units[u.id]? = some u
  · rw [Draft.upsertUnit_of_eq hold, Draft.insert_eq_self hold]
    exact ⟨ht, rfl, rfl, rfl, fun _ _ _ _ => Iff.rfl⟩
  have htables := Draft.tables_upsertUnit hold
  simp only [tables, NodeTables.mk.injEq] at htables
  obtain ⟨hfiles, hunits, hchunks, -, -, -, hby, hname, -, -⟩ := htables
  refine ⟨?_, hunits, hfiles, hchunks, fun _ _ _ hk => Draft.hasEdge_upsertUnit_of_ne hk⟩
  have hstored : ∀ i, d.graph.units.contains i = true →
      (d.upsertUnit u).graph.units.contains i = true := by
    intro i hi
    rw [hunits]
    simp_all
  constructor
  case mirrored => exact Draft.mirrored_upsertUnit ht.mirrored
  case file_known =>
    rw [hfiles]
    exact ht.file_known
  case unit_known =>
    intro i v hv
    rw [hunits, Draft.getElem?_insert_eq_some_iff] at hv
    rw [hfiles]
    rcases hv with ⟨rfl, rfl⟩ | ⟨-, hv⟩
    · exact ⟨rfl, hfile, D, hD, (Document.path_of_mem_units hu).symm, hu⟩
    · exact ht.unit_known i v hv
  case byFile =>
    intro p i
    rw [hby, hunits]
    exact Draft.byFile_inserted hown ht.byFile
  case byName =>
    intro n i
    rw [hname, hunits]
    exact Draft.byName_renamed ht.byName
  case chunk_known =>
    intro i s hs
    rw [hchunks] at hs
    obtain ⟨hid, hunit, hD⟩ := ht.chunk_known i s hs
    exact ⟨hid, hstored _ hunit, hD⟩
  case describes =>
    intro a b
    rw [Draft.hasEdge_upsertUnit_of_ne (by simp), ht.describes, hchunks]
  case contains =>
    intro a b
    rw [Draft.hasEdge_upsertUnit hold, ht.contains, hunits, exists_congr fun i =>
      Draft.exists_insert_unit (P := fun p => a = .file p ∧ b = .unit i) hown, exists_or, exists_eq_left]
    simp
  case imports =>
    intro a b he
    rw [hfiles]
    exact ht.imports a b ((Draft.hasEdge_upsertUnit_of_ne (by simp)).mp he)
  case calls =>
    intro a b he
    obtain ⟨i, j, rfl, rfl, hi, hj⟩ := ht.calls a b ((Draft.hasEdge_upsertUnit_of_ne (by simp)).mp he)
    exact ⟨i, j, rfl, rfl, hstored i hi, hstored j hj⟩

/-- Putting the units of a document one after the other: the last one of an id stays. -/
lemma Tidy.foldl_upsertUnit {D : Document} (ha : Apart 𝒟) (hD : 𝒟 D) (l : List CodeUnit)
    (hl : ∀ u ∈ l, u ∈ D.units) (ht : Tidy 𝒟 d.graph)
    (hfile : d.graph.files.contains D.path = true) :
    Tidy 𝒟 (l.foldl Draft.upsertUnit d).graph ∧
      (∀ i u, (l.foldl Draft.upsertUnit d).graph.units[i]? = some u ↔
        lastUnit l i = some u ∨ (lastUnit l i = none ∧ d.graph.units[i]? = some u)) ∧
      (l.foldl Draft.upsertUnit d).graph.files = d.graph.files ∧
      (l.foldl Draft.upsertUnit d).graph.chunks = d.graph.chunks ∧
      ∀ kind a b, kind ≠ .contains →
        ((l.foldl Draft.upsertUnit d).graph.hasEdge ⟨kind, a, b⟩ = true ↔
          d.graph.hasEdge ⟨kind, a, b⟩ = true) := by
  induction l generalizing d with
  | nil => exact ⟨ht, by simp [lastUnit_nil], rfl, rfl, fun _ _ _ _ => Iff.rfl⟩
  | cons u l ih =>
    have hu := hl u (by simp)
    have hpath := Document.path_of_mem_units hu
    obtain ⟨ht₁, -, hfiles₁, hchunks₁, hedge₁⟩ := ht.upsertUnit hD hu (by rw [hpath]; exact hfile)
      fun o ho => by rw [hpath]; exact ht.path_eq ha ho hD hu rfl
    obtain ⟨ht₂, -, hfiles₂, hchunks₂, hedge₂⟩ := ih (fun v hv => hl v (by simp [hv])) ht₁
      (by rw [hfiles₁]; exact hfile)
    exact ⟨ht₂, fun i v => Draft.units_foldl_upsertUnit (u :: l) d, hfiles₂.trans hfiles₁,
      hchunks₂.trans hchunks₁, fun kind a b hk => (hedge₂ kind a b hk).trans (hedge₁ kind a b hk)⟩

/-! ### Chunks -/

/-- Chunks that are put change the table of chunks only. -/
lemma Draft.tables_foldl_upsertChunk (cs : List SemanticChunk) (d : Draft) : ∃ chunks n,
    (cs.foldl Draft.upsertChunk d).graph.tables =
      { d.graph.tables with chunks := chunks, nextSequence := n } := by
  induction cs generalizing d with
  | nil => exact ⟨_, _, rfl⟩
  | cons c cs ih =>
    obtain ⟨chunks, n, htables⟩ := ih (d.upsertChunk c)
    obtain ⟨_, _, -, -, hput⟩ := Draft.tables_upsertChunk d c
    rw [List.foldl_cons, htables, hput]
    exact ⟨_, _, rfl⟩

/-- Putting a chunk of a stored unit under an id that is free or belongs to the unit. -/
lemma Tidy.upsertChunk {c : SemanticChunk} {D : Document} {u : CodeUnit} (ht : Tidy 𝒟 d.graph)
    (hD : 𝒟 D) (hu : u ∈ D.units) (hid : u.chunkId = c.id) (hunit : u.id = c.unitId)
    (hstored : d.graph.units.contains c.unitId = true)
    (hown : ∀ s, d.graph.chunks[c.id]? = some s → s.chunk.unitId = c.unitId) :
    Tidy 𝒟 (d.upsertChunk c).graph ∧
      (∃ s, (s.chunk = c ∨ d.graph.chunks[c.id]? = some s) ∧
        (d.upsertChunk c).graph.chunks = d.graph.chunks.insert c.id s) ∧
      (d.upsertChunk c).graph.files = d.graph.files ∧
      (d.upsertChunk c).graph.units = d.graph.units ∧
      ∀ kind a b, kind ≠ .describes → ((d.upsertChunk c).graph.hasEdge ⟨kind, a, b⟩ = true ↔
        d.graph.hasEdge ⟨kind, a, b⟩ = true) := by
  obtain ⟨s, n, hkept, hs, htables⟩ := Draft.tables_upsertChunk d c
  simp only [tables, NodeTables.mk.injEq] at htables
  obtain ⟨hfiles, hunits, hchunks, -, -, -, hby, hname, -, -⟩ := htables
  refine ⟨?_, ⟨s, hkept, hchunks⟩, hfiles, hunits, fun _ _ _ hk => Draft.hasEdge_upsertChunk_of_ne hk⟩
  have hsid : s.chunk.id = c.id := by
    rcases hkept with rfl | hkept
    · rfl
    · exact (ht.chunk_known _ _ hkept).1
  constructor
  case mirrored => exact Draft.mirrored_upsertChunk ht.mirrored
  case file_known =>
    rw [hfiles]
    exact ht.file_known
  case unit_known =>
    rw [hunits, hfiles]
    exact ht.unit_known
  case byFile =>
    rw [hby, hunits]
    exact ht.byFile
  case byName =>
    rw [hname, hunits]
    exact ht.byName
  case chunk_known =>
    intro i s' hs'
    rw [hchunks, Draft.getElem?_insert_eq_some_iff] at hs'
    rw [hunits]
    rcases hs' with ⟨rfl, rfl⟩ | ⟨-, hs'⟩
    · exact ⟨hsid, by rw [hs]; exact hstored, D, u, hD, hu, hid, by rw [hs, hunit]⟩
    · exact ht.chunk_known i s' hs'
  case describes =>
    intro a b
    rw [Draft.hasEdge_upsertChunk, ht.describes, hchunks]
    simp only [Draft.getElem?_insert_eq_some_iff]
    constructor
    · rintro (he | ⟨i, s', hs', rfl, rfl⟩)
      · cases he
        exact ⟨c.id, s, Or.inl ⟨rfl, rfl⟩, rfl, by rw [hs]⟩
      · by_cases hi : i = c.id
        · subst hi
          exact ⟨c.id, s, Or.inl ⟨rfl, rfl⟩, rfl, by rw [hs, hown s' hs']⟩
        · exact ⟨i, s', Or.inr ⟨hi, hs'⟩, rfl, rfl⟩
    · rintro ⟨i, s', ⟨rfl, rfl⟩ | ⟨-, hs'⟩, rfl, rfl⟩
      · exact Or.inl (by rw [hs])
      · exact Or.inr ⟨i, s', hs', rfl, rfl⟩
  case contains =>
    intro a b
    rw [Draft.hasEdge_upsertChunk_of_ne (by simp), ht.contains, hunits]
  case imports =>
    intro a b he
    rw [hfiles]
    exact ht.imports a b ((Draft.hasEdge_upsertChunk_of_ne (by simp)).mp he)
  case calls =>
    intro a b he
    rw [hunits]
    exact ht.calls a b ((Draft.hasEdge_upsertChunk_of_ne (by simp)).mp he)

/-- A chunk of a unit of a document. -/
structure ChunkOf (D : Document) (c : SemanticChunk) (u : CodeUnit) : Prop where
  mem : u ∈ D.units
  id : u.chunkId = c.id
  unit : u.id = c.unitId

/-- A chunk of a unit of a document with the text of the unit. -/
def Document.Embeds (D : Document) (c : SemanticChunk) : Prop := ∃ u, ChunkOf D c u ∧ c.text = u.chunkText

/-- Putting chunks of a document one after the other, under ids that were free before. What is stored
under such an id in the end is one of the chunks. -/
lemma Tidy.foldl_upsertChunk {D : Document} (ha : Apart 𝒟) (hD : 𝒟 D) (cs old : List SemanticChunk)
    (hcs : ∀ c ∈ old ++ cs, ∃ u, ChunkOf D c u) (ht : Tidy 𝒟 d.graph)
    (hstored : ∀ c ∈ cs, d.graph.units.contains c.unitId = true)
    (hold : ∀ c ∈ old ++ cs, ∀ s, d.graph.chunks[c.id]? = some s → s.chunk ∈ old) :
    Tidy 𝒟 (cs.foldl Draft.upsertChunk d).graph ∧
      (∀ c ∈ cs, ∃ s, (cs.foldl Draft.upsertChunk d).graph.chunks[c.id]? = some s) ∧
      (∀ c ∈ old ++ cs, ∀ s, (cs.foldl Draft.upsertChunk d).graph.chunks[c.id]? = some s →
        s.chunk ∈ old ++ cs) ∧
      (∀ i, (∀ c ∈ cs, c.id ≠ i) →
        (cs.foldl Draft.upsertChunk d).graph.chunks[i]? = d.graph.chunks[i]?) ∧
      (cs.foldl Draft.upsertChunk d).graph.files = d.graph.files ∧
      (cs.foldl Draft.upsertChunk d).graph.units = d.graph.units ∧
      ∀ kind a b, kind ≠ .describes →
        ((cs.foldl Draft.upsertChunk d).graph.hasEdge ⟨kind, a, b⟩ = true ↔
          d.graph.hasEdge ⟨kind, a, b⟩ = true) := by
  induction cs generalizing d old with
  | nil =>
    refine ⟨ht, by simp, ?_, fun _ _ => rfl, rfl, rfl, fun _ _ _ _ => Iff.rfl⟩
    simpa using hold
  | cons c cs ih =>
    obtain ⟨u, hu⟩ := hcs c (by simp)
    have hown : ∀ s, d.graph.chunks[c.id]? = some s → s.chunk.unitId = c.unitId := by
      intro s hs
      obtain ⟨u', hu'⟩ := hcs s.chunk (List.mem_append_left _ (hold c (by simp) s hs))
      have hid := (ht.chunk_known _ _ hs).1
      rw [← hu'.unit, ← hu.unit]
      exact (ha.chunk D D u' u hD hD hu'.mem hu.mem (by rw [hu'.id, hid, hu.id])).1
    obtain ⟨ht₁, ⟨s₀, hs₀, hchunks₁⟩, hfiles₁, hunits₁, hedge₁⟩ :=
      ht.upsertChunk hD hu.mem hu.id hu.unit (hstored c (by simp)) hown
    have hold₁ : ∀ c' ∈ (old ++ [c]) ++ cs, ∀ s, (d.upsertChunk c).graph.chunks[c'.id]? = some s →
        s.chunk ∈ old ++ [c] := by
      intro c' hc' s hs
      rw [hchunks₁, Draft.getElem?_insert_eq_some_iff] at hs
      rcases hs with ⟨-, rfl⟩ | ⟨-, hs⟩
      · rcases hs₀ with rfl | hs₀
        · simp
        · exact List.mem_append_left _ (hold c (by simp) s hs₀)
      · exact List.mem_append_left _ (hold c' (by simpa using hc') s hs)
    obtain ⟨ht₂, hnew, hfrom, hother, hfiles₂, hunits₂, hedge₂⟩ := ih (old ++ [c]) (by simpa using hcs)
      ht₁ (fun c' hc' => by rw [hunits₁]; exact hstored c' (by simp [hc'])) hold₁
    rw [List.foldl_cons]
    refine ⟨ht₂, ?_, ?_, ?_, hfiles₂.trans hfiles₁, hunits₂.trans hunits₁,
      fun kind a b hk => (hedge₂ kind a b hk).trans (hedge₁ kind a b hk)⟩
    · rintro c' (_ | ⟨_, hc'⟩)
      · by_cases hlater : ∃ c' ∈ cs, c'.id = c.id
        · obtain ⟨c', hc', hid⟩ := hlater
          rw [← hid]
          exact hnew c' hc'
        · refine ⟨s₀, ?_⟩
          rw [hother c.id fun c' hc' hid => hlater ⟨c', hc', hid⟩, hchunks₁,
            Draft.getElem?_insert_eq_some_iff]
          exact Or.inl ⟨rfl, rfl⟩
      · exact hnew c' hc'
    · simpa using hfrom
    · intro i hi
      have hne := hi c (by simp)
      rw [hother i fun c' hc' => hi c' (by simp [hc']), hchunks₁]
      apply Option.ext
      intro s
      rw [Draft.getElem?_insert_eq_some_iff]
      simp [Ne.symm hne]

/-! ### The whole batch -/

/-- What storing a document makes of a graph. -/
structure Replaces (D : Document) (t : Instant) (cs : List SemanticChunk) (g g' : KnowledgeGraph) :
    Prop where
  file : ∀ q f, g'.files[q]? = some f ↔
    (q = D.path ∧ f = D.node t) ∨ (q ≠ D.path ∧ g.files[q]? = some f)
  unit : ∀ i u, g'.units[i]? = some u ↔
    lastUnit D.units i = some u ∨ (u.path ≠ D.path ∧ g.units[i]? = some u)
  chunk_new : ∀ c ∈ cs, ∃ s, g'.chunks[c.id]? = some s ∧ s.chunk ∈ cs
  chunk_old : ∀ i s, (∀ c ∈ cs, c.id ≠ i) →
    (g'.chunks[i]? = some s ↔ g.chunks[i]? = some s ∧ ¬ContentOf g D.path (.chunk i))
  imports : ∀ a b, g'.hasEdge ⟨.imports, a, b⟩ = true ↔ g.hasEdge ⟨.imports, a, b⟩ = true
  calls : ∀ a b, g'.hasEdge ⟨.calls, a, b⟩ = true ↔ g.hasEdge ⟨.calls, a, b⟩ = true ∧
    ¬ContentOf g D.path a ∧ ¬ContentOf g D.path b

/-- The writes of the batch that stores a document. -/
lemma applyBatch_contents (g : KnowledgeGraph) (f : SourceFile) (units : List CodeUnit)
    (cs : List SemanticChunk) :
    g.applyBatch (Ingest.contents f units cs) =
      cs.foldl Draft.upsertChunk (units.foldl Draft.upsertUnit
        ((Draft.clearFile { graph := g } f.path).upsertFile f)) := by
  simp only [applyBatch, Ingest.contents, List.foldl_append, List.foldl_map, List.foldl_cons,
    List.foldl_nil]
  rfl

/-- Storing a document in a tidy graph. -/
theorem Tidy.replaces {D : Document} {t : Instant} {cs : List SemanticChunk} (ha : Apart 𝒟) (hD : 𝒟 D)
    (hcs : ∀ c ∈ cs, ∃ u, ChunkOf D c u) (ht : Tidy 𝒟 g) :
    Tidy 𝒟 (g.applyBatch (Ingest.contents (D.node t) D.units cs)).graph ∧
      Replaces D t cs g (g.applyBatch (Ingest.contents (D.node t) D.units cs)).graph := by
  rw [applyBatch_contents]
  -- the contents of the file go
  obtain ⟨hr, ht₁⟩ := ht.clearFile (d := { graph := g }) (D.node t).path
  rw [Document.node_path] at *
  set d₁ := Draft.clearFile { graph := g } D.path
  -- the file is put
  have ht₂ := ht₁.upsertFile hD t
  have htables := Draft.tables_upsertFile (d := d₁) (f := D.node t)
  simp only [tables, NodeTables.mk.injEq, Document.node_path] at htables
  obtain ⟨hfiles₂, hunits₂, hchunks₂, -⟩ := htables
  have hedge₂ : ∀ e : GraphEdge, e.kind ≠ .versionOf →
      ((d₁.upsertFile (D.node t)).graph.hasEdge e = true ↔ d₁.graph.hasEdge e = true) :=
    fun _ hk => Draft.hasEdge_upsertFile_of_ne hk
  set d₂ := d₁.upsertFile (D.node t)
  -- the units are put
  obtain ⟨ht₃, hunits₃, hfiles₃, hchunks₃, hedge₃⟩ := ht₂.foldl_upsertUnit ha hD D.units
    (fun _ hu => hu) (by rw [hfiles₂]; simp)
  set d₃ := D.units.foldl Draft.upsertUnit d₂
  have hunit : ∀ i u, d₃.graph.units[i]? = some u ↔
      lastUnit D.units i = some u ∨ (u.path ≠ D.path ∧ g.units[i]? = some u) := by
    intro i u
    rw [hunits₃, hunits₂, hr.unit]
    refine or_congr_right ⟨?_, ?_⟩
    · rintro ⟨-, hu, hno⟩
      exact ⟨fun hp => hno ⟨u, hu, hp⟩, hu⟩
    · rintro ⟨hp, hu⟩
      refine ⟨lastUnit_eq_none.mpr fun v hv hid => hp (ht.path_eq ha hu hD hv hid), hu, ?_⟩
      rintro ⟨u', hu', hp'⟩
      rw [hu] at hu'
      cases hu'
      exact hp hp'
  -- the ids of the chunks are free, since they tell the units of the document
  have hfree : ∀ c ∈ cs, ∀ s, d₃.graph.chunks[c.id]? ≠ some s := by
    intro c hc s hs
    rw [hchunks₃, hchunks₂] at hs
    obtain ⟨hs, hno⟩ := (hr.chunk _ _).mp hs
    obtain ⟨u, hu⟩ := hcs c hc
    obtain ⟨-, hstored, D', u', hD', hu', hid', hunit'⟩ := ht.chunk_known _ _ hs
    obtain ⟨v, hv⟩ := contains_iff_getElem?.mp hstored
    have hsame := (ha.chunk D D' u u' hD hD' hu.mem hu' (by rw [hu.id, hid'])).1
    exact hno ⟨s, v, hs, hv, ht.path_eq ha hv hD hu.mem (by rw [hsame, hunit'])⟩
  have hstored : ∀ c ∈ cs, d₃.graph.units.contains c.unitId = true := by
    intro c hc
    obtain ⟨u, hu⟩ := hcs c hc
    obtain ⟨v, hv⟩ := lastUnit_isSome hu.mem
    rw [← hu.unit]
    exact contains_iff_getElem?.mpr ⟨v, (hunit _ _).mpr (Or.inl hv)⟩
  obtain ⟨ht₄, hnew, hfrom, hother, hfiles₄, hunits₄, hedge₄⟩ := ht₃.foldl_upsertChunk ha hD cs []
    (by simpa using hcs) hstored (fun c hc s hs => absurd hs (hfree c (by simpa using hc) s))
  refine ⟨ht₄, ?_⟩
  constructor
  case file =>
    intro q f
    rw [hfiles₄, hfiles₃, hfiles₂, Draft.getElem?_insert_eq_some_iff, hr.file]
    simp [ContentOf]
  case unit =>
    rw [hunits₄]
    exact hunit
  case chunk_new =>
    intro c hc
    obtain ⟨s, hs⟩ := hnew c hc
    exact ⟨s, hs, by simpa using hfrom c (by simpa using hc) s hs⟩
  case chunk_old =>
    intro i s hi
    rw [hother i hi, hchunks₃, hchunks₂]
    exact hr.chunk i s
  case imports =>
    intro a b
    rw [hedge₄ _ _ _ (by simp), hedge₃ _ _ _ (by simp), hedge₂ _ (by simp), hr.edge]
    refine and_iff_left_of_imp fun he => ?_
    obtain ⟨p, q, rfl, rfl, -, -⟩ := ht.imports a b he
    exact ⟨fun h => h, fun h => h⟩
  case calls =>
    intro a b
    rw [hedge₄ _ _ _ (by simp), hedge₃ _ _ _ (by simp), hedge₂ _ (by simp), hr.edge]

end RepoAtlas
