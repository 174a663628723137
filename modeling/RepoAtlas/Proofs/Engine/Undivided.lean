import RepoAtlas.Proofs.Engine.Contents

/-!
# Files are stored whole

What a graph holds of a file comes from one content. A batch that stores a document replaces all that was
there before, and leaves all that belongs to other files: the ids of units tell their paths, and so do
those of the units that chunks are about. Nothing is assumed of the ids of chunks, so a chunk may be
overwritten by one with the same id that is about another unit.
-/

namespace RepoAtlas

open KnowledgeGraph

variable {𝒟 : Document → Prop} {g g' : KnowledgeGraph} {d : Draft} {D D' : Document} {skip : String → Prop}

/-! ### Ids that tell paths -/

/-- The id of a unit of a path. -/
def OwnedBy (path id : String) : Prop := ∃ name, id = CodeUnit.identity path name

lemma Document.ownedBy_of_mem_units {u : CodeUnit} (hu : u ∈ D.units) : OwnedBy D.path u.id := by
  obtain ⟨d, -, rfl⟩ := List.mem_map.mp hu
  exact ⟨d.qualifiedName, rfl⟩

/-- An id tells its path if no path has a colon. -/
lemma OwnedBy.unique {p q i : String} (h : OwnedBy p i) (h' : OwnedBy q i) (hp : ':' ∉ p.toList)
    (hq : ':' ∉ q.toList) : p = q := by
  obtain ⟨n, rfl⟩ := h
  obtain ⟨m, hm⟩ := h'
  exact CodeUnit.eq_of_identity_eq hp hq hm

/-! ### Documents that are stored whole -/

/-- The graph holds the units of a document under its path, and the chunks that are about them, or describe
them, have their texts and ids. -/
structure Document.Whole (D : Document) (g : KnowledgeGraph) : Prop where
  unit : ∀ (i : String) (u : CodeUnit), (g.units[i]? = some u ∧ u.path = D.path) ↔ lastUnit D.units i = some u
  chunk : ∀ (h : String) (s : StoredChunk), g.chunks[h]? = some s → (∃ u ∈ D.units, u.id = s.chunk.unitId) →
    ∃ u ∈ D.units, u.id = s.chunk.unitId ∧ u.chunkText = s.chunk.text
  describes : ∀ k i, g.hasEdge ⟨.describes, k, .unit i⟩ = true → (∃ u ∈ D.units, u.id = i) →
    ∃ u ∈ D.units, u.id = i ∧ k = .chunk u.chunkId

/-- Every file of the graph, but for the skipped ones, is stored whole. -/
structure Undivided (𝒟 : Document → Prop) (skip : String → Prop) (g : KnowledgeGraph) : Prop where
  mirrored : g.Mirrored
  path : ∀ p, g.files.contains p = true → ':' ∉ p.toList
  file : ∀ (p : String) (f : SourceFile), g.files[p]? = some f → ¬skip p →
    ∃ D t, 𝒟 D ∧ D.path = p ∧ f = D.node t ∧ D.Whole g
  unit : ∀ (i : String) (u : CodeUnit), g.units[i]? = some u →
    u.id = i ∧ OwnedBy u.path i ∧ g.files.contains u.path = true
  byFile : ∀ p i, hasEntry g.unitsByFile p i = true ↔ ∃ u, g.units[i]? = some u ∧ u.path = p
  chunk : ∀ (h : String) (s : StoredChunk), g.chunks[h]? = some s →
    s.chunk.id = h ∧ h = fingerprintParts [s.chunk.unitId, s.chunk.text] ∧
      g.units.contains s.chunk.unitId = true ∧
      g.hasEdge ⟨.describes, .chunk h, .unit s.chunk.unitId⟩ = true
  describes : ∀ k i, g.hasEdge ⟨.describes, k, .unit i⟩ = true → g.units.contains i = true

lemma undivided_empty : Undivided 𝒟 skip {} where
  mirrored := (tidy_empty : Tidy 𝒟 {}).mirrored
  path p h := by
    have : (∅ : Std.ExtTreeMap String SourceFile).contains p = true := h
    simp at this
  file p f h := by
    have : (∅ : Std.ExtTreeMap String SourceFile)[p]? = some f := h
    simp at this
  unit i u h := by
    have : (∅ : Std.ExtTreeMap String CodeUnit)[i]? = some u := h
    simp at this
  byFile p i := by
    show hasEntry (∅ : Index String) p i = true ↔
      ∃ u, (∅ : Std.ExtTreeMap String CodeUnit)[i]? = some u ∧ _
    simp
  chunk h s hs := by
    have : (∅ : Std.ExtTreeMap String StoredChunk)[h]? = some s := hs
    simp at this
  describes k i h := by
    have : hasEntry (∅ : Adjacency) k ⟨.describes, .unit i⟩ = true := h
    simp at this

namespace Undivided

/-- A stored unit is under the path that its id tells. -/
lemma path_eq (hg : Undivided 𝒟 skip g) {i p : String} {u : CodeUnit} (hu : g.units[i]? = some u)
    (hi : OwnedBy p i) (hp : ':' ∉ p.toList) : u.path = p :=
  have ⟨_, hown, hfile⟩ := hg.unit i u hu
  hown.unique hi (hg.path _ hfile) hp

end Undivided

/-- Only units, chunks and the edges that describe units matter. -/
lemma Document.Whole.congr (h : D.Whole g) (hunits : g'.units = g.units) (hchunks : g'.chunks = g.chunks)
    (hedge : ∀ k i, g'.hasEdge ⟨.describes, k, .unit i⟩ = true ↔ g.hasEdge ⟨.describes, k, .unit i⟩ = true) :
    D.Whole g' where
  unit := by
    rw [hunits]
    exact h.unit
  chunk := by
    rw [hchunks]
    exact h.chunk
  describes k i he := h.describes k i ((hedge k i).mp he)

/-- Only files, units with their index, chunks and the edges that describe units matter. -/
lemma Undivided.of_same (hg : Undivided 𝒟 skip g) (hm : g'.Mirrored) (hfiles : g'.files = g.files)
    (hunits : g'.units = g.units) (hchunks : g'.chunks = g.chunks)
    (hby : ∀ p i, hasEntry g'.unitsByFile p i = true ↔ hasEntry g.unitsByFile p i = true)
    (hedge : ∀ k i, g'.hasEdge ⟨.describes, k, .unit i⟩ = true ↔ g.hasEdge ⟨.describes, k, .unit i⟩ = true) :
    Undivided 𝒟 skip g' := by
  constructor
  case mirrored => exact hm
  case path =>
    rw [hfiles]
    exact hg.path
  case file =>
    intro p f hf hp
    rw [hfiles] at hf
    obtain ⟨D, t, hD, hpath, hnode, hwhole⟩ := hg.file p f hf hp
    exact ⟨D, t, hD, hpath, hnode, hwhole.congr hunits hchunks hedge⟩
  case unit =>
    rw [hunits, hfiles]
    exact hg.unit
  case byFile =>
    intro p i
    rw [hby, hunits]
    exact hg.byFile p i
  case chunk =>
    intro h s hs
    rw [hchunks] at hs
    obtain ⟨hid, hprint, hunit, he⟩ := hg.chunk h s hs
    exact ⟨hid, hprint, by rw [hunits]; exact hunit, (hedge _ _).mpr he⟩
  case describes =>
    intro k i he
    rw [hunits]
    exact hg.describes k i ((hedge k i).mp he)

/-- Writes that leave nodes and the edges that describe units alone. -/
lemma Undivided.congr (hg : Undivided 𝒟 skip g) (hm : g'.Mirrored) (htables : g'.tables = g.tables)
    (hedge : ∀ k i, g'.hasEdge ⟨.describes, k, .unit i⟩ = true ↔ g.hasEdge ⟨.describes, k, .unit i⟩ = true) :
    Undivided 𝒟 skip g' := by
  simp only [tables, NodeTables.mk.injEq] at htables
  obtain ⟨hfiles, hunits, hchunks, -, -, -, hby, -⟩ := htables
  exact hg.of_same hm hfiles hunits hchunks (fun _ _ => by rw [hby]) hedge

/-! ### Removals -/

/-- What goes with the contents of a path: its units, and the chunks that describe one of them. -/
def GoneFrom (g : KnowledgeGraph) (path : String) : NodeKey → Prop
  | .unit i => ∃ u, g.units[i]? = some u ∧ u.path = path
  | .chunk h => ∃ i u, g.units[i]? = some u ∧ u.path = path ∧
      g.hasEdge ⟨.describes, .chunk h, .unit i⟩ = true
  | _ => False

/-- What is cleared with a path goes with it if the stored units that are listed under it are its own. -/
lemma goneFrom_iff_of_listed {path : String} {k : NodeKey}
    (hlisted : ∀ (i : String) (u : CodeUnit), g.units[i]? = some u →
      (hasEntry g.unitsByFile path i = true ↔ u.path = path)) :
    Draft.GoneWithContents g path k ↔ GoneFrom g path k := by
  simp only [Draft.GoneWithContents, Draft.GoneWithUnits, Draft.GoneWithUnit, mem_entries]
  constructor
  · rintro ⟨i, hi, ⟨u, hu⟩, rfl | ⟨c, rfl, hc⟩⟩
    · exact ⟨u, hu, (hlisted i u hu).mp hi⟩
    · exact ⟨i, u, hu, (hlisted i u hu).mp hi, hc⟩
  · cases k with
    | unit i =>
      rintro ⟨u, hu, hpath⟩
      exact ⟨i, (hlisted i u hu).mpr hpath, ⟨u, hu⟩, Or.inl rfl⟩
    | chunk h =>
      rintro ⟨i, u, hu, hpath, he⟩
      exact ⟨i, (hlisted i u hu).mpr hpath, ⟨u, hu⟩, Or.inr ⟨h, rfl, he⟩⟩
    | _ => exact fun h => h.elim

namespace Undivided

lemma goneFrom_iff (hg : Undivided 𝒟 skip g) {path : String} {k : NodeKey} :
    Draft.GoneWithContents g path k ↔ GoneFrom g path k := by
  refine goneFrom_iff_of_listed fun i u hu => ?_
  rw [hg.byFile]
  simp [hu]

variable {gone : NodeKey → Prop} {path : String}

/-- Documents of other paths stay whole. -/
lemma whole_removes (hr : Removes gone g g')
    (hunit : ∀ i, gone (.unit i) ↔ GoneFrom g path (.unit i)) (h : D.Whole g) (hne : D.path ≠ path) :
    D.Whole g' where
  unit i u := by
    rw [hr.unit, ← h.unit i u]
    refine ⟨fun ⟨⟨hu, _⟩, hp⟩ => ⟨hu, hp⟩, fun ⟨hu, hp⟩ => ⟨⟨hu, fun hgone => ?_⟩, hp⟩⟩
    obtain ⟨v, hv, hpv⟩ := (hunit i).mp hgone
    rw [hu] at hv
    cases hv
    exact hne (hp.symm.trans hpv)
  chunk i s hs := h.chunk i s ((hr.chunk i s).mp hs).1
  describes k i he := h.describes k i ((hr.edge _).mp he).1

/-- Without the contents of a path, the other files are stored whole. -/
lemma removes (hg : Undivided 𝒟 skip g) (hr : Removes gone g g')
    (hunit : ∀ i, gone (.unit i) ↔ GoneFrom g path (.unit i))
    (hchunk : ∀ h, gone (.chunk h) ↔ GoneFrom g path (.chunk h))
    (hfile : ∀ p, gone (.file p) → p = path) : Undivided 𝒟 (fun p => skip p ∨ p = path) g' := by
  have hsame : ∀ i u, g.units[i]? = some u → gone (.unit i) → u.path = path := by
    intro i u hu hi
    obtain ⟨v, hv, hp⟩ := (hunit i).mp hi
    rw [hu] at hv
    cases hv
    exact hp
  constructor
  case mirrored => exact hr.mirrored
  case path => exact fun p hp => hg.path p ((hr.contains_iff (.file p)).mp hp).1
  case file =>
    intro p f hf hp
    rw [not_or] at hp
    obtain ⟨D, t, hD, rfl, hnode, hwhole⟩ := hg.file p f ((hr.file p f).mp hf).1 hp.1
    exact ⟨D, t, hD, rfl, hnode, whole_removes hr hunit hwhole hp.2⟩
  case unit =>
    intro i u hu
    obtain ⟨hu, hi⟩ := (hr.unit i u).mp hu
    obtain ⟨hid, hown, hf⟩ := hg.unit i u hu
    refine ⟨hid, hown, (hr.contains_iff (.file u.path)).mpr ⟨hf, fun hgone => hi ?_⟩⟩
    exact (hunit i).mpr ⟨u, hu, hfile _ hgone⟩
  case byFile =>
    intro p i
    rw [hr.byFile, hg.byFile]
    constructor
    · rintro ⟨⟨u, hu, hp⟩, hno⟩
      exact ⟨u, (hr.unit i u).mpr ⟨hu, fun hgone => hno ⟨u, hu, hp, hgone⟩⟩, hp⟩
    · rintro ⟨u, hu, hp⟩
      obtain ⟨hu, hi⟩ := (hr.unit i u).mp hu
      exact ⟨⟨u, hu, hp⟩, fun ⟨_, _, _, hgone⟩ => hi hgone⟩
  case chunk =>
    intro h s hs
    obtain ⟨hs, hh⟩ := (hr.chunk h s).mp hs
    obtain ⟨hid, hprint, hu, he⟩ := hg.chunk h s hs
    -- a chunk that stays is about a unit that stays
    have hstays : ¬gone (.unit s.chunk.unitId) := by
      intro hgone
      obtain ⟨u, hu, hp⟩ := (hunit _).mp hgone
      exact hh ((hchunk h).mpr ⟨_, u, hu, hp, he⟩)
    exact ⟨hid, hprint, (hr.contains_iff (.unit s.chunk.unitId)).mpr ⟨hu, hstays⟩,
      (hr.edge _).mpr ⟨he, hh, hstays⟩⟩
  case describes =>
    intro k i he
    obtain ⟨he, -, hi⟩ := (hr.edge _).mp he
    exact (hr.contains_iff (.unit i)).mpr ⟨hg.describes k i he, hi⟩

lemma clearFile (hg : Undivided 𝒟 skip d.graph) (path : String) :
    Removes (GoneFrom d.graph path) d.graph (d.clearFile path).graph ∧
      Undivided 𝒟 (fun p => skip p ∨ p = path) (d.clearFile path).graph := by
  have hr := (Draft.removes_clearFile hg.mirrored path).congr fun k => hg.goneFrom_iff
  exact ⟨hr, hg.removes hr (fun _ => Iff.rfl) (fun _ => Iff.rfl) fun _ h => h.elim⟩

/-- A file that is removed leaves no part behind. -/
lemma removeFile (hg : Undivided 𝒟 skip d.graph) (path : String) :
    Undivided 𝒟 skip (d.removeFile path).graph := by
  have hr := (Draft.removes_removeFile hg.mirrored path).congr fun k => or_congr_left hg.goneFrom_iff
  have h : Undivided 𝒟 (fun p => skip p ∨ p = path) (d.removeFile path).graph := by
    refine hg.removes hr (fun i => by simp) (fun i => by simp) fun p hp => ?_
    rcases hp with hp | hp
    · exact hp.elim
    · cases hp
      rfl
  refine { h with file := fun p f hf hp => h.file p f hf ?_ }
  rintro (hp' | rfl)
  · exact hp hp'
  · exact ((hr.file p f).mp hf).2 (Or.inr rfl)

end Undivided

/-! ### Putting the file and its units -/

/-- Putting a file that is skipped. -/
lemma Undivided.upsertFile {f : SourceFile} (hg : Undivided 𝒟 skip d.graph) (hskip : skip f.path)
    (hpath : ':' ∉ f.path.toList) : Undivided 𝒟 skip (d.upsertFile f).graph := by
  have htables := Draft.tables_upsertFile (d := d) (f := f)
  simp only [tables, NodeTables.mk.injEq] at htables
  obtain ⟨hfiles, hunits, hchunks, -, -, -, hby, -⟩ := htables
  have hcontains : ∀ p, (d.upsertFile f).graph.files.contains p = true ↔
      p = f.path ∨ d.graph.files.contains p = true := by
    intro p
    rw [hfiles]
    exact Draft.stored_insert_iff
  constructor
  case mirrored => exact Draft.mirrored_upsertFile hg.mirrored
  case path =>
    intro p hp
    rcases (hcontains p).mp hp with rfl | hp
    · exact hpath
    · exact hg.path p hp
  case file =>
    intro p s hs hp
    rw [hfiles, Draft.getElem?_insert_eq_some_iff] at hs
    rcases hs with ⟨rfl, -⟩ | ⟨-, hs⟩
    · exact absurd hskip hp
    · obtain ⟨D, t, hD, hpath, hnode, hwhole⟩ := hg.file p s hs hp
      exact ⟨D, t, hD, hpath, hnode, hwhole.congr hunits hchunks fun _ _ => Draft.hasEdge_upsertFile_of_ne (by simp)⟩
  case unit =>
    intro i u hu
    rw [hunits] at hu
    obtain ⟨hid, hown, hf⟩ := hg.unit i u hu
    exact ⟨hid, hown, (hcontains _).mpr (Or.inr hf)⟩
  case byFile =>
    rw [hby, hunits]
    exact hg.byFile
  case chunk =>
    intro h s hs
    rw [hchunks] at hs
    obtain ⟨hid, hprint, hu, he⟩ := hg.chunk h s hs
    exact ⟨hid, hprint, by rw [hunits]; exact hu, (Draft.hasEdge_upsertFile_of_ne (by simp)).mpr he⟩
  case describes =>
    intro k i he
    rw [hunits]
    exact hg.describes k i ((Draft.hasEdge_upsertFile_of_ne (by simp)).mp he)

/-- Putting a unit of a skipped file. -/
lemma Undivided.upsertUnit {u : CodeUnit} (hg : Undivided 𝒟 skip d.graph) (hskip : skip u.path)
    (hown : OwnedBy u.path u.id) (hfile : d.graph.files.contains u.path = true) :
    Undivided 𝒟 skip (d.upsertUnit u).graph := by
  by_cases hold : d.graph.units[u.id]? = some u
  · rw [Draft.upsertUnit_of_eq hold]
    exact hg
  have hcolon := hg.path _ hfile
  have hsame : ∀ v, d.graph.units[u.id]? = some v → v.path = u.path := fun v hv => hg.path_eq hv hown hcolon
  have hby : (d.upsertUnit u).graph.unitsByFile = addEntry d.graph.unitsByFile u.path u.id := by
    have htables := Draft.tables_upsertUnit hold
    simp only [tables, NodeTables.mk.injEq] at htables
    exact htables.2.2.2.2.2.2.1
  obtain ⟨hfiles, hunits, hchunks⟩ := d.upsertUnit_tables u
  have hcontains : ∀ i, d.graph.units.contains i = true → (d.upsertUnit u).graph.units.contains i = true := by
    intro i hi
    rw [hunits]
    exact Draft.stored_insert_iff.mpr (Or.inr hi)
  constructor
  case mirrored => exact Draft.mirrored_upsertUnit hg.mirrored
  case path =>
    rw [hfiles]
    exact hg.path
  case file =>
    intro p f hf hp
    rw [hfiles] at hf
    obtain ⟨D, t, hD, rfl, hnode, hwhole⟩ := hg.file p f hf hp
    have hne : u.path ≠ D.path := fun he => hp (he ▸ hskip)
    refine ⟨D, t, hD, rfl, hnode, ⟨fun i v => ?_, ?_, fun k i he => ?_⟩⟩
    · -- the id of the unit is not used by the other document
      rw [← hwhole.unit i v, hunits, Draft.getElem?_insert_eq_some_iff]
      constructor
      · rintro ⟨⟨-, rfl⟩ | ⟨-, hv⟩, hpv⟩
        · exact absurd hpv hne
        · exact ⟨hv, hpv⟩
      · rintro ⟨hv, hpv⟩
        refine ⟨Or.inr ⟨?_, hv⟩, hpv⟩
        rintro rfl
        exact hne ((hsame v hv).symm.trans hpv)
    · rw [hchunks]
      exact hwhole.chunk
    · exact hwhole.describes k i ((Draft.hasEdge_upsertUnit_of_ne (by simp)).mp he)
  case unit =>
    intro i v hv
    rw [hunits, Draft.getElem?_insert_eq_some_iff] at hv
    rw [hfiles]
    rcases hv with ⟨rfl, rfl⟩ | ⟨-, hv⟩
    · exact ⟨rfl, hown, hfile⟩
    · exact hg.unit i v hv
  case byFile =>
    intro p i
    rw [hby, hunits]
    exact Draft.byFile_inserted hsame hg.byFile
  case chunk =>
    intro h s hs
    rw [hchunks] at hs
    obtain ⟨hid, hprint, hu, he⟩ := hg.chunk h s hs
    exact ⟨hid, hprint, hcontains _ hu, (Draft.hasEdge_upsertUnit_of_ne (by simp)).mpr he⟩
  case describes =>
    intro k i he
    exact hcontains _ (hg.describes k i ((Draft.hasEdge_upsertUnit_of_ne (by simp)).mp he))

/-- Putting the units of a skipped file one after the other: the last one of an id stays. -/
lemma Undivided.foldl_upsertUnit (l : List CodeUnit) (hg : Undivided 𝒟 skip d.graph)
    (hl : ∀ u ∈ l, skip u.path ∧ OwnedBy u.path u.id ∧ d.graph.files.contains u.path = true) :
    Undivided 𝒟 skip (l.foldl Draft.upsertUnit d).graph ∧
      (∀ i u, (l.foldl Draft.upsertUnit d).graph.units[i]? = some u ↔
        lastUnit l i = some u ∨ (lastUnit l i = none ∧ d.graph.units[i]? = some u)) ∧
      (l.foldl Draft.upsertUnit d).graph.files = d.graph.files ∧
      (l.foldl Draft.upsertUnit d).graph.chunks = d.graph.chunks ∧
      ∀ k i, (l.foldl Draft.upsertUnit d).graph.hasEdge ⟨.describes, k, .unit i⟩ = true ↔
        d.graph.hasEdge ⟨.describes, k, .unit i⟩ = true := by
  induction l generalizing d with
  | nil => exact ⟨hg, by simp [lastUnit_nil], rfl, rfl, fun _ _ => Iff.rfl⟩
  | cons u l ih =>
    obtain ⟨hskip, hown, hfile⟩ := hl u (by simp)
    obtain ⟨hfiles₁, -, hchunks₁⟩ := d.upsertUnit_tables u
    obtain ⟨hg₂, -, hfiles₂, hchunks₂, hedge₂⟩ := ih (hg.upsertUnit hskip hown hfile) fun v hv => by
      rw [hfiles₁]
      exact hl v (by simp [hv])
    exact ⟨hg₂, fun i v => Draft.units_foldl_upsertUnit (u :: l) d, hfiles₂.trans hfiles₁,
      hchunks₂.trans hchunks₁, fun k i => (hedge₂ k i).trans (Draft.hasEdge_upsertUnit_of_ne (by simp))⟩

/-! ### Putting the chunks -/

/-- A document stays whole if a chunk of it is put, or a chunk of another path. -/
lemma Document.Whole.upsertChunk {c : SemanticChunk} (h : D'.Whole d.graph) (hc : D.Embeds c)
    (hown : D' = D ∨ ∀ u ∈ D'.units, u.id ≠ c.unitId) : D'.Whole (d.upsertChunk c).graph := by
  obtain ⟨s, n, hkept, hs, htables⟩ := Draft.tables_upsertChunk d c
  simp only [tables, NodeTables.mk.injEq] at htables
  obtain ⟨-, hunits, hchunks, -⟩ := htables
  obtain ⟨u, hu, htext⟩ := hc
  constructor
  case unit =>
    rw [hunits]
    exact h.unit
  case chunk =>
    intro i s' hs' hunit
    rw [hchunks, Draft.getElem?_insert_eq_some_iff] at hs'
    rcases hs' with ⟨-, rfl⟩ | ⟨-, hs'⟩
    · rcases hown with rfl | hno
      · rcases hkept with hkept | hkept
        · exact ⟨u, hu.mem, hu.unit.trans hs.symm, by rw [hkept, htext]⟩
        · exact h.chunk _ _ hkept hunit
      · obtain ⟨u', hu', hid⟩ := hunit
        exact absurd (hid.trans hs) (hno u' hu')
    · exact h.chunk i s' hs' hunit
  case describes =>
    intro k i he hunit
    rw [Draft.hasEdge_upsertChunk] at he
    rcases he with he | he
    · cases he
      rcases hown with rfl | hno
      · exact ⟨u, hu.mem, hu.unit, by rw [hu.id]⟩
      · obtain ⟨u', hu', hid⟩ := hunit
        exact absurd hid (hno u' hu')
    · exact h.describes k i he hunit

/-- Putting a chunk of a stored unit of a skipped file. -/
lemma Undivided.upsertChunk {c : SemanticChunk} (hg : Undivided 𝒟 skip d.graph) (hc : D.Embeds c)
    (hskip : skip D.path) (hpath : ':' ∉ D.path.toList) (hstored : d.graph.units.contains c.unitId = true) :
    Undivided 𝒟 skip (d.upsertChunk c).graph := by
  obtain ⟨s, n, hkept, hs, htables⟩ := Draft.tables_upsertChunk d c
  simp only [tables, NodeTables.mk.injEq] at htables
  obtain ⟨hfiles, hunits, hchunks, -, -, -, hby, -⟩ := htables
  constructor
  case mirrored => exact Draft.mirrored_upsertChunk hg.mirrored
  case path =>
    rw [hfiles]
    exact hg.path
  case file =>
    intro p f hf hp
    rw [hfiles] at hf
    obtain ⟨D', t', hD', rfl, hnode, hwhole⟩ := hg.file p f hf hp
    refine ⟨D', t', hD', rfl, hnode, hwhole.upsertChunk hc (Or.inr fun u' hu' hid => hp ?_)⟩
    obtain ⟨u, hu, -⟩ := hc
    have hown : OwnedBy D'.path u.id := by
      rw [hu.unit, ← hid]
      exact Document.ownedBy_of_mem_units hu'
    have hcolon := hg.path _ (contains_iff_getElem?.mpr ⟨f, hf⟩)
    rw [hown.unique (Document.ownedBy_of_mem_units hu.mem) hcolon hpath]
    exact hskip
  case unit =>
    rw [hunits, hfiles]
    exact hg.unit
  case byFile =>
    rw [hby, hunits]
    exact hg.byFile
  case chunk =>
    intro h s' hs'
    rw [hchunks, Draft.getElem?_insert_eq_some_iff] at hs'
    rw [hunits, Draft.hasEdge_upsertChunk]
    rcases hs' with ⟨rfl, rfl⟩ | ⟨-, hs'⟩
    · rw [hs]
      refine ⟨?_, ?_, hstored, Or.inl rfl⟩
      · rcases hkept with hkept | hkept
        · rw [hkept]
        · exact (hg.chunk _ _ hkept).1
      · rcases hkept with hkept | hkept
        · obtain ⟨u, hu, htext⟩ := hc
          rw [hkept, ← hu.id, ← hu.unit, htext]
          rfl
        · rw [← hs]
          exact (hg.chunk _ _ hkept).2.1
    · obtain ⟨hid, hprint, hu, he⟩ := hg.chunk h s' hs'
      exact ⟨hid, hprint, hu, Or.inr he⟩
  case describes =>
    intro k i he
    rw [Draft.hasEdge_upsertChunk] at he
    rw [hunits]
    rcases he with he | he
    · cases he
      exact hstored
    · exact hg.describes k i he

lemma Undivided.foldl_upsertChunk (cs : List SemanticChunk) (hg : Undivided 𝒟 skip d.graph)
    (hskip : skip D.path) (hpath : ':' ∉ D.path.toList) (hcs : ∀ c ∈ cs, D.Embeds c)
    (hwhole : D.Whole d.graph) :
    Undivided 𝒟 skip (cs.foldl Draft.upsertChunk d).graph ∧ D.Whole (cs.foldl Draft.upsertChunk d).graph ∧
      (cs.foldl Draft.upsertChunk d).graph.files = d.graph.files := by
  induction cs generalizing d with
  | nil => exact ⟨hg, hwhole, rfl⟩
  | cons c cs ih =>
    have hc := hcs c (by simp)
    have hstored : d.graph.units.contains c.unitId = true := by
      obtain ⟨u, hu, -⟩ := hc
      obtain ⟨v, hv⟩ := lastUnit_isSome hu.mem
      rw [← hu.unit]
      exact contains_iff_getElem?.mpr ⟨v, ((hwhole.unit _ _).mpr hv).1⟩
    obtain ⟨hg₂, hwhole₂, hfiles₂⟩ := ih (hg.upsertChunk hc hskip hpath hstored)
      (fun c' hc' => hcs c' (by simp [hc'])) (hwhole.upsertChunk hc (Or.inl rfl))
    obtain ⟨_, _, -, -, htables⟩ := Draft.tables_upsertChunk d c
    simp only [tables, NodeTables.mk.injEq] at htables
    exact ⟨hg₂, hwhole₂, hfiles₂.trans htables.1⟩

/-! ### The whole batch -/

/-- Storing a document stores it whole. -/
theorem Undivided.contents {t : Instant} {cs : List SemanticChunk} (hg : Undivided 𝒟 skip g)
    (hD : ¬skip D.path → 𝒟 D) (hpath : ':' ∉ D.path.toList) (hcs : ∀ c ∈ cs, D.Embeds c) :
    Undivided 𝒟 skip (g.applyBatch (Ingest.contents (D.node t) D.units cs)).graph ∧
      D.Whole (g.applyBatch (Ingest.contents (D.node t) D.units cs)).graph := by
  rw [applyBatch_contents]
  -- the contents of the file go
  obtain ⟨hr, hg₁⟩ := hg.clearFile (d := { graph := g }) (D.node t).path
  rw [Document.node_path] at *
  set d₁ := Draft.clearFile { graph := g } D.path
  have hgone : ∀ i, OwnedBy D.path i → ¬d₁.graph.units.contains i = true := by
    intro i hi hcontains
    obtain ⟨u, hu⟩ := contains_iff_getElem?.mp hcontains
    exact ((hr.unit i u).mp hu).2 ⟨u, ((hr.unit i u).mp hu).1, hg₁.path_eq hu hi hpath⟩
  -- the file is put
  have hg₂ := hg₁.upsertFile (f := D.node t) (Or.inr rfl) hpath
  have htables := Draft.tables_upsertFile (d := d₁) (f := D.node t)
  simp only [tables, NodeTables.mk.injEq, Document.node_path] at htables
  obtain ⟨hfiles₂, hunits₂, hchunks₂, -⟩ := htables
  set d₂ := d₁.upsertFile (D.node t)
  -- the units are put; no chunk is about them, since those of the path are gone
  obtain ⟨hg₃, hunits₃, hfiles₃, hchunks₃, hedge₃⟩ := hg₂.foldl_upsertUnit D.units fun u hu => by
    have hup := Document.path_of_mem_units hu
    refine ⟨Or.inr hup, hup ▸ Document.ownedBy_of_mem_units hu, ?_⟩
    rw [hfiles₂, hup]
    simp
  set d₃ := D.units.foldl Draft.upsertUnit d₂
  have hwhole₃ : D.Whole d₃.graph := by
    constructor
    case unit =>
      intro i u
      rw [hunits₃, hunits₂]
      constructor
      · rintro ⟨hu | ⟨-, hu⟩, hp⟩
        · exact hu
        · exact absurd (contains_iff_getElem?.mpr ⟨u, hu⟩)
            (hgone i (hp ▸ (hg₁.unit i u hu).2.1))
      · intro hu
        exact ⟨Or.inl hu, Document.path_of_mem_units (mem_of_lastUnit hu).1⟩
    case chunk =>
      rintro i s hs ⟨u, hu, hid⟩
      rw [hchunks₃, hchunks₂] at hs
      exact absurd (hid ▸ (hg₁.chunk i s hs).2.2.1) (hgone _ (Document.ownedBy_of_mem_units hu))
    case describes =>
      rintro k i he ⟨u, hu, rfl⟩
      rw [hedge₃, Draft.hasEdge_upsertFile_of_ne (by simp)] at he
      exact absurd (hg₁.describes k _ he) (hgone _ (Document.ownedBy_of_mem_units hu))
  -- the chunks are put
  obtain ⟨hg₄, hwhole₄, hfiles₄⟩ := hg₃.foldl_upsertChunk cs (Or.inr rfl) hpath hcs hwhole₃
  refine ⟨{ hg₄ with file := fun p f hf hskip => ?_ }, hwhole₄⟩
  by_cases hp : p = D.path
  · rw [hfiles₄, hfiles₃, hfiles₂, Draft.getElem?_insert_eq_some_iff] at hf
    rcases hf with ⟨-, rfl⟩ | ⟨hne, -⟩
    · exact ⟨D, t, hD (hp ▸ hskip), hp.symm, rfl, hwhole₄⟩
    · exact absurd hp hne
  · exact hg₄.file p f hf (by simp [hskip, hp])

/-! ### Replacing edges -/

lemma Undivided.replaceImports {path : String} {targets : List String} (hg : Undivided 𝒟 skip d.graph) :
    Undivided 𝒟 skip (d.replaceImports path targets).graph := by
  refine hg.congr (Draft.mirrored_replaceImports hg.mirrored) Draft.tables_replaceImports fun k i => ?_
  rw [Draft.hasEdge_replaceImports]
  simp

lemma Undivided.replaceCalls {path : String} {calls : List (String × String)}
    (hg : Undivided 𝒟 skip d.graph) : Undivided 𝒟 skip (d.replaceCalls path calls).graph := by
  refine hg.congr (Draft.mirrored_replaceCalls hg.mirrored) Draft.tables_replaceCalls fun k i => ?_
  rw [Draft.hasEdge_replaceCalls]
  simp

end RepoAtlas
