import RepoAtlas.Engine.Ingest
import RepoAtlas.Proofs.Extraction.Naming
import RepoAtlas.Proofs.Graph.Insertion

/-!
# Documents and tidy graphs

A document is what a file contributes to the graph: its path, language and fingerprint, and what was read
from it. `Apart` says of a set of documents that their units and chunks cannot be mistaken for each
other. A graph is tidy if all that it holds of files comes from such documents, and its indexes and its
edges of contents say exactly what its nodes say.
-/

namespace RepoAtlas

/-- The id of the chunk of a unit. -/
def CodeUnit.chunkId (u : CodeUnit) : String := fingerprintParts [u.id, u.chunkText]

/-- What a file contributes to the graph. -/
structure Document where
  path : String
  language : String
  fingerprint : String
  extraction : Extraction
deriving DecidableEq

namespace Document

/-- The units of a document, in the order of their definitions. -/
def units (D : Document) : List CodeUnit := D.extraction.definitions.map (CodeUnit.ofDefinition D.path)

/-- The file node of a document that is stored at a time. -/
def node (D : Document) (t : Instant) : SourceFile :=
  Ingest.sourceFile ⟨D.path, D.language, D.fingerprint⟩ D.fingerprint D.extraction t

/-- The file of a document as a scan finds it. -/
def scanned (D : Document) : ScannedFile := ⟨D.path, D.language, D.fingerprint⟩

variable {D : Document} {u : CodeUnit}

lemma path_of_mem_units (h : u ∈ D.units) : u.path = D.path := by
  obtain ⟨d, -, rfl⟩ := List.mem_map.mp h
  rfl

@[simp] lemma node_path (t : Instant) : (D.node t).path = D.path := rfl

end Document

/-- The unit that stands for an id in the end, if units are stored one after the other. -/
def lastUnit (l : List CodeUnit) (id : String) : Option CodeUnit := l.reverse.find? (·.id == id)

section

variable {l : List CodeUnit} {u v : CodeUnit} {i : String}

lemma lastUnit_nil : lastUnit [] i = none := rfl

lemma lastUnit_cons : lastUnit (u :: l) i = (lastUnit l i).or (if u.id = i then some u else none) := by
  simp only [lastUnit, List.reverse_cons, List.find?_append, List.find?_singleton, beq_iff_eq]

lemma mem_of_lastUnit (h : lastUnit l i = some u) : u ∈ l ∧ u.id = i :=
  ⟨List.mem_reverse.mp (List.mem_of_find?_eq_some h), by simpa using List.find?_some h⟩

lemma lastUnit_isSome (h : u ∈ l) : ∃ v, lastUnit l u.id = some v := by
  rw [← Option.isSome_iff_exists, lastUnit, List.find?_isSome]
  exact ⟨u, List.mem_reverse.mpr h, by simp⟩

lemma lastUnit_eq_none : lastUnit l i = none ↔ ∀ u ∈ l, u.id ≠ i := by
  simp [lastUnit]

end

/-! ### Documents that can be told apart -/

/-- Documents whose units and chunks cannot be mistaken for each other: an id tells the path, the id of a
chunk tells its unit and its text, and a fingerprint tells the content. -/
structure Apart (𝒟 : Document → Prop) : Prop where
  unit : ∀ D D' u u', 𝒟 D → 𝒟 D' → u ∈ D.units → u' ∈ D'.units → u.id = u'.id → D.path = D'.path
  chunk : ∀ D D' u u', 𝒟 D → 𝒟 D' → u ∈ D.units → u' ∈ D'.units → u.chunkId = u'.chunkId →
    u.id = u'.id ∧ u.chunkText = u'.chunkText
  content : ∀ D D', 𝒟 D → 𝒟 D' → D.path = D'.path → D.fingerprint = D'.fingerprint → D = D'

variable {𝒟 : Document → Prop} {g g' : KnowledgeGraph}

/-- A node of a file tells its document. -/
lemma Apart.eq_of_node (ha : Apart 𝒟) {D D' : Document} {t t' : Instant} (hD : 𝒟 D) (hD' : 𝒟 D')
    (h : D.node t = D'.node t') : D = D' :=
  ha.content D D' hD hD' (congrArg SourceFile.path h) (congrArg SourceFile.fingerprint h)

namespace Sync

/-- The documents of a history can be told apart: no path has a colon, and fingerprints do not collide, so
that those of a file tell its contents and the id of a chunk tells its unit and its text. -/
structure Unambiguous (𝒟 : Document → Prop) : Prop where
  path : ∀ D, 𝒟 D → ':' ∉ D.path.toList
  content : ∀ D D', 𝒟 D → 𝒟 D' → D.path = D'.path → D.fingerprint = D'.fingerprint → D = D'
  chunk : ∀ D D' u u', 𝒟 D → 𝒟 D' → u ∈ D.units → u' ∈ D'.units → u.chunkId = u'.chunkId →
    u.id = u'.id ∧ u.chunkText = u'.chunkText

/-- Whether the documents of a list can be told apart can be computed. -/
lemma unambiguous_list_iff {l : List Document} : Unambiguous (· ∈ l) ↔
    ∀ D ∈ l, ':' ∉ D.path.toList ∧ ∀ D' ∈ l,
      (D.path = D'.path → D.fingerprint = D'.fingerprint → D = D') ∧
      ∀ u ∈ D.units, ∀ u' ∈ D'.units, u.chunkId = u'.chunkId →
        u.id = u'.id ∧ u.chunkText = u'.chunkText := by
  constructor
  · rintro ⟨hpath, hcontent, hchunk⟩ D hD
    exact ⟨hpath D hD, fun D' hD' =>
      ⟨hcontent D D' hD hD', fun u hu u' hu' => hchunk D D' u u' hD hD' hu hu'⟩⟩
  · intro h
    exact ⟨fun D hD => (h D hD).1, fun D D' hD hD' => ((h D hD).2 D' hD').1,
      fun D D' u u' hD hD' hu hu' => ((h D hD).2 D' hD').2 u hu u' hu'⟩

instance (l : List Document) : Decidable (Unambiguous (· ∈ l)) := decidable_of_iff' _ unambiguous_list_iff

lemma Unambiguous.apart (h : Unambiguous 𝒟) : Apart 𝒟 where
  unit D D' u u' hD hD' hu hu' hid := by
    obtain ⟨d, -, rfl⟩ := List.mem_map.mp hu
    obtain ⟨d', -, rfl⟩ := List.mem_map.mp hu'
    exact CodeUnit.eq_of_identity_eq (h.path D hD) (h.path D' hD') hid
  chunk := h.chunk
  content := h.content

end Sync

/-! ### Tidy graphs -/

/-- The nodes of the contents of a file. -/
def ContentOf (g : KnowledgeGraph) (path : String) : NodeKey → Prop
  | .unit i => ∃ u, g.units[i]? = some u ∧ u.path = path
  | .chunk i => ∃ s u, g.chunks[i]? = some s ∧ g.units[s.chunk.unitId]? = some u ∧ u.path = path
  | _ => False

/-- All that the graph holds of files comes from documents, and the indexes and the edges of contents say
what the nodes say. -/
structure Tidy (𝒟 : Document → Prop) (g : KnowledgeGraph) : Prop where
  mirrored : g.Mirrored
  file_known : ∀ (p : String) (f : SourceFile), g.files[p]? = some f → ∃ D t, 𝒟 D ∧ D.path = p ∧ f = D.node t
  unit_known : ∀ (i : String) (u : CodeUnit), g.units[i]? = some u →
    u.id = i ∧ g.files.contains u.path = true ∧ ∃ D, 𝒟 D ∧ D.path = u.path ∧ u ∈ D.units
  byFile : ∀ p i, hasEntry g.unitsByFile p i = true ↔ ∃ u, g.units[i]? = some u ∧ u.path = p
  byName : ∀ n i, hasEntry g.unitsByName n i = true ↔ ∃ u, g.units[i]? = some u ∧ u.name = n
  chunk_known : ∀ (i : String) (s : StoredChunk), g.chunks[i]? = some s →
    s.chunk.id = i ∧ g.units.contains s.chunk.unitId = true ∧
      ∃ D u, 𝒟 D ∧ u ∈ D.units ∧ u.chunkId = i ∧ u.id = s.chunk.unitId
  describes : ∀ a b, g.hasEdge ⟨.describes, a, b⟩ = true ↔
    ∃ i s, g.chunks[i]? = some s ∧ a = .chunk i ∧ b = .unit s.chunk.unitId
  contains : ∀ a b, g.hasEdge ⟨.contains, a, b⟩ = true ↔
    ∃ i u, g.units[i]? = some u ∧ a = .file u.path ∧ b = .unit i
  imports : ∀ a b, g.hasEdge ⟨.imports, a, b⟩ = true →
    ∃ p q, a = .file p ∧ b = .file q ∧ g.files.contains p = true ∧ g.files.contains q = true
  calls : ∀ a b, g.hasEdge ⟨.calls, a, b⟩ = true →
    ∃ i j, a = .unit i ∧ b = .unit j ∧ g.units.contains i = true ∧ g.units.contains j = true

lemma contains_iff_getElem? {κ β : Type} [Ord κ] [Std.TransOrd κ] {m : Std.ExtTreeMap κ β} {k : κ} :
    m.contains k = true ↔ ∃ b, m[k]? = some b := by
  rw [Std.ExtTreeMap.contains_eq_isSome_getElem?, Option.isSome_iff_exists]

lemma tidy_empty : Tidy 𝒟 {} where
  mirrored := by
    intro kind s t
    show hasEntry (∅ : Adjacency) t _ = true ↔ hasEntry (∅ : Adjacency) s _ = true
    simp
  file_known p f h := by
    have : (∅ : Std.ExtTreeMap String SourceFile)[p]? = some f := h
    simp at this
  unit_known i u h := by
    have : (∅ : Std.ExtTreeMap String CodeUnit)[i]? = some u := h
    simp at this
  byFile p i := by
    show hasEntry (∅ : Index String) p i = true ↔
      ∃ u, (∅ : Std.ExtTreeMap String CodeUnit)[i]? = some u ∧ _
    simp
  byName p i := by
    show hasEntry (∅ : Index String) p i = true ↔
      ∃ u, (∅ : Std.ExtTreeMap String CodeUnit)[i]? = some u ∧ _
    simp
  chunk_known i s h := by
    have : (∅ : Std.ExtTreeMap String StoredChunk)[i]? = some s := h
    simp at this
  describes a b := by
    show hasEntry (∅ : Adjacency) a _ = true ↔
      ∃ i s, (∅ : Std.ExtTreeMap String StoredChunk)[i]? = some s ∧ _
    simp
  contains a b := by
    show hasEntry (∅ : Adjacency) a _ = true ↔
      ∃ i u, (∅ : Std.ExtTreeMap String CodeUnit)[i]? = some u ∧ _
    simp
  imports a b h := by
    have : hasEntry (∅ : Adjacency) a ⟨.imports, b⟩ = true := h
    simp at this
  calls a b h := by
    have : hasEntry (∅ : Adjacency) a ⟨.calls, b⟩ = true := h
    simp at this

/-- Ids of stored units tell their paths. -/
lemma Tidy.path_eq (ht : Tidy 𝒟 g) (ha : Apart 𝒟) {i : String} {u v : CodeUnit} {D : Document}
    (hu : g.units[i]? = some u) (hD : 𝒟 D) (hv : v ∈ D.units) (hid : v.id = i) : u.path = D.path := by
  obtain ⟨hi, -, D', hD', hpath, hmem⟩ := ht.unit_known i u hu
  rw [← hpath]
  exact ha.unit D' D u v hD' hD hmem hv (by rw [hi, hid])

/-! ### Removals -/

/-- What goes when a file is cleared is its contents. -/
lemma Tidy.goneWithContents_iff (ht : Tidy 𝒟 g) {path : String} {k : NodeKey} :
    Draft.GoneWithContents g path k ↔ ContentOf g path k := by
  simp only [Draft.GoneWithContents, Draft.GoneWithUnits, Draft.GoneWithUnit, mem_entries, ht.byFile]
  constructor
  · rintro ⟨i, ⟨u, hu, hpath⟩, -, rfl | ⟨c, rfl, hc⟩⟩
    · exact ⟨u, hu, hpath⟩
    · obtain ⟨j, s, hs, hj, hi⟩ := (ht.describes _ _).mp hc
      cases hj
      cases hi
      exact ⟨s, u, hs, hu, hpath⟩
  · cases k with
    | unit i =>
      rintro ⟨u, hu, hpath⟩
      exact ⟨i, ⟨u, hu, hpath⟩, ⟨u, hu⟩, Or.inl rfl⟩
    | chunk i =>
      rintro ⟨s, u, hs, hu, hpath⟩
      exact ⟨_, ⟨u, hu, hpath⟩, ⟨u, hu⟩, Or.inr ⟨i, rfl, (ht.describes _ _).mpr ⟨i, s, hs, rfl, rfl⟩⟩⟩
    | _ => exact fun h => h.elim

/-- A graph stays tidy without the contents of a file, and without the file. -/
lemma Tidy.removes {gone : NodeKey → Prop} (ht : Tidy 𝒟 g) (hr : Removes gone g g') (path : String)
    (hunit : ∀ i, gone (.unit i) ↔ ContentOf g path (.unit i))
    (hchunk : ∀ i, gone (.chunk i) ↔ ContentOf g path (.chunk i))
    (hfile : ∀ p, gone (.file p) → p = path) : Tidy 𝒟 g' := by
  have hstays : ∀ i u, g.units[i]? = some u → ¬gone (.unit i) → ¬gone (.file u.path) :=
    fun i u hu hi hp => hi ((hunit i).mpr ⟨u, hu, hfile _ hp⟩)
  constructor
  case mirrored => exact hr.mirrored
  case file_known => exact fun p f hf => ht.file_known p f ((hr.file p f).mp hf).1
  case unit_known =>
    intro i u hu
    obtain ⟨hu, hi⟩ := (hr.unit i u).mp hu
    obtain ⟨hid, hf, hD⟩ := ht.unit_known i u hu
    exact ⟨hid, (hr.contains_iff (.file u.path)).mpr ⟨hf, hstays i u hu hi⟩, hD⟩
  case byFile =>
    intro p i
    rw [hr.byFile, ht.byFile]
    constructor
    · rintro ⟨⟨u, hu, hp⟩, hno⟩
      exact ⟨u, (hr.unit i u).mpr ⟨hu, fun hg => hno ⟨u, hu, hp, hg⟩⟩, hp⟩
    · rintro ⟨u, hu, hp⟩
      obtain ⟨hu, hi⟩ := (hr.unit i u).mp hu
      exact ⟨⟨u, hu, hp⟩, fun ⟨_, _, _, hg⟩ => hi hg⟩
  case byName =>
    intro n i
    rw [hr.byName, ht.byName]
    constructor
    · rintro ⟨⟨u, hu, hn⟩, hno⟩
      exact ⟨u, (hr.unit i u).mpr ⟨hu, fun hg => hno ⟨u, hu, hn, hg⟩⟩, hn⟩
    · rintro ⟨u, hu, hn⟩
      obtain ⟨hu, hi⟩ := (hr.unit i u).mp hu
      exact ⟨⟨u, hu, hn⟩, fun ⟨_, _, _, hg⟩ => hi hg⟩
  case chunk_known =>
    intro i s hs
    obtain ⟨hs, hi⟩ := (hr.chunk i s).mp hs
    obtain ⟨hid, hu, hD⟩ := ht.chunk_known i s hs
    refine ⟨hid, (hr.contains_iff (.unit s.chunk.unitId)).mpr ⟨hu, fun hg => hi ?_⟩, hD⟩
    obtain ⟨u, hu, hp⟩ := (hunit _).mp hg
    exact (hchunk i).mpr ⟨s, u, hs, hu, hp⟩
  case describes =>
    intro a b
    rw [hr.edge, ht.describes]
    constructor
    · rintro ⟨⟨i, s, hs, rfl, rfl⟩, hi, -⟩
      exact ⟨i, s, (hr.chunk i s).mpr ⟨hs, hi⟩, rfl, rfl⟩
    · rintro ⟨i, s, hs, rfl, rfl⟩
      obtain ⟨hs, hi⟩ := (hr.chunk i s).mp hs
      refine ⟨⟨i, s, hs, rfl, rfl⟩, hi, fun hg => hi ?_⟩
      obtain ⟨u, hu, hp⟩ := (hunit _).mp hg
      exact (hchunk i).mpr ⟨s, u, hs, hu, hp⟩
  case contains =>
    intro a b
    rw [hr.edge, ht.contains]
    constructor
    · rintro ⟨⟨i, u, hu, rfl, rfl⟩, -, hi⟩
      exact ⟨i, u, (hr.unit i u).mpr ⟨hu, hi⟩, rfl, rfl⟩
    · rintro ⟨i, u, hu, rfl, rfl⟩
      obtain ⟨hu, hi⟩ := (hr.unit i u).mp hu
      exact ⟨⟨i, u, hu, rfl, rfl⟩, hstays i u hu hi, hi⟩
  case imports =>
    intro a b he
    obtain ⟨he, ha, hb⟩ := (hr.edge _).mp he
    obtain ⟨p, q, rfl, rfl, hp, hq⟩ := ht.imports a b he
    exact ⟨p, q, rfl, rfl, (hr.contains_iff (.file p)).mpr ⟨hp, ha⟩,
      (hr.contains_iff (.file q)).mpr ⟨hq, hb⟩⟩
  case calls =>
    intro a b he
    obtain ⟨he, ha, hb⟩ := (hr.edge _).mp he
    obtain ⟨i, j, rfl, rfl, hi, hj⟩ := ht.calls a b he
    exact ⟨i, j, rfl, rfl, (hr.contains_iff (.unit i)).mpr ⟨hi, ha⟩,
      (hr.contains_iff (.unit j)).mpr ⟨hj, hb⟩⟩

lemma Tidy.clearFile {d : Draft} (ht : Tidy 𝒟 d.graph) (path : String) :
    Removes (ContentOf d.graph path) d.graph (d.clearFile path).graph ∧
      Tidy 𝒟 (d.clearFile path).graph := by
  have hr := (Draft.removes_clearFile ht.mirrored path).congr fun k => ht.goneWithContents_iff
  exact ⟨hr, ht.removes hr path (fun _ => Iff.rfl) (fun _ => Iff.rfl) fun _ h => h.elim⟩

lemma Tidy.removeFile {d : Draft} (ht : Tidy 𝒟 d.graph) (path : String) :
    Removes (fun k => ContentOf d.graph path k ∨ k = .file path) d.graph (d.removeFile path).graph ∧
      Tidy 𝒟 (d.removeFile path).graph := by
  have hr := (Draft.removes_removeFile ht.mirrored path).congr fun k =>
    or_congr_left ht.goneWithContents_iff
  refine ⟨hr, ht.removes hr path (fun i => ?_) (fun i => ?_) fun p h => ?_⟩
  · simp
  · simp
  · rcases h with h | h
    · exact h.elim
    · cases h
      rfl

end RepoAtlas
