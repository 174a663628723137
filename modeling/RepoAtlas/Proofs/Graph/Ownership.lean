import RepoAtlas.Proofs.Extraction.Naming
import RepoAtlas.Proofs.Graph.Ties

/-!
# One owner for each unit and chunk

A unit should be listed for one file and contained in it, and a chunk should describe one unit: those that are stored
with it. A put that changes them leaves the old list and the old edges as they are, so this holds exactly
if no such put is left unmended. It always holds where ids tell the owner, as the ids of units do if no path
has a colon.
-/

namespace RepoAtlas

open KnowledgeGraph

namespace KnowledgeGraph

/-- Units are listed for the file that they are stored with and contained in it, and in no other one. -/
structure Owned (g : KnowledgeGraph) : Prop where
  listed : ∀ p i, hasEntry g.unitsByFile p i = true ↔ ∃ u, g.units[i]? = some u ∧ u.path = p
  found : ∀ p, (g.unitsInFile p).Nodup ∧ ∀ u, u ∈ g.unitsInFile p ↔ g.units[u.id]? = some u ∧ u.path = p
  contained : ∀ i k, g.hasEdge ⟨.contains, k, .unit i⟩ = true ↔ ∃ u, g.units[i]? = some u ∧ k = .file u.path

/-- Chunks describe the unit that they are stored with, and no other one. -/
def Described (g : KnowledgeGraph) : Prop :=
  ∀ i k, g.hasEdge ⟨.describes, .chunk i, k⟩ = true ↔ ∃ c, g.chunks[i]? = some c ∧ k = .unit c.chunk.unitId

/-- From a graph to another the chunks go that are stored with a unit that goes, and no others. -/
def DropsOwnChunks (g g' : KnowledgeGraph) : Prop :=
  ∀ (i : String) (c : StoredChunk), g'.chunks[i]? = some c ↔ g.chunks[i]? = some c ∧
    ¬(g.units.contains c.chunk.unitId = true ∧ g'.units.contains c.chunk.unitId = false)

variable {g : KnowledgeGraph} {p : String} {u : CodeUnit}

lemma WellFormed.mem_unitsInFile (hw : g.WellFormed) :
    u ∈ g.unitsInFile p ↔ hasEntry g.unitsByFile p u.id = true ∧ g.units[u.id]? = some u := by
  simp only [unitsInFile, List.mem_mergeSort, List.mem_filterMap, mem_entries]
  constructor
  · rintro ⟨i, hlisted, hu⟩
    obtain rfl : u.id = i := hw.indexed.units i u hu
    exact ⟨hlisted, hu⟩
  · rintro ⟨hlisted, hu⟩
    exact ⟨u.id, hlisted, hu⟩

lemma WellFormed.nodup_unitsInFile (hw : g.WellFormed) : (g.unitsInFile p).Nodup := by
  refine (List.mergeSort_perm _ _).nodup_iff.mpr ((entries_nodup p).filterMap fun i j u hi hj => ?_)
  exact (hw.indexed.units i u hi).symm.trans (hw.indexed.units j u hj)

end KnowledgeGraph

namespace GraphStore

variable {s₀ s : GraphStore} {bs : List WriteBatch}

/-! ### Units -/

lemma owned_of_settled (h₀ : s₀.graph = {}) (hbs : ∀ b ∈ bs, ∀ op ∈ b, ¬op.PutsEdge .contains)
    (h : s₀.applyAll bs = .ok s)
    (hsettled : ∀ i p, Disputed bs (.unit i) (.file p) →
      hasEntry s.graph.unitsByFile p i = true ∨ s.graph.hasEdge ⟨.contains, .file p, .unit i⟩ = true →
        s.graph.Refers (.unit i) (.file p)) : s.graph.Owned := by
  have hw : s.graph.WellFormed := wellFormed_applyAll (h₀ ▸ wellFormed_empty) h
  have hlisting := Tie.accounts_applyAll .listing h₀ hbs h
  have hcontainment := Tie.accounts_applyAll .containment h₀ hbs h
  have hlisted : ∀ p i, hasEntry s.graph.unitsByFile p i = true ↔ ∃ u, s.graph.units[i]? = some u ∧ u.path = p := by
    intro p i
    have hiff := hlisting.marks_iff (i := i) (k := .file p) fun hk ⟨q, hq, hlisted⟩ => by
      cases hq
      exact hsettled i p hk (.inl hlisted)
    constructor
    · intro hlisted
      obtain ⟨u, hu, hp⟩ := hiff.mp ⟨p, rfl, hlisted⟩
      exact ⟨u, hu, (NodeKey.file.inj hp).symm⟩
    · rintro ⟨u, hu, rfl⟩
      obtain ⟨q, hq, hlisted⟩ := hiff.mpr ⟨u, hu, rfl⟩
      cases hq
      exact hlisted
  refine ⟨hlisted, fun p => ⟨hw.nodup_unitsInFile, fun u => ?_⟩, fun i k => ?_⟩
  · rw [hw.mem_unitsInFile, hlisted]
    constructor
    · rintro ⟨⟨v, hv, hp⟩, hu⟩
      rw [hu] at hv
      cases hv
      exact ⟨hu, hp⟩
    · rintro ⟨hu, hp⟩
      exact ⟨⟨u, hu, hp⟩, hu⟩
  · refine hcontainment.marks_iff (i := i) (k := k) fun (hk : Disputed bs (.unit i) k) hmark => ?_
    obtain ⟨-, -, u, -, -, rfl⟩ := hk.1.exists_unit
    exact hsettled i u.path hk (.inr hmark)

/-- From the empty graph, units are listed for the file that they are stored with and contained in it, and in no other
one, exactly if no unit that was put with two paths is left at one that it is not stored with. -/
theorem owned_iff_settled (h₀ : s₀.graph = {}) (hbs : ∀ b ∈ bs, ∀ op ∈ b, ¬op.PutsEdge .contains)
    (h : s₀.applyAll bs = .ok s) :
    s.graph.Owned ↔ ∀ i p, Disputed bs (.unit i) (.file p) →
      hasEntry s.graph.unitsByFile p i = true ∨ s.graph.hasEdge ⟨.contains, .file p, .unit i⟩ = true →
        s.graph.Refers (.unit i) (.file p) := by
  refine ⟨fun howned i p _ hmark => ?_, owned_of_settled h₀ hbs h⟩
  rcases hmark with hlisted | hedge
  · obtain ⟨u, hu, rfl⟩ := (howned.listed p i).mp hlisted
    exact ⟨u, hu, rfl⟩
  · exact (howned.contained i (.file p)).mp hedge

theorem owned_iff_settled_smallBatch : ∃ s, ({} : GraphStore).applyAll [smallBatch] = .ok s ∧
    (s.graph.Owned ↔ ∀ i p, Disputed [smallBatch] (.unit i) (.file p) →
      hasEntry s.graph.unitsByFile p i = true ∨ s.graph.hasEdge ⟨.contains, .file p, .unit i⟩ = true →
        s.graph.Refers (.unit i) (.file p)) := by
  have hbs : ∀ b ∈ [smallBatch], ∀ op ∈ b, ¬op.PutsEdge .contains := by
    simp [smallBatch, WriteOp.PutsEdge]
  obtain ⟨s, hrun⟩ := exists_applyAll_smallBatch
  exact ⟨s, hrun, owned_iff_settled rfl hbs hrun⟩

/-- Without colons in paths the ids of units tell their paths, so no unit is put with two of them. -/
theorem owned_of_plain_paths (h₀ : s₀.graph = {}) (hbs : ∀ b ∈ bs, ∀ op ∈ b, ¬op.PutsEdge .contains)
    (hpaths : ∀ b ∈ bs, ∀ u, .upsertNode (.codeUnit u) ∈ b → ':' ∉ u.path.toList)
    (h : s₀.applyAll bs = .ok s) : s.graph.Owned := by
  refine owned_of_settled h₀ hbs h fun i p hdisputed _ => ?_
  obtain ⟨hput, k, hne, hput'⟩ := hdisputed
  obtain ⟨b, hb, u, hu, rfl, hp⟩ := hput.exists_unit
  obtain ⟨b', hb', v, hv, hid, rfl⟩ := hput'.exists_unit
  have hregular := regular_of_applyAll h
  have huid := CodeUnit.id_eq_of_flaw? (hregular b hb _ hu)
  have hvid := CodeUnit.id_eq_of_flaw? (hregular b' hb' _ hv)
  have hpath : v.path = u.path :=
    CodeUnit.eq_of_identity_eq (hpaths b' hb' v hv) (hpaths b hb u hu) (hvid.symm.trans (hid.symm.trans huid))
  exact absurd (hpath ▸ hp.symm) hne

/-- A unit of a file whose id could be one of another file as well. -/
def ambiguousUnit (path name : String) : CodeUnit :=
  { (default : CodeUnit) with id := path ++ ":" ++ name, path, name, qualifiedName := name }

/-- A unit is stored, and its id is put once more for another file. -/
def movingBatches : List WriteBatch :=
  [[.upsertNode (.sourceFile ⟨"a", "python", "f", default, [], []⟩),
      .upsertNode (.sourceFile ⟨"a:b", "python", "f", default, [], []⟩),
      .upsertNode (.codeUnit (ambiguousUnit "a" "b:c"))],
    [.upsertNode (.codeUnit (ambiguousUnit "a:b" "c"))]]

lemma moving : ((({} : GraphStore).applyAll movingBatches).toOption.map fun s =>
    (hasEntry s.graph.unitsByFile "a" "a:b:c", s.graph.units["a:b:c"]?.map (·.path))) =
      some (true, some "a:b") := by
  decide

/-- A unit that is put with another path is still listed for the file before. -/
theorem not_owned_applyAll : ¬∀ bs s, (∀ b ∈ bs, ∀ op ∈ b, ¬op.PutsEdge .contains) →
    ({} : GraphStore).applyAll bs = .ok s → s.graph.Owned := by
  intro hall
  have hmoving := moving
  cases hrun : ({} : GraphStore).applyAll movingBatches with
  | error e => simp [hrun, Except.toOption] at hmoving
  | ok s =>
    simp only [hrun, Except.toOption, Option.map_some, Option.some.injEq, Prod.mk.injEq] at hmoving
    have howned := hall _ s (by simp [movingBatches, WriteOp.PutsEdge]) hrun
    obtain ⟨u, hu, hpath⟩ := (howned.listed _ _).mp hmoving.1
    rw [hu, Option.map_some, hpath] at hmoving
    exact absurd hmoving.2 (by decide)

/-! ### Chunks -/

/-- A file can be cleared at any time. -/
lemma exists_apply_clearFile (s : GraphStore) (path : String) : ∃ s' summary,
    s.apply [.clearFile path] = .ok (s', summary) ∧
      s'.graph = (Draft.clearFile { graph := s.graph } path).graph := by
  have hflaw : s.graph.batchFlaw? s.dimensions [.clearFile path] = none := rfl
  cases happly : s.apply [.clearFile path] with
  | error e =>
    simp only [apply, List.isEmpty_cons, Bool.false_eq_true, if_false, hflaw] at happly
    split at happly <;> cases happly
  | ok r => exact ⟨r.1, r.2, rfl, (apply_eq_ok happly).1⟩

/-- What goes when a file is cleared are the units that are listed for it, and the chunks that describe one of them
and so are stored with it. -/
lemma dropsOwnChunks_clearFile (hm : s.graph.Mirrored) (hdescribed : s.graph.Described) (path : String) :
    s.graph.DropsOwnChunks (Draft.clearFile { graph := s.graph } path).graph := by
  intro i c
  have hr := Draft.removes_clearFile (d := { graph := s.graph }) hm path
  have hunit := hr.contains_iff (.unit c.chunk.unitId)
  simp only [KnowledgeGraph.contains] at hunit
  rw [hr.chunk]
  refine and_congr_right fun hc => not_congr ?_
  rw [← Bool.not_eq_true, hunit]
  constructor
  · rintro ⟨j, hj, ⟨u, hu⟩, hgone | ⟨c', hc', hedge⟩⟩
    · cases hgone
    · cases hc'
      obtain ⟨c₁, hc₁, hj'⟩ := (hdescribed i (.unit j)).mp hedge
      cases hc.symm.trans hc₁
      cases hj'
      refine ⟨?_, fun hstays => hstays.2 ⟨_, hj, ⟨u, hu⟩, .inl rfl⟩⟩
      rw [Std.ExtTreeMap.contains_eq_isSome_getElem?, hu]
      rfl
  · rintro ⟨hstored, hgone⟩
    obtain ⟨j, hj, hu, hkey | ⟨c', hc', -⟩⟩ := Classical.not_not.mp fun hstays => hgone ⟨hstored, hstays⟩
    · cases hkey
      exact ⟨_, hj, hu, .inr ⟨i, rfl, (hdescribed i _).mpr ⟨c, hc, rfl⟩⟩⟩
    · cases hc'

lemma described_of_settled (h₀ : s₀.graph = {}) (hbs : ∀ b ∈ bs, ∀ op ∈ b, ¬op.PutsEdge .describes)
    (h : s₀.applyAll bs = .ok s)
    (hsettled : ∀ i k, Disputed bs (.chunk i) k → s.graph.hasEdge ⟨.describes, .chunk i, k⟩ = true →
      s.graph.Refers (.chunk i) k) : s.graph.Described := fun i k =>
  (Tie.accounts_applyAll .description h₀ hbs h).marks_iff fun hk hmark => hsettled i k hk hmark

/-- From the empty graph, chunks describe the unit that they are stored with, and no other one, exactly if no chunk that
was put with two units is left describing one that it is not stored with. If so, a file that is cleared takes exactly
the chunks that are stored with one of the units that go. -/
theorem described_iff_settled (h₀ : s₀.graph = {}) (hbs : ∀ b ∈ bs, ∀ op ∈ b, ¬op.PutsEdge .describes)
    (h : s₀.applyAll bs = .ok s) :
    (s.graph.Described ↔ ∀ i k, Disputed bs (.chunk i) k → s.graph.hasEdge ⟨.describes, .chunk i, k⟩ = true →
      s.graph.Refers (.chunk i) k) ∧
    (s.graph.Described → ∀ path, ∃ s' summary, s.apply [.clearFile path] = .ok (s', summary) ∧
      s.graph.DropsOwnChunks s'.graph) := by
  refine ⟨⟨fun hdescribed i k _ hedge => ?_, described_of_settled h₀ hbs h⟩, fun hdescribed path => ?_⟩
  · exact (hdescribed i k).mp hedge
  · have hw : s.graph.WellFormed := wellFormed_applyAll (h₀ ▸ wellFormed_empty) h
    obtain ⟨s', summary, happly, hgraph⟩ := s.exists_apply_clearFile path
    exact ⟨s', summary, happly, hgraph ▸ dropsOwnChunks_clearFile hw.adjacent.mirrored hdescribed path⟩

theorem described_iff_settled_smallBatch : ∃ s, ({} : GraphStore).applyAll [smallBatch] = .ok s ∧
    (s.graph.Described ↔ ∀ i k, Disputed [smallBatch] (.chunk i) k →
      s.graph.hasEdge ⟨.describes, .chunk i, k⟩ = true → s.graph.Refers (.chunk i) k) ∧
    (s.graph.Described → ∀ path, ∃ s' summary, s.apply [.clearFile path] = .ok (s', summary) ∧
      s.graph.DropsOwnChunks s'.graph) := by
  have hbs : ∀ b ∈ [smallBatch], ∀ op ∈ b, ¬op.PutsEdge .describes := by
    simp [smallBatch, WriteOp.PutsEdge]
  obtain ⟨s, hrun⟩ := exists_applyAll_smallBatch
  exact ⟨s, hrun, described_iff_settled rfl hbs hrun⟩

/-- Where the ids of chunks tell their units, no chunk is put with two of them. -/
theorem described_of_single_units (h₀ : s₀.graph = {}) (hbs : ∀ b ∈ bs, ∀ op ∈ b, ¬op.PutsEdge .describes)
    (hunits : ∀ b ∈ bs, ∀ c, .upsertNode (.semanticChunk c) ∈ b → ∀ b' ∈ bs, ∀ c',
      .upsertNode (.semanticChunk c') ∈ b' → c.id = c'.id → c.unitId = c'.unitId)
    (h : s₀.applyAll bs = .ok s) : s.graph.Described := by
  refine described_of_settled h₀ hbs h fun i k hdisputed _ => ?_
  obtain ⟨hput, k', hne, hput'⟩ := hdisputed
  obtain ⟨b, hb, c, hc, rfl, rfl⟩ := hput.exists_chunk
  obtain ⟨b', hb', c', hc', hid, rfl⟩ := hput'.exists_chunk
  exact absurd (congrArg NodeKey.unit (hunits b hb c hc b' hb' c' hc' hid).symm) hne

/-- A chunk is stored, and its id is put once more for a unit of another file. -/
def redescribingBatches : List WriteBatch :=
  [smallBatch,
    [.upsertNode (.sourceFile ⟨"b.py", "python", "f", default, [], []⟩),
      .upsertNode (.codeUnit { (default : CodeUnit) with
        id := "b.py:g", path := "b.py", name := "g", qualifiedName := "g" }),
      .upsertNode (.semanticChunk ⟨"c", "b.py:g", "text", [1], default⟩)]]

lemma redescribing : ((({} : GraphStore).applyAll redescribingBatches).toOption.map fun s =>
    (s.graph.hasEdge ⟨.describes, .chunk "c", .unit "a.py:f"⟩, s.graph.chunks["c"]?.map (·.chunk.unitId))) =
      some (true, some "b.py:g") := by
  decide

/-- A chunk that is put with another unit still describes the one before. -/
theorem not_described_applyAll : ¬∀ bs s, (∀ b ∈ bs, ∀ op ∈ b, ¬op.PutsEdge .describes) →
    ({} : GraphStore).applyAll bs = .ok s → s.graph.Described := by
  intro hall
  have hredescribing := redescribing
  cases hrun : ({} : GraphStore).applyAll redescribingBatches with
  | error e => simp [hrun, Except.toOption] at hredescribing
  | ok s =>
    simp only [hrun, Except.toOption, Option.map_some, Option.some.injEq, Prod.mk.injEq] at hredescribing
    have hdescribed := hall _ s (by simp [redescribingBatches, smallBatch, WriteOp.PutsEdge]) hrun
    obtain ⟨c, hc, hunit⟩ := (hdescribed _ _).mp hredescribing.1
    rw [hc, Option.map_some, ← NodeKey.unit.inj hunit] at hredescribing
    exact absurd hredescribing.2 (by decide)

end GraphStore

end RepoAtlas
