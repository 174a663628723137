import RepoAtlas.Proofs.Graph.Removal

/-!
# What insertions and replacements write

The writes that put nodes or edges are described by the tables after them and by the edges that are
there. Each of them keeps the two ends of the edges in step.
-/

namespace RepoAtlas.Draft

variable {d : Draft} {e e' : GraphEdge} {kind : EdgeKind} {source : NodeKey}

/-! ### Single edges -/

@[simp] lemma tables_insertEdge : (d.insertEdge e).graph.tables = d.graph.tables := by
  simp only [insertEdge]
  split <;> rfl

@[simp] lemma hasEdge_insertEdge :
    (d.insertEdge e).graph.hasEdge e' = true ↔ e' = e ∨ d.graph.hasEdge e' = true := by
  simp only [insertEdge]
  split
  · rename_i h
    refine ⟨Or.inr, ?_⟩
    rintro (rfl | h')
    · exact h
    · exact h'
  · exact KnowledgeGraph.hasEdge_addEdge

lemma mirrored_insertEdge (hm : d.graph.Mirrored) : (d.insertEdge e).graph.Mirrored := by
  simp only [insertEdge]
  split
  · exact hm
  · exact hm.addEdge

@[simp] lemma tables_removeEdge : (d.removeEdge e).graph.tables = d.graph.tables := by
  simp only [removeEdge]
  split <;> rfl

@[simp] lemma hasEdge_removeEdge :
    (d.removeEdge e).graph.hasEdge e' = true ↔ e' ≠ e ∧ d.graph.hasEdge e' = true := by
  simp only [removeEdge]
  split
  · exact KnowledgeGraph.hasEdge_dropEdge
  · rename_i h
    refine ⟨fun h' => ⟨?_, h'⟩, And.right⟩
    rintro rfl
    exact h h'

lemma mirrored_removeEdge (hm : d.graph.Mirrored) : (d.removeEdge e).graph.Mirrored := by
  simp only [removeEdge]
  split
  · exact hm.dropEdge
  · exact hm

/-! ### Many edges -/

section

variable {β : Type} {f : β → GraphEdge} {l : List β}

@[simp] lemma tables_foldl_insertEdge :
    (l.foldl (fun d b => d.insertEdge (f b)) d).graph.tables = d.graph.tables := by
  induction l generalizing d with
  | nil => rfl
  | cons b l ih => rw [List.foldl_cons, ih, tables_insertEdge]

@[simp] lemma hasEdge_foldl_insertEdge :
    (l.foldl (fun d b => d.insertEdge (f b)) d).graph.hasEdge e = true ↔
      (∃ b ∈ l, e = f b) ∨ d.graph.hasEdge e = true := by
  induction l generalizing d with
  | nil => simp
  | cons b l ih =>
    rw [List.foldl_cons, ih, hasEdge_insertEdge]
    simp only [List.mem_cons, exists_eq_or_imp]
    rw [← or_assoc, or_comm (b := e = f b)]

lemma mirrored_foldl_insertEdge (hm : d.graph.Mirrored) :
    (l.foldl (fun d b => d.insertEdge (f b)) d).graph.Mirrored := by
  induction l generalizing d with
  | nil => exact hm
  | cons b l ih => exact ih (mirrored_insertEdge hm)

@[simp] lemma tables_foldl_removeEdge :
    (l.foldl (fun d b => d.removeEdge (f b)) d).graph.tables = d.graph.tables := by
  induction l generalizing d with
  | nil => rfl
  | cons b l ih => rw [List.foldl_cons, ih, tables_removeEdge]

@[simp] lemma hasEdge_foldl_removeEdge :
    (l.foldl (fun d b => d.removeEdge (f b)) d).graph.hasEdge e = true ↔
      (∀ b ∈ l, e ≠ f b) ∧ d.graph.hasEdge e = true := by
  induction l generalizing d with
  | nil => simp
  | cons b l ih =>
    rw [List.foldl_cons, ih, hasEdge_removeEdge]
    simp only [List.mem_cons, forall_eq_or_imp]
    tauto

lemma mirrored_foldl_removeEdge (hm : d.graph.Mirrored) :
    (l.foldl (fun d b => d.removeEdge (f b)) d).graph.Mirrored := by
  induction l generalizing d with
  | nil => exact hm
  | cons b l ih => exact ih (mirrored_removeEdge hm)

end

/-! ### Replacing the edges that leave a node -/

variable {desired : Std.ExtTreeSet NodeKey}

@[simp] lemma tables_replaceEdges :
    (d.replaceEdges kind source desired).graph.tables = d.graph.tables := by
  simp only [replaceEdges]
  rw [tables_foldl_insertEdge (f := fun t => ⟨kind, source, t⟩),
    tables_foldl_removeEdge (f := fun t => ⟨kind, source, t⟩)]

lemma mirrored_replaceEdges (hm : d.graph.Mirrored) :
    (d.replaceEdges kind source desired).graph.Mirrored := by
  simp only [replaceEdges]
  exact mirrored_foldl_insertEdge (f := fun t => ⟨kind, source, t⟩)
    (mirrored_foldl_removeEdge (f := fun t => ⟨kind, source, t⟩) hm)

/-- The edges of the kind that leave the node lead exactly to the desired nodes; others stay. -/
lemma hasEdge_replaceEdges :
    (d.replaceEdges kind source desired).graph.hasEdge e = true ↔
      ((e.kind = kind ∧ e.source = source) ∧ desired.contains e.target = true) ∨
        (¬(e.kind = kind ∧ e.source = source) ∧ d.graph.hasEdge e = true) := by
  obtain ⟨k, s, t⟩ := e
  simp only [replaceEdges]
  rw [hasEdge_foldl_insertEdge (f := fun t => ⟨kind, source, t⟩),
    hasEdge_foldl_removeEdge (f := fun t => ⟨kind, source, t⟩)]
  simp only [List.mem_filter, Std.ExtTreeSet.mem_toList, Bool.not_eq_true', ne_eq,
    GraphEdge.mk.injEq, List.contains_eq_mem, decide_eq_false_iff_not,
    KnowledgeGraph.mem_neighbors_outgoing, ← Std.ExtTreeSet.contains_iff_mem]
  by_cases h : k = kind ∧ s = source
  · obtain ⟨rfl, rfl⟩ := h
    simp only [true_and, and_self, not_true, false_and, or_false]
    constructor
    · rintro (⟨b, ⟨hb, -⟩, rfl⟩ | ⟨hall, hg⟩)
      · exact hb
      · by_contra hc
        exact hall t ⟨hg, (Bool.not_eq_true _).mp hc⟩ rfl
    · intro hc
      by_cases hg : d.graph.hasEdge ⟨k, s, t⟩ = true
      · refine Or.inr ⟨?_, hg⟩
        rintro b ⟨-, hb⟩ rfl
        rw [hc] at hb
        cases hb
      · exact Or.inl ⟨t, ⟨hc, hg⟩, rfl⟩
  · simp only [h, false_and, not_false_eq_true, true_and, false_or]
    constructor
    · rintro (⟨b, -, hk, hs, -⟩ | ⟨-, hg⟩)
      · exact absurd ⟨hk, hs⟩ h
      · exact hg
    · exact fun hg => Or.inr ⟨fun b _ hb => h ⟨hb.1, hb.2.1⟩, hg⟩

lemma contains_keySet {l : List NodeKey} {k : NodeKey} : (keySet l).contains k = true ↔ k ∈ l := by
  rw [keySet, contains_foldl_insert]
  simp

/-- The imports of a file lead exactly to the targets other than itself. -/
lemma hasEdge_replaceImports {path : String} {targets : List String} :
    (d.replaceImports path targets).graph.hasEdge e = true ↔
      ((e.kind = .imports ∧ e.source = .file path) ∧
        ∃ t ∈ targets, t ≠ path ∧ e.target = .file t) ∨
      (¬(e.kind = .imports ∧ e.source = .file path) ∧ d.graph.hasEdge e = true) := by
  rw [replaceImports, hasEdge_replaceEdges]
  simp only [contains_keySet, List.mem_map, List.mem_filter, bne_iff_ne, ne_eq, and_assoc,
    eq_comm (b := e.target)]

@[simp] lemma tables_replaceImports {path : String} {targets : List String} :
    (d.replaceImports path targets).graph.tables = d.graph.tables := tables_replaceEdges

lemma mirrored_replaceImports {path : String} {targets : List String} (hm : d.graph.Mirrored) :
    (d.replaceImports path targets).graph.Mirrored := mirrored_replaceEdges hm

section

variable {calls : List (String × String)} {path : String}

/-- The calls of one unit. -/
def replaceCallsOf (calls : List (String × String)) (d : Draft) (unit : String) : Draft :=
  let callees := (calls.filter fun c => c.1 == unit && c.1 != c.2).map (NodeKey.unit ·.2)
  d.replaceEdges .calls (.unit unit) (keySet callees)

lemma replaceCalls_eq :
    d.replaceCalls path calls = (entries d.graph.unitsByFile path).foldl (replaceCallsOf calls) d := rfl

lemma hasEdge_replaceCallsOf {unit : String} :
    (replaceCallsOf calls d unit).graph.hasEdge e = true ↔
      ((e.kind = .calls ∧ e.source = .unit unit) ∧
        ∃ b, (unit, b) ∈ calls ∧ unit ≠ b ∧ e.target = .unit b) ∨
      (¬(e.kind = .calls ∧ e.source = .unit unit) ∧ d.graph.hasEdge e = true) := by
  rw [replaceCallsOf, hasEdge_replaceEdges]
  refine or_congr_left (and_congr_right fun _ => ?_)
  simp only [contains_keySet, List.mem_map, List.mem_filter, Bool.and_eq_true, beq_iff_eq,
    bne_iff_ne, ne_eq]
  constructor
  · rintro ⟨⟨a, b⟩, ⟨hc, rfl, hne⟩, ht⟩
    exact ⟨b, hc, hne, ht.symm⟩
  · rintro ⟨b, hc, hne, ht⟩
    exact ⟨(unit, b), ⟨hc, rfl, hne⟩, ht.symm⟩

lemma tables_foldl_replaceCallsOf {l : List String} :
    (l.foldl (replaceCallsOf calls) d).graph.tables = d.graph.tables := by
  induction l generalizing d with
  | nil => rfl
  | cons u l ih => rw [List.foldl_cons, ih, replaceCallsOf, tables_replaceEdges]

lemma mirrored_foldl_replaceCallsOf {l : List String} (hm : d.graph.Mirrored) :
    (l.foldl (replaceCallsOf calls) d).graph.Mirrored := by
  induction l generalizing d with
  | nil => exact hm
  | cons u l ih => exact ih (mirrored_replaceEdges hm)

lemma hasEdge_foldl_replaceCallsOf {l : List String} :
    (l.foldl (replaceCallsOf calls) d).graph.hasEdge e = true ↔
      ((e.kind = .calls ∧ ∃ a ∈ l, e.source = .unit a) ∧
        ∃ a b, (a, b) ∈ calls ∧ a ≠ b ∧ e.source = .unit a ∧ e.target = .unit b) ∨
      (¬(e.kind = .calls ∧ ∃ a ∈ l, e.source = .unit a) ∧ d.graph.hasEdge e = true) := by
  induction l generalizing d with
  | nil => simp
  | cons u l ih =>
    have hcallee : e.source = .unit u → ((∃ b, (u, b) ∈ calls ∧ u ≠ b ∧ e.target = .unit b) ↔
        ∃ a b, (a, b) ∈ calls ∧ a ≠ b ∧ e.source = .unit a ∧ e.target = .unit b) := by
      intro hu
      rw [hu]
      constructor
      · rintro ⟨b, hc, hne, ht⟩
        exact ⟨u, b, hc, hne, rfl, ht⟩
      · rintro ⟨a, b, hc, hne, ha, ht⟩
        cases ha
        exact ⟨b, hc, hne, ht⟩
    have hcons : (∃ a ∈ u :: l, e.source = .unit a) ↔
        e.source = .unit u ∨ ∃ a ∈ l, e.source = .unit a := by
      simp only [List.mem_cons, exists_eq_or_imp]
    rw [List.foldl_cons, ih, hasEdge_replaceCallsOf, hcons]
    generalize (∃ a ∈ l, e.source = .unit a) = later
    -- a unit that occurs again is replaced again by the same calls
    by_cases hu : e.source = .unit u
    · rw [hcallee hu]
      generalize (∃ a b, (a, b) ∈ calls ∧ a ≠ b ∧ e.source = .unit a ∧ e.target = .unit b) = listed
      by_cases hlater : later <;> simp [hu, hlater]
      tauto
    · simp [hu]

/-- The calls of the units of a file are exactly the pairs whose caller is among them. -/
lemma hasEdge_replaceCalls :
    (d.replaceCalls path calls).graph.hasEdge e = true ↔
      ((e.kind = .calls ∧
          ∃ a, hasEntry d.graph.unitsByFile path a = true ∧ e.source = .unit a) ∧
        ∃ a b, (a, b) ∈ calls ∧ a ≠ b ∧ e.source = .unit a ∧ e.target = .unit b) ∨
      (¬(e.kind = .calls ∧
          ∃ a, hasEntry d.graph.unitsByFile path a = true ∧ e.source = .unit a) ∧
        d.graph.hasEdge e = true) := by
  rw [replaceCalls_eq, hasEdge_foldl_replaceCallsOf]
  simp only [mem_entries]

@[simp] lemma tables_replaceCalls : (d.replaceCalls path calls).graph.tables = d.graph.tables :=
  tables_foldl_replaceCallsOf

lemma mirrored_replaceCalls (hm : d.graph.Mirrored) : (d.replaceCalls path calls).graph.Mirrored :=
  mirrored_foldl_replaceCallsOf hm

end

/-! ### Nodes -/

section

variable {κ β : Type} [Ord κ] [Std.TransOrd κ] [Std.LawfulEqOrd κ] {m : Std.ExtTreeMap κ β}

lemma getElem?_insert_eq_some_iff {k k' : κ} {b b' : β} :
    (m.insert k b)[k']? = some b' ↔ (k' = k ∧ b' = b) ∨ (k' ≠ k ∧ m[k']? = some b') := by
  by_cases hk : k' = k
  · subst hk
    simp [eq_comm]
  · have hne : compare k k' ≠ .eq := fun h => hk (Std.LawfulEqCmp.eq_of_compare h).symm
    simp [Std.ExtTreeMap.getElem?_insert, hne, hk]

lemma stored_insert_iff {k k' : κ} {b : β} :
    (m.insert k b).contains k' = true ↔ k' = k ∨ m.contains k' = true := by
  rw [Std.ExtTreeMap.contains_insert, Bool.or_eq_true, beq_iff_eq, Std.LawfulEqCmp.compare_eq_iff_eq,
    eq_comm]

/-- Inserting what is there changes nothing. -/
lemma insert_eq_self {k : κ} {b : β} (h : m[k]? = some b) : m.insert k b = m := by
  apply Std.ExtTreeMap.ext_getElem?
  intro k'
  apply Option.ext
  intro b'
  rw [getElem?_insert_eq_some_iff]
  by_cases hk : k' = k
  · subst hk
    simp [h, eq_comm]
  · simp [hk]

end

lemma tables_upsertFile {f : SourceFile} :
    (d.upsertFile f).graph.tables =
      { d.graph.tables with files := d.graph.files.insert f.path f } := by
  simp only [upsertFile]
  split
  · split
    · rename_i hf
      rw [insert_eq_self hf]
      rfl
    · rfl
  · rw [tables_foldl_insertEdge (f := fun r => ⟨.versionOf, .revision r, .file f.path⟩)]
    split
    · rename_i hf
      rw [insert_eq_self hf]
      rfl
    · rfl

/-- A file that is new gets the versions that were recorded before it. -/
lemma hasEdge_upsertFile {f : SourceFile} :
    (d.upsertFile f).graph.hasEdge e = true ↔
      (d.graph.files[f.path]? = none ∧ ∃ r, hasEntry d.graph.revisionsByPath f.path r = true ∧
        e = ⟨.versionOf, .revision r, .file f.path⟩) ∨ d.graph.hasEdge e = true := by
  simp only [upsertFile]
  split
  · rename_i hold
    have hne : d.graph.files[f.path]? ≠ none := by
      intro h
      simp [h] at hold
    simp only [hne, false_and, false_or]
    split <;> rfl
  · rename_i hold
    have hnone : d.graph.files[f.path]? = none := by simpa using hold
    rw [hasEdge_foldl_insertEdge (f := fun r => ⟨.versionOf, .revision r, .file f.path⟩)]
    simp only [hnone, mem_entries, true_and, reduceCtorEq, if_false]
    rfl

/-- Putting a file brings edges from its versions only. -/
lemma hasEdge_upsertFile_of_ne {f : SourceFile} (h : e.kind ≠ .versionOf) :
    (d.upsertFile f).graph.hasEdge e = true ↔ d.graph.hasEdge e = true := by
  rw [hasEdge_upsertFile]
  refine or_iff_right ?_
  rintro ⟨-, r, -, rfl⟩
  exact h rfl

lemma mirrored_upsertFile {f : SourceFile} (hm : d.graph.Mirrored) :
    (d.upsertFile f).graph.Mirrored := by
  simp only [upsertFile]
  split
  · split <;> exact hm
  · refine mirrored_foldl_insertEdge (f := fun r => ⟨.versionOf, .revision r, .file f.path⟩) ?_
    split <;> exact hm

lemma upsertUnit_of_eq {u : CodeUnit} (h : d.graph.units[u.id]? = some u) : d.upsertUnit u = d := by
  simp only [upsertUnit, h, if_true]

/-- The paths of the stored units after one is put that stays at its path. -/
lemma exists_insert_unit {units : Std.ExtTreeMap String CodeUnit} {u : CodeUnit} {i : String} {P : String → Prop}
    (hsame : ∀ o : CodeUnit, units[u.id]? = some o → o.path = u.path) :
    (∃ v : CodeUnit, (units.insert u.id u)[i]? = some v ∧ P v.path) ↔
      (i = u.id ∧ P u.path) ∨ ∃ v : CodeUnit, units[i]? = some v ∧ P v.path := by
  simp only [getElem?_insert_eq_some_iff]
  constructor
  · rintro ⟨v, ⟨rfl, rfl⟩ | ⟨-, hv⟩, hp⟩
    · exact Or.inl ⟨rfl, hp⟩
    · exact Or.inr ⟨v, hv, hp⟩
  · rintro (⟨rfl, hp⟩ | ⟨v, hv, hp⟩)
    · exact ⟨u, Or.inl ⟨rfl, rfl⟩, hp⟩
    · by_cases hi : i = u.id
      · subst hi
        exact ⟨u, Or.inl ⟨rfl, rfl⟩, hsame v hv ▸ hp⟩
      · exact ⟨v, Or.inr ⟨hi, hv⟩, hp⟩

/-- The index of files lists the stored units after one is put that stays at its path, if it did before. -/
lemma byFile_inserted {g : KnowledgeGraph} {u : CodeUnit} {p i : String}
    (hsame : ∀ o, g.units[u.id]? = some o → o.path = u.path)
    (hlisted : ∀ p i, hasEntry g.unitsByFile p i = true ↔ ∃ v, g.units[i]? = some v ∧ v.path = p) :
    hasEntry (addEntry g.unitsByFile u.path u.id) p i = true ↔
      ∃ v, (g.units.insert u.id u)[i]? = some v ∧ v.path = p := by
  rw [hasEntry_addEntry, hlisted, exists_insert_unit (P := (· = p)) hsame]
  exact or_congr_left ⟨fun h => ⟨h.2, h.1.symm⟩, fun h => ⟨h.2.symm, h.1⟩⟩

/-- The index of names after a unit is put: the unit no longer goes by its old name. -/
def renamed (g : KnowledgeGraph) (u : CodeUnit) : Index String :=
  match g.units[u.id]? with
  | some o => removeEntry g.unitsByName o.name u.id
  | none => g.unitsByName

/-- The unit that is replaced is not listed any more, and the others are listed as before. -/
lemma hasEntry_renamed {g : KnowledgeGraph} {u : CodeUnit} {n i : String}
    (hlisted : hasEntry g.unitsByName n i = true ↔ ∃ v, g.units[i]? = some v ∧ v.name = n) :
    hasEntry (renamed g u) n i = true ↔ i ≠ u.id ∧ hasEntry g.unitsByName n i = true := by
  simp only [renamed]
  cases hold : g.units[u.id]? with
  | none =>
    refine (and_iff_right_of_imp fun hl hi => ?_).symm
    obtain ⟨v, hv, -⟩ := hlisted.mp hl
    rw [hi, hold] at hv
    cases hv
  | some o =>
    simp only [hasEntry_removeEntry]
    refine and_congr_left fun hl => not_congr ?_
    obtain ⟨v, hv, rfl⟩ := hlisted.mp hl
    refine and_iff_right_of_imp fun hi => ?_
    rw [hi, hold] at hv
    cases hv
    rfl

/-- The index of names lists the stored units after one is put if it did before. -/
lemma byName_renamed {g : KnowledgeGraph} {u : CodeUnit} {n i : String}
    (hlisted : ∀ n i, hasEntry g.unitsByName n i = true ↔ ∃ v, g.units[i]? = some v ∧ v.name = n) :
    hasEntry (addEntry (renamed g u) u.name u.id) n i = true ↔
      ∃ v, (g.units.insert u.id u)[i]? = some v ∧ v.name = n := by
  simp only [hasEntry_addEntry, hasEntry_renamed (hlisted n i), hlisted, getElem?_insert_eq_some_iff]
  constructor
  · rintro (⟨rfl, rfl⟩ | ⟨hi, v, hv, rfl⟩)
    · exact ⟨u, Or.inl ⟨rfl, rfl⟩, rfl⟩
    · exact ⟨v, Or.inr ⟨hi, hv⟩, rfl⟩
  · rintro ⟨v, ⟨rfl, rfl⟩ | ⟨hi, hv⟩, rfl⟩
    · exact Or.inl ⟨rfl, rfl⟩
    · exact Or.inr ⟨hi, v, hv, rfl⟩

lemma tables_upsertUnit {u : CodeUnit} (h : d.graph.units[u.id]? ≠ some u) :
    (d.upsertUnit u).graph.tables =
      { d.graph.tables with
        units := d.graph.units.insert u.id u
        unitsByFile := addEntry d.graph.unitsByFile u.path u.id
        unitsByName := addEntry (renamed d.graph u) u.name u.id } := by
  simp only [upsertUnit, h, if_false]
  rw [tables_insertEdge]
  rfl

lemma hasEdge_upsertUnit {u : CodeUnit} (h : d.graph.units[u.id]? ≠ some u) :
    (d.upsertUnit u).graph.hasEdge e = true ↔
      e = ⟨.contains, .file u.path, .unit u.id⟩ ∨ d.graph.hasEdge e = true := by
  simp only [upsertUnit, h, if_false]
  rw [hasEdge_insertEdge]
  rfl

/-- Putting a unit brings an edge from its file only. -/
lemma hasEdge_upsertUnit_of_ne {u : CodeUnit} (h : e.kind ≠ .contains) :
    (d.upsertUnit u).graph.hasEdge e = true ↔ d.graph.hasEdge e = true := by
  by_cases hold : d.graph.units[u.id]? = some u
  · rw [upsertUnit_of_eq hold]
  · rw [hasEdge_upsertUnit hold]
    refine or_iff_right ?_
    rintro rfl
    exact h rfl

lemma mirrored_upsertUnit {u : CodeUnit} (hm : d.graph.Mirrored) :
    (d.upsertUnit u).graph.Mirrored := by
  simp only [upsertUnit]
  split
  · exact hm
  · exact mirrored_insertEdge hm

/-- The chunk that is stored after a chunk is put, which may be an older copy of it. -/
lemma tables_upsertChunk (d : Draft) (c : SemanticChunk) :
    ∃ stored n, (stored.chunk = c ∨ d.graph.chunks[c.id]? = some stored) ∧
      stored.chunk.unitId = c.unitId ∧ (d.upsertChunk c).graph.tables =
        { d.graph.tables with
          chunks := d.graph.chunks.insert c.id stored
          nextSequence := n } := by
  simp only [upsertChunk, tables_insertEdge]
  cases hold : d.graph.chunks[c.id]? with
  | none => exact ⟨⟨c, d.graph.nextSequence⟩, d.graph.nextSequence + 1, Or.inl rfl, rfl, rfl⟩
  | some stored =>
    by_cases hsame : stored.chunk.same c
    · refine ⟨stored, d.graph.nextSequence, Or.inr rfl, ?_, ?_⟩
      · simp only [SemanticChunk.same, Bool.and_eq_true, beq_iff_eq] at hsame
        exact hsame.1.1.1.2
      · rw [insert_eq_self hold]
        simp only [hsame, if_true]
        rfl
    · refine ⟨⟨c, stored.sequence⟩, d.graph.nextSequence, Or.inl rfl, rfl, ?_⟩
      simp only [hsame]
      rfl

lemma hasEdge_upsertChunk {c : SemanticChunk} :
    (d.upsertChunk c).graph.hasEdge e = true ↔
      e = ⟨.describes, .chunk c.id, .unit c.unitId⟩ ∨ d.graph.hasEdge e = true := by
  simp only [upsertChunk]
  rw [hasEdge_insertEdge]
  refine or_congr_right ?_
  split
  · split <;> rfl
  · rfl

/-- Putting a chunk brings an edge to its unit only. -/
lemma hasEdge_upsertChunk_of_ne {c : SemanticChunk} (h : e.kind ≠ .describes) :
    (d.upsertChunk c).graph.hasEdge e = true ↔ d.graph.hasEdge e = true := by
  rw [hasEdge_upsertChunk]
  refine or_iff_right ?_
  rintro rfl
  exact h rfl

lemma mirrored_upsertChunk {c : SemanticChunk} (hm : d.graph.Mirrored) :
    (d.upsertChunk c).graph.Mirrored := by
  simp only [upsertChunk]
  refine mirrored_insertEdge ?_
  split
  · split <;> exact hm
  · exact hm

lemma upsertCommit_of_contains {c : Commit} (h : d.graph.commits.contains c.id = true) :
    d.upsertCommit c = d := by
  simp only [upsertCommit, h, if_true]

lemma graph_upsertCommit {c : Commit} (h : d.graph.commits.contains c.id = false) :
    (d.upsertCommit c).graph = { d.graph with commits := d.graph.commits.insert c.id c } := by
  simp only [upsertCommit, h, if_false, Bool.false_eq_true]
  rfl

/-- A commit that is put changes the table of commits only. -/
lemma exists_graph_upsertCommit (d : Draft) (c : Commit) :
    ∃ commits, (d.upsertCommit c).graph = { d.graph with commits := commits } := by
  by_cases hold : d.graph.commits.contains c.id = true
  · exact ⟨_, congrArg Draft.graph (upsertCommit_of_contains hold)⟩
  · exact ⟨_, graph_upsertCommit ((Bool.not_eq_true _).mp hold)⟩

lemma graph_upsertAuthor {a : Author} :
    (d.upsertAuthor a).graph = { d.graph with authors := d.graph.authors.insert a.id a } := by
  simp only [upsertAuthor]
  split
  · rename_i h
    rw [insert_eq_self h]
  · rfl

lemma upsertRevision_of_contains {r : FileRevision} (h : d.graph.revisions.contains r.id = true) :
    d.upsertRevision r = d := by
  simp only [upsertRevision, h, if_true]

lemma tables_upsertRevision {r : FileRevision} (h : d.graph.revisions.contains r.id = false) :
    (d.upsertRevision r).graph.tables =
      { d.graph.tables with
        revisions := d.graph.revisions.insert r.id r
        revisionsByPath := addEntry d.graph.revisionsByPath r.path r.id } := by
  simp only [upsertRevision, h, if_false, Bool.false_eq_true]
  split
  · rw [tables_insertEdge]
    rfl
  · rfl

/-- A revision that is put changes the table of revisions and their index only. -/
lemma exists_tables_upsertRevision (d : Draft) (r : FileRevision) : ∃ revisions byPath,
    (d.upsertRevision r).graph.tables =
      { d.graph.tables with revisions := revisions, revisionsByPath := byPath } := by
  by_cases hold : d.graph.revisions.contains r.id = true
  · exact ⟨_, _, congrArg (fun d => d.graph.tables) (upsertRevision_of_contains hold)⟩
  · exact ⟨_, _, tables_upsertRevision ((Bool.not_eq_true _).mp hold)⟩

lemma hasEdge_upsertRevision {r : FileRevision} (h : d.graph.revisions.contains r.id = false) :
    (d.upsertRevision r).graph.hasEdge e = true ↔
      (d.graph.files.contains r.path = true ∧ e = ⟨.versionOf, .revision r.id, .file r.path⟩) ∨
        d.graph.hasEdge e = true := by
  simp only [upsertRevision, h, if_false, Bool.false_eq_true]
  split
  · rename_i hf
    rw [hasEdge_insertEdge]
    simp only [hf, true_and]
    rfl
  · rename_i hf
    simp only [hf, Bool.false_eq_true, false_and, false_or]
    rfl

lemma mirrored_upsertRevision {r : FileRevision} (hm : d.graph.Mirrored) :
    (d.upsertRevision r).graph.Mirrored := by
  simp only [upsertRevision]
  split
  · exact hm
  · split
    · exact mirrored_insertEdge hm
    · exact hm

end RepoAtlas.Draft
