import RepoAtlas.Graph.Snapshot
import RepoAtlas.Proofs.Graph.WellFormed

/-!
# Saved graphs

A document of a graph lists its nodes and edges; the adjacency maps, the counter and the indexes are not
saved but built anew. Loading the document of a well-formed graph puts every table back as it was, lists in
the indexes what they listed before, and keeps the edges whose two ends are stored.
-/

namespace RepoAtlas

/-! ### Tables -/

section

variable {κ β : Type} [Ord κ] [Std.TransOrd κ] {m m₀ : Std.ExtTreeMap κ β} {key : β → κ}

lemma values_eq_map_snd (m : Std.ExtTreeMap κ β) : m.values = m.toList.map Prod.snd := by
  obtain ⟨⟨q⟩⟩ := m
  induction q using Quotient.ind with
  | _ t =>
    have hvalues : t.values = t.inner.values := rfl
    have hlist : Std.DTreeMap.Const.toList t = Std.DTreeMap.Internal.Impl.Const.toList t.inner := rfl
    show t.values = (Std.DTreeMap.Const.toList t).map Prod.snd
    rw [hvalues, hlist, Std.DTreeMap.Internal.Impl.values_eq_map_snd,
      Std.DTreeMap.Internal.Impl.Const.toList_eq_toListModel_map, List.map_map]
    rfl

variable [Std.LawfulEqOrd κ]

/-- The values of a table are looked up under their keys. -/
lemma KeyedBy.mem_values (h : KeyedBy key m) {b : β} : b ∈ m.values ↔ m[key b]? = some b := by
  rw [values_eq_map_snd, List.mem_map]
  constructor
  · rintro ⟨⟨k, b'⟩, hmem, rfl⟩
    have hget := Std.ExtTreeMap.mem_toList_iff_getElem?_eq_some.mp hmem
    rw [h k b' hget]
    exact hget
  · exact fun hget => ⟨(key b, b), Std.ExtTreeMap.mem_toList_iff_getElem?_eq_some.mpr hget, rfl⟩

/-- Values of a table, put one after the other into a part of it. -/
lemma getElem?_foldl_insert {l : List β} (hl : ∀ b ∈ l, m[key b]? = some b)
    (hsub : ∀ (k : κ) (b : β), m₀[k]? = some b → m[k]? = some b) {k : κ} {b : β} :
    (l.foldl (fun m b => m.insert (key b) b) m₀)[k]? = some b ↔
      (b ∈ l ∧ key b = k) ∨ m₀[k]? = some b := by
  induction l generalizing m₀ with
  | nil => simp
  | cons c l ih =>
    have hc := hl c (by simp)
    rw [List.foldl_cons, ih (fun b hb => hl b (by simp [hb])), Draft.getElem?_insert_eq_some_iff,
      List.mem_cons]
    · constructor
      · rintro (⟨hb, rfl⟩ | ⟨rfl, rfl⟩ | ⟨-, hget⟩)
        · exact Or.inl ⟨Or.inr hb, rfl⟩
        · exact Or.inl ⟨Or.inl rfl, rfl⟩
        · exact Or.inr hget
      · rintro (⟨rfl | hb, rfl⟩ | hget)
        · exact Or.inr (Or.inl ⟨rfl, rfl⟩)
        · exact Or.inl ⟨hb, rfl⟩
        · by_cases hk : k = key c
          · -- what is already there under the key is the value itself
            have hb := hsub k b hget
            rw [hk, hc] at hb
            cases hb
            exact Or.inr (Or.inl ⟨hk, rfl⟩)
          · exact Or.inr (Or.inr ⟨hk, hget⟩)
    · intro k b hget
      obtain ⟨rfl, rfl⟩ | ⟨-, hget⟩ := Draft.getElem?_insert_eq_some_iff.mp hget
      · exact hc
      · exact hsub k b hget

/-- A table is put back from its values, in any order. -/
lemma KeyedBy.foldl_insert (h : KeyedBy key m) {l : List β} (hl : ∀ b, b ∈ l ↔ b ∈ m.values) :
    l.foldl (fun m b => m.insert (key b) b) ∅ = m := by
  apply Std.ExtTreeMap.ext_getElem?
  intro k
  apply Option.ext
  intro b
  rw [getElem?_foldl_insert (m := m) (fun b hb => h.mem_values.mp ((hl b).mp hb)) (by simp), hl,
    h.mem_values]
  constructor
  · rintro (⟨hget, rfl⟩ | hget)
    · exact hget
    · simp at hget
  · exact fun hget => Or.inl ⟨by rw [h k b hget]; exact hget, h k b hget⟩

end

/-! ### Indexes -/

section

variable {κ α β : Type} [Ord κ] [Std.TransOrd κ] [Std.LawfulEqOrd κ]
variable [Ord α] [Std.TransOrd α] [Std.LawfulEqOrd α]
variable {m : Std.ExtTreeMap κ (Std.ExtTreeSet α)}

lemma hasEntry_foldl_addEntry (f : β → κ) (v : β → α) (l : List β) (k : κ) (a : α) :
    hasEntry (l.foldl (fun m b => addEntry m (f b) (v b)) m) k a = true ↔
      (∃ b ∈ l, f b = k ∧ v b = a) ∨ hasEntry m k a = true := by
  induction l generalizing m with
  | nil => simp
  | cons b l ih =>
    rw [List.foldl_cons, ih, hasEntry_addEntry]
    simp only [List.mem_cons, exists_eq_or_imp, eq_comm (a := k), eq_comm (a := a)]
    rw [or_left_comm, or_assoc]

lemma Filled.foldl_addEntry (h : Filled m) (f : β → κ) (v : β → α) (l : List β) :
    Filled (l.foldl (fun m b => RepoAtlas.addEntry m (f b) (v b)) m) := by
  induction l generalizing m with
  | nil => exact h
  | cons b l ih => exact ih (h.addEntry (f b) (v b))

/-- An index that is built from the values of a table lists exactly these. -/
lemma KeyedBy.hasEntry_index {t : Std.ExtTreeMap α β} {key : β → α} (h : KeyedBy key t) (f : β → κ)
    {k : κ} {a : α} : hasEntry (t.values.foldl (fun m b => addEntry m (f b) (key b)) ∅) k a = true ↔
      ∃ b, t[a]? = some b ∧ f b = k := by
  simp only [hasEntry_foldl_addEntry, hasEntry_empty, h.mem_values]
  constructor
  · rintro (⟨b, hb, rfl, rfl⟩ | hno)
    · exact ⟨b, hb, rfl⟩
    · cases hno
  · rintro ⟨b, hb, rfl⟩
    have hkey := h a b hb
    exact Or.inl ⟨b, by rw [hkey]; exact hb, rfl, hkey⟩

end

namespace KnowledgeGraph

variable {g r : KnowledgeGraph} {e : GraphEdge}

/-! ### Loading -/

lemma foldl_loadUnit (l : List CodeUnit) (g : KnowledgeGraph) :
    l.foldl loadUnit g = { g with
      units := l.foldl (fun m u => m.insert u.id u) g.units
      unitsByFile := l.foldl (fun m u => addEntry m u.path u.id) g.unitsByFile
      unitsByName := l.foldl (fun m u => addEntry m u.name u.id) g.unitsByName } := by
  induction l generalizing g with
  | nil => rfl
  | cons u l ih => exact ih (loadUnit g u)

lemma foldl_loadRevision (l : List FileRevision) (g : KnowledgeGraph) :
    l.foldl loadRevision g = { g with
      revisions := l.foldl (fun m v => m.insert v.id v) g.revisions
      revisionsByPath := l.foldl (fun m v => addEntry m v.path v.id) g.revisionsByPath } := by
  induction l generalizing g with
  | nil => rfl
  | cons v l ih => exact ih (loadRevision g v)

lemma tables_loadEdge (g : KnowledgeGraph) (e : GraphEdge) : (g.loadEdge e).tables = g.tables := by
  simp only [loadEdge]
  split <;> rfl

lemma tables_foldl_loadEdge (l : List GraphEdge) (g : KnowledgeGraph) :
    (l.foldl loadEdge g).tables = g.tables := by
  induction l generalizing g with
  | nil => rfl
  | cons e l ih => exact (ih (g.loadEdge e)).trans (tables_loadEdge g e)

/-- An edge is there after it is loaded if its ends are stored, and no other edge comes with it. -/
lemma hasEdge_loadEdge {e' : GraphEdge} : (g.loadEdge e).hasEdge e' = true ↔
    (e' = e ∧ g.contains e.source = true ∧ g.contains e.target = true) ∨ g.hasEdge e' = true := by
  simp only [loadEdge]
  split
  · rename_i hload
    simp only [Bool.and_eq_true] at hload
    simp only [hasEdge_addEdge, hload.1.1, hload.1.2, and_true]
  · rename_i hload
    simp only [Bool.and_eq_true, Bool.not_eq_true', not_and, Bool.not_eq_false] at hload
    refine (or_iff_right_of_imp ?_).symm
    rintro ⟨rfl, hs, ht⟩
    exact hload ⟨hs, ht⟩

lemma hasEdge_foldl_loadEdge {l : List GraphEdge} : (l.foldl loadEdge g).hasEdge e = true ↔
    (e ∈ l ∧ g.contains e.source = true ∧ g.contains e.target = true) ∨ g.hasEdge e = true := by
  induction l generalizing g with
  | nil => simp
  | cons e' l ih =>
    have hstored := contains_eq_of_tables (tables_loadEdge g e')
    rw [List.foldl_cons, ih, hstored, hstored, hasEdge_loadEdge, List.mem_cons]
    constructor
    · rintro (⟨hmem, hends⟩ | ⟨rfl, hends⟩ | he)
      · exact Or.inl ⟨Or.inr hmem, hends⟩
      · exact Or.inl ⟨Or.inl rfl, hends⟩
      · exact Or.inr he
    · rintro (⟨rfl | hmem, hends⟩ | he)
      · exact Or.inr (Or.inl ⟨rfl, hends⟩)
      · exact Or.inl ⟨hmem, hends⟩
      · exact Or.inr (Or.inr he)

lemma Adjacent.loadEdge (h : g.Adjacent) (he : (e.source.type, e.target.type) = e.kind.endpoints) :
    (g.loadEdge e).Adjacent := by
  simp only [KnowledgeGraph.loadEdge]
  split
  · rename_i hload
    simp only [Bool.and_eq_true, Bool.not_eq_true'] at hload
    exact h.addEdge hload.2 he
  · exact h

lemma Adjacent.foldl_loadEdge {l : List GraphEdge} (h : g.Adjacent)
    (hl : ∀ e ∈ l, (e.source.type, e.target.type) = e.kind.endpoints) :
    (l.foldl KnowledgeGraph.loadEdge g).Adjacent := by
  induction l generalizing g with
  | nil => exact h
  | cons e l ih => exact ih (h.loadEdge (hl e (by simp))) fun e he => hl e (by simp [he])

/-- The places of saved chunks lie below the next place, which is therefore kept. -/
lemma foldl_max_sequence {n : Nat} {l : List StoredChunk} (hl : ∀ c ∈ l, c.sequence < n) :
    l.foldl (fun n c => max n (c.sequence + 1)) n = n := by
  induction l with
  | nil => rfl
  | cons c l ih =>
    rw [List.foldl_cons, Nat.max_eq_left (hl c (by simp)), ih fun c hc => hl c (by simp [hc])]

/-! ### What is put back -/

/-- A graph that was loaded in place of another one: the same nodes with the same places, the edges
between them, and the same answers. -/
structure Restores (g r : KnowledgeGraph) : Prop where
  wellFormed : r.WellFormed
  files : r.files = g.files
  units : r.units = g.units
  chunks : r.chunks = g.chunks
  commits : r.commits = g.commits
  authors : r.authors = g.authors
  revisions : r.revisions = g.revisions
  nextSequence : r.nextSequence = g.nextSequence
  edge : ∀ e, r.hasEdge e = true ↔
    g.hasEdge e = true ∧ g.contains e.source = true ∧ g.contains e.target = true
  edgeCount : r.edgeCount = (g.edges.filter fun e => g.contains e.source && g.contains e.target).length
  unitsNamed : ∀ name, r.unitsNamed name = g.unitsNamed name
  history : ∀ path since, r.history path since = g.history path since

lemma contains_congr (hfiles : r.files = g.files) (hunits : r.units = g.units)
    (hchunks : r.chunks = g.chunks) (hcommits : r.commits = g.commits) (hauthors : r.authors = g.authors)
    (hrevisions : r.revisions = g.revisions) (k : NodeKey) : r.contains k = g.contains k := by
  cases k <;> simp only [contains, hfiles, hunits, hchunks, hcommits, hauthors, hrevisions]

/-- Well-formed graphs with the same nodes whose edges are those between stored nodes. -/
lemma WellFormed.restores (hg : g.WellFormed) (hr : r.WellFormed) (hfiles : r.files = g.files)
    (hunits : r.units = g.units) (hchunks : r.chunks = g.chunks) (hcommits : r.commits = g.commits)
    (hauthors : r.authors = g.authors) (hrevisions : r.revisions = g.revisions)
    (hnext : r.nextSequence = g.nextSequence)
    (hedge : ∀ e, r.hasEdge e = true ↔
      g.hasEdge e = true ∧ g.contains e.source = true ∧ g.contains e.target = true) : Restores g r where
  wellFormed := hr
  files := hfiles
  units := hunits
  chunks := hchunks
  commits := hcommits
  authors := hauthors
  revisions := hrevisions
  nextSequence := hnext
  edge := hedge
  edgeCount := by
    rw [hr.adjacent.counted]
    refine length_edges_of_nodup (g.edges_nodup.filter _) fun e => ?_
    rw [List.mem_filter, mem_edges, Bool.and_eq_true, hedge]
  unitsNamed name := by
    have hnames : entries r.unitsByName name = entries g.unitsByName name := by
      refine entries_congr fun i => Bool.eq_iff_iff.mpr ?_
      exact (hr.indexed.byName name i).trans
        ((by rw [tables, tables, hunits] : _ ↔ _).trans (hg.indexed.byName name i).symm)
    simp only [KnowledgeGraph.unitsNamed, hnames, hunits]
  history path since := by
    have hpaths : entries r.revisionsByPath path = entries g.revisionsByPath path := by
      refine entries_congr fun i => Bool.eq_iff_iff.mpr ?_
      exact (hr.indexed.byPath path i).trans
        ((by rw [tables, tables, hrevisions] : _ ↔ _).trans (hg.indexed.byPath path i).symm)
    simp only [KnowledgeGraph.history, hpaths, hrevisions, hcommits]

/-- A well-formed graph whose edges do not hang loose restores itself. -/
lemma WellFormed.restores_self (hg : g.WellFormed)
    (hends : ∀ e, g.hasEdge e = true → g.contains e.source = true ∧ g.contains e.target = true) :
    Restores g g :=
  hg.restores hg rfl rfl rfl rfl rfl rfl rfl fun e => (and_iff_left_of_imp (hends e)).symm

/-! ### The document of a graph -/

/-- The graph of a document before its edges are put. -/
def nodesOf (s : GraphSnapshot) : KnowledgeGraph :=
  { files := s.files.foldl (fun m f => m.insert f.path f) ∅
    units := s.units.foldl (fun m u => m.insert u.id u) ∅
    chunks := s.chunks.foldl (fun m c => m.insert c.chunk.id c) ∅
    commits := s.commits.foldl (fun m c => m.insert c.id c) ∅
    authors := s.authors.foldl (fun m a => m.insert a.id a) ∅
    revisions := s.revisions.foldl (fun m v => m.insert v.id v) ∅
    unitsByFile := s.units.foldl (fun m u => addEntry m u.path u.id) ∅
    unitsByName := s.units.foldl (fun m u => addEntry m u.name u.id) ∅
    revisionsByPath := s.revisions.foldl (fun m v => addEntry m v.path v.id) ∅
    nextSequence := s.chunks.foldl (fun n c => max n (c.sequence + 1)) s.nextSequence }

lemma ofSnapshot_eq (s : GraphSnapshot) : ofSnapshot s = s.edges.foldl loadEdge (nodesOf s) := by
  simp only [ofSnapshot, foldl_loadRevision, foldl_loadUnit]
  rfl

lemma tables_ofSnapshot (s : GraphSnapshot) : (ofSnapshot s).tables = (nodesOf s).tables := by
  rw [ofSnapshot_eq, tables_foldl_loadEdge]

lemma adjacent_ofSnapshot {s : GraphSnapshot}
    (hs : ∀ e ∈ s.edges, (e.source.type, e.target.type) = e.kind.endpoints) : (ofSnapshot s).Adjacent := by
  rw [ofSnapshot_eq]
  exact Adjacent.foldl_loadEdge (wellFormed_empty.adjacent.congr rfl rfl rfl) hs

lemma hasEdge_ofSnapshot {s : GraphSnapshot} : (ofSnapshot s).hasEdge e = true ↔
    e ∈ s.edges ∧ (ofSnapshot s).contains e.source = true ∧ (ofSnapshot s).contains e.target = true := by
  have hloaded := contains_eq_of_tables (tables_ofSnapshot s)
  rw [hloaded, hloaded, ofSnapshot_eq, hasEdge_foldl_loadEdge]
  refine or_iff_left_of_imp fun he => ?_
  rw [hasEdge, nodesOf, hasEntry_empty] at he
  cases he

/-- Every table of a well-formed graph is put back; the index by file is built anew. -/
lemma WellFormed.tables_nodesOf (hg : g.WellFormed) : (nodesOf g.snapshot).tables =
    { g.tables with
      unitsByFile := g.units.values.foldl (fun m u => addEntry m u.path u.id) ∅
      unitsByName := g.units.values.foldl (fun m u => addEntry m u.name u.id) ∅
      revisionsByPath := g.revisions.values.foldl (fun m v => addEntry m v.path v.id) ∅ } := by
  have hi := hg.indexed
  have hchunks : ∀ c : StoredChunk, c ∈ g.snapshot.chunks ↔ c ∈ g.chunks.values :=
    fun c => List.mem_mergeSort
  have hnext : g.snapshot.chunks.foldl (fun n c => max n (c.sequence + 1)) g.nextSequence = g.nextSequence :=
    foldl_max_sequence fun c hc =>
      hi.sequence_lt c.chunk.id c (hi.chunks.mem_values.mp ((hchunks c).mp hc))
  simp only [nodesOf, tables, NodeTables.mk.injEq]
  exact ⟨hi.files.foldl_insert fun _ => Iff.rfl, hi.units.foldl_insert fun _ => Iff.rfl,
    hi.chunks.foldl_insert hchunks, hi.commits.foldl_insert fun _ => Iff.rfl,
    hi.authors.foldl_insert fun _ => Iff.rfl, hi.revisions.foldl_insert fun _ => Iff.rfl,
    rfl, rfl, rfl, hnext⟩

lemma WellFormed.indexed_ofSnapshot (hg : g.WellFormed) : (ofSnapshot g.snapshot).tables.Indexed := by
  have hi := hg.indexed
  rw [tables_ofSnapshot, hg.tables_nodesOf]
  exact
    { hi with
      byFile_filled := filled_empty.foldl_addEntry _ _ _
      byName_filled := filled_empty.foldl_addEntry _ _ _
      byPath_filled := filled_empty.foldl_addEntry _ _ _
      byName := fun _ _ => hi.units.hasEntry_index CodeUnit.name
      byPath := fun _ _ => hi.revisions.hasEntry_index FileRevision.path }

lemma mem_edges_snapshot : e ∈ g.snapshot.edges ↔ g.hasEdge e = true :=
  List.mem_mergeSort.trans mem_edges

/-- What is loaded from the document of a well-formed graph is well formed. -/
lemma WellFormed.ofSnapshot (hg : g.WellFormed) : (ofSnapshot g.snapshot).WellFormed :=
  ⟨adjacent_ofSnapshot fun e he => hg.adjacent.typed e (mem_edges_snapshot.mp he), hg.indexed_ofSnapshot⟩

/-- Loading the document of a well-formed graph restores the graph. -/
theorem WellFormed.restores_ofSnapshot (hg : g.WellFormed) :
    Restores g (KnowledgeGraph.ofSnapshot g.snapshot) := by
  have htables := (tables_ofSnapshot g.snapshot).trans hg.tables_nodesOf
  simp only [tables, NodeTables.mk.injEq] at htables
  obtain ⟨hfiles, hunits, hchunks, hcommits, hauthors, hrevisions, -, -, -, hnext⟩ := htables
  have hcontains := contains_congr hfiles hunits hchunks hcommits hauthors hrevisions
  refine hg.restores hg.ofSnapshot hfiles hunits hchunks hcommits hauthors hrevisions hnext fun e => ?_
  rw [hasEdge_ofSnapshot, mem_edges_snapshot, hcontains, hcontains]

end KnowledgeGraph

end RepoAtlas
