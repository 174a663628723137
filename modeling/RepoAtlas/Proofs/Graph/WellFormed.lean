import Mathlib.Data.List.Nodup
import RepoAtlas.Proofs.Graph.Admission

/-!
# Well-formed graphs

The writes of the graph keep two adjacency maps, a counter and three indexes in step by hand. A graph is
well formed if they are: the maps mirror each other, the counter is the number of edges, the indexes
list what is stored, and nothing lists an empty set. Every write is made of a few elementary ones on
edges and on the tables of nodes, and each of these keeps the graph well formed; along the way the
counter moves by exactly the edges that a batch reports, so it is never taken below zero.
-/

namespace RepoAtlas

/-! ### Sets that are not empty -/

section

variable {κ α β : Type} [Ord κ] [Std.TransOrd κ] [Ord α] {m : Std.ExtTreeMap κ (Std.ExtTreeSet α)}

/-- No key has an empty set. -/
def Filled (m : Std.ExtTreeMap κ (Std.ExtTreeSet α)) : Prop :=
  ∀ (k : κ) (s : Std.ExtTreeSet α), m[k]? = some s → s ≠ ∅

lemma filled_empty : Filled (∅ : Std.ExtTreeMap κ (Std.ExtTreeSet α)) := by
  intro k s h
  simp at h

variable [Std.LawfulEqOrd κ]

lemma Filled.erase (h : Filled m) (k : κ) : Filled (m.erase k) :=
  fun k' s hs => h k' s (getElem?_erase_eq_some_iff.mp hs).1

variable [Std.TransOrd α]

lemma Filled.removeEntry (h : Filled m) (k : κ) (a : α) : Filled (removeEntry m k a) := by
  intro k' s hs
  simp only [RepoAtlas.removeEntry, Std.ExtTreeMap.getElem?_alter] at hs
  split at hs
  · split at hs
    · cases hs
    · split at hs
      · cases hs
      · cases hs
        rename_i hne
        exact fun he => hne (by simp [he])
  · exact h k' s hs

lemma Filled.foldl_removeEntry (h : Filled m) (f : β → κ) (v : β → α) (l : List β) :
    Filled (l.foldl (fun m b => RepoAtlas.removeEntry m (f b) (v b)) m) := by
  induction l generalizing m with
  | nil => exact h
  | cons b l ih => exact ih (h.removeEntry (f b) (v b))

variable [Std.LawfulEqOrd α]

lemma Filled.addEntry (h : Filled m) (k : κ) (a : α) : Filled (addEntry m k a) := by
  intro k' s hs
  simp only [RepoAtlas.addEntry, Std.ExtTreeMap.getElem?_alter] at hs
  have hmem : ∀ s : Std.ExtTreeSet α, s.insert a ≠ ∅ := by
    intro s he
    have ha : (s.insert a).contains a = true := contains_insert_iff.mpr (Or.inl rfl)
    simp [he] at ha
  split at hs
  · split at hs
    · cases hs
      exact hmem _
    · cases hs
      exact hmem _
  · exact h k' s hs

end

namespace KnowledgeGraph

variable {g : KnowledgeGraph} {e : GraphEdge} {key : NodeKey}

/-! ### The list of edges -/

lemma mem_edges : e ∈ g.edges ↔ g.hasEdge e = true := by
  obtain ⟨kind, s, t⟩ := e
  simp only [edges, List.mem_flatMap, List.mem_map, Prod.exists, GraphEdge.mk.injEq,
    Std.ExtTreeMap.mem_toList_iff_getElem?_eq_some, Std.ExtTreeSet.mem_toList]
  constructor
  · rintro ⟨source, links, hlinks, ⟨lk, lo⟩, hl, rfl, rfl, rfl⟩
    rw [hasEdge, hasEntry_of_getElem? hlinks]
    exact Std.ExtTreeSet.contains_iff_mem.mpr hl
  · intro h
    rw [hasEdge] at h
    cases hlinks : g.outgoing[s]? with
    | none =>
      rw [hasEntry_of_none hlinks] at h
      cases h
    | some links =>
      rw [hasEntry_of_getElem? hlinks] at h
      exact ⟨s, links, hlinks, ⟨kind, t⟩, Std.ExtTreeSet.contains_iff_mem.mp h, rfl, rfl, rfl⟩

lemma edges_nodup (g : KnowledgeGraph) : g.edges.Nodup := by
  rw [edges, List.nodup_flatMap]
  constructor
  · rintro ⟨source, links⟩ -
    refine List.Nodup.map ?_ ?_
    · rintro ⟨k, o⟩ ⟨k', o'⟩ h
      cases h
      rfl
    · exact links.distinct_toList.imp fun h he => h (by rw [he]; exact Std.ReflCmp.compare_self)
  · refine g.outgoing.distinct_keys_toList.imp ?_
    rintro ⟨s, links⟩ ⟨s', links'⟩ hne
    simp only [Function.onFun, List.disjoint_left, List.mem_map]
    rintro e ⟨l, -, rfl⟩ ⟨l', -, h⟩
    obtain ⟨-, rfl, -⟩ := GraphEdge.mk.inj h
    exact hne Std.ReflCmp.compare_self

/-- Lists without repetition that hold the edges of a graph are as long as its own list. -/
lemma length_edges_of_nodup {l : List GraphEdge} (hl : l.Nodup)
    (h : ∀ e, e ∈ l ↔ g.hasEdge e = true) : g.edges.length = l.length := by
  refine ((List.perm_ext_iff_of_nodup g.edges_nodup hl).mpr fun e => ?_).length_eq
  rw [mem_edges, h]

lemma length_edges_addEdge (he : g.hasEdge e = false) :
    (g.addEdge e).edges.length = g.edges.length + 1 := by
  have hnot : e ∉ g.edges := by simp [mem_edges, he]
  exact length_edges_of_nodup (List.nodup_cons.mpr ⟨hnot, g.edges_nodup⟩) fun e' => by
    rw [List.mem_cons, mem_edges, hasEdge_addEdge]

lemma length_edges_dropEdge (he : g.hasEdge e = true) :
    (g.dropEdge e).edges.length + 1 = g.edges.length := by
  have hnot : e ∉ (g.dropEdge e).edges := by simp [mem_edges]
  refine (length_edges_of_nodup (List.nodup_cons.mpr ⟨hnot, edges_nodup _⟩) fun e' => ?_).symm
  rw [List.mem_cons, mem_edges, hasEdge_dropEdge]
  by_cases h : e' = e <;> simp [h, he]

/-- A detached node loses the edges that leave it and the edges that come from elsewhere; a loop is
counted among the first only. -/
lemma length_edges_detach (key : NodeKey) (hm : g.Mirrored) :
    (g.detach key).1.edges.length + (g.detach key).2 = g.edges.length := by
  set out := (entries g.outgoing key).map fun l => (⟨l.kind, key, l.other⟩ : GraphEdge) with hout
  set inc := (entries (g.withoutOut key) key).map fun l => (⟨l.kind, l.other, key⟩ : GraphEdge)
    with hinc
  have hmem_out : ∀ e, e ∈ out ↔ e.source = key ∧ g.hasEdge e = true := by
    rintro ⟨kind, s, t⟩
    simp only [hout, List.mem_map, mem_entries, hasEdge, GraphEdge.mk.injEq]
    constructor
    · rintro ⟨⟨k, o⟩, h, rfl, rfl, rfl⟩
      exact ⟨rfl, h⟩
    · rintro ⟨rfl, h⟩
      exact ⟨⟨kind, t⟩, h, rfl, rfl, rfl⟩
  have hmem_inc : ∀ e, e ∈ inc ↔ e.target = key ∧ e.source ≠ key ∧ g.hasEdge e = true := by
    rintro ⟨kind, s, t⟩
    simp only [hinc, List.mem_map, mem_entries, hasEntry_withoutOut, GraphEdge.mk.injEq]
    constructor
    · rintro ⟨⟨k, o⟩, ⟨hno, h⟩, rfl, rfl, rfl⟩
      have hedge := (hm k o key).mp h
      exact ⟨rfl, fun ho => hno ⟨ho, by subst ho; exact hedge⟩, hedge⟩
    · rintro ⟨rfl, hs, h⟩
      exact ⟨⟨kind, s⟩, ⟨fun hno => hs hno.1, (hm kind s t).mpr h⟩, rfl, rfl, rfl⟩
  have hnodup : (out ++ inc ++ (g.detach key).1.edges).Nodup := by
    refine List.nodup_append'.mpr ⟨List.nodup_append'.mpr ⟨?_, ?_, ?_⟩, edges_nodup _, ?_⟩
    · refine (entries_nodup key).map ?_
      rintro ⟨k, o⟩ ⟨k', o'⟩ h
      cases h
      rfl
    · refine (entries_nodup key).map ?_
      rintro ⟨k, o⟩ ⟨k', o'⟩ h
      cases h
      rfl
    · intro e ho hi
      exact ((hmem_inc e).mp hi).2.1 ((hmem_out e).mp ho).1
    · intro e hoi hrest
      obtain ⟨hs, ht, -⟩ := (hasEdge_detach hm).mp (mem_edges.mp hrest)
      rcases List.mem_append.mp hoi with ho | hi
      · exact hs ((hmem_out e).mp ho).1
      · exact ht ((hmem_inc e).mp hi).1
  have hlen := length_edges_of_nodup (g := g) hnodup fun e => by
    rw [List.mem_append, List.mem_append, hmem_out, hmem_inc, mem_edges, hasEdge_detach hm]
    tauto
  have hremoved : (g.detach key).2 = out.length + inc.length := by
    simp [hout, hinc, detach, withoutOut]
  rw [hlen, hremoved, List.length_append, List.length_append]
  omega

end KnowledgeGraph

/-! ### Well-formedness -/

section

variable {κ β : Type} [Ord κ] [Std.TransOrd κ] {m : Std.ExtTreeMap κ β} {key : β → κ}

/-- Values are stored under their own keys. -/
def KeyedBy (key : β → κ) (m : Std.ExtTreeMap κ β) : Prop := ∀ k b, m[k]? = some b → key b = k

lemma keyedBy_empty : KeyedBy key (∅ : Std.ExtTreeMap κ β) := by
  intro k b h
  simp at h

variable [Std.LawfulEqOrd κ]

lemma KeyedBy.insert (h : KeyedBy key m) {k : κ} {b : β} (hb : key b = k) :
    KeyedBy key (m.insert k b) := by
  intro k' b' hb'
  obtain ⟨rfl, rfl⟩ | ⟨-, hb'⟩ := Draft.getElem?_insert_eq_some_iff.mp hb'
  · exact hb
  · exact h k' b' hb'

lemma KeyedBy.erase (h : KeyedBy key m) (k : κ) : KeyedBy key (m.erase k) :=
  fun k' b hb => h k' b (getElem?_erase_eq_some_iff.mp hb).1

end

/-- Edges are recorded at both of their ends, connect nodes of the right kinds, and are counted. -/
structure KnowledgeGraph.Adjacent (g : KnowledgeGraph) : Prop where
  mirrored : g.Mirrored
  typed : g.Typed
  outgoing_filled : Filled g.outgoing
  incoming_filled : Filled g.incoming
  counted : g.edgeCount = g.edges.length

/-- Nodes are stored under their own keys, the indexes by name and by path list exactly what is stored,
and chunks have places of their own. -/
structure NodeTables.Indexed (t : NodeTables) : Prop where
  files : KeyedBy SourceFile.path t.files
  units : KeyedBy CodeUnit.id t.units
  chunks : KeyedBy (fun c => c.chunk.id) t.chunks
  commits : KeyedBy Commit.id t.commits
  authors : KeyedBy Author.id t.authors
  revisions : KeyedBy FileRevision.id t.revisions
  byFile_filled : Filled t.unitsByFile
  byName_filled : Filled t.unitsByName
  byPath_filled : Filled t.revisionsByPath
  byName : ∀ n i, hasEntry t.unitsByName n i = true ↔ ∃ u, t.units[i]? = some u ∧ u.name = n
  byPath : ∀ p r, hasEntry t.revisionsByPath p r = true ↔ ∃ v, t.revisions[r]? = some v ∧ v.path = p
  sequence_lt : ∀ (i : String) (c : StoredChunk), t.chunks[i]? = some c → c.sequence < t.nextSequence
  sequence_injective : ∀ (i j : String) (c c' : StoredChunk), t.chunks[i]? = some c →
    t.chunks[j]? = some c' → c.sequence = c'.sequence → i = j

/-- The adjacency maps, the counter and the indexes of a graph are in step. -/
structure KnowledgeGraph.WellFormed (g : KnowledgeGraph) : Prop where
  adjacent : g.Adjacent
  indexed : g.tables.Indexed

lemma KnowledgeGraph.wellFormed_empty : ({} : KnowledgeGraph).WellFormed where
  adjacent :=
    { mirrored := traced_empty.mirrored
      typed := traced_empty.typed
      outgoing_filled := filled_empty
      incoming_filled := filled_empty
      counted := by
        refine (length_edges_of_nodup List.nodup_nil fun e => ?_).symm
        have hno : ({} : KnowledgeGraph).hasEdge e = false := hasEntry_empty e.source _
        simp [hno] }
  indexed := by
    constructor
    case files | units | chunks | commits | authors | revisions => exact keyedBy_empty
    case byFile_filled | byName_filled | byPath_filled => exact filled_empty
    all_goals simp [KnowledgeGraph.tables]

/-! ### Tables of nodes -/

namespace NodeTables.Indexed

variable {t : NodeTables}

lemma putFile (h : t.Indexed) (f : SourceFile) :
    Indexed { t with files := t.files.insert f.path f } :=
  { h with files := h.files.insert rfl }

lemma dropFile (h : t.Indexed) (p : String) : Indexed { t with files := t.files.erase p } :=
  { h with files := h.files.erase p }

lemma putCommit (h : t.Indexed) (c : Commit) :
    Indexed { t with commits := t.commits.insert c.id c } :=
  { h with commits := h.commits.insert rfl }

lemma dropCommit (h : t.Indexed) (i : CommitId) : Indexed { t with commits := t.commits.erase i } :=
  { h with commits := h.commits.erase i }

lemma putAuthor (h : t.Indexed) (a : Author) :
    Indexed { t with authors := t.authors.insert a.id a } :=
  { h with authors := h.authors.insert rfl }

lemma dropAuthor (h : t.Indexed) (i : AuthorId) : Indexed { t with authors := t.authors.erase i } :=
  { h with authors := h.authors.erase i }

lemma putUnit {g : KnowledgeGraph} (h : g.tables.Indexed) (u : CodeUnit) :
    Indexed { g.tables with
      units := g.units.insert u.id u
      unitsByFile := addEntry g.unitsByFile u.path u.id
      unitsByName := addEntry (Draft.renamed g u) u.name u.id } :=
  { h with
    units := h.units.insert rfl
    byFile_filled := h.byFile_filled.addEntry u.path u.id
    byName_filled := by
      refine Filled.addEntry ?_ u.name u.id
      simp only [Draft.renamed]
      split
      · exact h.byName_filled.removeEntry _ _
      · exact h.byName_filled
    byName := fun n i => Draft.byName_renamed h.byName }

lemma dropUnit (h : t.Indexed) {i : String} {u : CodeUnit} (hu : t.units[i]? = some u) :
    Indexed { t with
      units := t.units.erase i
      unitsByFile := removeEntry t.unitsByFile u.path i
      unitsByName := removeEntry t.unitsByName u.name i } :=
  { h with
    units := h.units.erase i
    byFile_filled := h.byFile_filled.removeEntry u.path i
    byName_filled := h.byName_filled.removeEntry u.name i
    byName := by
      intro n j
      simp only [hasEntry_removeEntry, h.byName, getElem?_erase_eq_some_iff]
      constructor
      · rintro ⟨hno, v, hv, rfl⟩
        refine ⟨v, ⟨hv, fun hj => hno ?_⟩, rfl⟩
        rw [hj, hu] at hv
        cases hv
        exact ⟨rfl, hj⟩
      · rintro ⟨v, ⟨hv, hj⟩, rfl⟩
        exact ⟨fun hno => hj hno.2, v, hv, rfl⟩ }

/-- A chunk that replaces another takes its place. -/
lemma replaceChunk (h : t.Indexed) {old : StoredChunk} {c : SemanticChunk}
    (hold : t.chunks[c.id]? = some old) :
    Indexed { t with chunks := t.chunks.insert c.id ⟨c, old.sequence⟩ } := by
  -- the places are those of before
  have hplace : ∀ (i : String) (s : StoredChunk),
      (t.chunks.insert c.id ⟨c, old.sequence⟩)[i]? = some s →
        ∃ s', t.chunks[i]? = some s' ∧ s'.sequence = s.sequence := by
    intro i s hs
    obtain ⟨rfl, rfl⟩ | ⟨-, hs⟩ := Draft.getElem?_insert_eq_some_iff.mp hs
    · exact ⟨old, hold, rfl⟩
    · exact ⟨s, hs, rfl⟩
  exact
    { h with
      chunks := h.chunks.insert rfl
      sequence_lt := fun i s hs => by
        obtain ⟨s', hs', heq⟩ := hplace i s hs
        exact heq ▸ h.sequence_lt i s' hs'
      sequence_injective := fun i j s r hs hr hsr => by
        obtain ⟨s', hs', hs⟩ := hplace i s hs
        obtain ⟨r', hr', hr⟩ := hplace j r hr
        exact h.sequence_injective i j s' r' hs' hr' (by rw [hs, hr, hsr]) }

/-- A new chunk goes behind all others. -/
lemma putChunk (h : t.Indexed) (c : SemanticChunk) :
    Indexed { t with
      chunks := t.chunks.insert c.id ⟨c, t.nextSequence⟩
      nextSequence := t.nextSequence + 1 } :=
  { h with
    chunks := h.chunks.insert rfl
    sequence_lt := fun i s hs => by
      obtain ⟨rfl, rfl⟩ | ⟨-, hs⟩ := Draft.getElem?_insert_eq_some_iff.mp hs
      · exact Nat.lt_succ_self _
      · exact Nat.lt_succ_of_lt (h.sequence_lt i s hs)
    sequence_injective := fun i j s r hs hr hsr => by
      obtain ⟨rfl, rfl⟩ | ⟨-, hs⟩ := Draft.getElem?_insert_eq_some_iff.mp hs
      · obtain ⟨rfl, -⟩ | ⟨-, hr⟩ := Draft.getElem?_insert_eq_some_iff.mp hr
        · rfl
        · exact absurd hsr (Nat.ne_of_gt (h.sequence_lt j r hr))
      · obtain ⟨rfl, rfl⟩ | ⟨-, hr⟩ := Draft.getElem?_insert_eq_some_iff.mp hr
        · exact absurd hsr (Nat.ne_of_lt (h.sequence_lt i s hs))
        · exact h.sequence_injective i j s r hs hr hsr }

lemma dropChunk (h : t.Indexed) (i : String) : Indexed { t with chunks := t.chunks.erase i } :=
  { h with
    chunks := h.chunks.erase i
    sequence_lt := fun j c hc => h.sequence_lt j c (getElem?_erase_eq_some_iff.mp hc).1
    sequence_injective := fun j k c c' hc hc' => h.sequence_injective j k c c'
      (getElem?_erase_eq_some_iff.mp hc).1 (getElem?_erase_eq_some_iff.mp hc').1 }

lemma putRevision (h : t.Indexed) {r : FileRevision} (hr : t.revisions.contains r.id = false) :
    Indexed { t with
      revisions := t.revisions.insert r.id r
      revisionsByPath := addEntry t.revisionsByPath r.path r.id } :=
  { h with
    revisions := h.revisions.insert rfl
    byPath_filled := h.byPath_filled.addEntry r.path r.id
    byPath := by
      intro p i
      simp only [hasEntry_addEntry, h.byPath, Draft.getElem?_insert_eq_some_iff]
      constructor
      · rintro (⟨rfl, rfl⟩ | ⟨v, hv, rfl⟩)
        · exact ⟨r, Or.inl ⟨rfl, rfl⟩, rfl⟩
        · refine ⟨v, Or.inr ⟨fun hi => ?_, hv⟩, rfl⟩
          rw [← hi, Std.ExtTreeMap.contains_eq_isSome_getElem?, hv] at hr
          cases hr
      · rintro ⟨v, ⟨rfl, rfl⟩ | ⟨-, hv⟩, rfl⟩
        · exact Or.inl ⟨rfl, rfl⟩
        · exact Or.inr ⟨v, hv, rfl⟩ }

/-- A revision is listed under the path in its key, so that is where it is taken out. -/
lemma dropRevision (h : t.Indexed) (i : RevisionId) :
    Indexed { t with
      revisions := t.revisions.erase i
      revisionsByPath := removeEntry t.revisionsByPath i.path i } :=
  { h with
    revisions := h.revisions.erase i
    byPath_filled := h.byPath_filled.removeEntry i.path i
    byPath := by
      intro p j
      simp only [hasEntry_removeEntry, h.byPath, getElem?_erase_eq_some_iff]
      constructor
      · rintro ⟨hno, v, hv, rfl⟩
        refine ⟨v, ⟨hv, fun hj => hno ?_⟩, rfl⟩
        rw [← hj, ← h.revisions j v hv]
        exact ⟨rfl, rfl⟩
      · rintro ⟨v, ⟨hv, hj⟩, rfl⟩
        exact ⟨fun hno => hj hno.2, v, hv, rfl⟩ }

end NodeTables.Indexed

/-! ### Writes -/

namespace KnowledgeGraph.Adjacent

variable {g : KnowledgeGraph} {e : GraphEdge} {key : NodeKey}

lemma addEdge (h : g.Adjacent) (he : g.hasEdge e = false)
    (htyped : (e.source.type, e.target.type) = e.kind.endpoints) : (g.addEdge e).Adjacent where
  mirrored := h.mirrored.addEdge
  typed e' he' := by
    rcases hasEdge_addEdge.mp he' with rfl | he'
    · exact htyped
    · exact h.typed e' he'
  outgoing_filled := h.outgoing_filled.addEntry _ _
  incoming_filled := h.incoming_filled.addEntry _ _
  counted := by
    rw [length_edges_addEdge he, ← h.counted]
    rfl

lemma edgeCount_dropEdge (h : g.Adjacent) (he : g.hasEdge e = true) :
    (g.dropEdge e).edgeCount + 1 = g.edgeCount := by
  have hlen := length_edges_dropEdge he
  have hcount : (g.dropEdge e).edgeCount = g.edgeCount - 1 := rfl
  rw [hcount, h.counted]
  omega

lemma dropEdge (h : g.Adjacent) (he : g.hasEdge e = true) : (g.dropEdge e).Adjacent where
  mirrored := h.mirrored.dropEdge
  typed e' he' := h.typed e' (hasEdge_dropEdge.mp he').2
  outgoing_filled := h.outgoing_filled.removeEntry _ _
  incoming_filled := h.incoming_filled.removeEntry _ _
  counted := by
    have hlen := length_edges_dropEdge he
    have hcount := h.edgeCount_dropEdge he
    rw [h.counted] at hcount
    omega

lemma edgeCount_detach (key : NodeKey) (h : g.Adjacent) :
    (g.detach key).1.edgeCount + (g.detach key).2 = g.edgeCount := by
  have hlen := length_edges_detach key h.mirrored
  have hcount : (g.detach key).1.edgeCount = g.edgeCount - (g.detach key).2 := rfl
  rw [hcount, h.counted]
  omega

lemma detach (h : g.Adjacent) : (g.detach key).1.Adjacent where
  mirrored := h.mirrored.detach
  typed e' he' := h.typed e' ((hasEdge_detach h.mirrored).mp he').2.2
  outgoing_filled := (h.outgoing_filled.erase key).foldl_removeEntry _ _ _
  incoming_filled := (h.incoming_filled.foldl_removeEntry _ _ _).erase key
  counted := by
    have hlen := length_edges_detach key h.mirrored
    have hcount := h.edgeCount_detach key
    rw [h.counted] at hcount
    omega

/-- Only the maps and the counter matter. -/
lemma congr {g' : KnowledgeGraph} (h : g.Adjacent) (hout : g'.outgoing = g.outgoing)
    (hin : g'.incoming = g.incoming) (hcount : g'.edgeCount = g.edgeCount) : g'.Adjacent where
  mirrored := by
    rw [Mirrored, hin, hout]
    exact h.mirrored
  typed e he := by
    rw [hasEdge, hout] at he
    exact h.typed e he
  outgoing_filled := hout ▸ h.outgoing_filled
  incoming_filled := hin ▸ h.incoming_filled
  counted := by
    rw [hcount, edges, hout]
    exact h.counted

end KnowledgeGraph.Adjacent

namespace Draft

/-- The edges of a graph that is being written, with what was reported of them. -/
def links (d : Draft) : Adjacency × Adjacency × Nat × Nat × Nat :=
  (d.graph.outgoing, d.graph.incoming, d.graph.edgeCount, d.summary.edgesWritten,
    d.summary.edgesRemoved)

/-- A graph that is being written is well formed, and its count of edges has moved from `n` by exactly
the edges that were reported. -/
structure Sound (n : Nat) (d : Draft) : Prop where
  wellFormed : d.graph.WellFormed
  balanced : d.graph.edgeCount + d.summary.edgesRemoved = n + d.summary.edgesWritten

namespace Sound

variable {n : Nat} {d d' : Draft}

lemma insertEdge (h : d.Sound n) {e : GraphEdge}
    (he : (e.source.type, e.target.type) = e.kind.endpoints) : (d.insertEdge e).Sound n := by
  simp only [Draft.insertEdge]
  split
  · exact h
  · rename_i hno
    have hbal := h.balanced
    refine ⟨⟨h.wellFormed.adjacent.addEdge ((Bool.not_eq_true _).mp hno) he, h.wellFormed.indexed⟩, ?_⟩
    simp only [KnowledgeGraph.addEdge]
    omega

lemma removeEdge (h : d.Sound n) (e : GraphEdge) : (d.removeEdge e).Sound n := by
  simp only [Draft.removeEdge]
  split
  · rename_i he
    have hbal := h.balanced
    have hcount := h.wellFormed.adjacent.edgeCount_dropEdge he
    refine ⟨⟨h.wellFormed.adjacent.dropEdge he, h.wellFormed.indexed⟩, ?_⟩
    simp only
    omega
  · exact h

lemma detach (h : d.Sound n) (key : NodeKey) : (d.detach key).Sound n := by
  have hbal := h.balanced
  have hcount := h.wellFormed.adjacent.edgeCount_detach key
  refine ⟨⟨h.wellFormed.adjacent.detach, h.wellFormed.indexed⟩, ?_⟩
  simp only [Draft.detach]
  omega

/-- Writes of nodes leave the edges and what is reported of them alone. -/
lemma of_links (h : d.Sound n) (hl : d'.links = d.links) (ht : d'.graph.tables.Indexed) :
    d'.Sound n := by
  simp only [links, Prod.mk.injEq] at hl
  obtain ⟨hout, hin, hcount, hwritten, hremoved⟩ := hl
  refine ⟨⟨h.wellFormed.adjacent.congr hout hin hcount, ht⟩, ?_⟩
  rw [hcount, hwritten, hremoved]
  exact h.balanced

/-! ### Nodes -/

lemma upsertFile (h : d.Sound n) (f : SourceFile) : (d.upsertFile f).Sound n := by
  have hput : Sound n (if d.graph.files[f.path]? = some f then d
      else { d with graph := { d.graph with files := d.graph.files.insert f.path f } }.wroteNode) := by
    split
    · exact h
    · exact h.of_links rfl (h.wellFormed.indexed.putFile f)
  simp only [Draft.upsertFile]
  split
  · exact hput
  · exact List.foldlRecOn _ _ hput fun d hd r _ => hd.insertEdge rfl

lemma upsertUnit (h : d.Sound n) (u : CodeUnit) : (d.upsertUnit u).Sound n := by
  by_cases hold : d.graph.units[u.id]? = some u
  · rw [upsertUnit_of_eq hold]
    exact h
  · simp only [Draft.upsertUnit, hold, if_false]
    refine Sound.insertEdge ?_ rfl
    exact h.of_links rfl (h.wellFormed.indexed.putUnit u)

lemma upsertChunk (h : d.Sound n) (c : SemanticChunk) : (d.upsertChunk c).Sound n := by
  simp only [Draft.upsertChunk]
  refine Sound.insertEdge ?_ rfl
  split
  · rename_i stored hold
    split
    · exact h
    · exact h.of_links rfl (h.wellFormed.indexed.replaceChunk hold)
  · exact h.of_links rfl (h.wellFormed.indexed.putChunk c)

lemma upsertRevision (h : d.Sound n) (r : FileRevision) : (d.upsertRevision r).Sound n := by
  simp only [Draft.upsertRevision]
  split
  · exact h
  · rename_i hno
    have hput : (Draft.wroteNode { d with graph := { d.graph with
        revisionsByPath := addEntry d.graph.revisionsByPath r.path r.id
        revisions := d.graph.revisions.insert r.id r } }).Sound n :=
      h.of_links rfl (h.wellFormed.indexed.putRevision ((Bool.not_eq_true _).mp hno))
    split
    · exact hput.insertEdge rfl
    · exact hput

lemma upsert (h : d.Sound n) (node : GraphNode) : (d.upsert node).Sound n := by
  cases node with
  | sourceFile f => exact h.upsertFile f
  | codeUnit u => exact h.upsertUnit u
  | semanticChunk c => exact h.upsertChunk c
  | commit c =>
    simp only [Draft.upsert, Draft.upsertCommit]
    split
    · exact h
    · exact h.of_links rfl (h.wellFormed.indexed.putCommit c)
  | author a =>
    simp only [Draft.upsert, Draft.upsertAuthor]
    split
    · exact h
    · exact h.of_links rfl (h.wellFormed.indexed.putAuthor a)
  | fileRevision r => exact h.upsertRevision r

/-! ### Removals -/

lemma removeChunk (h : d.Sound n) (id : String) : (d.removeChunk id).Sound n := by
  simp only [Draft.removeChunk]
  have hd := h.detach (.chunk id)
  split
  · exact hd.of_links rfl (hd.wellFormed.indexed.dropChunk id)
  · exact hd

lemma orphan (h : d.Sound n) (path : String) (caller : NodeKey) : (d.orphan path caller).Sound n := by
  simp only [Draft.orphan]
  split
  · split
    · exact h
    · exact h.of_links rfl h.wellFormed.indexed
  · exact h

/-- The last part of removing a unit. -/
lemma dropUnit (h : d.Sound n) {id : String} {u : CodeUnit} (hu : d.graph.units[id]? = some u) :
    Sound n (removedNode { d.detach (.unit id) with
      graph := { (d.detach (.unit id)).graph with
        unitsByFile := removeEntry (d.detach (.unit id)).graph.unitsByFile u.path id
        unitsByName := removeEntry (d.detach (.unit id)).graph.unitsByName u.name id
        units := (d.detach (.unit id)).graph.units.erase id } }) := by
  have hd := h.detach (.unit id)
  exact hd.of_links rfl (hd.wellFormed.indexed.dropUnit (u := u) hu)

lemma removeUnit (h : d.Sound n) (id : String) : (d.removeUnit id).Sound n := by
  simp only [Draft.removeUnit]
  split
  · exact h
  · rename_i u hu
    -- the unit is still there when its chunks and its callers are gone
    have hchunks : ∀ l : List String,
        (l.foldl Draft.removeChunk d).Sound n ∧ (l.foldl Draft.removeChunk d).graph.units = d.graph.units :=
      fun l => List.foldlRecOn (motive := fun d' : Draft => d'.Sound n ∧ d'.graph.units = d.graph.units)
        l _ ⟨h, rfl⟩ fun d' hd c _ => ⟨hd.1.removeChunk c, by rw [graph_removeChunk]; exact hd.2⟩
    refine Sound.dropUnit (List.foldlRecOn _ _ (hchunks _).1 fun d' hd k _ => hd.orphan u.path k) ?_
    rw [graph_foldl_orphan, (hchunks _).2, hu]

lemma clearFile (h : d.Sound n) (path : String) : (d.clearFile path).Sound n :=
  List.foldlRecOn _ _ h fun _ hd i _ => hd.removeUnit i

lemma removeFile (h : d.Sound n) (path : String) : (d.removeFile path).Sound n := by
  simp only [Draft.removeFile]
  have hd := (h.clearFile path).detach (.file path)
  split
  · exact hd.of_links rfl (hd.wellFormed.indexed.dropFile path)
  · exact hd

lemma removeRevision (h : d.Sound n) (id : RevisionId) : (d.removeRevision id).Sound n := by
  have hd := h.detach (.revision id)
  exact hd.of_links rfl (hd.wellFormed.indexed.dropRevision id)

lemma removeCommit (h : d.Sound n) (id : CommitId) : (d.removeCommit id).Sound n := by
  have hd := h.detach (.commit id)
  exact hd.of_links rfl (hd.wellFormed.indexed.dropCommit id)

lemma removeAuthor (h : d.Sound n) (id : AuthorId) : (d.removeAuthor id).Sound n :=
  h.of_links rfl (h.wellFormed.indexed.dropAuthor id)

lemma retainHistory (h : d.Sound n) (repo : String) (keep : Std.ExtTreeSet String) :
    (d.retainHistory repo keep).Sound n := by
  simp only [Draft.retainHistory]
  split
  · exact h
  · refine List.foldlRecOn _ _ ?_ fun _ hd a _ => hd.removeAuthor a
    refine List.foldlRecOn _ _ ?_ fun _ hd c _ => hd.removeCommit c
    exact List.foldlRecOn _ _ h fun _ hd r _ => hd.removeRevision r

/-! ### Replacements -/

lemma replaceEdges (h : d.Sound n) {kind : EdgeKind} {source : NodeKey}
    {desired : Std.ExtTreeSet NodeKey}
    (htyped : ∀ t, desired.contains t = true → (source.type, t.type) = kind.endpoints) :
    (d.replaceEdges kind source desired).Sound n := by
  simp only [Draft.replaceEdges]
  refine List.foldlRecOn _ _ ?_ fun d' hd t ht => hd.insertEdge ?_
  · exact List.foldlRecOn _ _ h fun d' hd t _ => hd.removeEdge _
  · have ht := (List.mem_filter.mp ht).1
    rw [Std.ExtTreeSet.mem_toList, ← Std.ExtTreeSet.contains_iff_mem] at ht
    exact htyped t ht

lemma replaceImports (h : d.Sound n) (path : String) (targets : List String) :
    (d.replaceImports path targets).Sound n := by
  refine h.replaceEdges fun t ht => ?_
  obtain ⟨p, -, rfl⟩ := List.mem_map.mp (contains_keySet.mp ht)
  rfl

lemma replaceCalls (h : d.Sound n) (path : String) (calls : List (String × String)) :
    (d.replaceCalls path calls).Sound n := by
  refine List.foldlRecOn _ _ h fun d' hd unit _ => hd.replaceEdges fun t ht => ?_
  obtain ⟨c, -, rfl⟩ := List.mem_map.mp (contains_keySet.mp ht)
  rfl

/-! ### Batches -/

lemma applyOp (h : d.Sound n) {op : WriteOp} (hop : op.Typed) : (d.applyOp op).Sound n := by
  cases op with
  | upsertNode node => exact h.upsert node
  | upsertEdge e => exact h.insertEdge hop
  | clearFile p => exact h.clearFile p
  | removeFile p => exact h.removeFile p
  | replaceImports p ts => exact h.replaceImports p ts
  | replaceCalls p cs => exact h.replaceCalls p cs
  | retainHistory r keep => exact h.retainHistory r _

end Sound

end Draft

/-- A batch of typed writes keeps a graph well formed and reports how its count of edges moves. -/
lemma KnowledgeGraph.WellFormed.applyBatch {g : KnowledgeGraph} (h : g.WellFormed) {b : WriteBatch}
    (hb : ∀ op ∈ b, op.Typed) : (g.applyBatch b).Sound g.edgeCount :=
  List.foldlRecOn b _ ⟨h, rfl⟩ fun _ hd op hop => hd.applyOp (hb op hop)

namespace GraphStore

lemma wellFormed_apply {s s' : GraphStore} {b : WriteBatch} {summary : WriteSummary}
    (h : s.graph.WellFormed) (hb : s.apply b = .ok (s', summary)) :
    s'.graph.WellFormed ∧
      s'.graph.edgeCount + summary.edgesRemoved = s.graph.edgeCount + summary.edgesWritten := by
  obtain ⟨hgraph, -, hflaw⟩ := apply_eq_ok hb
  have hsound := h.applyBatch (Overlay.typed_of_batchFlaw? hflaw)
  rw [hgraph, summary_of_apply hb]
  exact ⟨hsound.wellFormed, hsound.balanced⟩

lemma wellFormed_applyAll {s s' : GraphStore} {bs : List WriteBatch} (h : s.graph.WellFormed)
    (hbs : s.applyAll bs = .ok s') : s'.graph.WellFormed := by
  induction bs generalizing s with
  | nil =>
    cases hbs
    exact h
  | cons b bs ih =>
    obtain ⟨s₁, summary, hb, hrest⟩ := applyAll_cons_eq_ok.mp hbs
    exact ih (wellFormed_apply h hb).1 hrest

/-- Every graph that is reached from the empty one by admitted batches is well formed, and the next
admitted batch moves its count of edges by exactly the edges that it reports: had the counter been
taken below zero in between, the sums would differ. -/
theorem wellFormed_of_applyAll {s₀ s : GraphStore} {bs : List WriteBatch} (h₀ : s₀.graph = {})
    (h : s₀.applyAll bs = .ok s) :
    s.graph.WellFormed ∧ ∀ b s' summary, s.apply b = .ok (s', summary) →
      s'.graph.edgeCount + summary.edgesRemoved = s.graph.edgeCount + summary.edgesWritten := by
  have hw : s.graph.WellFormed := wellFormed_applyAll (h₀ ▸ KnowledgeGraph.wellFormed_empty) h
  exact ⟨hw, fun b s' summary hb => (wellFormed_apply hw hb).2⟩

/-- A unit that calls itself is stored, and its file is cleared: the loop is counted once. -/
theorem wellFormed_of_applyAll_loop :
    ∃ s s' summary, ({} : GraphStore).applyAll
        [smallBatch ++ [.upsertEdge ⟨.calls, .unit "a.py:f", .unit "a.py:f"⟩]] = .ok s ∧
      s.apply [.clearFile "a.py"] = .ok (s', summary) ∧
      s.graph.edgeCount = 3 ∧ summary.edgesRemoved = 3 ∧ s.graph.WellFormed ∧
      s'.graph.edgeCount + summary.edgesRemoved = s.graph.edgeCount + summary.edgesWritten := by
  have hstored : (({} : GraphStore).applyAll
      [smallBatch ++ [.upsertEdge ⟨.calls, .unit "a.py:f", .unit "a.py:f"⟩]]).toOption.bind (fun s =>
        (s.apply [.clearFile "a.py"]).toOption.map fun r => (s.graph.edgeCount, r.2.edgesRemoved)) =
          some (3, 3) := by
    decide
  cases hrun : ({} : GraphStore).applyAll
      [smallBatch ++ [.upsertEdge ⟨.calls, .unit "a.py:f", .unit "a.py:f"⟩]] with
  | error e => simp [hrun, Except.toOption] at hstored
  | ok s =>
    cases hclear : s.apply [.clearFile "a.py"] with
    | error e => simp [hrun, hclear, Except.toOption] at hstored
    | ok r =>
      obtain ⟨s', summary⟩ := r
      obtain ⟨hw, hnext⟩ := wellFormed_of_applyAll rfl hrun
      simp only [hrun, hclear, Except.toOption, Option.bind_some, Option.map_some, Option.some.injEq,
        Prod.mk.injEq] at hstored
      exact ⟨s, s', summary, rfl, hclear, hstored.1, hstored.2, hw, hnext _ _ _ hclear⟩

end GraphStore

end RepoAtlas
