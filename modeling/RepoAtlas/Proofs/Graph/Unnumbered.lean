import RepoAtlas.Proofs.Graph.Snapshots

/-!
# Graphs up to the places of their chunks

A well-formed graph is known by its nodes, its index of units by file, and the edges that are there. So two
of them are equal if these agree; and they are equal up to the places of their chunks if the chunks agree
in all but their places.
-/

namespace RepoAtlas

section

variable {κ α : Type} [Ord κ] [Std.TransOrd κ] [Ord α] [Std.TransOrd α]
  {m m' : Std.ExtTreeMap κ (Std.ExtTreeSet α)}

/-- A set that is not empty has a value. -/
lemma Filled.exists_hasEntry (h : Filled m) {k : κ} {s : Std.ExtTreeSet α} (hs : m[k]? = some s) :
    ∃ a, hasEntry m k a = true := by
  by_contra hno
  refine h k s hs (Std.ExtTreeSet.eq_empty_iff_forall_contains.mpr fun a => ?_)
  rw [← hasEntry_of_getElem? hs]
  exact Bool.eq_false_iff.mpr fun ha => hno ⟨a, ha⟩

variable [Std.LawfulEqOrd κ] [Std.LawfulEqOrd α]

/-- Sets by key that are never empty are known by their values. -/
lemma Filled.eq_of_hasEntry (h : Filled m) (h' : Filled m')
    (hiff : ∀ k a, hasEntry m k a = true ↔ hasEntry m' k a = true) : m = m' := by
  apply Std.ExtTreeMap.ext_getElem?
  intro k
  cases hm : m[k]? with
  | none =>
    cases hm' : m'[k]? with
    | none => rfl
    | some s' =>
      obtain ⟨a, ha⟩ := h'.exists_hasEntry hm'
      rw [← hiff, hasEntry_of_none hm] at ha
      cases ha
  | some s =>
    cases hm' : m'[k]? with
    | none =>
      obtain ⟨a, ha⟩ := h.exists_hasEntry hm
      rw [hiff, hasEntry_of_none hm'] at ha
      cases ha
    | some s' =>
      refine congrArg some (Std.ExtTreeSet.ext_contains fun a => Bool.eq_iff_iff.mpr ?_)
      rw [← hasEntry_of_getElem? hm, ← hasEntry_of_getElem? hm']
      exact hiff k a

end

namespace KnowledgeGraph

variable {g r : KnowledgeGraph}

/-! ### Equal graphs -/

/-- The adjacency maps and the counter follow from the edges. -/
lemma WellFormed.adjacency_eq (hg : g.WellFormed) (hr : r.WellFormed)
    (hedge : ∀ e, g.hasEdge e = true ↔ r.hasEdge e = true) :
    g.outgoing = r.outgoing ∧ g.incoming = r.incoming ∧ g.edgeCount = r.edgeCount := by
  have ha := hg.adjacent
  have hb := hr.adjacent
  refine ⟨?_, ?_, ?_⟩
  · exact ha.outgoing_filled.eq_of_hasEntry hb.outgoing_filled fun k l => hedge ⟨l.kind, k, l.other⟩
  · refine ha.incoming_filled.eq_of_hasEntry hb.incoming_filled fun k l => ?_
    rw [ha.mirrored l.kind l.other k, hb.mirrored l.kind l.other k]
    exact hedge ⟨l.kind, l.other, k⟩
  · rw [ha.counted, hb.counted]
    exact length_edges_of_nodup r.edges_nodup fun e => mem_edges.trans (hedge e).symm

/-- Well-formed graphs with the same tables and the same edges are equal. -/
lemma WellFormed.eq_of_tables (hg : g.WellFormed) (hr : r.WellFormed) (htables : g.tables = r.tables)
    (hedge : ∀ e, g.hasEdge e = true ↔ r.hasEdge e = true) : g = r := by
  obtain ⟨hout, hin, hcount⟩ := hg.adjacency_eq hr hedge
  cases g
  cases r
  simp only [tables, NodeTables.mk.injEq] at htables
  simp_all only

/-! ### Without the places of chunks -/

/-- What a chunk says, wherever it stands. -/
def content (g : KnowledgeGraph) (id : String) : Option SemanticChunk := g.chunks[id]?.map (·.chunk)

/-- The graph without the places of its chunks. -/
def unnumbered (g : KnowledgeGraph) : KnowledgeGraph :=
  { g with
    chunks := g.chunks.map fun _ s => { s with sequence := 0 }
    nextSequence := 0 }

lemma content_eq_some {id : String} {c : SemanticChunk} :
    g.content id = some c ↔ ∃ s, g.chunks[id]? = some s ∧ s.chunk = c := by
  simp only [content, Option.map_eq_some_iff]

@[simp] lemma content_unnumbered (id : String) : g.unnumbered.content id = g.content id := by
  simp only [content, unnumbered, Std.ExtTreeMap.getElem?_map, Option.map_map]
  rfl

@[simp] lemma hasEdge_unnumbered (e : GraphEdge) : g.unnumbered.hasEdge e = g.hasEdge e := rfl

@[simp] lemma contains_unnumbered (k : NodeKey) : g.unnumbered.contains k = g.contains k := by
  cases k with
  | chunk i => simp [contains, unnumbered]
  | _ => rfl

/-- The nodes are the same, whatever their places. -/
@[simp] lemma get?_unnumbered (k : NodeKey) : g.unnumbered.get? k = g.get? k := by
  cases k with
  | chunk i =>
    simp only [get?, unnumbered, Std.ExtTreeMap.getElem?_map, Option.map_map]
    rfl
  | _ => rfl

/-- Well-formed graphs with the same nodes, the same units by file and the same edges are equal up to the
places of their chunks. -/
lemma WellFormed.unnumbered_eq (hg : g.WellFormed) (hr : r.WellFormed) (hfiles : g.files = r.files)
    (hunits : g.units = r.units) (hcontent : ∀ i, g.content i = r.content i)
    (hcommits : g.commits = r.commits) (hauthors : g.authors = r.authors)
    (hrevisions : g.revisions = r.revisions)
    (hbyFile : ∀ p i, hasEntry g.unitsByFile p i = true ↔ hasEntry r.unitsByFile p i = true)
    (hedge : ∀ e, g.hasEdge e = true ↔ r.hasEdge e = true) : g.unnumbered = r.unnumbered := by
  obtain ⟨hout, hin, hcount⟩ := hg.adjacency_eq hr hedge
  have hi := hg.indexed
  have hj := hr.indexed
  have hchunks : g.unnumbered.chunks = r.unnumbered.chunks := by
    apply Std.ExtTreeMap.ext_getElem?
    intro i
    have h := congrArg (Option.map fun c => StoredChunk.mk c 0) (hcontent i)
    simp only [content, Option.map_map] at h
    simp only [unnumbered, Std.ExtTreeMap.getElem?_map]
    exact h
  have hbyFile' : g.unitsByFile = r.unitsByFile := hi.byFile_filled.eq_of_hasEntry hj.byFile_filled hbyFile
  have hbyName : g.unitsByName = r.unitsByName := by
    refine hi.byName_filled.eq_of_hasEntry hj.byName_filled fun n i => ?_
    refine (hi.byName n i).trans (Iff.trans ?_ (hj.byName n i).symm)
    simp only [tables, hunits]
  have hbyPath : g.revisionsByPath = r.revisionsByPath := by
    refine hi.byPath_filled.eq_of_hasEntry hj.byPath_filled fun p v => ?_
    refine (hi.byPath p v).trans (Iff.trans ?_ (hj.byPath p v).symm)
    simp only [tables, hrevisions]
  simp only [unnumbered] at hchunks ⊢
  simp only [hfiles, hunits, hchunks, hcommits, hauthors, hrevisions, hout, hin, hcount, hbyFile', hbyName,
    hbyPath]

end KnowledgeGraph

end RepoAtlas
