import RepoAtlas.Proofs.Graph.Edges

/-!
# What removals leave

Every write that removes nodes leaves the graph without these nodes, their edges and their places in
the indexes, and leaves all else. `Removes gone g g'` says so for the set `gone` of keys; such steps
compose, and each removal of the graph is one of them for a set that is read off the graph before it.
-/

namespace RepoAtlas

lemma getElem?_erase_eq_some_iff {κ β : Type} [Ord κ] [Std.TransOrd κ] [Std.LawfulEqOrd κ]
    {m : Std.ExtTreeMap κ β} {k k' : κ} {b : β} :
    (m.erase k)[k']? = some b ↔ m[k']? = some b ∧ k' ≠ k := by
  by_cases hk : k' = k
  · subst hk
    simp
  · have hne : compare k k' ≠ .eq := fun h => hk (Std.LawfulEqCmp.eq_of_compare h).symm
    simp [Std.ExtTreeMap.getElem?_erase, hne, hk]

/-- Erasing under the condition that the key is there is erasing. -/
lemma erase_eq_self {κ β : Type} [Ord κ] [Std.TransOrd κ] [Std.LawfulEqOrd κ]
    {m : Std.ExtTreeMap κ β} {k : κ} (h : m.contains k = false) : m.erase k = m := by
  apply Std.ExtTreeMap.ext_getElem?
  intro k'
  apply Option.ext
  intro b
  rw [getElem?_erase_eq_some_iff]
  refine and_iff_left_of_imp fun hb hk => ?_
  subst hk
  rw [Std.ExtTreeMap.contains_eq_isSome_getElem?, hb] at h
  cases h

/-- `g'` is `g` without the nodes in `gone`. -/
structure Removes (gone : NodeKey → Prop) (g g' : KnowledgeGraph) : Prop where
  mirrored : g'.Mirrored
  file : ∀ p f, g'.files[p]? = some f ↔ g.files[p]? = some f ∧ ¬gone (.file p)
  unit : ∀ i u, g'.units[i]? = some u ↔ g.units[i]? = some u ∧ ¬gone (.unit i)
  chunk : ∀ i c, g'.chunks[i]? = some c ↔ g.chunks[i]? = some c ∧ ¬gone (.chunk i)
  commit : ∀ i c, g'.commits[i]? = some c ↔ g.commits[i]? = some c ∧ ¬gone (.commit i)
  author : ∀ i a, g'.authors[i]? = some a ↔ g.authors[i]? = some a ∧ ¬gone (.author i)
  revision : ∀ i r, g'.revisions[i]? = some r ↔ g.revisions[i]? = some r ∧ ¬gone (.revision i)
  edge : ∀ e, g'.hasEdge e = true ↔ g.hasEdge e = true ∧ ¬gone e.source ∧ ¬gone e.target
  byFile : ∀ p i, hasEntry g'.unitsByFile p i = true ↔
    hasEntry g.unitsByFile p i = true ∧ ¬∃ u, g.units[i]? = some u ∧ u.path = p ∧ gone (.unit i)
  byName : ∀ n i, hasEntry g'.unitsByName n i = true ↔
    hasEntry g.unitsByName n i = true ∧ ¬∃ u, g.units[i]? = some u ∧ u.name = n ∧ gone (.unit i)
  byPath : ∀ p r, hasEntry g'.revisionsByPath p r = true ↔
    hasEntry g.revisionsByPath p r = true ∧ ¬(r.path = p ∧ gone (.revision r))
  next : g'.nextSequence = g.nextSequence

namespace Removes

variable {gone gone' : NodeKey → Prop} {g g' g'' : KnowledgeGraph}

lemma refl (h : g.Mirrored) : Removes (fun _ => False) g g := by
  constructor
  case mirrored => exact h
  all_goals simp

/-- A unit with some property that goes first or later. -/
lemma exists_gone (h : Removes gone g g') (P : CodeUnit → Prop) {i : String} :
    ((∃ u, g.units[i]? = some u ∧ P u ∧ gone (.unit i)) ∨ ∃ u, g'.units[i]? = some u ∧ P u ∧ gone' (.unit i)) ↔
      ∃ u, g.units[i]? = some u ∧ P u ∧ (gone (.unit i) ∨ gone' (.unit i)) := by
  constructor
  · rintro (⟨u, hu, hp, hg⟩ | ⟨u, hu, hp, hg⟩)
    · exact ⟨u, hu, hp, Or.inl hg⟩
    · exact ⟨u, ((h.unit i u).mp hu).1, hp, Or.inr hg⟩
  · rintro ⟨u, hu, hp, hg⟩
    by_cases hgi : gone (.unit i)
    · exact Or.inl ⟨u, hu, hp, hgi⟩
    · exact Or.inr ⟨u, (h.unit i u).mpr ⟨hu, hgi⟩, hp, hg.resolve_left hgi⟩

lemma trans (h : Removes gone g g') (h' : Removes gone' g' g'') :
    Removes (fun k => gone k ∨ gone' k) g g'' where
  mirrored := h'.mirrored
  file p f := by rw [h'.file, h.file]; tauto
  unit i u := by rw [h'.unit, h.unit]; tauto
  chunk i c := by rw [h'.chunk, h.chunk]; tauto
  commit i c := by rw [h'.commit, h.commit]; tauto
  author i a := by rw [h'.author, h.author]; tauto
  revision i r := by rw [h'.revision, h.revision]; tauto
  edge e := by rw [h'.edge, h.edge]; tauto
  byFile p i := by
    rw [h'.byFile, h.byFile, and_assoc, ← not_or, h.exists_gone (fun u => u.path = p)]
  byName n i := by
    rw [h'.byName, h.byName, and_assoc, ← not_or, h.exists_gone (fun u => u.name = n)]
  byPath p r := by rw [h'.byPath, h.byPath]; tauto
  next := h'.next.trans h.next

/-- Only membership in the set of removed keys matters. -/
lemma congr (h : Removes gone g g') (hiff : ∀ k, gone k ↔ gone' k) : Removes gone' g g' := by
  have : gone = gone' := funext fun k => propext (hiff k)
  exact this ▸ h

lemma contains_iff (h : Removes gone g g') (k : NodeKey) :
    g'.contains k = true ↔ g.contains k = true ∧ ¬gone k := by
  cases k <;> simp only [KnowledgeGraph.contains, Std.ExtTreeMap.contains_eq_isSome_getElem?,
    Option.isSome_iff_exists, h.file, h.unit, h.chunk, h.commit, h.author, h.revision,
    exists_and_right]

end Removes

namespace Draft

variable {d : Draft}

/-! ### Single nodes -/

lemma graph_detach (d : Draft) (key : NodeKey) : (d.detach key).graph = (d.graph.detach key).1 := rfl

lemma graph_removeChunk (d : Draft) (id : String) :
    (d.removeChunk id).graph =
      { (d.graph.detach (.chunk id)).1 with chunks := d.graph.chunks.erase id } := by
  have hc : (d.detach (.chunk id)).graph.chunks = d.graph.chunks := rfl
  simp only [removeChunk, hc]
  split
  · rfl
  · rename_i h
    rw [erase_eq_self ((Bool.not_eq_true _).mp h)]
    rfl

lemma removes_removeChunk (hm : d.graph.Mirrored) (id : String) :
    Removes (· = .chunk id) d.graph (d.removeChunk id).graph := by
  rw [graph_removeChunk]
  constructor
  case mirrored => exact hm.detach
  case edge =>
    intro e
    exact (KnowledgeGraph.hasEdge_detach hm).trans (by tauto)
  case chunk =>
    intro i c
    rw [getElem?_erase_eq_some_iff]
    simp
  all_goals simp [KnowledgeGraph.detach]

lemma removes_foldl_removeChunk (hm : d.graph.Mirrored) (l : List String) :
    Removes (fun k => ∃ c ∈ l, k = .chunk c) d.graph (l.foldl removeChunk d).graph := by
  induction l generalizing d with
  | nil => exact (Removes.refl hm).congr (by simp)
  | cons c l ih =>
    have h := removes_removeChunk hm c
    exact (h.trans (ih h.mirrored)).congr (by simp)

/-- Remembering callers does not change the graph. -/
lemma graph_foldl_orphan (path : String) (l : List NodeKey) :
    (l.foldl (orphan · path) d).graph = d.graph := by
  induction l generalizing d with
  | nil => rfl
  | cons k l ih =>
    rw [List.foldl_cons, ih]
    simp only [orphan]
    split
    · split <;> rfl
    · rfl

/-- What goes with a unit: itself, and the chunks that describe it. -/
def GoneWithUnit (g : KnowledgeGraph) (id : String) (k : NodeKey) : Prop :=
  k = .unit id ∨ ∃ c, k = .chunk c ∧ g.hasEdge ⟨.describes, .chunk c, .unit id⟩ = true

lemma mem_chunks_of_unit (hm : d.graph.Mirrored) {id c : String} :
    c ∈ (d.graph.neighbors (.unit id) .describes .incoming).filterMap NodeKey.chunk? ↔
      d.graph.hasEdge ⟨.describes, .chunk c, .unit id⟩ = true := by
  simp only [List.mem_filterMap, KnowledgeGraph.mem_neighbors_incoming hm]
  constructor
  · rintro ⟨k, hk, hc⟩
    cases k <;> simp_all [NodeKey.chunk?]
  · intro h
    exact ⟨_, h, rfl⟩

lemma removes_removeUnit (hm : d.graph.Mirrored) {id : String} {u : CodeUnit}
    (hu : d.graph.units[id]? = some u) :
    Removes (GoneWithUnit d.graph id) d.graph (d.removeUnit id).graph := by
  set l := (d.graph.neighbors (.unit id) .describes .incoming).filterMap NodeKey.chunk? with hl
  have hchunks := removes_foldl_removeChunk hm l
  set g₁ := (l.foldl removeChunk d).graph with hg₁
  have hu₁ : g₁.units[id]? = some u := (hchunks.unit id u).mpr ⟨hu, by simp⟩
  have hlisted : ∀ (f : CodeUnit → String) (n i : String), n = f u ∧ i = id ↔
      ∃ v, g₁.units[i]? = some v ∧ f v = n ∧ NodeKey.unit i = .unit id := by
    intro f n i
    constructor
    · rintro ⟨rfl, rfl⟩
      exact ⟨u, hu₁, rfl, rfl⟩
    · rintro ⟨v, hv, rfl, hi⟩
      cases hi
      rw [hu₁] at hv
      cases hv
      exact ⟨rfl, rfl⟩
  -- the graph after the unit itself is taken out
  have hgraph : (d.removeUnit id).graph =
      { (g₁.detach (.unit id)).1 with
        unitsByFile := removeEntry g₁.unitsByFile u.path id
        unitsByName := removeEntry g₁.unitsByName u.name id
        units := g₁.units.erase id } := by
    simp only [removeUnit, hu, removedNode, graph_detach, graph_foldl_orphan]
    rfl
  have hunit : Removes (· = .unit id) g₁ (d.removeUnit id).graph := by
    rw [hgraph]
    constructor
    case mirrored => exact hchunks.mirrored.detach
    case edge =>
      intro e
      exact (KnowledgeGraph.hasEdge_detach hchunks.mirrored).trans (by tauto)
    case unit =>
      intro i v
      rw [getElem?_erase_eq_some_iff]
      simp
    case byFile =>
      intro p i
      rw [hasEntry_removeEntry, and_comm, hlisted CodeUnit.path]
    case byName =>
      intro n i
      rw [hasEntry_removeEntry, and_comm, hlisted CodeUnit.name]
    all_goals simp [KnowledgeGraph.detach]
  refine (hchunks.trans hunit).congr fun k => ?_
  simp only [GoneWithUnit, hl, mem_chunks_of_unit hm]
  constructor
  · rintro (⟨c, hc, rfl⟩ | rfl)
    · exact Or.inr ⟨c, rfl, hc⟩
    · exact Or.inl rfl
  · rintro (rfl | ⟨c, rfl, hc⟩)
    · exact Or.inr rfl
    · exact Or.inl ⟨c, hc, rfl⟩

lemma removeUnit_of_none {id : String} (hu : d.graph.units[id]? = none) : d.removeUnit id = d := by
  simp only [removeUnit, hu]

/-! ### Files -/

/-- What goes with some units of a graph: those that are stored, and the chunks that describe them. -/
def GoneWithUnits (g : KnowledgeGraph) (ids : List String) (k : NodeKey) : Prop :=
  ∃ i ∈ ids, (∃ u, g.units[i]? = some u) ∧ GoneWithUnit g i k

lemma removes_foldl_removeUnit (hm : d.graph.Mirrored) (l : List String) :
    Removes (GoneWithUnits d.graph l) d.graph (l.foldl removeUnit d).graph := by
  induction l generalizing d with
  | nil => exact (Removes.refl hm).congr (by simp [GoneWithUnits])
  | cons i l ih =>
    rw [List.foldl_cons]
    cases hu : d.graph.units[i]? with
    | none =>
      rw [removeUnit_of_none hu]
      refine (ih hm).congr fun k => ?_
      simp [GoneWithUnits, hu]
    | some u =>
      have h := removes_removeUnit hm hu
      refine (h.trans (ih h.mirrored)).congr fun k => ?_
      constructor
      · rintro (hk | ⟨j, hj, ⟨v, hv⟩, hk⟩)
        · exact ⟨i, by simp, ⟨u, hu⟩, hk⟩
        · refine ⟨j, by simp [hj], ⟨v, ((h.unit j v).mp hv).1⟩, ?_⟩
          rcases hk with rfl | ⟨c, rfl, hc⟩
          · exact Or.inl rfl
          · exact Or.inr ⟨c, rfl, ((h.edge _).mp hc).1⟩
      · rintro ⟨j, hj, ⟨v, hv⟩, hk⟩
        rcases List.mem_cons.mp hj with rfl | hj
        · exact Or.inl hk
        · -- a unit or chunk that went with the first unit is not looked for again
          by_cases hgone : GoneWithUnit d.graph i k
          · exact Or.inl hgone
          by_cases hji : GoneWithUnit d.graph i (.unit j)
          · have : j = i := by simpa [GoneWithUnit] using hji
            exact absurd (this ▸ hk) hgone
          refine Or.inr ⟨j, hj, ⟨v, (h.unit j v).mpr ⟨hv, hji⟩⟩, ?_⟩
          rcases hk with rfl | ⟨c, rfl, hc⟩
          · exact Or.inl rfl
          · exact Or.inr ⟨c, rfl, (h.edge _).mpr ⟨hc, hgone, hji⟩⟩

/-- What goes when a file is cleared: the units that are listed for it, with their chunks. -/
def GoneWithContents (g : KnowledgeGraph) (path : String) : NodeKey → Prop :=
  GoneWithUnits g (entries g.unitsByFile path)

lemma removes_clearFile (hm : d.graph.Mirrored) (path : String) :
    Removes (GoneWithContents d.graph path) d.graph (d.clearFile path).graph :=
  removes_foldl_removeUnit hm _

lemma goneWithContents_file {g : KnowledgeGraph} {path p : String} :
    ¬GoneWithContents g path (.file p) := by
  simp [GoneWithContents, GoneWithUnits, GoneWithUnit]

lemma graph_removeFile (d : Draft) (path : String) :
    (d.removeFile path).graph =
      { ((d.clearFile path).graph.detach (.file path)).1 with
        files := (d.clearFile path).graph.files.erase path } := by
  have hf : ((d.clearFile path).detach (.file path)).graph.files = (d.clearFile path).graph.files := rfl
  simp only [removeFile, hf]
  split
  · rfl
  · rename_i h
    rw [erase_eq_self ((Bool.not_eq_true _).mp h)]
    rfl

/-- The file itself goes once its contents are gone. -/
lemma removes_file {path : String} (hm : (d.clearFile path).graph.Mirrored) :
    Removes (· = .file path) (d.clearFile path).graph (d.removeFile path).graph := by
  rw [graph_removeFile]
  constructor
  case mirrored => exact hm.detach
  case edge =>
    intro e
    exact (KnowledgeGraph.hasEdge_detach hm).trans (by tauto)
  case file =>
    intro p f
    rw [getElem?_erase_eq_some_iff]
    simp
  all_goals simp [KnowledgeGraph.detach]

lemma removes_removeFile (hm : d.graph.Mirrored) (path : String) :
    Removes (fun k => GoneWithContents d.graph path k ∨ k = .file path) d.graph
      (d.removeFile path).graph := by
  have hclear := removes_clearFile hm path
  exact hclear.trans (removes_file hclear.mirrored)

/-! ### History -/

lemma removes_removeRevision (hm : d.graph.Mirrored) (id : RevisionId) :
    Removes (· = .revision id) d.graph (d.removeRevision id).graph := by
  have hgraph : (d.removeRevision id).graph =
      { (d.graph.detach (.revision id)).1 with
        revisionsByPath := removeEntry d.graph.revisionsByPath id.path id
        revisions := d.graph.revisions.erase id } := rfl
  rw [hgraph]
  constructor
  case mirrored => exact hm.detach
  case edge =>
    intro e
    exact (KnowledgeGraph.hasEdge_detach hm).trans (by tauto)
  case revision =>
    intro i r
    rw [getElem?_erase_eq_some_iff]
    simp
  case byPath =>
    intro p r
    rw [hasEntry_removeEntry, and_comm]
    refine and_congr_right fun _ => not_congr ⟨?_, ?_⟩
    · rintro ⟨rfl, rfl⟩
      exact ⟨rfl, rfl⟩
    · rintro ⟨rfl, hr⟩
      cases hr
      exact ⟨rfl, rfl⟩
  all_goals simp [KnowledgeGraph.detach]

lemma removes_removeCommit (hm : d.graph.Mirrored) (id : CommitId) :
    Removes (· = .commit id) d.graph (d.removeCommit id).graph := by
  have hgraph : (d.removeCommit id).graph =
      { (d.graph.detach (.commit id)).1 with commits := d.graph.commits.erase id } := rfl
  rw [hgraph]
  constructor
  case mirrored => exact hm.detach
  case edge =>
    intro e
    exact (KnowledgeGraph.hasEdge_detach hm).trans (by tauto)
  case commit =>
    intro i c
    rw [getElem?_erase_eq_some_iff]
    simp
  all_goals simp [KnowledgeGraph.detach]

/-- Authors are taken out without their edges, so there must be none. -/
lemma removes_removeAuthor (hm : d.graph.Mirrored) {id : AuthorId}
    (hfree : ∀ e, d.graph.hasEdge e = true → e.source ≠ .author id ∧ e.target ≠ .author id) :
    Removes (· = .author id) d.graph (d.removeAuthor id).graph := by
  have hgraph : (d.removeAuthor id).graph =
      { d.graph with authors := d.graph.authors.erase id } := rfl
  rw [hgraph]
  constructor
  case mirrored => exact hm
  case edge => exact fun e => ⟨fun h => ⟨h, hfree e h⟩, fun h => h.1⟩
  case author =>
    intro i a
    rw [getElem?_erase_eq_some_iff]
    simp
  all_goals simp

lemma removes_foldl_removeRevision (hm : d.graph.Mirrored) (l : List RevisionId) :
    Removes (fun k => ∃ r ∈ l, k = .revision r) d.graph (l.foldl removeRevision d).graph := by
  induction l generalizing d with
  | nil => exact (Removes.refl hm).congr (by simp)
  | cons r l ih =>
    have h := removes_removeRevision hm r
    exact (h.trans (ih h.mirrored)).congr (by simp)

lemma removes_foldl_removeCommit (hm : d.graph.Mirrored) (l : List CommitId) :
    Removes (fun k => ∃ c ∈ l, k = .commit c) d.graph (l.foldl removeCommit d).graph := by
  induction l generalizing d with
  | nil => exact (Removes.refl hm).congr (by simp)
  | cons c l ih =>
    have h := removes_removeCommit hm c
    exact (h.trans (ih h.mirrored)).congr (by simp)

lemma removes_foldl_removeAuthor (hm : d.graph.Mirrored) (l : List AuthorId)
    (hfree : ∀ a ∈ l, ∀ e, d.graph.hasEdge e = true → e.source ≠ .author a ∧ e.target ≠ .author a) :
    Removes (fun k => ∃ a ∈ l, k = .author a) d.graph (l.foldl removeAuthor d).graph := by
  induction l generalizing d with
  | nil => exact (Removes.refl hm).congr (by simp)
  | cons a l ih =>
    have h := removes_removeAuthor hm (hfree a (by simp))
    refine (h.trans (ih h.mirrored fun b hb e he => ?_)).congr (by simp)
    exact hfree b (by simp [hb]) e ((h.edge e).mp he).1

/-- A commit of a repository that is not kept. -/
def Doomed (g : KnowledgeGraph) (repo : String) (keep : Std.ExtTreeSet String) (c : CommitId) : Prop :=
  g.commits.contains c = true ∧ c.repo = repo ∧ keep.contains c.revision = false

/-- What goes when history is forgotten: the doomed commits, what they did to files, and, if there are
any, the authors of the repository whose edges all come from doomed commits. -/
def GoneWithHistory (g : KnowledgeGraph) (repo : String) (keep : Std.ExtTreeSet String) :
    NodeKey → Prop
  | .commit c => Doomed g repo keep c
  | .revision r => g.revisions.contains r = true ∧ Doomed g repo keep r.commit
  | .author a => g.authors.contains a = true ∧ a.repo = repo ∧ (∃ c, Doomed g repo keep c) ∧
      ∀ e, g.hasEdge e = true → e.target = .author a → ∃ c, e.source = .commit c ∧ Doomed g repo keep c
  | _ => False

section

variable {g : KnowledgeGraph} {repo : String} {keep : Std.ExtTreeSet String}

lemma mem_doomedCommits {c : CommitId} : c ∈ g.doomedCommits repo keep ↔ Doomed g repo keep c := by
  simp [KnowledgeGraph.doomedCommits, Doomed, Std.ExtTreeMap.mem_keys]

lemma mem_doomedRevisions {r : RevisionId} : r ∈ g.doomedRevisions repo keep ↔
    g.revisions.contains r = true ∧ Doomed g repo keep r.commit := by
  simp only [KnowledgeGraph.doomedRevisions, Doomed, RevisionId.commit, List.mem_filter,
    Std.ExtTreeMap.mem_keys, Bool.and_eq_true, beq_iff_eq, Bool.not_eq_true',
    Std.ExtTreeMap.contains_iff_mem]
  tauto

/-- No edge leads to an idle author. -/
lemma mem_idleAuthors (hm : g.Mirrored) {a : AuthorId} : a ∈ g.idleAuthors repo ↔
    g.authors.contains a = true ∧ a.repo = repo ∧ ∀ e, g.hasEdge e = true → e.target ≠ .author a := by
  have hempty : (entries g.incoming (.author a)).isEmpty = true ↔
      ∀ e, g.hasEdge e = true → e.target ≠ .author a := by
    rw [List.isEmpty_iff, entries_eq_nil]
    constructor
    · rintro h ⟨kd, s, t⟩ he rfl
      have := (hm kd s (.author a)).mpr he
      simp [h] at this
    · rintro h ⟨kd, s⟩
      refine Bool.eq_false_iff.mpr fun hin => ?_
      exact h ⟨kd, s, .author a⟩ ((hm kd s (.author a)).mp hin) rfl
  simp only [KnowledgeGraph.idleAuthors, List.mem_filter, Std.ExtTreeMap.mem_keys, Bool.and_eq_true,
    beq_iff_eq, hempty, Std.ExtTreeMap.contains_iff_mem]

/-- No edge leads out of an author. -/
lemma source_ne_author (ht : g.Typed) {e : GraphEdge} (he : g.hasEdge e = true) (a : AuthorId) :
    e.source ≠ .author a := by
  intro hs
  have h := ht e he
  rw [hs] at h
  cases hk : e.kind <;> simp [hk, NodeKey.type, EdgeKind.endpoints] at h

/-- Edges lead to authors from commits only. -/
lemma source_of_target_author (ht : g.Typed) {e : GraphEdge} (he : g.hasEdge e = true) {a : AuthorId}
    (hta : e.target = .author a) : ∃ c, e.source = .commit c := by
  have h := ht e he
  rw [hta] at h
  have hs : e.source.type = .commit := by
    cases hk : e.kind <;> simp [hk, NodeKey.type, EdgeKind.endpoints] at h
    exact h
  cases hsrc : e.source <;> simp [hsrc, NodeKey.type] at hs
  exact ⟨_, rfl⟩

end

lemma removes_retainHistory (hm : d.graph.Mirrored) (ht : d.graph.Typed) (repo : String)
    (keep : Std.ExtTreeSet String) :
    Removes (GoneWithHistory d.graph repo keep) d.graph (d.retainHistory repo keep).graph := by
  by_cases hnone : (d.graph.doomedCommits repo keep).isEmpty
  · -- nothing is doomed, so the graph stays
    have hno : ∀ c, ¬Doomed d.graph repo keep c := by
      intro c hc
      have := mem_doomedCommits.mpr hc
      simp [List.isEmpty_iff.mp hnone] at this
    have hgraph : d.retainHistory repo keep = d := by simp only [retainHistory, hnone, if_true]
    rw [hgraph]
    refine (Removes.refl hm).congr fun k => ?_
    cases k <;> simp [GoneWithHistory, hno]
  obtain ⟨c₀, hc₀⟩ : ∃ c, Doomed d.graph repo keep c := by
    obtain ⟨c, hc⟩ := List.exists_mem_of_ne_nil _ (fun h => hnone (List.isEmpty_iff.mpr h))
    exact ⟨c, mem_doomedCommits.mp hc⟩
  have hrev := removes_foldl_removeRevision hm (d.graph.doomedRevisions repo keep)
  have hcom := removes_foldl_removeCommit hrev.mirrored (d.graph.doomedCommits repo keep)
  have h₂ := hrev.trans hcom
  set d₂ := (d.graph.doomedCommits repo keep).foldl removeCommit
    ((d.graph.doomedRevisions repo keep).foldl removeRevision d) with hd₂
  have ht₂ : d₂.graph.Typed := fun e he => ht e ((h₂.edge e).mp he).1
  have haut := removes_foldl_removeAuthor h₂.mirrored (d₂.graph.idleAuthors repo) fun a ha e he =>
    ⟨source_ne_author ht₂ he a, ((mem_idleAuthors h₂.mirrored).mp ha).2.2 e he⟩
  have hgraph : d.retainHistory repo keep = (d₂.graph.idleAuthors repo).foldl removeAuthor d₂ := by
    simp only [retainHistory, hnone, if_false, Bool.false_eq_true, ← hd₂]
  rw [hgraph]
  refine (h₂.trans haut).congr fun k => ?_
  cases k with
  | file p => simp [GoneWithHistory]
  | unit i => simp [GoneWithHistory]
  | chunk i => simp [GoneWithHistory]
  | commit c => simp [GoneWithHistory, mem_doomedCommits]
  | revision r => simp [GoneWithHistory, mem_doomedRevisions]
  | author a =>
    have hstored : d₂.graph.authors.contains a = true ↔ d.graph.authors.contains a = true := by
      simpa [KnowledgeGraph.contains] using h₂.contains_iff (.author a)
    have hidle : (∀ e, d₂.graph.hasEdge e = true → e.target ≠ .author a) ↔
        ∀ e, d.graph.hasEdge e = true → e.target = .author a →
          ∃ c, e.source = .commit c ∧ Doomed d.graph repo keep c := by
      constructor
      · intro h e he hta
        obtain ⟨c, hc⟩ := source_of_target_author ht he hta
        refine ⟨c, hc, by_contra fun hnot => h e ((h₂.edge e).mpr ⟨he, ?_, ?_⟩) hta⟩
        · simpa [hc, mem_doomedCommits] using hnot
        · simp [hta]
      · intro h e he hta
        obtain ⟨hg, hs, -⟩ := (h₂.edge e).mp he
        obtain ⟨c, hc, hd⟩ := h e hg hta
        exact hs (Or.inr ⟨c, mem_doomedCommits.mpr hd, hc⟩)
    constructor
    · rintro ((⟨_, _, h⟩ | ⟨_, _, h⟩) | ⟨b, hb, h⟩)
      · cases h
      · cases h
      · cases h
        obtain ⟨hin, hrepo, hall⟩ := (mem_idleAuthors h₂.mirrored).mp hb
        exact ⟨hstored.mp hin, hrepo, ⟨c₀, hc₀⟩, hidle.mp hall⟩
    · rintro ⟨hin, hrepo, -, hall⟩
      refine Or.inr ⟨a, (mem_idleAuthors h₂.mirrored).mpr ?_, rfl⟩
      exact ⟨hstored.mpr hin, hrepo, hidle.mpr hall⟩

end Draft

end RepoAtlas
