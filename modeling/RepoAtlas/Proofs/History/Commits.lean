import RepoAtlas.History.Sync
import RepoAtlas.Proofs.Graph.WellFormed

/-!
# Commits in the graph

What the graph holds of a commit is written once, by the batch of its record, and it leaves the commits that
are there before alone. Forgetting other commits leaves it alone too: its author keeps an edge, and its
parents and its changes are not forgotten while it is kept.
-/

namespace RepoAtlas

open KnowledgeGraph
open Draft (GoneWithHistory Doomed)

variable {g g' g'' : KnowledgeGraph} {repo : String} {r : CommitRecord}

namespace CommitRecord

/-- The key of the commit of a record. -/
def key (r : CommitRecord) (repo : String) : NodeKey := .commit ⟨repo, r.revision⟩

/-- The edge from a commit to what it did to a path. -/
def touching (r : CommitRecord) (repo path : String) : GraphEdge :=
  ⟨.touches, r.key repo, .revision ⟨repo, r.revision, path⟩⟩

/-- The graph holds the commit of a record with its author, its parents and its changes, and no edges of
these kinds besides. -/
structure StoredIn (r : CommitRecord) (repo : String) (g : KnowledgeGraph) : Prop where
  commit : g.commits[(⟨repo, r.revision⟩ : CommitId)]? = some (r.toCommit repo)
  author : g.authors.contains ⟨repo, r.authorEmail⟩ = true
  authoredBy : ∀ k, g.hasEdge ⟨.authoredBy, r.key repo, k⟩ = true ↔ k = .author ⟨repo, r.authorEmail⟩
  parent : ∀ k, g.hasEdge ⟨.parent, r.key repo, k⟩ = true ↔ ∃ p ∈ r.parents, k = .commit ⟨repo, p⟩
  touches : ∀ k, g.hasEdge ⟨.touches, r.key repo, k⟩ = true ↔
    ∃ c ∈ r.changes, k = .revision ⟨repo, r.revision, c.path⟩
  changed : ∀ c ∈ r.changes, g.revisions.contains ⟨repo, r.revision, c.path⟩ = true
  revision : ∀ (path : String) (v : FileRevision),
    g.revisions[(⟨repo, r.revision, path⟩ : RevisionId)]? = some v →
      ∃ c ∈ r.changes, c.path = path ∧ v = r.toRevision repo c

/-! ### The batch of a record -/

/-- Some changes of a commit were written. -/
structure Writes (r : CommitRecord) (repo : String) (changes : List FileChange) (g g' : KnowledgeGraph) :
    Prop where
  commits : g'.commits = g.commits
  authors : g'.authors = g.authors
  kept : ∀ (i : RevisionId) (v : FileRevision), g.revisions[i]? = some v → g'.revisions[i]? = some v
  origin : ∀ (i : RevisionId) (v : FileRevision), g'.revisions[i]? = some v →
    g.revisions[i]? = some v ∨ ∃ c ∈ changes, i = ⟨repo, r.revision, c.path⟩ ∧ v = r.toRevision repo c
  changed : ∀ c ∈ changes, g'.revisions.contains ⟨repo, r.revision, c.path⟩ = true
  edge : ∀ e, e.kind ≠ .versionOf →
    (g'.hasEdge e = true ↔ (∃ c ∈ changes, e = r.touching repo c.path) ∨ g.hasEdge e = true)

lemma contains_of_kept (h : ∀ (i : RevisionId) (v : FileRevision), g.revisions[i]? = some v →
    g'.revisions[i]? = some v) {i : RevisionId} (hi : g.revisions.contains i = true) :
    g'.revisions.contains i = true := by
  rw [Std.ExtTreeMap.contains_eq_isSome_getElem?, Option.isSome_iff_exists] at hi ⊢
  obtain ⟨v, hv⟩ := hi
  exact ⟨v, h i v hv⟩

lemma Writes.nil (g : KnowledgeGraph) : Writes r repo [] g g where
  commits := rfl
  authors := rfl
  kept _ _ h := h
  origin _ _ h := Or.inl h
  changed := by simp
  edge := by simp

lemma Writes.cons {c : FileChange} {cs : List FileChange} (h : Writes r repo [c] g g')
    (h' : Writes r repo cs g' g'') : Writes r repo (c :: cs) g g'' where
  commits := h'.commits.trans h.commits
  authors := h'.authors.trans h.authors
  kept i v hv := h'.kept i v (h.kept i v hv)
  origin i v hv := by
    rcases h'.origin i v hv with hv | ⟨c', hc', hv⟩
    · rcases h.origin i v hv with hv | ⟨c', hc', hv⟩
      · exact Or.inl hv
      · exact Or.inr ⟨c', by rw [List.mem_singleton.mp hc']; simp, hv⟩
    · exact Or.inr ⟨c', by simp [hc'], hv⟩
  changed c' hc' := by
    rcases List.mem_cons.mp hc' with rfl | hc'
    · exact contains_of_kept h'.kept (h.changed c' (by simp))
    · exact h'.changed c' hc'
  edge e he := by
    rw [h'.edge e he, h.edge e he]
    simp only [List.mem_cons, List.not_mem_nil, or_false, exists_eq_left, exists_eq_or_imp]
    rw [or_left_comm, or_assoc]

lemma writes_upsertRevision (d : Draft) (c : FileChange) :
    Writes r repo [c] d.graph
      ((d.upsertRevision (r.toRevision repo c)).insertEdge (r.touching repo c.path)).graph := by
  set d' := d.upsertRevision (r.toRevision repo c) with hd'
  have htables : (d'.insertEdge (r.touching repo c.path)).graph.tables = d'.graph.tables :=
    Draft.tables_insertEdge
  by_cases hc : d.graph.revisions.contains (r.toRevision repo c).id = true
  · have hsame : d' = d := Draft.upsertRevision_of_contains hc
    rw [hsame] at htables ⊢
    simp only [tables, NodeTables.mk.injEq] at htables
    obtain ⟨-, -, -, hcommits, hauthors, hrevisions, -⟩ := htables
    refine ⟨hcommits, hauthors, fun i v hv => ?_, fun i v hv => ?_, fun c' hc' => ?_, fun e _ => ?_⟩
    · rw [hrevisions]
      exact hv
    · rw [hrevisions] at hv
      exact Or.inl hv
    · rw [hrevisions, List.mem_singleton.mp hc']
      exact hc
    · rw [Draft.hasEdge_insertEdge]
      simp
  · have hnew := (Bool.not_eq_true _).mp hc
    rw [Draft.tables_upsertRevision hnew] at htables
    simp only [tables, NodeTables.mk.injEq] at htables
    obtain ⟨-, -, -, hcommits, hauthors, hrevisions, -⟩ := htables
    refine ⟨hcommits, hauthors, fun i v hv => ?_, fun i v hv => ?_, fun c' hc' => ?_, fun e he => ?_⟩
    · rw [hrevisions, Draft.getElem?_insert_eq_some_iff]
      refine Or.inr ⟨fun hi => ?_, hv⟩
      rw [← hi, Std.ExtTreeMap.contains_eq_isSome_getElem?, hv] at hnew
      cases hnew
    · rw [hrevisions] at hv
      obtain ⟨rfl, rfl⟩ | ⟨-, hv⟩ := Draft.getElem?_insert_eq_some_iff.mp hv
      · exact Or.inr ⟨c, by simp, rfl, rfl⟩
      · exact Or.inl hv
    · rw [hrevisions, List.mem_singleton.mp hc']
      exact Std.ExtTreeMap.contains_insert_self
    · rw [Draft.hasEdge_insertEdge, Draft.hasEdge_upsertRevision hnew]
      have hversion : e ≠ ⟨.versionOf, .revision (r.toRevision repo c).id,
          .file (r.toRevision repo c).path⟩ := fun h => he (by rw [h])
      simp [hversion]

lemma writes_changes (r : CommitRecord) (repo : String) (cs : List FileChange) (d : Draft) :
    Writes r repo cs d.graph
      ((cs.flatMap fun c => [WriteOp.upsertNode (.fileRevision (r.toRevision repo c)),
        .upsertEdge ⟨.touches, .commit ⟨repo, r.revision⟩, .revision ⟨repo, r.revision, c.path⟩⟩]).foldl
          Draft.applyOp d).graph := by
  induction cs generalizing d with
  | nil => exact Writes.nil d.graph
  | cons c cs ih =>
    rw [List.flatMap_cons, List.foldl_append]
    exact (writes_upsertRevision d c).cons (ih _)

/-- A commit was written, with edges to some of its parents. -/
structure Adds (r : CommitRecord) (repo : String) (parents : List String) (g g' : KnowledgeGraph) :
    Prop where
  commit : ∀ i : CommitId, g'.commits[i]? =
    if i = ⟨repo, r.revision⟩ then some (r.toCommit repo) else g.commits[i]?
  author : ∀ a : AuthorId, g'.authors.contains a = true ↔
    a = ⟨repo, r.authorEmail⟩ ∨ g.authors.contains a = true
  kept : ∀ (i : RevisionId) (v : FileRevision), g.revisions[i]? = some v → g'.revisions[i]? = some v
  origin : ∀ (i : RevisionId) (v : FileRevision), g'.revisions[i]? = some v →
    g.revisions[i]? = some v ∨ ∃ c ∈ r.changes, i = ⟨repo, r.revision, c.path⟩ ∧ v = r.toRevision repo c
  changed : ∀ c ∈ r.changes, g'.revisions.contains ⟨repo, r.revision, c.path⟩ = true
  edge : ∀ e, e.kind ≠ .versionOf → (g'.hasEdge e = true ↔
    (∃ c ∈ r.changes, e = r.touching repo c.path) ∨
      (∃ p ∈ parents, e = ⟨.parent, r.key repo, .commit ⟨repo, p⟩⟩) ∨
        e = ⟨.authoredBy, r.key repo, .author ⟨repo, r.authorEmail⟩⟩ ∨ g.hasEdge e = true)

/-- The batch of a record writes its commit, if the graph does not have it yet. -/
lemma adds_batch {parents : List String} (hnew : g.commits.contains ⟨repo, r.revision⟩ = false) :
    Adds r repo parents g (g.applyBatch (r.batch repo parents)).graph := by
  -- the nodes of the author and of the commit, then the edges between commits
  set d₁ : Draft := (Draft.upsertAuthor { graph := g } (r.toAuthor repo)).upsertCommit (r.toCommit repo)
    with hd₁
  set d₂ : Draft := d₁.insertEdge ⟨.authoredBy, r.key repo, .author ⟨repo, r.authorEmail⟩⟩ with hd₂
  set d₃ : Draft := parents.foldl (fun d p => d.insertEdge ⟨.parent, r.key repo, .commit ⟨repo, p⟩⟩) d₂
    with hd₃
  have hbatch : g.applyBatch (r.batch repo parents) = (r.changes.flatMap fun c =>
      [WriteOp.upsertNode (.fileRevision (r.toRevision repo c)),
        .upsertEdge ⟨.touches, .commit ⟨repo, r.revision⟩, .revision ⟨repo, r.revision, c.path⟩⟩]).foldl
          Draft.applyOp d₃ := by
    rw [applyBatch, batch, List.foldl_append, List.foldl_append, List.foldl_map]
    rfl
  have hg₁ : d₁.graph = { g with
      authors := g.authors.insert ⟨repo, r.authorEmail⟩ (r.toAuthor repo)
      commits := g.commits.insert ⟨repo, r.revision⟩ (r.toCommit repo) } := by
    have hnew' : (Draft.upsertAuthor { graph := g } (r.toAuthor repo)).graph.commits.contains
        (r.toCommit repo).id = false := by
      rw [Draft.graph_upsertAuthor]
      exact hnew
    rw [hd₁, Draft.graph_upsertCommit hnew', Draft.graph_upsertAuthor]
    rfl
  have htables : d₃.graph.tables = d₁.graph.tables := by
    rw [hd₃, Draft.tables_foldl_insertEdge (f := fun p => ⟨.parent, r.key repo, .commit ⟨repo, p⟩⟩), hd₂,
      Draft.tables_insertEdge]
  have hedge : ∀ e, d₃.graph.hasEdge e = true ↔ (∃ p ∈ parents, e = ⟨.parent, r.key repo, .commit ⟨repo, p⟩⟩) ∨
      e = ⟨.authoredBy, r.key repo, .author ⟨repo, r.authorEmail⟩⟩ ∨ g.hasEdge e = true := by
    intro e
    rw [hd₃, Draft.hasEdge_foldl_insertEdge (f := fun p => ⟨.parent, r.key repo, .commit ⟨repo, p⟩⟩), hd₂,
      Draft.hasEdge_insertEdge, hg₁]
    rfl
  rw [hg₁] at htables
  simp only [tables, NodeTables.mk.injEq] at htables
  obtain ⟨-, -, -, hcommits, hauthors, hrevisions, -⟩ := htables
  have hw := writes_changes r repo r.changes d₃
  rw [← hbatch] at hw
  refine ⟨fun i => ?_, fun a => ?_, fun i v hv => hw.kept i v ?_, fun i v hv => ?_, hw.changed, fun e he => ?_⟩
  · have hcompare : compare ⟨repo, r.revision⟩ i = .eq ↔ i = ⟨repo, r.revision⟩ :=
      Std.LawfulEqCmp.compare_eq_iff_eq.trans eq_comm
    simp only [hw.commits, hcommits, Std.ExtTreeMap.getElem?_insert, hcompare]
  · rw [hw.authors, hauthors]
    exact Draft.stored_insert_iff
  · rw [hrevisions]
    exact hv
  · rw [← hrevisions]
    exact hw.origin i v hv
  · rw [hw.edge e he, hedge]

/-! ### What stays -/

/-- Edges of other commits are not written. -/
lemma Adds.edge_of_ne {parents : List String} (h : Adds r repo parents g g') {kind : EdgeKind}
    (hkind : kind ≠ .versionOf) {c : String} (hc : c ≠ r.revision) (k : NodeKey) :
    g'.hasEdge ⟨kind, .commit ⟨repo, c⟩, k⟩ = true ↔ g.hasEdge ⟨kind, .commit ⟨repo, c⟩, k⟩ = true := by
  rw [h.edge _ hkind]
  simp [touching, key, hc]

lemma StoredIn.adds {s : CommitRecord} {parents : List String} (hs : s.StoredIn repo g)
    (h : Adds r repo parents g g') (hne : s.revision ≠ r.revision) : s.StoredIn repo g' where
  commit := by
    rw [h.commit, if_neg fun hi => hne (CommitId.mk.inj hi).2]
    exact hs.commit
  author := (h.author _).mpr (Or.inr hs.author)
  authoredBy k := (h.edge_of_ne (by decide) hne k).trans (hs.authoredBy k)
  parent k := (h.edge_of_ne (by decide) hne k).trans (hs.parent k)
  touches k := (h.edge_of_ne (by decide) hne k).trans (hs.touches k)
  changed c hc := contains_of_kept h.kept (hs.changed c hc)
  revision path v hv := by
    rcases h.origin _ v hv with hv | ⟨c, -, hi, -⟩
    · exact hs.revision path v hv
    · exact absurd (RevisionId.mk.inj hi).2.1 hne

/-- A commit of which nothing was there before is held once it is written with all its parents. -/
lemma Adds.storedIn (h : Adds r repo r.parents g g')
    (hedges : ∀ kind k, g.hasEdge ⟨kind, r.key repo, k⟩ = false)
    (hrevisions : ∀ path : String, g.revisions.contains ⟨repo, r.revision, path⟩ = false) :
    r.StoredIn repo g' where
  commit := by rw [h.commit, if_pos rfl]
  author := (h.author _).mpr (Or.inl rfl)
  authoredBy k := by
    rw [h.edge _ (by simp)]
    simp [touching, hedges]
  parent k := by
    rw [h.edge _ (by simp)]
    simp [touching, hedges]
  touches k := by
    rw [h.edge _ (by simp)]
    simp [touching, hedges]
  changed := h.changed
  revision path v hv := by
    rcases h.origin _ v hv with hv | ⟨c, hc, hi, hv⟩
    · have hno := hrevisions path
      rw [Std.ExtTreeMap.contains_eq_isSome_getElem?, hv] at hno
      cases hno
    · exact ⟨c, hc, (RevisionId.mk.inj hi).2.2.symm, hv⟩

/-- A commit that is kept with its parents stays as it is when others are forgotten. -/
lemma StoredIn.forget {keep : Std.ExtTreeSet String} (hs : r.StoredIn repo g)
    (hr : Removes (GoneWithHistory g repo keep) g g') (hkeep : keep.contains r.revision = true)
    (hparents : ∀ p ∈ r.parents, keep.contains p = true) : r.StoredIn repo g' := by
  have hkept : ∀ c, keep.contains c = true → ¬Doomed g repo keep ⟨repo, c⟩ := by
    rintro c hc ⟨-, -, hno⟩
    simp only [hc, Bool.true_eq_false] at hno
  have hsource : ¬GoneWithHistory g repo keep (r.key repo) := hkept _ hkeep
  have hauthor : ¬GoneWithHistory g repo keep (.author ⟨repo, r.authorEmail⟩) := by
    rintro ⟨-, -, -, hall⟩
    obtain ⟨c, hc, hdoomed⟩ := hall _ ((hs.authoredBy _).mpr rfl) rfl
    cases hc
    exact hkept _ hkeep hdoomed
  have hrevision : ∀ path, ¬GoneWithHistory g repo keep (.revision ⟨repo, r.revision, path⟩) :=
    fun path hgone => hkept _ hkeep hgone.2
  constructor
  case commit => exact (hr.commit _ _).mpr ⟨hs.commit, hsource⟩
  case author => exact (hr.contains_iff (.author ⟨repo, r.authorEmail⟩)).mpr ⟨hs.author, hauthor⟩
  case authoredBy =>
    intro k
    rw [hr.edge, hs.authoredBy]
    refine and_iff_left_of_imp ?_
    rintro rfl
    exact ⟨hsource, hauthor⟩
  case parent =>
    intro k
    rw [hr.edge, hs.parent]
    refine and_iff_left_of_imp ?_
    rintro ⟨p, hp, rfl⟩
    exact ⟨hsource, hkept p (hparents p hp)⟩
  case touches =>
    intro k
    rw [hr.edge, hs.touches]
    refine and_iff_left_of_imp ?_
    rintro ⟨c, hc, rfl⟩
    exact ⟨hsource, hrevision c.path⟩
  case changed =>
    exact fun c hc => (hr.contains_iff (.revision ⟨repo, r.revision, c.path⟩)).mpr
      ⟨hs.changed c hc, hrevision c.path⟩
  case revision => exact fun path v hv => hs.revision path v ((hr.revision _ _).mp hv).1

end CommitRecord

/-! ### Coherent histories -/

namespace HistorySync

variable {genuine : CommitRecord → Prop}

/-- The commits of a repository are held each by one of its genuine records, and nothing is there of
commits that are not. -/
structure Coherent (repo : String) (genuine : CommitRecord → Prop) (g : KnowledgeGraph) : Prop where
  wellFormed : g.WellFormed
  stored : ∀ c : String, g.commits.contains ⟨repo, c⟩ = true →
    ∃ r, genuine r ∧ r.revision = c ∧ r.StoredIn repo g
  source : ∀ (e : GraphEdge) (c : String), g.hasEdge e = true → e.source = .commit ⟨repo, c⟩ →
    g.commits.contains ⟨repo, c⟩ = true
  revision : ∀ i : RevisionId, g.revisions.contains i = true → i.repo = repo →
    g.commits.contains i.commit = true

lemma coherent_empty (repo : String) (genuine : CommitRecord → Prop) : Coherent repo genuine {} where
  wellFormed := wellFormed_empty
  stored c h := by simp at h
  source e c he := by
    rw [hasEdge, hasEntry_empty] at he
    cases he
  revision i h := by simp at h

lemma contains_of_adds {parents : List String} (h : r.Adds repo parents g g') {i : CommitId} :
    g'.commits.contains i = true ↔ i = ⟨repo, r.revision⟩ ∨ g.commits.contains i = true := by
  rw [Std.ExtTreeMap.contains_eq_isSome_getElem?, Std.ExtTreeMap.contains_eq_isSome_getElem?, h.commit]
  by_cases hi : i = ⟨repo, r.revision⟩ <;> simp [hi]

/-- Writing a new commit with all its parents. -/
lemma Coherent.adds (hc : Coherent repo genuine g) (h : r.Adds repo r.parents g g')
    (hw : g'.WellFormed) (hnew : g.commits.contains ⟨repo, r.revision⟩ = false) (hr : genuine r) :
    Coherent repo genuine g' where
  wellFormed := hw
  stored c hmem := by
    by_cases hne : c = r.revision
    · subst hne
      refine ⟨r, hr, rfl, h.storedIn (fun kind k => ?_) fun path => ?_⟩
      · rw [← Bool.not_eq_true]
        intro he
        rw [hc.source _ r.revision he rfl] at hnew
        cases hnew
      · rw [← Bool.not_eq_true]
        intro hi
        have hcommit := hc.revision _ hi rfl
        rw [RevisionId.commit, hnew] at hcommit
        cases hcommit
    · have hold : g.commits.contains ⟨repo, c⟩ = true :=
        ((contains_of_adds h).mp hmem).resolve_left fun hi => hne (CommitId.mk.inj hi).2
      obtain ⟨s, hs, rfl, hstored⟩ := hc.stored c hold
      exact ⟨s, hs, rfl, hstored.adds h hne⟩
  source e c he hsource := by
    refine (contains_of_adds h).mpr ?_
    -- the edges to files come from revisions
    have hkind : e.kind ≠ .versionOf := by
      intro hk
      have htyped := hw.adjacent.typed e he
      rw [hsource, hk] at htyped
      cases htyped
    rcases (h.edge e hkind).mp he with ⟨_, _, rfl⟩ | ⟨_, _, rfl⟩ | rfl | he
    · cases hsource
      exact Or.inl rfl
    · cases hsource
      exact Or.inl rfl
    · cases hsource
      exact Or.inl rfl
    · exact Or.inr (hc.source e c he hsource)
  revision i hi hrepo := by
    refine (contains_of_adds h).mpr ?_
    rw [Std.ExtTreeMap.contains_eq_isSome_getElem?, Option.isSome_iff_exists] at hi
    obtain ⟨v, hv⟩ := hi
    rcases h.origin i v hv with hv | ⟨c, -, rfl, -⟩
    · refine Or.inr (hc.revision i ?_ hrepo)
      rw [Std.ExtTreeMap.contains_eq_isSome_getElem?, hv]
      rfl
    · exact Or.inl rfl

/-- Forgetting all commits but some that are kept with their parents. -/
lemma Coherent.forget {keep : Std.ExtTreeSet String} (hc : Coherent repo genuine g)
    (hr : Removes (GoneWithHistory g repo keep) g g') (hw : g'.WellFormed)
    (hkeep : ∀ r, genuine r → keep.contains r.revision = true → ∀ p ∈ r.parents, keep.contains p = true) :
    Coherent repo genuine g' ∧ ∀ c : String, g'.commits.contains ⟨repo, c⟩ = true ↔
      g.commits.contains ⟨repo, c⟩ = true ∧ keep.contains c = true := by
  have hmem : ∀ c : String, g'.commits.contains ⟨repo, c⟩ = true ↔
      g.commits.contains ⟨repo, c⟩ = true ∧ keep.contains c = true := by
    intro c
    have hiff := hr.contains_iff (.commit ⟨repo, c⟩)
    simp only [KnowledgeGraph.contains, GoneWithHistory, Doomed] at hiff
    rw [hiff]
    cases keep.contains c <;> simp
  refine ⟨⟨hw, fun c hcontains => ?_, fun e c he hsource => ?_, fun i hi hrepo => ?_⟩, hmem⟩
  · obtain ⟨hold, hkept⟩ := (hmem c).mp hcontains
    obtain ⟨r, hgenuine, rfl, hstored⟩ := hc.stored c hold
    exact ⟨r, hgenuine, rfl, hstored.forget hr hkept (hkeep r hgenuine hkept)⟩
  · obtain ⟨he, hnot, -⟩ := (hr.edge e).mp he
    rw [hsource] at hnot
    exact (hr.contains_iff (.commit ⟨repo, c⟩)).mpr ⟨hc.source e c he hsource, hnot⟩
  · obtain ⟨hold, hnot⟩ := (hr.contains_iff (.revision i)).mp hi
    exact (hr.contains_iff (.commit i.commit)).mpr
      ⟨hc.revision i hold hrepo, fun hdoomed => hnot ⟨hold, hdoomed⟩⟩

end HistorySync

end RepoAtlas
