import RepoAtlas.Proofs.Graph.Reachability

/-!
# Code and history

The graph holds two domains side by side: files with their units and chunks, and commits with their authors
and what they did to files. They share the adjacency maps, and only the edges from revisions to files lead
from one to the other. A write of one domain spares the other one: it changes no node of it and no edge
between its nodes. For removals this rests on the types of edges, since a node that goes takes all its edges
with it. Within the history, what is recorded of a commit or of a revision stays until it is forgotten.
-/

namespace RepoAtlas

open KnowledgeGraph

/-! ### The domains -/

/-- The domains of the graph. -/
inductive Domain where
  | code
  | history
deriving DecidableEq

/-- The domain of nodes of a type. -/
def NodeType.domain : NodeType → Domain
  | .sourceFile | .codeUnit | .semanticChunk => .code
  | .commit | .author | .fileRevision => .history

/-- The domain of edges of a kind; versions lead from one domain to the other. -/
def EdgeKind.domain? : EdgeKind → Option Domain
  | .contains | .imports | .calls | .describes => some .code
  | .parent | .authoredBy | .touches => some .history
  | .versionOf => none

/-- Edges of a domain connect nodes of the domain. -/
lemma EdgeKind.domain_endpoints {kind : EdgeKind} {D : Domain} (h : kind.domain? = some D) :
    kind.endpoints.1.domain = D ∧ kind.endpoints.2.domain = D := by
  cases kind <;> cases h <;> exact ⟨rfl, rfl⟩

/-- The domain that a write is about. -/
def WriteOp.domain? : WriteOp → Option Domain
  | .upsertNode n => some n.key.type.domain
  | .upsertEdge e => e.kind.domain?
  | .clearFile _ | .removeFile _ | .replaceImports .. | .replaceCalls .. => some .code
  | .retainHistory .. => some .history

/-- Writes that forget history. -/
def WriteOp.Forgets : WriteOp → Prop
  | .retainHistory .. => True
  | _ => False

/-- The nodes of a domain are the same, and so are the places of chunks. -/
def NodeTables.Agree (t t' : NodeTables) : Domain → Prop
  | .code => t'.files = t.files ∧ t'.units = t.units ∧ t'.chunks = t.chunks
  | .history => t'.commits = t.commits ∧ t'.authors = t.authors ∧ t'.revisions = t.revisions

/-- A step from `g` to `g'` leaves a domain as it is. -/
structure Spares (D : Domain) (g g' : KnowledgeGraph) : Prop where
  nodes : g.tables.Agree g'.tables D
  edge : ∀ e, e.kind.domain? = some D → (g'.hasEdge e = true ↔ g.hasEdge e = true)

namespace Spares

variable {D : Domain} {g g' g'' : KnowledgeGraph}

/-- Writes of edges. -/
lemma of_tables (htables : g'.tables = g.tables)
    (hedge : ∀ e, e.kind.domain? = some D → (g'.hasEdge e = true ↔ g.hasEdge e = true)) : Spares D g g' where
  nodes := by
    rw [htables]
    cases D <;> exact ⟨rfl, rfl, rfl⟩
  edge := hedge

lemma refl (D : Domain) (g : KnowledgeGraph) : Spares D g g := of_tables rfl fun _ _ => Iff.rfl

lemma trans (h : Spares D g g') (h' : Spares D g' g'') : Spares D g g'' where
  nodes := by
    obtain ⟨hnodes, -⟩ := h
    obtain ⟨hnodes', -⟩ := h'
    cases D <;> exact ⟨hnodes'.1.trans hnodes.1, hnodes'.2.1.trans hnodes.2.1, hnodes'.2.2.trans hnodes.2.2⟩
  edge e he := (h'.edge e he).trans (h.edge e he)

end Spares

/-! ### Removals -/

section

variable {gone : NodeKey → Prop} {g g' : KnowledgeGraph} {D : Domain}

/-- A table of which nothing goes. -/
lemma eq_of_removes {κ β : Type} [Ord κ] [Std.TransOrd κ] [Std.LawfulEqOrd κ] {m m' : Std.ExtTreeMap κ β}
    {gone : κ → Prop} (h : ∀ k b, m'[k]? = some b ↔ m[k]? = some b ∧ ¬gone k) (hstay : ∀ k, ¬gone k) :
    m' = m := by
  apply Std.ExtTreeMap.ext_getElem?
  intro k
  apply Option.ext
  intro b
  rw [h, and_iff_left (hstay k)]

/-- Removing nodes spares the other domain: its edges connect its own nodes. -/
lemma Removes.spares (hr : Removes gone g g') (ht : g.Typed) (hgone : ∀ k, gone k → k.type.domain ≠ D) :
    Spares D g g' where
  nodes := by
    cases D with
    | code =>
      exact ⟨eq_of_removes hr.file fun _ h => hgone _ h rfl, eq_of_removes hr.unit fun _ h => hgone _ h rfl,
        eq_of_removes hr.chunk fun _ h => hgone _ h rfl⟩
    | history =>
      exact ⟨eq_of_removes hr.commit fun _ h => hgone _ h rfl,
        eq_of_removes hr.author fun _ h => hgone _ h rfl,
        eq_of_removes hr.revision fun _ h => hgone _ h rfl⟩
  edge e hD := by
    rw [hr.edge]
    refine and_iff_left_of_imp fun he => ?_
    obtain ⟨hsource, htarget⟩ := EdgeKind.domain_endpoints hD
    rw [← ht e he] at hsource htarget
    exact ⟨fun h => hgone _ h hsource, fun h => hgone _ h htarget⟩

open Draft

lemma domain_of_goneWithContents {path : String} {k : NodeKey} (h : GoneWithContents g path k) :
    k.type.domain = .code := by
  obtain ⟨i, -, -, rfl | ⟨c, rfl, -⟩⟩ := h <;> rfl

lemma domain_of_goneWithHistory {repo : String} {keep : Std.ExtTreeSet String} {k : NodeKey}
    (h : GoneWithHistory g repo keep k) : k.type.domain = .history := by
  cases k with
  | commit c | author a | revision r => rfl
  | file p | unit i | chunk i => exact h.elim

end

/-! ### Writes -/

namespace Draft

variable {d : Draft} {D : Domain}

/-- A node that is put spares the other domain; the edges that come with a file or with a revision lead
from one domain to the other. -/
lemma spares_upsert {n : GraphNode} (hn : n.key.type.domain ≠ D) : Spares D d.graph (d.upsert n).graph := by
  cases n with
  | sourceFile f =>
    refine ⟨?_, fun e he => hasEdge_upsertFile.trans (or_iff_right ?_)⟩
    · rw [upsert, tables_upsertFile]
      cases D
      · exact absurd rfl hn
      · exact ⟨rfl, rfl, rfl⟩
    · rintro ⟨-, r, -, rfl⟩
      cases he
  | codeUnit u =>
    by_cases hold : d.graph.units[u.id]? = some u
    · rw [upsert, upsertUnit_of_eq hold]
      exact Spares.refl D _
    · refine ⟨?_, fun e he => (hasEdge_upsertUnit hold).trans (or_iff_right ?_)⟩
      · rw [upsert, tables_upsertUnit hold]
        cases D
        · exact absurd rfl hn
        · exact ⟨rfl, rfl, rfl⟩
      · rintro rfl
        exact hn (Option.some.inj he)
  | semanticChunk c =>
    obtain ⟨stored, n, -, -, htables⟩ := tables_upsertChunk d c
    refine ⟨?_, fun e he => hasEdge_upsertChunk.trans (or_iff_right ?_)⟩
    · rw [upsert, htables]
      cases D
      · exact absurd rfl hn
      · exact ⟨rfl, rfl, rfl⟩
    · rintro rfl
      exact hn (Option.some.inj he)
  | commit c =>
    obtain ⟨commits, hgraph⟩ := d.exists_graph_upsertCommit c
    rw [upsert, hgraph]
    cases D
    · exact ⟨⟨rfl, rfl, rfl⟩, fun _ _ => Iff.rfl⟩
    · exact absurd rfl hn
  | author a =>
    rw [upsert, graph_upsertAuthor]
    cases D
    · exact ⟨⟨rfl, rfl, rfl⟩, fun _ _ => Iff.rfl⟩
    · exact absurd rfl hn
  | fileRevision r =>
    by_cases hold : d.graph.revisions.contains r.id = true
    · rw [upsert, upsertRevision_of_contains hold]
      exact Spares.refl D _
    · replace hold := (Bool.not_eq_true _).mp hold
      refine ⟨?_, fun e he => (hasEdge_upsertRevision hold).trans (or_iff_right ?_)⟩
      · rw [upsert, tables_upsertRevision hold]
        cases D
        · exact ⟨rfl, rfl, rfl⟩
        · exact absurd rfl hn
      · rintro ⟨-, rfl⟩
        cases he

/-- A write of one domain spares the other one. -/
lemma spares_applyOp (hw : d.graph.WellFormed) {op : WriteOp} {D' : Domain} (hop : op.domain? = some D')
    (hne : D' ≠ D) : Spares D d.graph (d.applyOp op).graph := by
  have hm := hw.adjacent.mirrored
  have ht := hw.adjacent.typed
  -- an edge of the domain is not of a kind of the other one
  have hkind : ∀ e : GraphEdge, e.kind.domain? = some D → e.kind.domain? ≠ some D' := by
    intro e he he'
    exact hne (Option.some.inj (he'.symm.trans he))
  cases op with
  | upsertNode n =>
    cases hop
    exact spares_upsert hne
  | upsertEdge e =>
    refine Spares.of_tables tables_insertEdge fun e' he' => hasEdge_insertEdge.trans (or_iff_right ?_)
    rintro rfl
    exact hkind _ he' hop
  | clearFile path =>
    cases hop
    exact (removes_clearFile hm path).spares ht fun k hk => domain_of_goneWithContents hk ▸ hne
  | removeFile path =>
    cases hop
    refine (removes_removeFile hm path).spares ht ?_
    rintro k (hk | rfl)
    · exact domain_of_goneWithContents hk ▸ hne
    · exact hne
  | replaceImports path targets =>
    cases hop
    refine Spares.of_tables tables_replaceImports fun e he => hasEdge_replaceImports.trans ?_
    have hno : e.kind ≠ .imports := fun hk => hkind e he (by rw [hk]; rfl)
    simp [hno]
  | replaceCalls path calls =>
    cases hop
    refine Spares.of_tables tables_replaceCalls fun e he => hasEdge_replaceCalls.trans ?_
    have hno : e.kind ≠ .calls := fun hk => hkind e he (by rw [hk]; rfl)
    simp [hno]
  | retainHistory repo revisions =>
    cases hop
    exact (removes_retainHistory hm ht repo _).spares ht fun k hk => domain_of_goneWithHistory hk ▸ hne

end Draft

/-! ### What is recorded stays -/

/-- What is recorded of commits and of what they did to files is still there. -/
structure Records (g g' : KnowledgeGraph) : Prop where
  commit : ∀ (i : CommitId) (c : Commit), g.commits[i]? = some c → g'.commits[i]? = some c
  revision : ∀ (i : RevisionId) (v : FileRevision), g.revisions[i]? = some v → g'.revisions[i]? = some v

namespace Records

variable {g g' g'' : KnowledgeGraph}

lemma refl (g : KnowledgeGraph) : Records g g := ⟨fun _ _ h => h, fun _ _ h => h⟩

lemma trans (h : Records g g') (h' : Records g' g'') : Records g g'' :=
  ⟨fun i c hc => h'.commit i c (h.commit i c hc), fun i v hv => h'.revision i v (h.revision i v hv)⟩

lemma of_eq (hcommits : g'.commits = g.commits) (hrevisions : g'.revisions = g.revisions) : Records g g' :=
  ⟨by simp [hcommits], by simp [hrevisions]⟩

end Records

lemma Spares.records {g g' : KnowledgeGraph} (h : Spares .history g g') : Records g g' :=
  .of_eq h.nodes.1 h.nodes.2.2

section

variable {κ β : Type} [Ord κ] [Std.TransOrd κ] [Std.LawfulEqOrd κ] {m m' : Std.ExtTreeMap κ β}

/-- What is there stays when something is inserted under a new key. -/
lemma getElem?_insert_of_not_contains {k k' : κ} {b b' : β} (hnew : ¬m.contains k = true)
    (h : m[k']? = some b') : (m.insert k b)[k']? = some b' := by
  refine Draft.getElem?_insert_eq_some_iff.mpr (Or.inr ⟨?_, h⟩)
  rintro rfl
  rw [Std.ExtTreeMap.contains_eq_isSome_getElem?, h] at hnew
  exact hnew rfl

omit [Std.LawfulEqOrd κ] in
/-- What is there before a removal is the same after it, or it is gone. -/
lemma kept_or_none {gone : κ → Prop} (h : ∀ k b, m'[k]? = some b ↔ m[k]? = some b ∧ ¬gone k) {k : κ} {b : β}
    (hb : m[k]? = some b) : m'[k]? = some b ∨ m'[k]? = none := by
  by_cases hk : gone k
  · refine Or.inr (Option.eq_none_iff_forall_ne_some.mpr fun b' hb' => ?_)
    exact ((h k b').mp hb').2 hk
  · exact Or.inl ((h k b).mpr ⟨hb, hk⟩)

end

namespace Draft

variable {d : Draft}

/-- Commits and revisions are put once: a second copy is ignored. -/
lemma records_upsert (n : GraphNode) : Records d.graph (d.upsert n).graph := by
  cases n with
  | sourceFile f | codeUnit u | semanticChunk c =>
    exact (spares_upsert (by simp [GraphNode.key, NodeKey.type, NodeType.domain])).records
  | commit c =>
    by_cases hold : d.graph.commits.contains c.id = true
    · rw [upsert, upsertCommit_of_contains hold]
      exact Records.refl _
    · rw [upsert, graph_upsertCommit ((Bool.not_eq_true _).mp hold)]
      exact ⟨fun _ _ h => getElem?_insert_of_not_contains hold h, fun _ _ h => h⟩
  | author a =>
    rw [upsert, graph_upsertAuthor]
    exact .of_eq rfl rfl
  | fileRevision r =>
    by_cases hold : d.graph.revisions.contains r.id = true
    · rw [upsert, upsertRevision_of_contains hold]
      exact Records.refl _
    · have htables := tables_upsertRevision ((Bool.not_eq_true _).mp hold)
      simp only [tables, NodeTables.mk.injEq] at htables
      obtain ⟨-, -, -, hcommits, -, hrevisions, -⟩ := htables
      rw [upsert]
      refine ⟨fun i c h => ?_, fun i v h => ?_⟩
      · rwa [hcommits]
      · rw [hrevisions]
        exact getElem?_insert_of_not_contains hold h

/-- Only forgetting takes away what is recorded. -/
lemma records_applyOp (hw : d.graph.WellFormed) {op : WriteOp} (hop : ¬op.Forgets) :
    Records d.graph (d.applyOp op).graph := by
  cases op with
  | upsertNode n => exact records_upsert n
  | upsertEdge e =>
    have htables := tables_insertEdge (d := d) (e := e)
    exact .of_eq (congrArg NodeTables.commits htables) (congrArg NodeTables.revisions htables)
  | clearFile | removeFile | replaceImports | replaceCalls =>
    exact (spares_applyOp hw rfl (by simp)).records
  | retainHistory repo revisions => exact absurd trivial hop

end Draft

/-- A write spares the domain that it is not about, and what is recorded of a commit or of a revision stays
as it is unless the write forgets it. -/
structure WriteOp.Confined (op : WriteOp) (g g' : KnowledgeGraph) : Prop where
  spares : ∀ D D', op.domain? = some D' → D' ≠ D → Spares D g g'
  commit : ∀ (i : CommitId) (c : Commit), g.commits[i]? = some c →
    g'.commits[i]? = some c ∨ (op.Forgets ∧ g'.commits[i]? = none)
  revision : ∀ (i : RevisionId) (v : FileRevision), g.revisions[i]? = some v →
    g'.revisions[i]? = some v ∨ (op.Forgets ∧ g'.revisions[i]? = none)

/-- Every write of a well-formed graph is confined. -/
lemma Draft.confined_applyOp {d : Draft} (hw : d.graph.WellFormed) (op : WriteOp) :
    op.Confined d.graph (d.applyOp op).graph := by
  have hspares : ∀ D D', op.domain? = some D' → D' ≠ D → Spares D d.graph (d.applyOp op).graph :=
    fun D D' hop hne => spares_applyOp hw hop hne
  by_cases hop : op.Forgets
  · cases op with
    | retainHistory repo revisions =>
      have hr := removes_retainHistory hw.adjacent.mirrored hw.adjacent.typed repo
        (revisions.foldl (·.insert ·) ∅)
      exact ⟨hspares, fun i c hc => (kept_or_none hr.commit hc).imp_right fun h => ⟨hop, h⟩,
        fun i v hv => (kept_or_none hr.revision hv).imp_right fun h => ⟨hop, h⟩⟩
    | _ => exact hop.elim
  · have hrecords := records_applyOp hw hop
    exact ⟨hspares, fun i c hc => Or.inl (hrecords.commit i c hc),
      fun i v hv => Or.inl (hrecords.revision i v hv)⟩

namespace GraphStore

variable {s s' : GraphStore}

/-- Each write of a batch that a store with a reachable graph admits is confined: where it is about the
code, all of the history stays, and the other way round, and no commit or revision changes before it is
forgotten. -/
theorem confined_of_apply {before after : WriteBatch} {op : WriteOp} {summary : WriteSummary}
    (hs : s.graph.Reachable) (h : s.apply (before ++ op :: after) = .ok (s', summary)) :
    op.Confined (s.graph.applyBatch before).graph (s.graph.applyBatch (before ++ [op])).graph := by
  obtain ⟨-, -, hflaw⟩ := apply_eq_ok h
  have htyped := Overlay.typed_of_batchFlaw? hflaw
  have hw := (hs.wellFormed.applyBatch (b := before) fun op hop => htyped op (by simp [hop])).wellFormed
  rw [applyBatch_append_singleton]
  exact Draft.confined_applyOp hw op

/-- A batch that records a commit, clears a file, and forgets the commit. -/
def mixedBatch : WriteBatch :=
  [.upsertNode (.author ⟨"r", "e", "n"⟩),
    .upsertNode (.commit ⟨"r", "1", [], "e", default, default, "s", ""⟩),
    .upsertEdge ⟨.authoredBy, .commit ⟨"r", "1"⟩, .author ⟨"r", "e"⟩⟩] ++
  .clearFile "a.py" :: [.retainHistory "r" []]

theorem confined_of_apply_mixedBatch : ∃ s s' summary, ({} : GraphStore).applyAll [smallBatch] = .ok s ∧
    s.apply mixedBatch = .ok (s', summary) ∧
      (WriteOp.clearFile "a.py").Confined (s.graph.applyBatch (mixedBatch.take 3)).graph
        (s.graph.applyBatch (mixedBatch.take 4)).graph := by
  have hok : (({} : GraphStore).applyAll [smallBatch]).toOption.bind
      (fun s => (s.apply mixedBatch).toOption.map fun r => r.2.nodesRemoved) = some 4 := by
    decide
  cases hrun : ({} : GraphStore).applyAll [smallBatch] with
  | error e => simp [hrun, Except.toOption] at hok
  | ok s =>
    cases happly : s.apply mixedBatch with
    | error e => simp [hrun, happly, Except.toOption] at hok
    | ok r =>
      obtain ⟨s', summary⟩ := r
      exact ⟨s, s', summary, rfl, happly, confined_of_apply (.applyAll .empty hrun) happly⟩

/-- Batches about one domain spare the other one. -/
theorem spares_applyAll {bs : List WriteBatch} {D D' : Domain} (hs : s.graph.Reachable)
    (h : s.applyAll bs = .ok s') (hbs : ∀ b ∈ bs, ∀ op ∈ b, op.domain? = some D') (hne : D' ≠ D) :
    Spares D s.graph s'.graph :=
  Reachable.invariant_applyAll (P := fun g => Spares D s.graph g)
    (fun _ b hb op hop hw _ hd => hd.trans (Draft.spares_applyOp hw (hbs b hb op hop) hne))
    hs.wellFormed (Spares.refl D _) h

/-- What is recorded stays through batches that forget nothing. -/
theorem records_applyAll {bs : List WriteBatch} (hs : s.graph.Reachable) (h : s.applyAll bs = .ok s')
    (hbs : ∀ b ∈ bs, ∀ op ∈ b, ¬op.Forgets) : Records s.graph s'.graph :=
  Reachable.invariant_applyAll (P := fun g => Records s.graph g)
    (fun _ b hb op hop hw _ hd => hd.trans (Draft.records_applyOp hw (hbs b hb op hop)))
    hs.wellFormed (Records.refl _) h

end GraphStore

end RepoAtlas
