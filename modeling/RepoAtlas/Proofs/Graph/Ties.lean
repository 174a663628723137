import RepoAtlas.Proofs.Graph.Reachability

/-!
# Nodes and their owners

A unit belongs to a file, and a chunk to a unit. The stored node names its owner, and the graph has marks that
lead from the owner to the node: the list of the file's units, the edge from the file, the edge to the unit. A put
leaves a mark for the owner that it names, and a removal takes the marks of what it removes. But a put that
gives a stored node another owner leaves the mark of the owner before. It is the only source of marks that are stale:
where there is one, the node was put with two owners.
-/

namespace RepoAtlas

open KnowledgeGraph

/-! ### Ties -/

/-- The ways in which the graph leads from an owner to the nodes that belong to it. -/
inductive Tie where
  /-- A file lists its units. -/
  | listing
  /-- An edge leads from a file to its unit. -/
  | containment
  /-- An edge leads to a unit from the chunk that describes it. -/
  | description

namespace Tie

/-- The node that belongs to an owner, as one that refers to others. -/
def holder : Tie → String → Holder
  | .listing, i | .containment, i => .unit i
  | .description, i => .chunk i

/-- The key of the node that belongs to an owner. -/
def key : Tie → String → NodeKey
  | .listing, i | .containment, i => .unit i
  | .description, i => .chunk i

/-- The kind of the edges that stand for a tie, or go with it. -/
def kind : Tie → EdgeKind
  | .listing | .containment => .contains
  | .description => .describes

/-- A mark leads from an owner to a node. -/
def Marks : Tie → KnowledgeGraph → String → NodeKey → Prop
  | .listing, g, i, k => ∃ p, k = .file p ∧ hasEntry g.unitsByFile p i = true
  | .containment, g, i, k => g.hasEdge ⟨.contains, k, .unit i⟩ = true
  | .description, g, i, k => g.hasEdge ⟨.describes, .chunk i, k⟩ = true

/-- A mark leads to a node that is not stored with this owner. -/
def Stale (t : Tie) (g : KnowledgeGraph) (i : String) (k : NodeKey) : Prop :=
  t.Marks g i k ∧ ¬g.Refers (t.holder i) k

end Tie

/-- A write puts a node with an owner. -/
def WriteOp.Assigns : WriteOp → Holder → NodeKey → Prop
  | .upsertNode (.codeUnit u), .unit i, k => i = u.id ∧ k = .file u.path
  | .upsertNode (.semanticChunk c), .chunk i, k => i = c.id ∧ k = .unit c.unitId
  | _, _, _ => False

lemma WriteOp.exists_unit_of_assigns {op : WriteOp} {i : String} {k : NodeKey} (h : op.Assigns (.unit i) k) :
    ∃ u, op = .upsertNode (.codeUnit u) ∧ i = u.id ∧ k = .file u.path := by
  cases op with
  | upsertNode n =>
    cases n with
    | codeUnit u => exact ⟨u, rfl, h⟩
    | _ => exact h.elim
  | _ => exact h.elim

lemma WriteOp.exists_chunk_of_assigns {op : WriteOp} {i : String} {k : NodeKey} (h : op.Assigns (.chunk i) k) :
    ∃ c, op = .upsertNode (.semanticChunk c) ∧ i = c.id ∧ k = .unit c.unitId := by
  cases op with
  | upsertNode n =>
    cases n with
    | semanticChunk c => exact ⟨c, rfl, h⟩
    | _ => exact h.elim
  | _ => exact h.elim

/-- A write puts an edge of a kind as such. -/
def WriteOp.PutsEdge (kind : EdgeKind) : WriteOp → Prop
  | .upsertEdge e => e.kind = kind
  | _ => False

/-! ### One write -/

/-- What a write does to the marks of a tie: owners come from puts, an owner that was marked stays marked, and a mark
becomes stale only by a put with another owner. -/
structure Tie.Step (t : Tie) (op : WriteOp) (g g' : KnowledgeGraph) : Prop where
  owner : ∀ i k, g'.Refers (t.holder i) k → g.Refers (t.holder i) k ∨ op.Assigns (t.holder i) k
  marked : ∀ i k, (g.Refers (t.holder i) k → t.Marks g i k) → g'.Refers (t.holder i) k → t.Marks g' i k
  stale : ∀ i k, t.Stale g' i k →
    t.Stale g i k ∨ g.Refers (t.holder i) k ∧ ∃ k', k' ≠ k ∧ op.Assigns (t.holder i) k'

namespace Tie.Step

variable {t : Tie} {op : WriteOp} {g g' : KnowledgeGraph} {d : Draft}

/-- Writes that change neither owners nor marks. -/
lemma of_same (howner : ∀ i k, g'.Refers (t.holder i) k ↔ g.Refers (t.holder i) k)
    (hmark : ∀ i k, t.Marks g' i k ↔ t.Marks g i k) : t.Step op g g' where
  owner i k h := .inl ((howner i k).mp h)
  marked i k h h' := (hmark i k).mpr (h ((howner i k).mp h'))
  stale i k h := .inl ⟨(hmark i k).mp h.1, fun hk => h.2 ((howner i k).mpr hk)⟩

/-- Writes that leave units and chunks alone, and the edges that stand for the tie. -/
lemma of_tables (hunits : g'.units = g.units) (hchunks : g'.chunks = g.chunks)
    (hby : g'.unitsByFile = g.unitsByFile)
    (hedge : ∀ e, e.kind = t.kind → (g'.hasEdge e = true ↔ g.hasEdge e = true)) : t.Step op g g' := by
  refine of_same (fun i k => ?_) fun i k => ?_
  · cases t <;> simp only [holder, Refers, hunits, hchunks]
  · cases t with
    | listing => simp only [Marks, hby]
    | containment => exact hedge _ rfl
    | description => exact hedge _ rfl

lemma of_edges (htables : g'.tables = g.tables)
    (hedge : ∀ e, e.kind = t.kind → (g'.hasEdge e = true ↔ g.hasEdge e = true)) : t.Step op g g' :=
  of_tables (congrArg NodeTables.units htables) (congrArg NodeTables.chunks htables)
    (congrArg NodeTables.unitsByFile htables) hedge

/-- A put of a node with its owner, and with the mark for it. -/
lemma of_put (i₀ : String) (k₀ : NodeKey) (hop : op.Assigns (t.holder i₀) k₀)
    (howner : ∀ i k, g'.Refers (t.holder i) k ↔ (i = i₀ ∧ k = k₀) ∨ (i ≠ i₀ ∧ g.Refers (t.holder i) k))
    (hmark : ∀ i k, t.Marks g' i k ↔ (i = i₀ ∧ k = k₀) ∨ t.Marks g i k) : t.Step op g g' where
  owner i k h := by
    rcases (howner i k).mp h with ⟨rfl, rfl⟩ | ⟨-, h⟩
    · exact .inr hop
    · exact .inl h
  marked i k h h' := by
    rcases (howner i k).mp h' with hput | ⟨-, h'⟩
    · exact (hmark i k).mpr (.inl hput)
    · exact (hmark i k).mpr (.inr (h h'))
  stale i k := by
    rintro ⟨hmarks, hnot⟩
    rcases (hmark i k).mp hmarks with hput | hmarks
    · exact absurd ((howner i k).mpr (.inl hput)) hnot
    · by_cases howned : g.Refers (t.holder i) k
      · -- the owner before is lost, so it was this node that was put
        have hi : i = i₀ := by_contra fun hi => hnot ((howner i k).mpr (.inr ⟨hi, howned⟩))
        subst hi
        exact .inr ⟨howned, k₀, fun hk => hnot ((howner i k).mpr (.inl ⟨rfl, hk.symm⟩)), hop⟩
      · exact .inl ⟨hmarks, howned⟩

section

variable {gone : NodeKey → Prop} {i : String} {k : NodeKey}

/-- A node that stays keeps its owner. -/
lemma refers_of_removes (hr : Removes gone g g') :
    g'.Refers (t.holder i) k ↔ g.Refers (t.holder i) k ∧ ¬gone (t.key i) := by
  cases t with
  | listing | containment =>
    simp only [holder, key, Refers, hr.unit]
    exact ⟨fun ⟨u, ⟨hu, hstays⟩, hk⟩ => ⟨⟨u, hu, hk⟩, hstays⟩, fun ⟨⟨u, hu, hk⟩, hstays⟩ => ⟨u, ⟨hu, hstays⟩, hk⟩⟩
  | description =>
    simp only [holder, key, Refers, hr.chunk]
    exact ⟨fun ⟨c, ⟨hc, hstays⟩, hk⟩ => ⟨⟨c, hc, hk⟩, hstays⟩, fun ⟨⟨c, hc, hk⟩, hstays⟩ => ⟨c, ⟨hc, hstays⟩, hk⟩⟩

/-- The mark of the owner of a node that stays is kept, since no owner goes without its nodes. -/
lemma marks_of_stays (hr : Removes gone g g') (hw : GoesWhole gone g) (hstays : ¬gone (t.key i))
    (howned : g.Refers (t.holder i) k) (hmark : t.Marks g i k) : t.Marks g' i k := by
  cases t with
  | listing =>
    obtain ⟨p, hp, hlisted⟩ := hmark
    exact ⟨p, hp, (hr.byFile p i).mpr ⟨hlisted, fun ⟨_, _, _, hgone⟩ => hstays hgone⟩⟩
  | containment =>
    obtain ⟨u, hu, rfl⟩ := howned
    exact (hr.edge _).mpr ⟨hmark, fun hgone => hstays (hw.units i u hu hgone), hstays⟩
  | description =>
    obtain ⟨c, hc, rfl⟩ := howned
    exact (hr.edge _).mpr ⟨hmark, hstays, fun hgone => hstays (hw.chunks i c hc hgone)⟩

/-- A mark that is left was there, and not for the owner of a node that goes. -/
lemma marks_of_removes (hr : Removes gone g g') (hmark : t.Marks g' i k) :
    t.Marks g i k ∧ (g.Refers (t.holder i) k → ¬gone (t.key i)) := by
  cases t with
  | listing =>
    obtain ⟨p, rfl, hlisted⟩ := hmark
    obtain ⟨hlisted, hkept⟩ := (hr.byFile p i).mp hlisted
    refine ⟨⟨p, rfl, hlisted⟩, fun ⟨u, hu, hp⟩ hgone => ?_⟩
    exact hkept ⟨u, hu, (NodeKey.file.inj hp).symm, hgone⟩
  | containment =>
    obtain ⟨hmark, -, hstays⟩ := (hr.edge _).mp hmark
    exact ⟨hmark, fun _ => hstays⟩
  | description =>
    obtain ⟨hmark, hstays, -⟩ := (hr.edge _).mp hmark
    exact ⟨hmark, fun _ => hstays⟩

lemma of_removes (hr : Removes gone g g') (hw : GoesWhole gone g) : t.Step op g g' where
  owner i k h := .inl ((refers_of_removes hr).mp h).1
  marked i k h h' := by
    obtain ⟨howned, hstays⟩ := (refers_of_removes hr).mp h'
    exact marks_of_stays hr hw hstays howned (h howned)
  stale i k := by
    rintro ⟨hmark, hnot⟩
    obtain ⟨hmark, hstays⟩ := marks_of_removes hr hmark
    exact .inl ⟨hmark, fun howned => hnot ((refers_of_removes hr).mpr ⟨howned, hstays howned⟩)⟩

end

open Draft

lemma upsertFile (f : SourceFile) : t.Step op d.graph (d.upsertFile f).graph := by
  have htables := tables_upsertFile (d := d) (f := f)
  simp only [tables, NodeTables.mk.injEq] at htables
  obtain ⟨-, hunits, hchunks, -, -, -, hby, -⟩ := htables
  refine of_tables hunits hchunks hby fun e he => hasEdge_upsertFile_of_ne ?_
  rw [he]
  cases t <;> simp [kind]

lemma upsertUnit (u : CodeUnit) : t.Step (.upsertNode (.codeUnit u)) d.graph (d.upsertUnit u).graph := by
  by_cases hold : d.graph.units[u.id]? = some u
  · rw [upsertUnit_of_eq hold]
    exact of_same (fun _ _ => .rfl) fun _ _ => .rfl
  have htables := tables_upsertUnit hold
  simp only [tables, NodeTables.mk.injEq] at htables
  obtain ⟨-, hunits, hchunks, -, -, -, hby, -⟩ := htables
  have howner : ∀ i k, (d.upsertUnit u).graph.Refers (.unit i) k ↔
      (i = u.id ∧ k = .file u.path) ∨ (i ≠ u.id ∧ d.graph.Refers (.unit i) k) := by
    intro i k
    simp only [Refers, hunits, getElem?_insert_eq_some_iff]
    constructor
    · rintro ⟨v, ⟨rfl, rfl⟩ | ⟨hi, hv⟩, hk⟩
      · exact .inl ⟨rfl, hk⟩
      · exact .inr ⟨hi, v, hv, hk⟩
    · rintro (⟨rfl, hk⟩ | ⟨hi, v, hv, hk⟩)
      · exact ⟨u, .inl ⟨rfl, rfl⟩, hk⟩
      · exact ⟨v, .inr ⟨hi, hv⟩, hk⟩
  cases t with
  | listing =>
    refine of_put u.id (.file u.path) ⟨rfl, rfl⟩ howner fun i k => ?_
    simp only [Marks, hby, hasEntry_addEntry]
    constructor
    · rintro ⟨p, rfl, ⟨rfl, hi⟩ | hlisted⟩
      · exact .inl ⟨hi, rfl⟩
      · exact .inr ⟨p, rfl, hlisted⟩
    · rintro (⟨hi, rfl⟩ | ⟨p, rfl, hlisted⟩)
      · exact ⟨u.path, rfl, .inl ⟨rfl, hi⟩⟩
      · exact ⟨p, rfl, .inr hlisted⟩
  | containment =>
    refine of_put u.id (.file u.path) ⟨rfl, rfl⟩ howner fun i k => ?_
    simp only [Marks, hasEdge_upsertUnit hold, GraphEdge.mk.injEq, NodeKey.unit.injEq, true_and, and_comm]
  | description =>
    refine of_same (fun i k => ?_) fun i k => ?_
    · simp only [holder, Refers, hchunks]
    · simp only [Marks, hasEdge_upsertUnit hold, GraphEdge.mk.injEq, reduceCtorEq, false_and, false_or]

lemma upsertChunk (c : SemanticChunk) :
    t.Step (.upsertNode (.semanticChunk c)) d.graph (d.upsertChunk c).graph := by
  obtain ⟨stored, n, -, hunit, htables⟩ := tables_upsertChunk d c
  simp only [tables, NodeTables.mk.injEq] at htables
  obtain ⟨-, hunits, hchunks, -, -, -, hby, -⟩ := htables
  cases t with
  | listing =>
    refine of_same (fun i k => ?_) fun i k => ?_
    · simp only [holder, Refers, hunits]
    · simp only [Marks, hby]
  | containment =>
    refine of_same (fun i k => ?_) fun i k => ?_
    · simp only [holder, Refers, hunits]
    · simp only [Marks, hasEdge_upsertChunk, GraphEdge.mk.injEq, reduceCtorEq, false_and, false_or]
  | description =>
    refine of_put c.id (.unit c.unitId) ⟨rfl, rfl⟩ (fun i k => ?_) fun i k => ?_
    · simp only [holder, Refers, hchunks, getElem?_insert_eq_some_iff]
      constructor
      · rintro ⟨s, ⟨rfl, rfl⟩ | ⟨hi, hs⟩, hk⟩
        · exact .inl ⟨rfl, hunit ▸ hk⟩
        · exact .inr ⟨hi, s, hs, hk⟩
      · rintro (⟨rfl, hk⟩ | ⟨hi, s, hs, hk⟩)
        · exact ⟨stored, .inl ⟨rfl, rfl⟩, hunit.symm ▸ hk⟩
        · exact ⟨s, .inr ⟨hi, hs⟩, hk⟩
    · simp only [Marks, hasEdge_upsertChunk, GraphEdge.mk.injEq, NodeKey.chunk.injEq, true_and]

lemma upsertNode (n : GraphNode) : t.Step (.upsertNode n) d.graph (d.upsert n).graph := by
  cases n with
  | sourceFile f => exact upsertFile f
  | codeUnit u => exact upsertUnit u
  | semanticChunk c => exact upsertChunk c
  | commit c =>
    obtain ⟨commits, hgraph⟩ := d.exists_graph_upsertCommit c
    rw [Draft.upsert, hgraph]
    exact of_tables rfl rfl rfl fun _ _ => .rfl
  | author a =>
    rw [Draft.upsert, graph_upsertAuthor]
    exact of_tables rfl rfl rfl fun _ _ => .rfl
  | fileRevision r =>
    by_cases hold : d.graph.revisions.contains r.id = true
    · rw [Draft.upsert, upsertRevision_of_contains hold]
      exact of_tables rfl rfl rfl fun _ _ => .rfl
    · have htables := tables_upsertRevision ((Bool.not_eq_true _).mp hold)
      simp only [tables, NodeTables.mk.injEq] at htables
      obtain ⟨-, hunits, hchunks, -, -, -, hby, -⟩ := htables
      refine of_tables hunits hchunks hby fun e he => ?_
      rw [Draft.upsert, hasEdge_upsertRevision ((Bool.not_eq_true _).mp hold)]
      refine or_iff_right ?_
      rintro ⟨-, rfl⟩
      cases t <;> cases he

lemma insertEdge {e : GraphEdge} (he : e.kind ≠ t.kind) : t.Step op d.graph (d.insertEdge e).graph := by
  refine of_edges tables_insertEdge fun e' he' => hasEdge_insertEdge.trans (or_iff_right ?_)
  rintro rfl
  exact he he'

lemma replaceImports (p : String) (ts : List String) : t.Step op d.graph (d.replaceImports p ts).graph := by
  refine of_edges tables_replaceImports fun e he => ?_
  have hkind : e.kind ≠ .imports := by cases t <;> simp [he, Tie.kind]
  simp [hasEdge_replaceImports, hkind]

lemma replaceCalls (p : String) (cs : List (String × String)) : t.Step op d.graph (d.replaceCalls p cs).graph := by
  refine of_edges tables_replaceCalls fun e he => ?_
  have hkind : e.kind ≠ .calls := by cases t <;> simp [he, Tie.kind]
  simp [hasEdge_replaceCalls, hkind]

/-- What every write does to the marks of a tie, unless it puts an edge of the tie as such. -/
lemma applyOp (ht : d.graph.Traced) (hop : ¬op.PutsEdge t.kind) : t.Step op d.graph (d.applyOp op).graph := by
  cases op with
  | upsertNode n => exact upsertNode n
  | upsertEdge e => exact insertEdge hop
  | replaceImports p ts => exact replaceImports p ts
  | replaceCalls p cs => exact replaceCalls p cs
  | clearFile p => exact of_removes (removes_clearFile ht.mirrored p) (goesWhole_contents ht p)
  | removeFile p => exact of_removes (removes_removeFile ht.mirrored p) (goesWhole_file ht p)
  | retainHistory repo revisions =>
    exact of_removes (removes_retainHistory ht.mirrored ht.typed repo _) (goesWhole_history repo _)

end Tie.Step

/-! ### Histories -/

/-- Along a history a node is put with an owner. -/
def Assigned (bs : List WriteBatch) (h : Holder) (k : NodeKey) : Prop := ∃ b ∈ bs, ∃ op ∈ b, op.Assigns h k

/-- Along a history a node is put with an owner, and with another one. -/
def Disputed (bs : List WriteBatch) (h : Holder) (k : NodeKey) : Prop :=
  Assigned bs h k ∧ ∃ k', k' ≠ k ∧ Assigned bs h k'

lemma Assigned.exists_unit {bs : List WriteBatch} {i : String} {k : NodeKey} (h : Assigned bs (.unit i) k) :
    ∃ b ∈ bs, ∃ u, .upsertNode (.codeUnit u) ∈ b ∧ i = u.id ∧ k = .file u.path := by
  obtain ⟨b, hb, op, hop, hassigns⟩ := h
  obtain ⟨u, rfl, hu⟩ := WriteOp.exists_unit_of_assigns hassigns
  exact ⟨b, hb, u, hop, hu⟩

lemma Assigned.exists_chunk {bs : List WriteBatch} {i : String} {k : NodeKey} (h : Assigned bs (.chunk i) k) :
    ∃ b ∈ bs, ∃ c, .upsertNode (.semanticChunk c) ∈ b ∧ i = c.id ∧ k = .unit c.unitId := by
  obtain ⟨b, hb, op, hop, hassigns⟩ := h
  obtain ⟨c, rfl, hc⟩ := WriteOp.exists_chunk_of_assigns hassigns
  exact ⟨b, hb, c, hop, hc⟩

/-- What holds of the owners and marks of a tie after a history: owners are the ones that nodes were put with, they are
marked, and where another mark is left the owner is disputed. -/
structure Tie.Accounts (t : Tie) (bs : List WriteBatch) (g : KnowledgeGraph) : Prop where
  owner : ∀ i k, g.Refers (t.holder i) k → Assigned bs (t.holder i) k
  marked : ∀ i k, g.Refers (t.holder i) k → t.Marks g i k
  stale : ∀ i k, t.Stale g i k → Disputed bs (t.holder i) k

namespace Tie.Accounts

variable {t : Tie} {bs : List WriteBatch} {g g' : KnowledgeGraph} {op : WriteOp}

lemma empty (t : Tie) (bs : List WriteBatch) : t.Accounts bs {} := by
  have howner : ∀ i k, ¬({} : KnowledgeGraph).Refers (t.holder i) k := by cases t <;> simp [holder, Refers]
  have hmark : ∀ i k, ¬t.Marks {} i k := by cases t <;> simp [Marks, hasEdge]
  exact ⟨fun i k h => absurd h (howner i k), fun i k h => absurd h (howner i k), fun i k h => absurd h.1 (hmark i k)⟩

lemma step (h : t.Accounts bs g) (hop : ∃ b ∈ bs, op ∈ b) (hstep : t.Step op g g') : t.Accounts bs g' := by
  have hput : ∀ {holder k}, op.Assigns holder k → Assigned bs holder k := by
    intro holder k hassigns
    obtain ⟨b, hb, hop⟩ := hop
    exact ⟨b, hb, op, hop, hassigns⟩
  constructor
  case owner =>
    intro i k hk
    rcases hstep.owner i k hk with hk | hk
    · exact h.owner i k hk
    · exact hput hk
  case marked => exact fun i k hk => hstep.marked i k (h.marked i k) hk
  case stale =>
    intro i k hk
    rcases hstep.stale i k hk with hk | ⟨hk, k', hne, hk'⟩
    · exact h.stale i k hk
    · exact ⟨h.owner i k hk, k', hne, hput hk'⟩

/-- A mark leads from the owner if it does wherever the owner is disputed. -/
lemma marks_iff (h : t.Accounts bs g) {i : String} {k : NodeKey}
    (hk : Disputed bs (t.holder i) k → t.Marks g i k → g.Refers (t.holder i) k) :
    t.Marks g i k ↔ g.Refers (t.holder i) k := by
  refine ⟨fun hmark => by_contra fun hnot => ?_, h.marked i k⟩
  exact hnot (hk (h.stale i k ⟨hmark, hnot⟩) hmark)

end Tie.Accounts

/-- The owners and marks after a history of admitted batches. -/
theorem Tie.accounts_applyAll (t : Tie) {s₀ s : GraphStore} {bs : List WriteBatch} (h₀ : s₀.graph = {})
    (hbs : ∀ b ∈ bs, ∀ op ∈ b, ¬op.PutsEdge t.kind) (h : s₀.applyAll bs = .ok s) : t.Accounts bs s.graph := by
  have hboth : s.graph.Traced ∧ t.Accounts bs s.graph := by
    refine Reachable.invariant_applyAll (P := fun g => g.Traced ∧ t.Accounts bs g) ?_ (h₀ ▸ wellFormed_empty)
      (h₀ ▸ ⟨traced_empty, .empty t bs⟩) h
    rintro d b hb op hop - hregular ⟨ht, hd⟩
    exact ⟨(Draft.careful_applyOp ht hregular.typed).traced,
      hd.step ⟨b, hb, hop⟩ (.applyOp ht (hbs b hb op hop))⟩
  exact hboth.2

end RepoAtlas
