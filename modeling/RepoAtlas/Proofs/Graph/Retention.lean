import RepoAtlas.Proofs.Graph.Reachability

/-!
# Forgetting history

A repository forgets its commits other than some that it keeps. The revisions and the commits go first, with
their edges, and only then are the authors looked at: those without an incoming edge go too. Who they are depends
on the edges that are left, so it is stated of the graph after the write; no edge goes because of them.
-/

namespace RepoAtlas

open KnowledgeGraph

namespace Draft

variable {d : Draft} {g : KnowledgeGraph} {repo : String} {keep : Std.ExtTreeSet String}

/-- The commits of a repository that are not kept, and what these did to files. -/
def Dropped (g : KnowledgeGraph) (repo : String) (keep : Std.ExtTreeSet String) : NodeKey → Prop
  | .commit c => Doomed g repo keep c
  | .revision r => g.contains (.revision r) = true ∧ Doomed g repo keep r.commit
  | _ => False

/-- An author of a repository to whom no edge of a later graph leads. -/
def LeftIdle (g g' : KnowledgeGraph) (repo : String) : NodeKey → Prop
  | .author a => g.contains (.author a) = true ∧ a.repo = repo ∧
      ∀ e, g'.hasEdge e = true → e.target ≠ .author a
  | _ => False

/-- If every commit of the repository is kept, nothing is written at all. -/
lemma retainHistory_of_kept (hkept : ∀ c, ¬Doomed d.graph repo keep c) : d.retainHistory repo keep = d := by
  have hnone : d.graph.doomedCommits repo keep = [] :=
    List.eq_nil_iff_forall_not_mem.mpr fun c hc => hkept c (mem_doomedCommits.mp hc)
  simp only [retainHistory, hnone, List.isEmpty_nil, if_true]

/-- An edge goes with a commit or a revision, never with an author alone: an author goes only after the commits
that lead to it. -/
lemma not_goneWithHistory_ends (ht : g.Typed) {e : GraphEdge} (he : g.hasEdge e = true) :
    (¬GoneWithHistory g repo keep e.source ∧ ¬GoneWithHistory g repo keep e.target) ↔
      ¬Dropped g repo keep e.source ∧ ¬Dropped g repo keep e.target := by
  have hsource : GoneWithHistory g repo keep e.source ↔ Dropped g repo keep e.source := by
    cases hs : e.source with
    | author a => exact absurd hs (source_ne_author ht he a)
    | _ => exact Iff.rfl
  rw [hsource]
  refine and_congr_right fun hkept => not_congr ?_
  cases hta : e.target with
  | author a =>
    refine iff_of_false ?_ id
    rintro ⟨-, -, -, hall⟩
    obtain ⟨c, hc, hdoomed⟩ := hall e he hta
    rw [hc] at hkept
    exact hkept hdoomed
  | _ => exact Iff.rfl

/-- The edges that are left are those without a record that goes. -/
lemma hasEdge_retainHistory (hm : d.graph.Mirrored) (ht : d.graph.Typed) {e : GraphEdge} :
    (d.retainHistory repo keep).graph.hasEdge e = true ↔
      d.graph.hasEdge e = true ∧ ¬Dropped d.graph repo keep e.source ∧ ¬Dropped d.graph repo keep e.target := by
  rw [(removes_retainHistory hm ht repo keep).edge]
  exact and_congr_right (not_goneWithHistory_ends ht)

/-- All edges to an author come from doomed commits if and only if none of them is left. -/
lemma goneWithHistory_author (hm : d.graph.Mirrored) (ht : d.graph.Typed) {a : AuthorId} :
    GoneWithHistory d.graph repo keep (.author a) ↔ (∃ c, Doomed d.graph repo keep c) ∧
      LeftIdle d.graph (d.retainHistory repo keep).graph repo (.author a) := by
  have hidle : (∀ e, (d.retainHistory repo keep).graph.hasEdge e = true → e.target ≠ .author a) ↔
      ∀ e, d.graph.hasEdge e = true → e.target = .author a →
        ∃ c, e.source = .commit c ∧ Doomed d.graph repo keep c := by
    constructor
    · intro hfree e he hta
      obtain ⟨c, hc⟩ := source_of_target_author ht he hta
      refine ⟨c, hc, by_contra fun hkept => ?_⟩
      refine hfree e ((hasEdge_retainHistory hm ht).mpr ⟨he, ?_, ?_⟩) hta
      · rwa [hc]
      · rw [hta]
        exact id
    · intro hall e he hta
      obtain ⟨hold, hkept, -⟩ := (hasEdge_retainHistory hm ht).mp he
      obtain ⟨c, hc, hdoomed⟩ := hall e hold hta
      rw [hc] at hkept
      exact hkept hdoomed
  simp only [GoneWithHistory, LeftIdle, hidle, KnowledgeGraph.contains]
  tauto

/-- What goes with the history, read off the graph after the write. -/
lemma goneWithHistory_iff (hm : d.graph.Mirrored) (ht : d.graph.Typed) (k : NodeKey) :
    GoneWithHistory d.graph repo keep k ↔ Dropped d.graph repo keep k ∨
      (∃ c, Doomed d.graph repo keep c) ∧ LeftIdle d.graph (d.retainHistory repo keep).graph repo k := by
  cases k with
  | author a =>
    rw [goneWithHistory_author hm ht]
    simp [Dropped]
  | _ => simp [GoneWithHistory, Dropped, LeftIdle, KnowledgeGraph.contains]

end Draft

open Draft

/-- A repository that keeps some revisions loses exactly its other commits, what these did to files, and, if there
is such a commit, its authors to whom no edge leads any more. The edges that go are exactly those of the commits and
revisions that go. If every commit is kept, nothing changes. -/
theorem KnowledgeGraph.Reachable.retention_exact {d : Draft} (hg : d.graph.Reachable) (repo : String)
    (keep : Std.ExtTreeSet String) :
    Removes (fun k => Dropped d.graph repo keep k ∨
        (∃ c, Doomed d.graph repo keep c) ∧ LeftIdle d.graph (d.retainHistory repo keep).graph repo k)
      d.graph (d.retainHistory repo keep).graph ∧
    (∀ e, (d.retainHistory repo keep).graph.hasEdge e = true ↔
      d.graph.hasEdge e = true ∧ ¬Dropped d.graph repo keep e.source ∧ ¬Dropped d.graph repo keep e.target) ∧
    ((∀ c, ¬Doomed d.graph repo keep c) → d.retainHistory repo keep = d) := by
  obtain ⟨hm, ht⟩ : d.graph.Mirrored ∧ d.graph.Typed :=
    ⟨hg.wellFormed.adjacent.mirrored, hg.wellFormed.adjacent.typed⟩
  exact ⟨(removes_retainHistory hm ht repo keep).congr (goneWithHistory_iff hm ht),
    fun _ => hasEdge_retainHistory hm ht, retainHistory_of_kept⟩

namespace GraphStore

/-- Two commits of a repository, each with its author; the first one added a file. -/
def twoCommits : WriteBatch :=
  [.upsertNode (.author ⟨"r", "e", "n"⟩), .upsertNode (.author ⟨"r", "f", "m"⟩),
    .upsertNode (.commit ⟨"r", "1", [], "e", default, default, "s", ""⟩),
    .upsertNode (.commit ⟨"r", "2", [], "f", default, default, "s", ""⟩),
    .upsertEdge ⟨.authoredBy, .commit ⟨"r", "1"⟩, .author ⟨"r", "e"⟩⟩,
    .upsertEdge ⟨.authoredBy, .commit ⟨"r", "2"⟩, .author ⟨"r", "f"⟩⟩,
    .upsertNode (.fileRevision ⟨"r", "1", "a.py", .added, none, 1, 0⟩)]

/-- The second commit is kept, so the first one goes with its revision, and its author is left idle. -/
theorem retention_exact_twoCommits : ∃ s, ({} : GraphStore).applyAll [twoCommits] = .ok s ∧
    Removes (fun k => Dropped s.graph "r" {"2"} k ∨ (∃ c, Doomed s.graph "r" {"2"} c) ∧
        LeftIdle s.graph (({ graph := s.graph } : Draft).applyOp (.retainHistory "r" ["2"])).graph "r" k)
      s.graph (({ graph := s.graph } : Draft).applyOp (.retainHistory "r" ["2"])).graph ∧
    Doomed s.graph "r" {"2"} ⟨"r", "1"⟩ ∧ ¬Doomed s.graph "r" {"2"} ⟨"r", "2"⟩ := by
  obtain ⟨s, hrun, hstored⟩ : ∃ s, ({} : GraphStore).applyAll [twoCommits] = .ok s ∧
      s.graph.commits.contains ⟨"r", "1"⟩ = true := exists_applyAll_of_map (by decide)
  have hreachable : s.graph.Reachable := .applyAll .empty hrun
  obtain ⟨hforgotten, -⟩ := hreachable.retention_exact (d := { graph := s.graph }) "r" {"2"}
  exact ⟨s, hrun, hforgotten, ⟨hstored, rfl, by decide⟩, fun h => absurd h.2.2 (by decide)⟩

end GraphStore

end RepoAtlas
