import RepoAtlas.Proofs.Engine.Acceptance
import RepoAtlas.Proofs.History.Reading
import RepoAtlas.Proofs.History.Resuming

/-!
# Which commits can be recorded

The batch of a commit puts its author, then the commit, then what it did to each file, so that each edge finds
the nodes that it connects, in every graph. What is left are the nodes themselves. Reading what Git prints puts
emails in normal form and paths in slashes, and no path has a backslash then. Only emails that are blank, and paths
that are blank or absolute, are refused.
-/

namespace RepoAtlas

namespace Overlay

variable {dims : Option Nat} {o : Overlay} {repo : String} {r : CommitRecord} {known : List String}

lemma nodeFlaw?_author {a : Author} : o.nodeFlaw? dims (.author a) = none ↔
    Text.isBlankText a.repo = false ∧ Text.isBlankText a.email = false ∧ a.email = normalizeEmail a.email := by
  simp [nodeFlaw?, GraphNode.flaw?, GraphNode.firstFlaw_eq_none_iff, GraphNode.blankFlaw?_eq_none_iff]

lemma nodeFlaw?_commit {c : Commit} : o.nodeFlaw? dims (.commit c) = none ↔
    Text.isBlankText c.repo = false ∧ Text.isBlankText c.revision = false ∧
      Text.isBlankText c.authorEmail = false := by
  simp [nodeFlaw?, GraphNode.flaw?, GraphNode.firstFlaw_eq_none_iff, GraphNode.blankFlaw?_eq_none_iff]

lemma nodeFlaw?_fileRevision {r : FileRevision} : o.nodeFlaw? dims (.fileRevision r) = none ↔
    Text.isBlankText r.repo = false ∧ Text.isBlankText r.revision = false ∧
      GraphNode.pathFlaw? r.path = none := by
  simp [nodeFlaw?, GraphNode.flaw?, GraphNode.firstFlaw_eq_none_iff, GraphNode.blankFlaw?_eq_none_iff]

lemma flaw?_upsertNode {n : GraphNode} : o.flaw? dims (.upsertNode n) = o.nodeFlaw? dims n := rfl

/-- An edge that connects nodes of its kinds fits where both exist. -/
lemma flaw?_upsertEdge {e : GraphEdge} (he : e.flaw? = none) : o.flaw? dims (.upsertEdge e) = none ↔
    o.exists? e.source = true ∧ o.exists? e.target = true := by
  simp [flaw?, he, missing?_eq_none_iff]

/-- Edges change nothing that the check looks at. -/
lemma foldl_after_edges {α : Type} {edge : α → GraphEdge} {l : List α} :
    (l.map fun a => .upsertEdge (edge a)).foldl after o = o := by
  induction l with
  | nil => rfl
  | cons a l ih => exact ih

lemma batchFlaw?_edges {α : Type} {edge : α → GraphEdge} {l : List α}
    (hl : ∀ a ∈ l, o.flaw? dims (.upsertEdge (edge a)) = none) :
    batchFlaw? dims o (l.map fun a => .upsertEdge (edge a)) = none := by
  induction l with
  | nil => rfl
  | cons a l ih =>
    rw [List.map_cons, batchFlaw?, hl a List.mem_cons_self]
    exact ih fun b hb => hl b (List.mem_cons_of_mem a hb)

/-- The changes of a commit that exists fit if their revisions do. -/
lemma batchFlaw?_changes {cs : List FileChange} (hcommit : o.exists? (.commit ⟨repo, r.revision⟩) = true) :
    batchFlaw? dims o (cs.flatMap fun c => [.upsertNode (.fileRevision (r.toRevision repo c)),
        .upsertEdge ⟨.touches, .commit ⟨repo, r.revision⟩, .revision ⟨repo, r.revision, c.path⟩⟩]) = none ↔
      ∀ c ∈ cs, Text.isBlankText repo = false ∧ Text.isBlankText r.revision = false ∧
        GraphNode.pathFlaw? c.path = none := by
  induction cs generalizing o with
  | nil => simp [batchFlaw?]
  | cons c cs ih =>
    have hafter : (o.after (.upsertNode (.fileRevision (r.toRevision repo c)))).exists?
        (.commit ⟨repo, r.revision⟩) = true := exists?_after_upsert.mpr (Or.inr hcommit)
    have hedge : (o.after (.upsertNode (.fileRevision (r.toRevision repo c)))).flaw? dims
        (.upsertEdge ⟨.touches, .commit ⟨repo, r.revision⟩, .revision ⟨repo, r.revision, c.path⟩⟩) = none :=
      (flaw?_upsertEdge rfl).mpr ⟨hafter, exists?_after_upsert.mpr (Or.inl rfl)⟩
    rw [List.flatMap_cons, List.forall_mem_cons, batchFlaw?_append, ← ih hafter]
    simp only [batchFlaw?, hedge, Option.or_eq_none_iff, and_true, flaw?_upsertNode, nodeFlaw?_fileRevision]
    rfl

/-- What the first writes of a commit's batch put: its author, the commit, and the edge between them. -/
def firstWrites (r : CommitRecord) (repo : String) : WriteBatch :=
  [.upsertNode (.author (r.toAuthor repo)), .upsertNode (.commit (r.toCommit repo)),
    .upsertEdge ⟨.authoredBy, .commit ⟨repo, r.revision⟩, .author ⟨repo, r.authorEmail⟩⟩]

lemma exists?_after_firstWrites {k : NodeKey} : ((firstWrites r repo).foldl after o).exists? k = true ↔
    k = .commit ⟨repo, r.revision⟩ ∨ k = .author ⟨repo, r.authorEmail⟩ ∨ o.exists? k = true :=
  exists?_after_upsert.trans (or_congr_right exists?_after_upsert)

lemma batchFlaw?_firstWrites : batchFlaw? dims o (firstWrites r repo) = none ↔
    (Text.isBlankText repo = false ∧ Text.isBlankText r.authorEmail = false ∧
      r.authorEmail = normalizeEmail r.authorEmail) ∧
    Text.isBlankText repo = false ∧ Text.isBlankText r.revision = false ∧
      Text.isBlankText r.authorEmail = false := by
  have hedge : ((o.after (.upsertNode (.author (r.toAuthor repo)))).after
      (.upsertNode (.commit (r.toCommit repo)))).flaw? dims
        (.upsertEdge ⟨.authoredBy, .commit ⟨repo, r.revision⟩, .author ⟨repo, r.authorEmail⟩⟩) = none :=
    (flaw?_upsertEdge rfl).mpr
      ⟨exists?_after_firstWrites.mpr (Or.inl rfl), exists?_after_firstWrites.mpr (Or.inr (Or.inl rfl))⟩
  simp only [firstWrites, batchFlaw?, hedge, Option.or_eq_none_iff, and_true, flaw?_upsertNode, nodeFlaw?_author,
    nodeFlaw?_commit]
  rfl

/-- Each edge of the batch finds the nodes that it connects, so that only flaws of the nodes themselves count. -/
lemma batchFlaw?_record (hknown : ∀ p ∈ known, o.exists? (.commit ⟨repo, p⟩) = true)
    (hrepo : Text.isBlankText repo = false) (hrevision : Text.isBlankText r.revision = false)
    (hnormal : normalizeEmail r.authorEmail = r.authorEmail) :
    batchFlaw? dims o (r.batch repo known) = none ↔
      Text.isBlankText r.authorEmail = false ∧ ∀ c ∈ r.changes, GraphNode.pathFlaw? c.path = none := by
  have hcommit : ((firstWrites r repo).foldl after o).exists? (.commit ⟨repo, r.revision⟩) = true :=
    exists?_after_firstWrites.mpr (Or.inl rfl)
  have hparents : batchFlaw? dims ((firstWrites r repo).foldl after o)
      (known.map fun p => .upsertEdge ⟨.parent, .commit ⟨repo, r.revision⟩, .commit ⟨repo, p⟩⟩) = none :=
    batchFlaw?_edges fun p hp => (flaw?_upsertEdge rfl).mpr
      ⟨hcommit, exists?_after_firstWrites.mpr (Or.inr (Or.inr (hknown p hp)))⟩
  have hsplit : r.batch repo known = firstWrites r repo ++
      (known.map fun p => .upsertEdge ⟨.parent, .commit ⟨repo, r.revision⟩, .commit ⟨repo, p⟩⟩) ++
      r.changes.flatMap fun c => [.upsertNode (.fileRevision (r.toRevision repo c)),
        .upsertEdge ⟨.touches, .commit ⟨repo, r.revision⟩, .revision ⟨repo, r.revision, c.path⟩⟩] := rfl
  rw [hsplit, batchFlaw?_append, batchFlaw?_append, List.foldl_append, foldl_after_edges,
    batchFlaw?_changes hcommit, batchFlaw?_firstWrites]
  simp [hparents, hrepo, hrevision, hnormal]

end Overlay

/-! ### What is read -/

namespace Git

variable {output nameStatus numstat path : String} {r : CommitRecord} {rows : List StatusRow}
  {counts : List LineCounts} {c : FileChange}

/-- Emails are read in normal form. -/
lemma normalizeEmail_of_parseMetadata (h : parseMetadata output = .ok r) :
    normalizeEmail r.authorEmail = r.authorEmail := by
  unfold parseMetadata at h
  split at h
  · rename_i revision parents name email authored committed message hfields
    cases hauthored : parseTimestamp authored with
    | error e => simp [hauthored, bind, Except.bind] at h
    | ok authoredAt =>
      cases hcommitted : parseTimestamp committed with
      | error e => simp [hauthored, hcommitted, bind, Except.bind] at h
      | ok committedAt =>
        simp only [hauthored, hcommitted, bind, Except.bind, pure, Except.pure, Except.ok.injEq] at h
        subst h
        exact normalizeEmail_again email
  · cases h

/-- Paths are read with slashes. -/
lemma not_mem_slashed : '\\' ∉ (slashed path).toList := by
  rw [toList_slashed, List.mem_map]
  rintro ⟨a, -, ha⟩
  split at ha
  · cases ha
  · exact absurd ha.symm ‹_›

lemma exists_slashed_of_mem_parseNameStatus {row : StatusRow} (h : row ∈ parseNameStatus output) :
    ∃ path, row.path = slashed path := by
  obtain ⟨parts, -, h⟩ := List.mem_filterMap.mp h
  split at h
  · rw [Option.ite_none_left_eq_some, Option.some.injEq] at h
    exact ⟨_, (congrArg StatusRow.path h.2).symm⟩
  · cases h

lemma exists_slashed_of_mem_parseNumstat : ∀ k ∈ parseNumstat output, ∃ path, k.path = slashed path := by
  refine List.foldlRecOn (motive := fun l => ∀ k ∈ l, ∃ path, LineCounts.path k = slashed path) (Git.rows output) _
    (fun k hk => absurd hk List.not_mem_nil) fun l hl parts _ => ?_
  split
  · dsimp only
    split
    · exact hl
    · intro k hk
      rw [putCounts, List.mem_append, List.mem_singleton] at hk
      obtain hk | rfl := hk
      · exact hl k (List.mem_filter.mp hk).1
      · exact ⟨_, rfl⟩
  · exact hl

/-- A joined change is one that was read, or its path was read with line counts. -/
lemma path_of_mem_mergeChanges (h : c ∈ mergeChanges rows counts) :
    (∃ row ∈ rows, c.path = row.path) ∨ ∃ k ∈ counts, c.path = k.path := by
  induction rows generalizing counts with
  | nil =>
    obtain ⟨k, hk, rfl⟩ := List.mem_map.mp h
    exact Or.inr ⟨k, List.mem_mergeSort.mp hk, rfl⟩
  | cons row rows ih =>
    rcases List.mem_cons.mp h with rfl | h
    · exact Or.inl ⟨row, List.mem_cons_self, rfl⟩
    · obtain ⟨row', hrow, hpath⟩ | ⟨k, hk, hpath⟩ := ih h
      · exact Or.inl ⟨row', List.mem_cons_of_mem row hrow, hpath⟩
      · exact Or.inr ⟨k, (List.mem_filter.mp hk).1, hpath⟩

/-- No change that is read has a backslash in its path, so that the path fits unless it is blank or absolute. -/
lemma pathFlaw?_of_mem_mergeChanges (h : c ∈ mergeChanges (parseNameStatus nameStatus) (parseNumstat numstat)) :
    GraphNode.pathFlaw? c.path = none ↔
      Text.isBlankText c.path = false ∧ Paths.isAbsolute c.path = false := by
  have hslashed : ∃ path, c.path = slashed path := by
    obtain ⟨row, hrow, hpath⟩ | ⟨k, hk, hpath⟩ := path_of_mem_mergeChanges h
    · exact hpath ▸ exists_slashed_of_mem_parseNameStatus hrow
    · exact hpath ▸ exists_slashed_of_mem_parseNumstat k hk
  obtain ⟨path, hpath⟩ := hslashed
  rw [GraphNode.pathFlaw?_eq_none_iff, hpath, Paths.isAbsolute]
  simp [not_mem_slashed]

end Git

/-! ### Recording what is read -/

namespace HistorySync

open Git

variable {repo metadata nameStatus numstat : String} {r : CommitRecord} {changes : List FileChange} {w : World}

/-- A commit that is read is recorded by a batch which is accepted, whatever the graph holds, exactly if the author's
email is not blank and each path is relative to the repository. -/
theorem read_accepted_iff (hw : w.guarded = false) (hrepo : Text.isBlankText repo = false)
    (hread : parseMetadata metadata = .ok r) (hrevision : Text.isBlankText r.revision = false)
    (hchanges : mergeChanges (parseNameStatus nameStatus) (parseNumstat numstat) = changes) :
    ∃ known, knownParents repo r.parents w = (.ok known, w) ∧
      ((∃ s' summary, w.store.apply ({ r with changes }.batch repo known) = .ok (s', summary)) ↔
        Text.isBlankText r.authorEmail = false ∧
          ∀ c ∈ changes, Text.isBlankText c.path = false ∧ Paths.isAbsolute c.path = false) := by
  obtain ⟨known, hknown⟩ := knownParents_of_unguarded hw r.parents
  refine ⟨known, hknown, ?_⟩
  have hheld : ∀ p ∈ known, (⟨w.store.graph, ∅, ∅, ∅⟩ : Overlay).exists? (.commit ⟨repo, p⟩) = true := by
    intro p hp
    rw [(knownParents_ok hknown).1, List.mem_filter] at hp
    simpa [Overlay.exists?, KnowledgeGraph.contains] using hp.2
  rw [GraphStore.exists_apply_iff (by simp [CommitRecord.batch]), KnowledgeGraph.batchFlaw?]
  have hnormal : normalizeEmail r.authorEmail = r.authorEmail := normalizeEmail_of_parseMetadata hread
  refine (Overlay.batchFlaw?_record (r := { r with changes }) hheld hrepo hrevision hnormal).trans ?_
  exact and_congr_right fun _ => forall₂_congr fun c hc => pathFlaw?_of_mem_mergeChanges (hchanges ▸ hc)

/-- What is printed for a commit whose author has some email. -/
def metadataOf (email : String) : String :=
  "r1\x1f\x1fAda\x1f" ++ email ++ "\x1f2024-03-01T09:00:00Z\x1f2024-03-01T09:00:00Z\x1ffirst"

/-- The commit that is read from it, which adds a file. -/
def recordOf (email : String) : CommitRecord :=
  ⟨"r1", [], "Ada", email, ⟨1709283600, 0⟩, ⟨1709283600, 0⟩, "first", "", []⟩

/-- The file that the commit adds. -/
def addition : FileChange := ⟨"a.py", none, .added, 1, 0⟩

theorem read_accepted_iff_ada :
    parseMetadata (metadataOf "Ada@x.io") = .ok (recordOf "ada@x.io") ∧
      mergeChanges (parseNameStatus "A\ta.py\n") (parseNumstat "1\t0\ta.py\n") = [addition] ∧
      ∃ known, knownParents "/repo" [] (onBranch "1") = (.ok known, onBranch "1") ∧
        ∃ s' summary, (onBranch "1").store.apply
          ({ recordOf "ada@x.io" with changes := [addition] }.batch "/repo" known) = .ok (s', summary) := by
  have hread : parseMetadata (metadataOf "Ada@x.io") = .ok (recordOf "ada@x.io") := by decide +kernel
  have hchanges : mergeChanges (parseNameStatus "A\ta.py\n") (parseNumstat "1\t0\ta.py\n") = [addition] := by
    decide +kernel
  have hrepo : Text.isBlankText "/repo" = false := by decide
  obtain ⟨known, hknown, hiff⟩ :=
    read_accepted_iff (w := onBranch "1") rfl hrepo hread (by decide) hchanges
  exact ⟨hread, hchanges, known, hknown, hiff.mpr ⟨by decide, by decide⟩⟩

/-- An author without an email is read, and the commit is refused. -/
theorem read_refused_blankEmail :
    Text.isBlankText "/repo" = false ∧ parseMetadata (metadataOf "") = .ok (recordOf "") ∧
      Text.isBlankText (recordOf "").revision = false ∧
      mergeChanges (parseNameStatus "A\ta.py\n") (parseNumstat "1\t0\ta.py\n") = [addition] ∧
      Text.isBlankText addition.path = false ∧ Paths.isAbsolute addition.path = false ∧
      KnowledgeGraph.Reachable {} ∧
      knownParents "/repo" (recordOf "").parents (onBranch "1") = (.ok [], onBranch "1") ∧
      ¬∃ s' summary, (onBranch "1").store.apply
        ({ recordOf "" with changes := [addition] }.batch "/repo" []) = .ok (s', summary) := by
  refine ⟨by decide +kernel, by decide +kernel, by decide +kernel, by decide +kernel, by decide +kernel,
    by decide, .empty, rfl, fun h => ?_⟩
  rw [GraphStore.exists_apply_iff (by simp [CommitRecord.batch]), KnowledgeGraph.batchFlaw?] at h
  have hemail := ((Overlay.batchFlaw?_record (by simp) (by decide) (by decide)
    (by decide)).mp h).1
  exact absurd hemail (by decide)

/-! ### Authors that are read -/

/-- An author whose email is in normal form and not blank has no other flaw than a repository without an id. -/
lemma flaw?_toAuthor (hnormal : normalizeEmail r.authorEmail = r.authorEmail)
    (hblank : Text.isBlankText r.authorEmail = false) :
    (GraphNode.author (r.toAuthor repo)).flaw? = GraphNode.blankFlaw? "repo id" repo := by
  have hemail : GraphNode.blankFlaw? "email" r.authorEmail = none := GraphNode.blankFlaw?_eq_none_iff.mpr hblank
  refine GraphNode.firstFlaw_cons_of_none (List.forall_mem_cons.mpr ⟨hemail, List.forall_mem_singleton.mpr ?_⟩)
  have hform : (r.authorEmail != normalizeEmail r.authorEmail) = false := by rw [hnormal, bne_self_eq_false]
  exact if_neg (ne_true_of_eq_false hform)

/-- Emails are put into a normal form, which stays as it is. So each author that is read from Git with an email that is
not blank passes the check of authors, in every repository that has an id. -/
theorem authorEmail_normalForm :
    (∀ email, normalizeEmail (normalizeEmail email) = normalizeEmail email) ∧
    (∀ email, normalizeEmail email = email ↔ Text.Tight email.toList ∧ ∀ c ∈ email.toList, Text.Lowered c) ∧
    ∀ output r, parseMetadata output = .ok r → r.authorEmail = normalizeEmail r.authorEmail ∧
      (Text.isBlankText r.authorEmail = false →
        ∀ repo, (GraphNode.author (r.toAuthor repo)).flaw? = GraphNode.blankFlaw? "repo id" repo) := by
  refine ⟨normalizeEmail_again, fun email => normalizeEmail_eq_self_iff, fun output r hread => ?_⟩
  have hnormal := normalizeEmail_of_parseMetadata hread
  exact ⟨hnormal.symm, fun hblank repo => flaw?_toAuthor hnormal hblank⟩

/-- Two characters come of the first one, and the sigma ends a word; neither changes again. -/
theorem authorEmail_normalForm_sigma :
    parseMetadata (metadataOf "\tİΑΣ@X.IO ") = .ok (recordOf "i\u0307ας@x.io") ∧
      normalizeEmail "i\u0307ας@x.io" = "i\u0307ας@x.io" ∧
      (GraphNode.author ((recordOf "i\u0307ας@x.io").toAuthor "/repo")).flaw? = none := by
  have hread : parseMetadata (metadataOf "\tİΑΣ@X.IO ") = .ok (recordOf "i\u0307ας@x.io") := by decide +kernel
  obtain ⟨-, -, hauthors⟩ := authorEmail_normalForm
  obtain ⟨hnormal, hflaw⟩ := hauthors _ _ hread
  exact ⟨hread, hnormal.symm, (hflaw (by decide) "/repo").trans (by decide)⟩

end HistorySync

end RepoAtlas
