import RepoAtlas.Proofs.Graph.Changes
import RepoAtlas.Proofs.Graph.Snapshots
import RepoAtlas.Proofs.Json.Reading
import RepoAtlas.Proofs.Scan.Parts
import RepoAtlas.Proofs.Text.Bytes

/-!
# Durability

A commit that succeeds may have written nothing, on the strength of a mark that says whether the graph
changed since it was saved. So what makes a commit durable is an invariant of the store together with its
disk: the file holds the document of a well-formed graph, and as long as the mark is not set, loading that
document restores the graph in memory. Batches that report no change and saves that fail keep it too.
-/

namespace RepoAtlas

/-! ### Files that are replaced -/

namespace FileTree

variable {t t' : FileTree} {path dir : String} {content : Bytes}

/-- A file that is written beside a place is another one. -/
lemma beside_ne {beside : String} (h : Paths.withExtension? path "json.tmp" = some beside) : beside ≠ path :=
  Paths.withExtension?_ne (by decide) h

/-- A write that goes through puts the content at its path. -/
lemma write_ok (h : t.write path content = .ok t') : t' = { t with files := t.files.insert path content } := by
  simp only [write] at h
  split at h
  · cases h
  · split at h
    · cases h
    · split at h <;> cases h
      rfl

lemma read?_write (h : t.write path content = .ok t') {p : String} :
    t'.read? p = if path = p then some content else t.read? p := by
  rw [write_ok h]
  simp only [read?, Std.ExtTreeMap.getElem?_insert, Std.LawfulEqCmp.compare_eq_iff_eq]

/-- Directories that exist stay; otherwise all that are missing are created. -/
lemma createDirectories_ok (h : t.createDirectories path = .ok t') :
    t' = t ∨ t' = { t with dirs := (directoriesAbove path ++ [path]).foldl (·.insert ·) t.dirs } := by
  simp only [createDirectories] at h
  split at h
  · cases h
    exact Or.inl rfl
  · split at h
    · cases h
    · split at h <;> cases h
      exact Or.inr rfl

/-- Creating directories touches no file. -/
lemma files_createDirectories (h : t.createDirectories path = .ok t') : t'.files = t.files := by
  rcases createDirectories_ok h with rfl | rfl <;> rfl

lemma read?_rename {source target : String} (h : t.rename source target = .ok t')
    (hsource : t.read? source = some content) : t'.read? target = some content := by
  simp only [rename, read, show t.files[source]? = some content from hsource, bind, Except.bind] at h
  rw [read?_write h, if_pos rfl]

/-- A file that is replaced has its new content. -/
lemma read?_of_replace (h : t.replace path content = (t', none)) : t'.read? path = some content := by
  simp only [replace] at h
  split at h
  · cases h
  split at h
  · cases h
  · rename_i t₁ hwrite
    split at h
    · cases h
    · rename_i t₂ hrename
      cases h
      exact read?_rename hrename (by rw [read?_write hwrite, if_pos rfl])

/-- A file whose replacement fails, when it is written or when it is renamed, is as it was. -/
lemma read?_of_replace_error {e : FileError} (h : t.replace path content = (t', some e)) :
    t'.read? path = t.read? path := by
  simp only [replace] at h
  split at h
  · cases h
    rfl
  rename_i beside hbeside
  split at h
  · cases h
    rfl
  · rename_i t₁ hwrite
    split at h
    · cases h
      rw [read?_write hwrite, if_neg (beside_ne hbeside)]
    · cases h

end FileTree

/-! ### Documents -/

/-- A document is read back as what was written. -/
def GraphSnapshot.Decodes (s : GraphSnapshot) : Prop :=
  (Json.parse? (toJson s).compact >>= (ofJson? · : Json → Option GraphSnapshot)) = some s

/-- A document that is encoded without loss is read back if its text is. -/
lemma GraphSnapshot.Decodes.of_isExact {s : GraphSnapshot} (hexact : Json.isExact Json.maxDepth (toJson s) = true)
    (hof : ofJson? (toJson s) = some s) : s.Decodes := by
  rw [Decodes, Json.parse?_compact hexact, Option.bind_eq_bind, Option.bind_some, hof]

/-- A number that was read fits in a 64-bit word. -/
lemma lt_of_ofJson? {j : Json} {n : Nat} (h : ofJson? j = some n) : n < UInt64.size := by
  simp only [ofJson?, Option.map_eq_some_iff] at h
  obtain ⟨i, hi, rfl⟩ := h
  cases j with
  | int k =>
    simp only [Json.intWithin?, Bool.and_eq_true, decide_eq_true_eq, Option.ite_none_right_eq_some,
      Option.some.injEq] at hi
    obtain ⟨⟨hlow, hhigh⟩, rfl⟩ := hi
    have hsize : (UInt64.size : Int) = 18446744073709551616 := rfl
    rw [hsize] at hhigh
    show k.toNat < 18446744073709551616
    omega
  | _ => cases hi

lemma GraphSnapshot.nextSequence_lt {j : Json} {s : GraphSnapshot} (h : ofJson? j = some s) :
    s.nextSequence < UInt64.size := by
  simp only [ofJson?, Option.bind_eq_bind, Option.bind_eq_some_iff, Option.pure_def, Option.some.injEq] at h
  obtain ⟨-, -, -, -, n, hn, -, -, -, -, -, -, -, -, -, -, -, -, -, -, rfl⟩ := h
  obtain ⟨m, -, hm⟩ := Option.bind_eq_some_iff.mp hn
  exact lt_of_ofJson? hm

namespace GraphStore

variable {s s' : GraphStore} {tree tree' : FileTree} {dir : String} {g r : KnowledgeGraph}

/-- The document of a well-formed graph is the text of the graph that it restores. -/
lemma parseSnapshot_compact (hg : g.WellFormed) (hd : g.snapshot.Decodes) :
    parseSnapshot (toJson g.snapshot).compact = .ok (.ofSnapshot g.snapshot) := by
  have hd' := hd
  rw [GraphSnapshot.Decodes] at hd'
  obtain ⟨j, -, hj⟩ := Option.bind_eq_some_iff.mp hd'
  have hbelow : g.snapshot.chunks.any (UInt64.size ≤ ·.sequence + 1) = false := by
    rw [List.any_eq_false]
    intro c hc hle
    have hchunk := hg.indexed.chunks.mem_values.mp (List.mem_mergeSort.mp hc)
    have hsequence := hg.indexed.sequence_lt c.chunk.id c hchunk
    have hnext : g.nextSequence < UInt64.size := GraphSnapshot.nextSequence_lt hj
    simp only [decide_eq_true_eq] at hle
    simp only [KnowledgeGraph.tables] at hsequence
    omega
  simp only [parseSnapshot, hd']
  simp only [hbelow]
  rfl

/-- The place of the graph's file. -/
def place (dir : String) : String := Paths.join dir graphFile

/-- What a file, or the lack of one, holds: the graph that is loaded from it. -/
inductive Holds : Option Bytes → KnowledgeGraph → Prop
  | nothing : Holds none {}
  | document {g : KnowledgeGraph} : g.WellFormed → g.snapshot.Decodes →
      Holds (some (Text.bytes (toJson g.snapshot).compact)) (.ofSnapshot g.snapshot)

lemma Holds.wellFormed {content : Option Bytes} (h : Holds content r) : r.WellFormed := by
  cases h with
  | nothing => exact KnowledgeGraph.wellFormed_empty
  | document hg _ => exact hg.ofSnapshot

/-- A graph that is loaded is restored when it is loaded again. -/
lemma Holds.restores_self {content : Option Bytes} (h : Holds content r) : r.Restores r := by
  refine h.wellFormed.restores_self fun e he => ?_
  cases h with
  | nothing =>
    rw [KnowledgeGraph.hasEdge, hasEntry_empty] at he
    cases he
  | document _ _ => exact (KnowledgeGraph.hasEdge_ofSnapshot.mp he).2

/-- Where there is no file, the empty graph is loaded. -/
lemma holds_of_not_exists (h : tree.exists? (place dir) = false) : Holds (tree.read? (place dir)) {} := by
  rw [FileTree.exists?, Bool.or_eq_false_iff, FileTree.isFile,
    Std.ExtTreeMap.contains_eq_isSome_getElem?, Option.isSome_eq_false_iff, Option.isNone_iff_eq_none] at h
  rw [FileTree.read?, h.1]
  exact .nothing

/-- Opening a store loads what the file holds; it fails if there is none but a directory in its place. -/
lemma load_eq (hh : Holds (tree.read? (place dir)) r) (hdirs : tree.createDirectories dir = .ok tree') :
    load tree dir =
      if (tree.read? (place dir)).isNone && tree'.isDirectory (place dir) then
        .error (.io FileError.isDirectory.message)
      else .ok (tree', { graph := r, location := some (place dir) }) := by
  have hread : tree'.files[place dir]? = tree.read? (place dir) := by
    rw [FileTree.files_createDirectories hdirs, FileTree.read?]
  have hexists : tree'.exists? (place dir) =
      ((tree.read? (place dir)).isSome || tree'.isDirectory (place dir)) := by
    rw [← hread, FileTree.exists?, FileTree.isFile, Std.ExtTreeMap.contains_eq_isSome_getElem?]
  simp only [load, hdirs, Except.mapError, bind, Except.bind, pure, Except.pure]
  rw [show Paths.join dir graphFile = place dir from rfl, hexists]
  generalize tree.read? (place dir) = content at *
  cases hh with
  | nothing =>
    cases hplace : tree'.isDirectory (place dir) with
    | true => simp [FileTree.readText, FileTree.read, hread, hplace, bind, Except.bind]
    | false => rfl
  | @document g hg hd =>
    have htext : tree'.readText (place dir) = .ok (toJson g.snapshot).compact := by
      simp only [FileTree.readText, FileTree.read, hread, bind, Except.bind, Text.ofBytes?_bytes]
      rfl
    simp only [Option.isSome_some, Bool.true_or, if_true, htext, parseSnapshot_compact hg hd]
    rfl

lemma of_load (hh : Holds (tree.read? (place dir)) r) (h : load tree dir = .ok (tree', s)) :
    s = { graph := r, location := some (place dir) } ∧
      tree'.read? (place dir) = tree.read? (place dir) := by
  cases hdirs : tree.createDirectories dir with
  | error e =>
    simp only [load, hdirs, Except.mapError, bind, Except.bind] at h
    cases h
  | ok tree₁ =>
    rw [load_eq hh hdirs] at h
    split at h
    · cases h
    · cases h
      exact ⟨rfl, by rw [FileTree.read?, FileTree.read?, FileTree.files_createDirectories hdirs]⟩

/-! ### Sessions -/

/-- The stores that are opened on one directory one after the other, each with the disk as it is then. A
batch that is refused leaves no trace, so none of the steps is for it. -/
inductive Session (dir : String) : GraphStore → FileTree → Prop
  /-- A store is opened where none has been. -/
  | opened {s : GraphStore} {tree tree' : FileTree} : tree.exists? (place dir) = false →
      load tree dir = .ok (tree', s) → Session dir s tree'
  /-- A store is opened on what the last one left, be that one's last changes saved or lost. -/
  | reopened {s s' : GraphStore} {tree tree' : FileTree} : Session dir s tree →
      load tree dir = .ok (tree', s') → Session dir s' tree'
  /-- The length of embeddings is fixed. -/
  | fixed {s : GraphStore} {tree : FileTree} (length : Nat) : Session dir s tree →
      Session dir { s with dimensions := some length } tree
  /-- Something else than the file changes on the disk, so that a write or a rename that went well before
  fails from now on, or goes well again. -/
  | disturbed {s : GraphStore} {tree tree' : FileTree} : Session dir s tree →
      tree'.read? (place dir) = tree.read? (place dir) → Session dir s tree'
  /-- A batch is admitted. -/
  | applied {s s' : GraphStore} {tree : FileTree} {batch : WriteBatch} {summary : WriteSummary} :
      Session dir s tree → s.apply batch = .ok (s', summary) → Session dir s' tree
  /-- The graph is committed, whether that goes well or not. -/
  | committed {s s' : GraphStore} {tree tree' : FileTree} {e : Option StoreError} : Session dir s tree →
      s.graph.snapshot.Decodes → s.commit tree = (s', tree', e) → Session dir s' tree'

/-- A store whose file holds a graph, and holds its own graph unless it is marked as changed. -/
structure Backed (dir : String) (s : GraphStore) (content : Option Bytes) (saved : KnowledgeGraph) :
    Prop where
  location : s.location = some (place dir)
  wellFormed : s.graph.WellFormed
  holds : Holds content saved
  clean : s.dirty = false → s.graph.Restores saved

lemma Holds.backed {content : Option Bytes} (h : Holds content r) :
    Backed dir { graph := r, location := some (place dir) } content r where
  location := rfl
  wellFormed := h.wellFormed
  holds := h
  clean _ := h.restores_self

lemma Backed.fixed {content : Option Bytes} (h : Backed dir s content r) (length : Nat) :
    Backed dir { s with dimensions := some length } content r :=
  ⟨h.location, h.wellFormed, h.holds, h.clean⟩

/-- An admitted batch sets the mark unless it leaves the graph as it is. -/
lemma Backed.apply {content : Option Bytes} {batch : WriteBatch} {summary : WriteSummary}
    (h : Backed dir s content r) (happly : s.apply batch = .ok (s', summary)) : Backed dir s' content r := by
  have hwell := (wellFormed_apply h.wellFormed happly).1
  rcases apply_cases h.wellFormed happly with ⟨-, hsame⟩ | ⟨-, hmarked⟩
  · exact hsame ▸ h
  · have hdirty : s'.dirty = true := by rw [hmarked]
    exact ⟨by rw [hmarked]; exact h.location, hwell, h.holds, fun hclean => by simp [hdirty] at hclean⟩

/-- After a commit the file holds the graph, or it holds what it held before and the mark is still set. -/
lemma Backed.commit {e : Option StoreError} (h : Backed dir s (tree.read? (place dir)) r)
    (hd : s.graph.snapshot.Decodes) (hcommit : s.commit tree = (s', tree', e)) :
    ∃ r', Backed dir s' (tree'.read? (place dir)) r' ∧ (e = none → s.graph.Restores r') := by
  simp only [GraphStore.commit, h.location] at hcommit
  split at hcommit
  · cases hreplace : tree.replace (place dir) (Text.bytes (toJson s.graph.snapshot).compact) with
    | mk tree₁ error =>
      rw [hreplace] at hcommit
      cases error with
      | none =>
        -- the file was replaced by the document of the graph
        cases hcommit
        have hholds := Holds.document h.wellFormed hd
        have hrestores := h.wellFormed.restores_ofSnapshot
        rw [FileTree.read?_of_replace hreplace]
        exact ⟨_, ⟨rfl, h.wellFormed, hholds, fun _ => hrestores⟩, fun _ => hrestores⟩
      | some e =>
        -- the file is as it was, and the mark is still set
        cases hcommit
        rw [FileTree.read?_of_replace_error hreplace]
        exact ⟨r, h, fun he => by cases he⟩
  · rename_i hclean
    cases hcommit
    exact ⟨r, h, fun _ => h.clean ((Bool.not_eq_true _).mp hclean)⟩

lemma Session.backed (h : Session dir s tree) : ∃ saved, Backed dir s (tree.read? (place dir)) saved := by
  induction h with
  | opened hnew hload =>
    have hholds := holds_of_not_exists hnew
    obtain ⟨rfl, hread⟩ := of_load hholds hload
    exact ⟨_, hread ▸ hholds.backed⟩
  | reopened _ hload ih =>
    obtain ⟨saved, hbacked⟩ := ih
    obtain ⟨rfl, hread⟩ := of_load hbacked.holds hload
    exact ⟨_, hread ▸ hbacked.holds.backed⟩
  | fixed length _ ih =>
    obtain ⟨saved, hbacked⟩ := ih
    exact ⟨saved, hbacked.fixed length⟩
  | disturbed _ hread ih =>
    obtain ⟨saved, hbacked⟩ := ih
    exact ⟨saved, hread ▸ hbacked⟩
  | applied _ happly ih =>
    obtain ⟨saved, hbacked⟩ := ih
    exact ⟨saved, hbacked.apply happly⟩
  | committed _ hd hcommit ih =>
    obtain ⟨saved, hbacked⟩ := ih
    obtain ⟨saved', hbacked', -⟩ := hbacked.commit hd hcommit
    exact ⟨saved', hbacked'⟩

/-- Whenever a commit succeeds, a store that is then opened on the directory has the graph that was
committed: the file is as the commit left it, the directory is there, and no directory took the place of
the file. -/
theorem Session.durable (h : Session dir s tree) (hd : s.graph.snapshot.Decodes)
    (hcommit : s.commit tree = (s', tree', none)) {later : FileTree}
    (hfile : later.read? (place dir) = tree'.read? (place dir)) (hdir : later.isDirectory dir = true)
    (hplace : later.isDirectory (place dir) = false) :
    ∃ s'', load later dir = .ok (later, s'') ∧ s.graph.Restores s''.graph := by
  obtain ⟨saved, hbacked⟩ := h.backed
  obtain ⟨saved', hbacked', hrestores⟩ := hbacked.commit hd hcommit
  have hdirs : later.createDirectories dir = .ok later := by rw [FileTree.createDirectories, if_pos hdir]
  have hload := load_eq (hfile ▸ hbacked'.holds) hdirs
  rw [hplace, Bool.and_false, if_neg Bool.false_ne_true] at hload
  exact ⟨_, hload, hrestores rfl⟩

/-- Two files of which one imports and calls the other, and the commit of an author that added one of them. -/
def linkedBatch : WriteBatch :=
  [.upsertNode (.sourceFile ⟨"a.py", "python", "1", default, [], []⟩),
    .upsertNode (.sourceFile ⟨"b.py", "python", "2", default, ["a"], ["f"]⟩),
    .upsertNode (.codeUnit { (default : CodeUnit) with
      id := "a.py:f", path := "a.py", name := "f", qualifiedName := "f" }),
    .upsertNode (.codeUnit { (default : CodeUnit) with
      id := "b.py:g", path := "b.py", name := "g", qualifiedName := "g" }),
    .replaceImports "b.py" ["a.py"],
    .replaceCalls "b.py" [("b.py:g", "a.py:f")],
    .upsertNode (.author ⟨"r", "e", "n"⟩),
    .upsertNode (.commit ⟨"r", "1", [], "e", default, default, "s", ""⟩),
    .upsertEdge ⟨.authoredBy, .commit ⟨"r", "1"⟩, .author ⟨"r", "e"⟩⟩,
    .upsertNode (.fileRevision ⟨"r", "1", "a.py", .added, none, 1, 0⟩),
    .upsertEdge ⟨.touches, .commit ⟨"r", "1"⟩, .revision ⟨"r", "1", "a.py"⟩⟩]

/-- A new store with the two files and the commit. -/
def linked : Except StoreError (FileTree × GraphStore) := do
  let (tree, s) ← load {} "data"
  let (s, _) ← s.apply linkedBatch
  return (tree, s)

/-- The document of a graph, with the edges in the order in which they are listed. -/
def listing (g : KnowledgeGraph) : GraphSnapshot := { g.snapshot with edges := g.edges }

/-- The edges of a document need not be sorted if they are listed in order. -/
lemma listing_eq (h : g.edges.Pairwise fun a b => (a.compare b).isLE) : listing g = g.snapshot := by
  rw [listing, KnowledgeGraph.snapshot, List.mergeSort_of_pairwise h]

/-- Whether documents without chunks are equal. -/
def sameDocument (s t : GraphSnapshot) : Bool :=
  s.version == t.version && s.nextSequence == t.nextSequence && s.files == t.files &&
    s.units == t.units && s.chunks.isEmpty && t.chunks.isEmpty && s.commits == t.commits &&
    s.authors == t.authors && s.revisions == t.revisions && s.edges == t.edges

lemma eq_of_sameDocument {s t : GraphSnapshot} (h : sameDocument s t = true) : s = t := by
  obtain ⟨_, _, _, _, _, _, _, _, _⟩ := s
  obtain ⟨_, _, _, _, _, _, _, _, _⟩ := t
  simp only [sameDocument, Bool.and_eq_true, beq_iff_eq, List.isEmpty_iff] at h
  simp only [GraphSnapshot.mk.injEq]
  grind

/-- The links of the two files and the commit. -/
def linkedEdges : List GraphEdge :=
  [⟨.contains, .file "a.py", .unit "a.py:f"⟩, ⟨.contains, .file "b.py", .unit "b.py:g"⟩,
    ⟨.imports, .file "b.py", .file "a.py"⟩, ⟨.calls, .unit "b.py:g", .unit "a.py:f"⟩,
    ⟨.authoredBy, .commit ⟨"r", "1"⟩, .author ⟨"r", "e"⟩⟩,
    ⟨.touches, .commit ⟨"r", "1"⟩, .revision ⟨"r", "1", "a.py"⟩⟩,
    ⟨.versionOf, .revision ⟨"r", "1", "a.py"⟩, .file "a.py"⟩]

/-- The two files and the commit are stored with their links, and their document is encoded without loss. -/
lemma linked_document : (linked.toOption.map fun (_, s) =>
    (s.graph.edges, Json.isExact Json.maxDepth (toJson (listing s.graph)),
      (ofJson? (toJson (listing s.graph))).map (sameDocument · (listing s.graph)))) =
    some (linkedEdges, true, some true) := by
  decide +kernel

/-- Their commit goes through, and no directory takes the place of the file. -/
lemma linked_commit : (linked.toOption.map fun (tree, s) => ((s.commit tree).2.2,
    (s.commit tree).2.1.isDirectory "data", (s.commit tree).2.1.isDirectory (place "data"))) =
      some (none, true, false) := by
  decide

lemma exists_linked : ∃ tree s, linked = .ok (tree, s) ∧ s.graph.edges = linkedEdges ∧ s.graph.snapshot.Decodes := by
  have hdocument := linked_document
  cases hrun : linked with
  | error e => simp [hrun, Except.toOption] at hdocument
  | ok r =>
    obtain ⟨tree, s⟩ := r
    simp only [hrun, Except.toOption, Option.map_some, Option.some.injEq, Prod.mk.injEq] at hdocument
    obtain ⟨hedges, hexact, hof⟩ := hdocument
    obtain ⟨t, ht, hsame⟩ := Option.map_eq_some_iff.mp hof
    refine ⟨tree, s, rfl, hedges, ?_⟩
    rw [← listing_eq (by rw [hedges]; decide)]
    exact .of_isExact hexact (eq_of_sameDocument hsame ▸ ht)

lemma session_of_linked (h : linked = .ok (tree, s)) : Session "data" s tree := by
  simp only [linked, bind, Except.bind] at h
  cases hload : load {} "data" with
  | error e => simp [hload] at h
  | ok opened =>
    cases happly : opened.2.apply linkedBatch with
    | error e => simp [hload, happly] at h
    | ok applied =>
      simp only [hload, happly, pure, Except.pure, Except.ok.injEq, Prod.mk.injEq] at h
      obtain ⟨rfl, rfl⟩ := h
      exact .applied (.opened (by decide) hload) happly

/-- A store with two files, a commit and all their links is saved and opened again. -/
theorem Session.durable_linked : ∃ s tree s' tree', Session "data" s tree ∧ s.graph.edges = linkedEdges ∧
    s.commit tree = (s', tree', none) ∧
      ∃ s'', load tree' "data" = .ok (tree', s'') ∧ s.graph.Restores s''.graph := by
  obtain ⟨tree, s, hrun, hedges, hd⟩ := exists_linked
  have hcommit := linked_commit
  simp only [hrun, Except.toOption, Option.map_some, Option.some.injEq, Prod.mk.injEq] at hcommit
  obtain ⟨hnone, hdir, hplace⟩ := hcommit
  have hsession := session_of_linked hrun
  have hsaved : s.commit tree = ((s.commit tree).1, (s.commit tree).2.1, none) := by rw [← hnone]
  exact ⟨s, tree, _, _, hsession, hedges, hsaved, hsession.durable hd hsaved rfl hdir hplace⟩

end GraphStore

end RepoAtlas
