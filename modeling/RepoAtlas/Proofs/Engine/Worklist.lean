import RepoAtlas.Engine.Sync
import RepoAtlas.Proofs.Engine.Links

/-!
# What a scan finds

A scan collects files of the repository. In a regular tree each of them is read at its own path, so that
it is the file of exactly one document, which the repository shows. The worklist sorts the files that
were collected by their checkpoints; what is known and was not collected is deleted.
-/

namespace RepoAtlas

variable {w w' : World} {D D' : Document} {f f' : ScannedFile}

/-- Every listed file is read at its path. -/
def FileTree.Regular (t : FileTree) : Prop := ∀ p content, t.files[p]? = some content → t.readAt p = .ok content

namespace World

/-- The scan of the repository collects a file. -/
def Collects (w : World) (f : ScannedFile) : Prop :=
  ∃ filter, ScanFilter.build? w.settings.indexing w.registry w.tree = some filter ∧
    f ∈ filter.collect w.tree

/-- The scan of the repository collects a file that it can read. -/
structure Finds (w : World) (f : ScannedFile) : Prop where
  collects : w.Collects f
  allowed : w.denied.contains f.path = false

lemma finds_iff {w : World} {f : ScannedFile} : w.Finds f ↔ w.Collects f ∧ w.denied.contains f.path = false :=
  ⟨fun h => ⟨h.1, h.2⟩, fun h => ⟨h.1, h.2⟩⟩

/-- The repository shows a document: its file is collected, and its content is there to be read. -/
structure Shows (w : World) (D : Document) : Prop where
  collected : w.Collects D.scanned
  reads : w.Reads D

end World

lemma ScanFilter.registry_of_build? {settings : IndexingSettings} {registry : Registry} {tree : FileTree}
    {filter : ScanFilter} (h : build? settings registry tree = some filter) :
    filter.registry = registry := by
  simp only [build?, Option.bind_eq_bind, Option.bind_eq_some_iff] at h
  obtain ⟨overrides, -, h⟩ := h
  cases h
  rfl

namespace World.Collects

/-- A collected file is listed, with the language of its path and the fingerprint of its content. -/
lemma listed (h : w.Collects f) : w.registry.detect? f.path = some f.language ∧
    ∃ content, w.tree.files[f.path]? = some content ∧ f.fingerprint = fingerprintBytes content := by
  obtain ⟨filter, hbuild, hf⟩ := h
  simp only [ScanFilter.collect, List.mem_filterMap] at hf
  obtain ⟨⟨path, content⟩, hmem, hf⟩ := hf
  rw [Std.ExtTreeMap.mem_toList_iff_getElem?_eq_some] at hmem
  simp only at hf
  split at hf
  · cases hf
  · split at hf
    · cases hf
    · simp only [Option.bind_eq_bind, Option.bind_eq_some_iff] at hf
      obtain ⟨language, hlanguage, hf⟩ := hf
      cases hf
      rw [ScanFilter.registry_of_build? hbuild] at hlanguage
      exact ⟨hlanguage, content, hmem, rfl⟩

lemma unique (h : w.Collects f) (h' : w.Collects f') (hpath : f.path = f'.path) : f = f' := by
  obtain ⟨hlang, c, hc, hprint⟩ := h.listed
  obtain ⟨hlang', c', hc', hprint'⟩ := h'.listed
  rw [hpath] at hlang hc
  rw [hlang] at hlang'
  rw [hc] at hc'
  cases f
  cases f'
  simp_all

end World.Collects

/-- A language that is chosen by a path can be read. -/
lemma Registry.exists_extraction {r : Registry} {path language : String} (h : r.detect? path = some language)
    (text : String) : ∃ x, r.extract? text language = some x := by
  simp only [detect?, Option.bind_eq_bind, Option.bind_eq_some_iff] at h
  obtain ⟨ext, -, l, hl, h⟩ := h
  cases h
  have hmem : l ∈ r.languages.reverse := List.mem_of_find?_eq_some hl
  obtain ⟨l', hl'⟩ := Option.isSome_iff_exists.mp
    (List.find?_isSome.mpr ⟨l, hmem, by simp⟩ : (r.languages.reverse.find? (·.name == l.name)).isSome)
  exact ⟨_, by simp only [extract?, find?, hl']; rfl⟩

/-- In a regular tree the files that are collected are those of the documents that are shown. -/
lemma World.Collects.shows (hregular : w.tree.Regular) (h : w.Collects f) :
    ∃ D, w.Shows D ∧ D.scanned = f := by
  obtain ⟨hlanguage, content, hcontent, hprint⟩ := h.listed
  obtain ⟨x, hx⟩ := Registry.exists_extraction hlanguage (Text.lossy content)
  exact ⟨⟨f.path, f.language, f.fingerprint, x⟩,
    ⟨h, ⟨hlanguage, content, hregular _ _ hcontent, hprint, hx⟩⟩, rfl⟩

/-! ### Computing documents -/

/-- The document of a path, if there is one. -/
def World.document? (w : World) (path : String) : Option Document := do
  let language ← w.registry.detect? path
  let content ← (w.tree.readAt path).toOption
  let x ← w.registry.extract? (Text.lossy content) language
  return ⟨path, language, fingerprintBytes content, x⟩

lemma World.reads_iff : w.Reads D ↔ w.document? D.path = some D := by
  simp only [document?, Option.bind_eq_bind, Option.bind_eq_some_iff]
  constructor
  · rintro ⟨hlanguage, content, hread, hprint, hextract⟩
    exact ⟨_, hlanguage, content, by rw [hread]; rfl, _, hextract, by rw [← hprint]; rfl⟩
  · rintro ⟨language, hlanguage, content, hread, x, hextract, hD⟩
    cases hread' : w.tree.readAt D.path with
    | error e =>
      rw [hread'] at hread
      cases hread
    | ok content' =>
      rw [hread'] at hread
      cases hread
      rw [← Option.some.inj hD]
      exact ⟨hlanguage, content, hread', rfl, hextract⟩

/-- The documents of all files of the tree. -/
def World.documents (w : World) : List Document := w.tree.paths.filterMap w.document?

lemma World.documents_congr (htree : w'.tree = w.tree) (hregistry : w'.registry = w.registry) :
    w'.documents = w.documents := by
  have hdocument : w'.document? = w.document? := by
    funext path
    simp only [document?, htree, hregistry]
  rw [documents, documents, htree, hdocument]

lemma World.Shows.mem_documents (h : w.Shows D) : D ∈ w.documents := by
  obtain ⟨-, content, hcontent, -⟩ := h.collected.listed
  refine List.mem_filterMap.mpr ⟨D.path, ?_, World.reads_iff.mp h.reads⟩
  rw [FileTree.paths, Std.ExtTreeMap.mem_keys, ← Std.ExtTreeMap.contains_iff_mem, contains_iff_getElem?]
  exact ⟨content, hcontent⟩

lemma FileTree.regular_iff {t : FileTree} :
    t.Regular ↔ ∀ x ∈ t.files.toList, (t.readAt x.1).toOption = some x.2 := by
  simp only [Regular, Prod.forall, Std.ExtTreeMap.mem_toList_iff_getElem?_eq_some]
  refine forall₃_congr fun p content _ => ?_
  cases t.readAt p <;> simp [Except.toOption]

instance (t : FileTree) : Decidable t.Regular := decidable_of_iff' _ FileTree.regular_iff

/-- The files that the scan of the repository collects. -/
def World.collected (w : World) : List ScannedFile :=
  ((ScanFilter.build? w.settings.indexing w.registry w.tree).map (·.collect w.tree)).getD []

lemma World.collects_iff : w.Collects f ↔ f ∈ w.collected := by
  simp only [Collects, collected]
  cases ScanFilter.build? w.settings.indexing w.registry w.tree <;> simp

instance (w : World) (f : ScannedFile) : Decidable (w.Collects f) := decidable_of_iff' _ World.collects_iff

/-! ### Small repositories -/

namespace World

/-- A repository with some files, whose embeddings count a word. -/
def ofTexts (texts : List (String × String)) (rules : List ProviderRule := []) : World where
  root := "/repo"
  tree := { files := texts.foldl (fun m x => m.insert x.1 (Text.bytes x.2)) ∅ }
  embedder := { provider := .scripted ["alpha"] rules }

/-- The embeddings of these repositories. -/
def countAlpha (text : String) : Embedding := Provider.countWords ["alpha"] (truncateInput text 24000)

lemma steady_ofTexts (texts : List (String × String)) {rules : List ProviderRule}
    (hrules : ∀ r ∈ rules, ∀ v, r.action ≠ .vector v) : (ofTexts texts rules).embedder.Steady countAlpha :=
  ⟨Provider.countWords ["alpha"], Provider.steady_countWords hrules, fun _ => rfl⟩

/-- The repository with the graph and the checkpoints that an earlier state left. -/
def withStateOf (w earlier : World) : World :=
  { w with store := earlier.store, checkpoints := earlier.checkpoints }

/-- A repository with a line of code. -/
def drafted : World := .ofTexts [("a.py", "x = 1\n")]

/-- The repository with a function in place of the line. -/
def rewritten (rules : List ProviderRule := []) : World :=
  .ofTexts [("a.py", "def alpha():\n    return 1\n")] rules

end World

/-! ### The worklist -/

namespace ScanFilter

variable {filter : ScanFilter} {tree : FileTree} {denied : Std.ExtTreeSet String}

lemma mem_files_survey : f ∈ (filter.survey tree denied).files ↔
    f ∈ filter.collect tree ∧ denied.contains f.path = false := by
  simp [survey]

lemma mem_unreadable_survey {e : FileFailure} : e ∈ (filter.survey tree denied).unreadable ↔
    ∃ f, f ∈ filter.collect tree ∧ denied.contains f.path = true ∧ .unread f.path = e := by
  simp [survey, and_assoc]

/-- A file of the walk is found, whether it can be read or not. -/
lemma mem_paths_survey {q : String} : q ∈ (filter.survey tree denied).files.map (·.path) ++
    (filter.survey tree denied).unreadable.map (·.path) ↔ ∃ f, f ∈ filter.collect tree ∧ f.path = q := by
  simp only [List.mem_append, List.mem_map, mem_files_survey, mem_unreadable_survey]
  constructor
  · rintro (⟨f, ⟨hf, -⟩, hq⟩ | ⟨_, ⟨f, hf, -, rfl⟩, hq⟩) <;> exact ⟨f, hf, hq⟩
  · rintro ⟨f, hf, rfl⟩
    cases hdenied : denied.contains f.path with
    | false => exact Or.inl ⟨f, ⟨hf, hdenied⟩, rfl⟩
    | true => exact Or.inr ⟨_, ⟨f, hf, hdenied, rfl⟩, rfl⟩

end ScanFilter

/-- The files of a repository by their checkpoints. -/
structure Worklist.Sorts (work : Worklist) (w : World) : Prop where
  new : ∀ f, f ∈ work.new ↔ w.Finds f ∧ w.checkpoints.state.get? (.file f.path) = none
  changed : ∀ f, f ∈ work.changed ↔ w.Finds f ∧
    ∃ v, w.checkpoints.state.get? (.file f.path) = some v ∧ v ≠ f.fingerprint
  unchanged : ∀ f, f ∈ work.unchanged ↔ w.Finds f ∧
    w.checkpoints.state.get? (.file f.path) = some f.fingerprint
  deleted : ∀ q, q ∈ work.deleted ↔ (∀ f, w.Collects f → f.path ≠ q) ∧
    ((∃ v, w.checkpoints.state.get? (.file q) = some v) ∨ w.store.graph.files.contains q = true)
  unreadable : ∀ e, e ∈ work.unreadable ↔
    ∃ f, w.Collects f ∧ w.denied.contains f.path = true ∧ .unread f.path = e

/-- If all files can be read, the scan finds each that it collects. -/
lemma Worklist.Sorts.finds {work : Worklist} (h : work.Sorts w) (hread : work.unreadable = [])
    (hf : w.Collects f) : w.Finds f := by
  refine ⟨hf, (Bool.not_eq_true _).mp fun hdenied => ?_⟩
  have := (h.unreadable _).mpr ⟨f, hf, hdenied, rfl⟩
  simp [hread] at this

lemma CheckpointStore.mem_trackedFiles {s : CheckpointStore} {q : String} :
    q ∈ s.trackedFiles ↔ ∃ v, s.state.get? (.file q) = some v := by
  rw [trackedFiles, Std.ExtTreeMap.mem_keys, ← Std.ExtTreeMap.contains_iff_mem, contains_iff_getElem?]
  rfl

/-- A scan asks only, and sorts what it collects. -/
lemma Sync.scan_ok {work : Worklist} (h : Sync.scan w = (.ok work, w')) : Quiet w w' ∧ work.Sorts w := by
  simp only [Sync.scan, Sync.filter] at h
  obtain ⟨filter, w₁, hfilter, h⟩ := Act.bind_ok h
  simp only [Act.bind_apply, Act.get_apply] at hfilter
  cases hbuild : ScanFilter.build? w.settings.indexing w.registry w.tree with
  | none =>
    rw [hbuild] at hfilter
    cases hfilter
  | some filter' =>
    rw [hbuild] at hfilter
    cases hfilter
    simp only [Act.bind_apply, Act.get_apply] at h
    rcases hpaths : Act.filePaths w with ⟨e | stored, w₂⟩
    · rw [hpaths] at h
      cases h
    · rw [hpaths] at h
      cases h
      obtain ⟨rfl, hq⟩ := Act.ask_ok hpaths
      have hcollect : ∀ f, w.Collects f ↔ f ∈ filter.collect w.tree := by
        intro f
        constructor
        · rintro ⟨filter', hbuild', hf⟩
          rw [hbuild] at hbuild'
          cases hbuild'
          exact hf
        · exact fun hf => ⟨filter, hbuild, hf⟩
      have hfinds : ∀ f, w.Finds f ↔ f ∈ (filter.survey w.tree w.denied).files := by
        intro f
        rw [World.finds_iff, hcollect, ScanFilter.mem_files_survey]
      refine ⟨hq, ?_, ?_, ?_, ?_, ?_⟩
      · intro f
        simp [detectChanges, hfinds, hq.checkpoints]
      · intro f
        simp [detectChanges, hfinds, hq.checkpoints]
      · intro f
        simp [detectChanges, hfinds, hq.checkpoints]
      · intro q
        simp only [detectChanges, Std.ExtTreeSet.mem_toList,
          ← Std.ExtTreeSet.contains_iff_mem, contains_foldl_erase, NameSet.ofList, contains_foldl_insert,
          ScanFilter.mem_paths_survey]
        simp only [hcollect, List.mem_append, CheckpointStore.mem_trackedFiles, mem_filePaths, hq.checkpoints]
        simp
      · intro e
        simp only [detectChanges, ScanFilter.mem_unreadable_survey, hcollect]

end RepoAtlas
