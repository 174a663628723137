import RepoAtlas.Proofs.Engine.Storing
import RepoAtlas.Proofs.Graph.Reachability
import RepoAtlas.Proofs.Scan.Agreement

/-!
# Which files can be stored

The scan decides which paths belong in the graph, and the store decides which nodes it admits. The batch that
replaces the contents of a file clears, puts the file, then its units, then its chunks, so that each write
finds the node that it names, in every graph. What is left are the nodes themselves: a path that the scan
admits is fit for the store unless it has a backslash.
-/

namespace RepoAtlas

/-! ### Blank texts -/

namespace Text

variable {s : String} {c : Char}

lemma isBlankText_eq_false (hc : c ∈ s.toList) (hblank : isBlank c = false) : isBlankText s = false := by
  rw [isBlankText, List.all_eq_false]
  exact ⟨c, hc, by simp [hblank]⟩

lemma not_isBlank_hexDigit (n : Nat) (hn : n < 16) : isBlank (hexDigit n) = false := by
  revert n
  decide

/-- The digits of some bytes are not blank. -/
lemma isBlankText_hexOfBytes {b : List UInt8} (hb : b ≠ []) : isBlankText (hexOfBytes b) = false := by
  obtain ⟨x, rest, rfl⟩ := List.exists_cons_of_ne_nil hb
  refine isBlankText_eq_false (c := hexDigit (x.toNat / 16)) ?_ (not_isBlank_hexDigit _ ?_)
  · simp [hexOfBytes]
  · have := x.toNat_lt
    omega

/-- The characters of the members of a list are characters of the joined text. -/
lemma mem_join {sep x : String} {l : List String} (hx : x ∈ l) (hc : c ∈ x.toList) :
    c ∈ (join sep l).toList := by
  induction l with
  | nil => cases hx
  | cons y l ih =>
    cases l with
    | nil => simpa [join, ← List.mem_singleton.mp hx] using hc
    | cons z l =>
      rw [join, String.intercalate_cons_cons]
      simp only [String.toList_append, List.mem_append]
      rcases List.mem_cons.mp hx with rfl | hx
      · exact Or.inl (Or.inl hc)
      · exact Or.inr (ih hx)

end Text

lemma isBlankText_fingerprintBytes (content : List UInt8) :
    Text.isBlankText (fingerprintBytes content) = false := by
  refine Text.isBlankText_hexOfBytes ?_
  simp [Digest.sha256, Digest.bigEndian]

lemma CodeUnit.isBlankText_identity (path qualifiedName : String) :
    Text.isBlankText (identity path qualifiedName) = false := by
  refine Text.isBlankText_eq_false (c := ':') ?_ (by decide)
  simp [identity]

/-! ### Paths below the root -/

lemma mem_of_mapM {α β : Type} {f : α → Option β} {l : List α} {r : List β} (h : l.mapM f = some r) {b : β}
    (hb : b ∈ r) : ∃ a ∈ l, f a = some b := by
  induction l generalizing r with
  | nil =>
    cases h
    cases hb
  | cons a l ih =>
    simp only [List.mapM_cons, Option.bind_eq_bind, Option.bind_eq_some_iff] at h
    obtain ⟨c, hc, rest, hrest, h⟩ := h
    cases h
    rcases List.mem_cons.mp hb with rfl | hb
    · exact ⟨a, by simp, hc⟩
    · obtain ⟨a', ha', hf⟩ := ih hrest hb
      exact ⟨a', List.mem_cons_of_mem a ha', hf⟩

namespace Paths

variable {root path p x : String} {l : List String}

lemma name_mem_componentsOfParts {first : Bool} (h : .name x ∈ componentsOfParts first l) :
    x ∈ l ∧ x ≠ "" := by
  fun_induction componentsOfParts first l with
  | case1 => cases h
  | case2 first y l rest hempty ih => exact (ih h).imp_left (List.mem_cons_of_mem y)
  | case3 y l rest hempty hdot ih =>
    exact (ih ((List.mem_cons.mp h).resolve_left Component.noConfusion)).imp_left (List.mem_cons_of_mem y)
  | case4 first y l rest hempty hdot hfirst ih => exact (ih h).imp_left (List.mem_cons_of_mem y)
  | case5 first y l rest hempty hdot hup ih =>
    exact (ih ((List.mem_cons.mp h).resolve_left Component.noConfusion)).imp_left (List.mem_cons_of_mem y)
  | case6 first y l rest hempty hdot hup ih =>
    rcases List.mem_cons.mp h with heq | h
    · cases heq
      exact ⟨by simp, by simpa using hempty⟩
    · exact (ih h).imp_left (List.mem_cons_of_mem y)

lemma name_mem_components (h : .name x ∈ components p) : x ∈ parts p ∧ x ≠ "" := by
  rw [components] at h
  split at h
  · exact name_mem_componentsOfParts ((List.mem_cons.mp h).resolve_left Component.noConfusion)
  · exact name_mem_componentsOfParts h

/-- The path of something below the root is made of names. -/
lemma exists_names_of_relative? (h : relative? root path = some p) :
    ∃ l, l ≠ [] ∧ (∀ x ∈ l, x ≠ "" ∧ '/' ∉ x.toList) ∧ p = Text.join "/" l := by
  simp only [relative?, Option.bind_eq_bind, Option.bind_eq_some_iff] at h
  obtain ⟨below, hbelow, names, hnames, h⟩ := h
  split at h
  · cases h
  · rename_i hne
    cases h
    refine ⟨names, by simpa using hne, fun x hx => ?_, rfl⟩
    obtain ⟨c, hc, hname⟩ := mem_of_mapM hnames hx
    have hc : c ∈ components path := by
      rw [Text.after?_eq_some_iff.mp hbelow]
      exact List.mem_append_right _ (List.mem_filter.mp hc).1
    have hx : .name x ∈ components path := by
      cases c with
      | name y =>
        cases hname
        exact hc
      | _ => cases hname
    obtain ⟨hparts, hne⟩ := name_mem_components hx
    exact ⟨hne, not_mem_of_mem_parts hparts⟩

/-- The characters of a part are characters of the path. -/
lemma mem_of_mem_parts {c : Char} (hx : x ∈ parts p) (hc : c ∈ x.toList) : c ∈ p.toList := by
  rw [← join_parts p]
  exact Text.mem_join hx hc

/-- A path with an extension has a point. -/
lemma point_mem_of_extension? {ext : String} (h : extension? p = some ext) : '.' ∈ p.toList := by
  simp only [extension?, Option.bind_eq_bind, Option.bind_eq_some_iff] at h
  obtain ⟨name, hname, ⟨stem, _⟩, hcut, -⟩ := h
  have hmem : .name name ∈ components p := by
    rw [fileName?] at hname
    split at hname
    · rename_i s hlast
      cases hname
      exact List.mem_of_getLast? hlast
    · cases hname
  obtain ⟨⟨before, rest⟩, hcut, -⟩ := Option.map_eq_some_iff.mp hcut
  have hpoint : '.' ∈ name.toList.reverse := by
    rw [(Text.eq_append_of_cutList? (a := '.') hcut).1]
    simp
  exact mem_of_mem_parts (name_mem_components hmem).1 (List.mem_reverse.mp hpoint)

end Paths

/-! ### Nodes that can be admitted -/

namespace GraphNode

lemma firstFlaw_eq_none_iff {l : List (Option String)} : firstFlaw l = none ↔ ∀ o ∈ l, o = none :=
  List.findSome?_eq_none_iff

lemma firstFlaw_cons_of_none {o : Option String} {l : List (Option String)} (hl : ∀ p ∈ l, p = none) :
    firstFlaw (o :: l) = o := by
  rw [firstFlaw, List.findSome?_cons]
  cases o with
  | none => exact firstFlaw_eq_none_iff.mpr hl
  | some flaw => rfl

lemma blankFlaw?_eq_none_iff {field value : String} :
    blankFlaw? field value = none ↔ Text.isBlankText value = false := by
  simp [blankFlaw?]

lemma pathFlaw?_eq_none_iff {path : String} : pathFlaw? path = none ↔
    Text.isBlankText path = false ∧ Text.startsWith path "/" = false ∧ '\\' ∉ path.toList := by
  simp [pathFlaw?, firstFlaw_eq_none_iff, blankFlaw?_eq_none_iff]

end GraphNode

namespace ScanFilter

/-- A path that the scan can yield is fit for the store unless it has a backslash. -/
lemma pathFlaw?_of_admits {f : ScanFilter} {root absolute p : String}
    (hrelative : Paths.relative? root absolute = some p) (hadmits : f.admits p = true) :
    GraphNode.pathFlaw? p = none ↔ '\\' ∉ p.toList := by
  obtain ⟨l, hne, hl, rfl⟩ := Paths.exists_names_of_relative? hrelative
  have hparts : Paths.parts (Text.join "/" l) = l := Paths.parts_join hne fun x hx => (hl x hx).2
  have hnamed : Paths.Named (Paths.parts (Text.join "/" l)) :=
    named_of_admits hadmits fun hempty => (hl "" (hparts ▸ hempty)).1 rfl
  rw [hparts] at hnamed
  have hstart : Text.startsWith (Text.join "/" l) "/" = false := Paths.isAbsolute_join hnamed
  have hpoint : '.' ∈ (Text.join "/" l).toList := by
    simp only [admits, Bool.and_eq_true] at hadmits
    obtain ⟨⟨⟨⟨⟨hext, -⟩, -⟩, -⟩, -⟩, -⟩ := hadmits
    cases h : Paths.extension? (Text.join "/" l) with
    | some ext => exact Paths.point_mem_of_extension? h
    | none => simp [h] at hext
  rw [GraphNode.pathFlaw?_eq_none_iff, Text.isBlankText_eq_false hpoint (by decide), hstart]
  simp

end ScanFilter

/-! ### Batches that put nodes -/

namespace Overlay

variable {α : Type} {node : α → GraphNode} {l : List α} {dims : Option Nat} {o : Overlay} {k : NodeKey}

lemma exists?_after_upsert {n : GraphNode} :
    (o.after (.upsertNode n)).exists? k = true ↔ k = n.key ∨ o.exists? k = true := by
  cases n <;> exact exists?_add

lemma exists?_foldl_upsert : ((l.map (.upsertNode ∘ node)).foldl after o).exists? k = true ↔
    (∃ a ∈ l, k = (node a).key) ∨ o.exists? k = true := by
  induction l generalizing o with
  | nil => simp
  | cons a l ih =>
    rw [List.map_cons, List.foldl_cons, ih, Function.comp_apply, exists?_after_upsert]
    simp only [List.mem_cons, exists_eq_or_imp, or_assoc, or_left_comm]

/-- Nodes are put one after the other exactly if each fits wherever the view knows as much as before. -/
lemma batchFlaw?_upserts {P : α → Prop} (hP : ∀ a ∈ l, ∀ o' : Overlay,
      (∀ k, o.exists? k = true → o'.exists? k = true) → (o'.nodeFlaw? dims (node a) = none ↔ P a)) :
    batchFlaw? dims o (l.map (.upsertNode ∘ node)) = none ↔ ∀ a ∈ l, P a := by
  induction l generalizing o with
  | nil => simp [batchFlaw?]
  | cons a l ih =>
    simp only [List.map_cons, batchFlaw?, Option.or_eq_none_iff, List.forall_mem_cons]
    refine and_congr (hP a (by simp) o fun k hk => hk) (ih fun b hb o' ho' => ?_)
    exact hP b (by simp [hb]) o' fun k hk => ho' k (exists?_after_upsert.mpr (Or.inr hk))

lemma missing?_eq_none_iff {context : String} : o.missing? context k = none ↔ o.exists? k = true := by
  simp [missing?]

end Overlay

/-- A vector that a store with these dimensions can hold. -/
@[mk_iff]
structure Embedding.Fits (dimensions : Option Nat) (v : Embedding) : Prop where
  ne_nil : v ≠ []
  finite : ∀ x ∈ v, Single.finite x = true
  length : ∀ n ∈ dimensions, v.length = n

namespace Overlay

variable {dims : Option Nat} {o : Overlay}

lemma nodeFlaw?_sourceFile {f : SourceFile} : o.nodeFlaw? dims (.sourceFile f) = none ↔
    GraphNode.pathFlaw? f.path = none ∧ Text.isBlankText f.fingerprint = false := by
  simp [nodeFlaw?, GraphNode.flaw?, GraphNode.firstFlaw_eq_none_iff, GraphNode.blankFlaw?_eq_none_iff]

/-- Where its file exists, the unit of a definition fits if its path does and it has a name. -/
lemma nodeFlaw?_ofDefinition {path : String} {d : Definition} (hfile : o.exists? (.file path) = true) :
    o.nodeFlaw? dims (.codeUnit (.ofDefinition path d)) = none ↔
      GraphNode.pathFlaw? path = none ∧ Text.isBlankText d.name = false := by
  simp [nodeFlaw?, GraphNode.flaw?, GraphNode.firstFlaw_eq_none_iff, GraphNode.blankFlaw?_eq_none_iff,
    missing?_eq_none_iff, CodeUnit.ofDefinition, hfile]

/-- Where its unit exists, the chunk of a unit fits if its embedding does. -/
lemma nodeFlaw?_chunkOf {now : Instant} {path : String} {d : Definition} {v : Embedding}
    (hunit : o.exists? (.unit (CodeUnit.ofDefinition path d).id) = true) :
    o.nodeFlaw? dims (.semanticChunk (Ingest.chunkOf now (.ofDefinition path d) v)) = none ↔ v.Fits dims := by
  have hid : Text.isBlankText (CodeUnit.ofDefinition path d).id = false :=
    CodeUnit.isBlankText_identity path _
  have hchunk : ∀ l, Text.isBlankText (fingerprintParts l) = false := fun l => isBlankText_fingerprintBytes _
  rw [Embedding.fits_iff]
  simp only [nodeFlaw?, GraphNode.flaw?, Ingest.chunkOf, Option.or_eq_none_iff, missing?_eq_none_iff, hunit,
    GraphNode.firstFlaw_eq_none_iff, List.forall_mem_cons, GraphNode.blankFlaw?_eq_none_iff, hid, hchunk]
  cases dims <;> simp [and_assoc]

end Overlay

lemma GraphStore.exists_apply_iff {s : GraphStore} {b : WriteBatch} (hb : b ≠ []) :
    (∃ s' summary, s.apply b = .ok (s', summary)) ↔ s.graph.batchFlaw? s.dimensions b = none := by
  constructor
  · rintro ⟨s', summary, h⟩
    exact (apply_eq_ok h).2.2
  · intro h
    rw [apply, if_neg (by simpa using hb), h]
    dsimp only
    split
    · exact ⟨_, _, rfl⟩
    · exact ⟨_, _, rfl⟩

namespace Ingest

/-- Each write of the batch finds the node that it names, so that only flaws of the nodes themselves count. -/
lemma batchFlaw?_contents {g : KnowledgeGraph} {dims : Option Nat} {file : SourceFile} {l : List Definition}
    {now : Instant} {results : List (Except EmbeddingError Embedding)} :
    g.batchFlaw? dims (contents file (l.map (.ofDefinition file.path))
        (chunks now (l.map (.ofDefinition file.path)) results)) = none ↔
      (GraphNode.pathFlaw? file.path = none ∧ Text.isBlankText file.fingerprint = false) ∧
        (∀ d ∈ l, GraphNode.pathFlaw? file.path = none ∧ Text.isBlankText d.name = false) ∧
        ∀ c ∈ chunks now (l.map (.ofDefinition file.path)) results, c.embedding.Fits dims := by
  have hfile : ∀ o : Overlay, (([.clearFile file.path, .upsertNode (.sourceFile file)] : WriteBatch).foldl
      Overlay.after o).exists? (.file file.path) = true := fun o =>
    Overlay.exists?_after_upsert.mpr (Or.inl rfl)
  rw [KnowledgeGraph.batchFlaw?, contents, Overlay.batchFlaw?_append, Overlay.batchFlaw?_append, and_assoc]
  refine and_congr ?_ (and_congr ?_ ?_)
  · simp [Overlay.batchFlaw?, Overlay.flaw?, Overlay.nodeFlaw?_sourceFile]
  · rw [List.map_map]
    refine Overlay.batchFlaw?_upserts fun d _ o ho => Overlay.nodeFlaw?_ofDefinition (ho _ (hfile _))
  · refine Overlay.batchFlaw?_upserts fun c hc o ho => ?_
    obtain ⟨i, u, v, hu, -, rfl⟩ := mem_chunks hc
    obtain ⟨d, -, rfl⟩ := List.mem_map.mp (List.mem_of_getElem? hu)
    refine Overlay.nodeFlaw?_chunkOf (ho _ ?_)
    rw [List.foldl_append]
    exact Overlay.exists?_foldl_upsert.mpr (Or.inl ⟨_, List.mem_of_getElem? hu, rfl⟩)

variable {s : GraphStore} {f : ScanFilter} {root absolute : String} {file : ScannedFile} {x : Extraction}
  {content : List UInt8} {now : Instant} {results : List (Except EmbeddingError Embedding)}

/-- The batch that replaces the contents of a file that a scan can yield is accepted, whatever the graph
holds, exactly if the path has no backslash, each definition has a name, and each embedding fits. -/
theorem contents_accepted_iff (hrelative : Paths.relative? root absolute = some file.path)
    (hadmits : f.admits file.path = true) :
    (∃ s' summary, s.apply (contents (sourceFile file (fingerprintBytes content) x now)
        (x.definitions.map (.ofDefinition file.path))
        (chunks now (x.definitions.map (.ofDefinition file.path)) results)) = .ok (s', summary)) ↔
      '\\' ∉ file.path.toList ∧ (∀ d ∈ x.definitions, Text.isBlankText d.name = false) ∧
        ∀ c ∈ chunks now (x.definitions.map (.ofDefinition file.path)) results,
          c.embedding.Fits s.dimensions := by
  have hpath := ScanFilter.pathFlaw?_of_admits hrelative hadmits
  rw [GraphStore.exists_apply_iff (by simp [contents])]
  refine batchFlaw?_contents.trans ?_
  simp only [sourceFile, hpath, isBlankText_fingerprintBytes, forall_and]
  tauto

/-- The extraction of a file with one function. -/
def oneFunction : Extraction :=
  ⟨"python", [{ (default : Definition) with name := "alpha", qualifiedName := "alpha" }], [], [], .complete⟩

lemma fits_of_mem_chunks_oneFunction {path : String} {c : SemanticChunk} {now : Instant}
    (hc : c ∈ chunks now (oneFunction.definitions.map (.ofDefinition path)) [.ok [1]]) :
    c.embedding.Fits (some 1) := by
  have hfinite : Single.finite 1 = true := by decide
  obtain rfl : c = _ := List.mem_singleton.mp hc
  exact ⟨by simp [chunkOf], by simpa [chunkOf] using hfinite, by simp [chunkOf]⟩

theorem contents_accepted_iff_oneFunction :
    Paths.relative? "/r" "/r/a.py" = some "a.py" ∧ (⟨{}, {}, [], []⟩ : ScanFilter).admits "a.py" = true ∧
      ∃ s' summary, ({ dimensions := some 1 } : GraphStore).apply
        (contents (sourceFile ⟨"a.py", "python", ""⟩ (fingerprintBytes []) oneFunction default)
          (oneFunction.definitions.map (.ofDefinition "a.py"))
          (chunks default (oneFunction.definitions.map (.ofDefinition "a.py")) [.ok [1]])) =
        .ok (s', summary) := by
  have hrelative : Paths.relative? "/r" "/r/a.py" = some "a.py" := by decide
  have hadmits : (⟨{}, {}, [], []⟩ : ScanFilter).admits "a.py" = true := by decide
  refine ⟨hrelative, hadmits, (contents_accepted_iff hrelative hadmits).mpr ⟨by decide, by decide, ?_⟩⟩
  exact fun c hc => fits_of_mem_chunks_oneFunction hc

/-- A scan yields a file with a backslash in its name, and the store refuses it. -/
theorem contents_refused_backslash :
    Paths.relative? "/r" "/r/a\\b.py" = some "a\\b.py" ∧
      (⟨{}, {}, [], []⟩ : ScanFilter).admits "a\\b.py" = true ∧
      (∀ d ∈ oneFunction.definitions, Text.isBlankText d.name = false) ∧
      (oneFunction.definitions.map (·.qualifiedName)).Nodup ∧ Single.finite 1 = true ∧
      KnowledgeGraph.Reachable {} ∧
      ¬∃ s' summary, ({ dimensions := some 1 } : GraphStore).apply
        (contents (sourceFile ⟨"a\\b.py", "python", ""⟩ (fingerprintBytes []) oneFunction default)
          (oneFunction.definitions.map (.ofDefinition "a\\b.py"))
          (chunks default (oneFunction.definitions.map (.ofDefinition "a\\b.py")) [.ok [1]])) =
        .ok (s', summary) := by
  refine ⟨by decide, by decide, by decide, by decide, by decide, .empty, fun h => ?_⟩
  rw [GraphStore.exists_apply_iff (by simp [contents])] at h
  have hpath := (batchFlaw?_contents.mp h).1.1
  exact absurd hpath (by decide)

end Ingest

end RepoAtlas
