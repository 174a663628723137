import Mathlib.Data.List.Basic
import RepoAtlas.Engine.Linking
import RepoAtlas.Proofs.Engine.Running
import RepoAtlas.Proofs.Graph.WellFormed
import RepoAtlas.Proofs.Links.Index

/-!
# Import edges and call edges

The imports of a stored file are current if the edges that leave it are what its references resolve to
among the stored files, and the calls of a document are current if the edges that leave its units are
what its call sites resolve to among the stored units. Both depend only on which files and units are
stored. Linking a file makes its edges current, or fails and changes nothing.
-/

namespace RepoAtlas

open KnowledgeGraph

variable {𝒟 : Document → Prop} {g g' : KnowledgeGraph}

/-! ### What links refer to -/

namespace KnowledgeGraph

/-- A stored file refers to a path by one of its imports, in view of the stored files. -/
def Imports (g : KnowledgeGraph) (p q : String) : Prop :=
  ∃ f, g.files[p]? = some f ∧
    ∃ t ∈ f.imports, RepoAtlas.Imports.resolve? p t (FileIndex.ofPaths g.filePaths) = some q

/-- The import edges of a file lead where its imports refer to. -/
def ImportsCurrent (g : KnowledgeGraph) (p : String) : Prop :=
  ∀ q, g.hasEdge ⟨.imports, .file p, .file q⟩ = true ↔ g.Imports p q

/-- A call site leads from a unit of a file to another unit, in view of the stored units. -/
def CallsBy (g : KnowledgeGraph) (path : String) (c : CallSite) (i j : String) : Prop :=
  ∃ caller callee, Linking.CallScan.caller? (g.unitsInFile path) c = some caller ∧
    resolveCallee? path (g.unitsNamed c.name) = some callee ∧ callee.id ≠ caller.id ∧
      caller.id = i ∧ callee.id = j

/-- The call edges of the units of a document lead where its call sites lead. -/
def CallsCurrent (g : KnowledgeGraph) (D : Document) : Prop :=
  ∀ (i j : String) (u : CodeUnit), g.units[i]? = some u → u.path = D.path →
    (g.hasEdge ⟨.calls, .unit i, .unit j⟩ = true ↔ ∃ c ∈ D.extraction.calls, g.CallsBy D.path c i j)

end KnowledgeGraph

lemma mem_filePaths {p : String} : p ∈ g.filePaths ↔ g.files.contains p = true := by
  rw [filePaths, Std.ExtTreeMap.mem_keys, Std.ExtTreeMap.contains_iff_mem]

/-- In a tidy graph files are stored under their paths. -/
lemma Tidy.keyedBy (ht : Tidy 𝒟 g) : KeyedBy SourceFile.path g.files := by
  intro q s hs
  obtain ⟨D, t, -, hD, rfl⟩ := ht.file_known q s hs
  exact hD

/-- The references of a file depend on its imports and on which files are stored. -/
lemma imports_congr {p q : String}
    (hp : ∀ f, g.files[p]? = some f → ∃ f', g'.files[p]? = some f' ∧ f'.imports = f.imports)
    (hfiles : ∀ r, g.files.contains r = true ↔ g'.files.contains r = true) (h : g.Imports p q) :
    g'.Imports p q := by
  obtain ⟨f, hf, t, ht, hq⟩ := h
  obtain ⟨f', hf', himports⟩ := hp f hf
  have hindex : FileIndex.ofPaths g'.filePaths = FileIndex.ofPaths g.filePaths :=
    FileIndex.ofPaths_congr fun r => by rw [mem_filePaths, mem_filePaths, hfiles]
  exact ⟨f', hf', t, by rw [himports]; exact ht, by rw [hindex]; exact hq⟩

/-- Whether imports are current depends on the file, on which files are stored, and on the edges. -/
lemma importsCurrent_congr {q : String} (hfile : g'.files[q]? = g.files[q]?)
    (hfiles : ∀ r, g'.files.contains r = true ↔ g.files.contains r = true)
    (hedge : ∀ r, g'.hasEdge ⟨.imports, .file q, .file r⟩ = true ↔
      g.hasEdge ⟨.imports, .file q, .file r⟩ = true) : g'.ImportsCurrent q ↔ g.ImportsCurrent q := by
  have himports : ∀ r, g'.Imports q r ↔ g.Imports q r := by
    intro r
    constructor
    · exact imports_congr (fun f hf => ⟨f, by rw [← hfile]; exact hf, rfl⟩) hfiles
    · exact imports_congr (fun f hf => ⟨f, by rw [hfile]; exact hf, rfl⟩) fun r => (hfiles r).symm
  exact forall_congr' fun r => by rw [hedge, himports]

section

variable (ht : Tidy 𝒟 g) (ht' : Tidy 𝒟 g')
include ht ht'

/-- The units of a file depend only on what is stored under its path. -/
lemma unitsInFile_congr {p : String}
    (h : ∀ (i : String) (u : CodeUnit), u.path = p → (g'.units[i]? = some u ↔ g.units[i]? = some u)) :
    g'.unitsInFile p = g.unitsInFile p := by
  have hentries : entries g'.unitsByFile p = entries g.unitsByFile p := by
    refine entries_congr fun i => ?_
    rw [Bool.eq_iff_iff, ht'.byFile, ht.byFile]
    exact exists_congr fun u => and_congr_left fun hu => h i u hu
  simp only [unitsInFile, hentries]
  congr 1
  refine List.filterMap_congr fun i hi => ?_
  obtain ⟨u, hu, hp⟩ := (ht.byFile p i).mp (mem_entries.mp hi)
  rw [hu, (h i u hp).mpr hu]

/-- The units of a name depend only on what is stored under it. -/
lemma unitsNamed_congr {n : String}
    (h : ∀ (i : String) (u : CodeUnit), u.name = n → (g'.units[i]? = some u ↔ g.units[i]? = some u)) :
    g'.unitsNamed n = g.unitsNamed n := by
  have hentries : entries g'.unitsByName n = entries g.unitsByName n := by
    refine entries_congr fun i => ?_
    rw [Bool.eq_iff_iff, ht'.byName, ht.byName]
    exact exists_congr fun u => and_congr_left fun hu => h i u hu
  simp only [unitsNamed, hentries]
  congr 1
  refine List.filterMap_congr fun i hi => ?_
  obtain ⟨u, hu, hn⟩ := (ht.byName n i).mp (mem_entries.mp hi)
  rw [hu, (h i u hn).mpr hu]

/-- Where a call site leads depends on the units of its file and on those of the name that it calls. -/
lemma callsBy_congr {p : String} {c : CallSite} {i j : String}
    (hfile : ∀ (i : String) (u : CodeUnit), u.path = p → (g'.units[i]? = some u ↔ g.units[i]? = some u))
    (hname : ∀ (i : String) (u : CodeUnit), u.name = c.name →
      (g'.units[i]? = some u ↔ g.units[i]? = some u)) :
    g'.CallsBy p c i j ↔ g.CallsBy p c i j := by
  simp only [CallsBy, unitsInFile_congr ht ht' hfile, unitsNamed_congr ht ht' hname]

end

/-- What links refer to depends on the nodes only. -/
lemma imports_of_tables (h : g'.tables = g.tables) {p q : String} : g'.Imports p q ↔ g.Imports p q := by
  simp only [tables, NodeTables.mk.injEq] at h
  simp only [Imports, filePaths, h.1]

lemma callsBy_of_tables (h : g'.tables = g.tables) {p : String} {c : CallSite} {i j : String} :
    g'.CallsBy p c i j ↔ g.CallsBy p c i j := by
  simp only [tables, NodeTables.mk.injEq] at h
  simp only [CallsBy, unitsInFile, unitsNamed, h.2.1, h.2.2.2.2.2.2.1, h.2.2.2.2.2.2.2.1]

/-- A document is what a world has at its path. -/
structure World.Reads (w : World) (D : Document) : Prop where
  language : w.registry.detect? D.path = some D.language
  content : ∃ content, w.tree.readAt D.path = .ok content ∧ D.fingerprint = fingerprintBytes content ∧
    w.registry.extract? (Text.lossy content) D.language = some D.extraction

/-- A path has one document. -/
lemma World.Reads.unique {w : World} {D D' : Document} (h : w.Reads D) (h' : w.Reads D')
    (hpath : D.path = D'.path) : D = D' := by
  obtain ⟨hlang, c, hread, hprint, hextract⟩ := h
  obtain ⟨hlang', c', hread', hprint', hextract'⟩ := h'
  rw [hpath] at hlang hread
  have hl : D.language = D'.language := Option.some.inj (hlang.symm.trans hlang')
  have hc : c = c' := Except.ok.inj (hread.symm.trans hread')
  subst hc
  rw [hl] at hextract
  have hx : D.extraction = D'.extraction := Option.some.inj (hextract.symm.trans hextract')
  cases D
  cases D'
  simp_all

lemma Calm.reads {w w' : World} {D : Document} (h : Calm w w') (hD : w.Reads D) : w'.Reads D where
  language := by
    rw [h.registry]
    exact hD.language
  content := by
    rw [h.registry, h.tree]
    exact hD.content

/-! ### Changing links -/

/-- Edges of one kind that leave some nodes were changed, and nothing else. -/
structure Relinks (kind : EdgeKind) (moved : NodeKey → Prop) (g g' : KnowledgeGraph) : Prop where
  tables : g'.tables = g.tables
  tidy : ∀ 𝒟, Tidy 𝒟 g → Tidy 𝒟 g'
  edge : ∀ e : GraphEdge, ¬(e.kind = kind ∧ moved e.source) →
    (g'.hasEdge e = true ↔ g.hasEdge e = true)

namespace Relinks

variable {kind : EdgeKind} {moved moved' : NodeKey → Prop} {g'' : KnowledgeGraph}

lemma refl (g : KnowledgeGraph) : Relinks kind moved g g := ⟨rfl, fun _ h => h, fun _ _ => Iff.rfl⟩

lemma trans (h : Relinks kind moved g g') (h' : Relinks kind moved' g' g'') :
    Relinks kind (fun k => moved k ∨ moved' k) g g'' where
  tables := h'.tables.trans h.tables
  tidy 𝒟 ht := h'.tidy 𝒟 (h.tidy 𝒟 ht)
  edge e he := by
    rw [h'.edge e fun ⟨hk, hm⟩ => he ⟨hk, Or.inr hm⟩, h.edge e fun ⟨hk, hm⟩ => he ⟨hk, Or.inl hm⟩]

lemma mono (h : Relinks kind moved g g') (hm : ∀ k, moved k → moved' k) : Relinks kind moved' g g' where
  tables := h.tables
  tidy := h.tidy
  edge e he := h.edge e fun ⟨hk, hmoved⟩ => he ⟨hk, hm _ hmoved⟩

lemma files (h : Relinks kind moved g g') : g'.files = g.files := congrArg NodeTables.files h.tables

lemma units (h : Relinks kind moved g g') : g'.units = g.units := congrArg NodeTables.units h.tables

end Relinks

/-- A graph stays tidy if only links between stored nodes are changed. -/
lemma Tidy.of_tables (ht : Tidy 𝒟 g) (htables : g'.tables = g.tables) (hm : g'.Mirrored)
    (hedge : ∀ kind a b, kind ≠ .imports → kind ≠ .calls →
      (g'.hasEdge ⟨kind, a, b⟩ = true ↔ g.hasEdge ⟨kind, a, b⟩ = true))
    (himports : ∀ a b, g'.hasEdge ⟨.imports, a, b⟩ = true →
      ∃ p q, a = .file p ∧ b = .file q ∧ g.files.contains p = true ∧ g.files.contains q = true)
    (hcalls : ∀ a b, g'.hasEdge ⟨.calls, a, b⟩ = true →
      ∃ i j, a = .unit i ∧ b = .unit j ∧ g.units.contains i = true ∧ g.units.contains j = true) :
    Tidy 𝒟 g' := by
  simp only [tables, NodeTables.mk.injEq] at htables
  obtain ⟨hfiles, hunits, hchunks, -, -, -, hby, hname, -, -⟩ := htables
  constructor
  case mirrored => exact hm
  case file_known =>
    rw [hfiles]
    exact ht.file_known
  case unit_known =>
    rw [hunits, hfiles]
    exact ht.unit_known
  case byFile =>
    rw [hby, hunits]
    exact ht.byFile
  case byName =>
    rw [hname, hunits]
    exact ht.byName
  case chunk_known =>
    rw [hchunks, hunits]
    exact ht.chunk_known
  case describes =>
    intro a b
    rw [hedge _ _ _ (by simp) (by simp), ht.describes, hchunks]
  case contains =>
    intro a b
    rw [hedge _ _ _ (by simp) (by simp), ht.contains, hunits]
  case imports =>
    rw [hfiles]
    exact himports
  case calls =>
    rw [hunits]
    exact hcalls

/-- What a write alone in a batch names is stored if it is admitted. -/
lemma GraphStore.found_of_apply {s s' : GraphStore} {op : WriteOp} {summary : WriteSummary}
    (h : s.apply [op] = .ok (s', summary)) {k : NodeKey} (hk : op.Names k) :
    s.graph.contains k = true := by
  obtain ⟨-, -, hflaw⟩ := GraphStore.apply_eq_ok h
  simp only [batchFlaw?, Overlay.batchFlaw?, Option.or_eq_none_iff] at hflaw
  refine Overlay.Sound.found (fun k hk => ?_) hflaw.1 hk
  simpa [Overlay.exists?] using hk

/-- Replacing the imports of a file changes the import edges that leave it, and nothing else. -/
lemma GraphStore.relinks_imports {s s' : GraphStore} {path : String} {targets : List String}
    {summary : WriteSummary} (h : s.apply [.replaceImports path targets] = .ok (s', summary)) :
    Relinks .imports (· = .file path) s.graph s'.graph := by
  have hgraph := (GraphStore.apply_eq_ok h).1
  have hfound := fun k => GraphStore.found_of_apply (k := k) h
  change s'.graph = (Draft.replaceImports { graph := s.graph } _ _).graph at hgraph
  rw [hgraph]
  constructor
  case tables => exact Draft.tables_replaceImports
  case edge =>
    intro e he
    rw [Draft.hasEdge_replaceImports]
    simp [he]
  case tidy =>
    intro 𝒟 ht
    refine ht.of_tables Draft.tables_replaceImports (Draft.mirrored_replaceImports ht.mirrored)
      (fun kind a b hi _ => ?_) (fun a b he => ?_) fun a b he => ?_
    · rw [Draft.hasEdge_replaceImports]
      simp [hi]
    · rcases Draft.hasEdge_replaceImports.mp he with ⟨⟨-, ha⟩, t, htmem, -, hb⟩ | ⟨-, he⟩
      · exact ⟨path, t, ha, hb, hfound (.file path) (Or.inl rfl),
          hfound (.file t) (Or.inr ⟨t, htmem, rfl⟩)⟩
      · exact ht.imports a b he
    · rcases Draft.hasEdge_replaceImports.mp he with ⟨⟨hk, -⟩, -⟩ | ⟨-, he⟩
      · cases hk
      · exact ht.calls a b he

/-- Replacing the calls of a file changes the call edges that leave its units, and nothing else. -/
lemma GraphStore.relinks_calls {s s' : GraphStore} {path : String} {calls : List (String × String)}
    {summary : WriteSummary} (h : s.apply [.replaceCalls path calls] = .ok (s', summary)) :
    Relinks .calls (fun k => ∃ i, k = .unit i ∧ hasEntry s.graph.unitsByFile path i = true) s.graph s'.graph := by
  have hgraph := (GraphStore.apply_eq_ok h).1
  have hfound := fun k => GraphStore.found_of_apply (k := k) h
  change s'.graph = (Draft.replaceCalls { graph := s.graph } _ _).graph at hgraph
  rw [hgraph]
  constructor
  case tables => exact Draft.tables_replaceCalls
  case edge =>
    intro e he
    have hno : ¬(e.kind = .calls ∧
        ∃ a, hasEntry s.graph.unitsByFile path a = true ∧ e.source = .unit a) := by
      rintro ⟨hk, a, ha, hs⟩
      exact he ⟨hk, a, hs, ha⟩
    rw [Draft.hasEdge_replaceCalls]
    simp [hno]
  case tidy =>
    intro 𝒟 ht
    refine ht.of_tables Draft.tables_replaceCalls (Draft.mirrored_replaceCalls ht.mirrored)
      (fun kind a b _ hc => ?_) (fun a b he => ?_) fun a b he => ?_
    · rw [Draft.hasEdge_replaceCalls]
      simp [hc]
    · rcases Draft.hasEdge_replaceCalls.mp he with ⟨⟨hk, -⟩, -⟩ | ⟨-, he⟩
      · cases hk
      · exact ht.imports a b he
    · rcases Draft.hasEdge_replaceCalls.mp he with ⟨-, i, j, hmem, -, ha, hb⟩ | ⟨-, he⟩
      · exact ⟨i, j, ha, hb, hfound (.unit i) ⟨(i, j), hmem, Or.inl rfl⟩,
          hfound (.unit j) ⟨(i, j), hmem, Or.inr rfl⟩⟩
      · exact ht.calls a b he

lemma ne_of_resolve? {p t q : String} {files : FileIndex}
    (h : RepoAtlas.Imports.resolve? p t files = some q) : q ≠ p := by
  simp only [RepoAtlas.Imports.resolve?] at h
  split at h
  · cases h
  · simpa using (Option.filter_eq_some_iff.mp h).2

namespace Linking

variable {w : World}

/-- Linking the imports of a file replaces its edges, or changes nothing. -/
lemma imports_ends (path : String) (targets : List String) (files : FileIndex) (w : World) :
    Act.Ends (fun w _ w' => Calm w w' ∧
        Relinks .imports (· = .file path) w.store.graph w'.store.graph ∧
        ∀ q, w'.store.graph.hasEdge ⟨.imports, .file path, .file q⟩ = true ↔
          ∃ t ∈ targets, RepoAtlas.Imports.resolve? path t files = some q)
      Quiet w (imports path targets files w) := by
  simp only [imports, Act.bind_apply]
  rcases h : Act.applyBatch _ w with ⟨e | summary, w'⟩
  · exact Act.applyBatch_error h
  obtain ⟨hcalm, happly⟩ := Act.applyBatch_ok h
  have hgraph := (GraphStore.apply_eq_ok happly).1
  change w'.store.graph = (Draft.replaceImports { graph := w.store.graph } _ _).graph at hgraph
  have hmem : ∀ q, q ∈ (NameSet.ofList
      ((targets.map (RepoAtlas.Imports.resolve? path · files)).filterMap id)).toList ↔
        ∃ t ∈ targets, RepoAtlas.Imports.resolve? path t files = some q := by
    intro q
    rw [Std.ExtTreeSet.mem_toList, ← Std.ExtTreeSet.contains_iff_mem, NameSet.ofList,
      contains_foldl_insert]
    simp
  refine ⟨hcalm, GraphStore.relinks_imports happly, fun q => ?_⟩
  rw [hgraph, Draft.hasEdge_replaceImports]
  simp only [hmem, true_and, not_true, false_and, or_false, NodeKey.file.injEq]
  constructor
  · rintro ⟨t, hres, -, rfl⟩
    exact hres
  · rintro ⟨t, htmem, hres⟩
    exact ⟨q, ⟨t, htmem, hres⟩, ne_of_resolve? hres, rfl⟩

/-! ### Call sites -/

/-- The names that were looked up have the units that the graph gives them. -/
def CallScan.Right (g : KnowledgeGraph) (s : CallScan) : Prop :=
  ∀ n units, s.named.lookup n = some units → units = g.unitsNamed n

lemma CallScan.candidates_ok {s s' : CallScan} {name : String} {units : List CodeUnit} {w' : World}
    (h : s.candidates name w = (.ok (units, s'), w')) (hs : s.Right w.store.graph) :
    Quiet w w' ∧ units = w.store.graph.unitsNamed name ∧ s'.Right w.store.graph ∧ s'.calls = s.calls := by
  simp only [candidates] at h
  cases hlookup : s.named.lookup name with
  | some found =>
    rw [hlookup] at h
    cases h
    exact ⟨Quiet.refl w, hs _ _ hlookup, hs, rfl⟩
  | none =>
    rw [hlookup] at h
    obtain ⟨found, w₁, hask, h⟩ := Act.bind_ok h
    cases h
    obtain ⟨hunits, hq⟩ := Act.ask_ok hask
    refine ⟨hq, hunits, fun n l hl => ?_, rfl⟩
    simp only [List.lookup_cons] at hl
    split at hl
    · rename_i hn
      cases hl
      rw [hunits, eq_of_beq hn]
    · exact hs n l hl

/-- Resolving a call site adds the call that it leads to, if there is one. -/
lemma CallScan.visit_ok {path : String} {s s' : CallScan} {c : CallSite} {w' : World}
    (h : s.visit path (w.store.graph.unitsInFile path) c w = (.ok s', w'))
    (hs : s.Right w.store.graph) :
    Quiet w w' ∧ s'.Right w.store.graph ∧ ∀ i j, (i, j) ∈ s'.calls ↔
      (i, j) ∈ s.calls ∨ w.store.graph.CallsBy path c i j := by
  simp only [CallsBy]
  simp only [visit] at h
  cases hcaller : caller? (w.store.graph.unitsInFile path) c with
  | none =>
    rw [hcaller] at h
    cases h
    exact ⟨Quiet.refl w, hs, fun i j => by simp⟩
  | some caller =>
    rw [hcaller] at h
    obtain ⟨⟨named, s₁⟩, w₁, hcand, h⟩ := Act.bind_ok h
    obtain ⟨hq, hnamed, hs₁, hcalls⟩ := candidates_ok hcand hs
    subst hnamed
    simp only at h
    cases hcallee : resolveCallee? path (w.store.graph.unitsNamed c.name) with
    | none =>
      rw [hcallee] at h
      cases h
      exact ⟨hq, hs₁, fun i j => by simp [hcalls]⟩
    | some callee =>
      rw [hcallee] at h
      simp only at h
      split at h
      · rename_i hself
        cases h
        refine ⟨hq, hs₁, fun i j => ?_⟩
        simp [hcalls, eq_of_beq hself]
      · rename_i hne
        cases h
        refine ⟨hq, hs₁, fun i j => ?_⟩
        have hne : callee.id ≠ caller.id := by simpa using hne
        simp only [List.mem_cons, hcalls, Prod.mk.injEq, Option.some.injEq]
        constructor
        · rintro (⟨rfl, rfl⟩ | h)
          · exact Or.inr ⟨caller, callee, rfl, rfl, hne, rfl, rfl⟩
          · exact Or.inl h
        · rintro (h | ⟨_, _, rfl, rfl, -, rfl, rfl⟩)
          · exact Or.inr h
          · exact Or.inl ⟨rfl, rfl⟩

lemma CallScan.visitAll_ok {path : String} (cs : List CallSite) : ∀ {s s' : CallScan} {w w' : World},
    visitAll path (w.store.graph.unitsInFile path) s cs w = (.ok s', w') → s.Right w.store.graph →
    Quiet w w' ∧ ∀ i j, (i, j) ∈ s'.calls ↔
      (i, j) ∈ s.calls ∨ ∃ c ∈ cs, w.store.graph.CallsBy path c i j := by
  induction cs with
  | nil =>
    intro s s' w w' h _
    cases h
    exact ⟨Quiet.refl w, by simp⟩
  | cons c cs ih =>
    intro s s' w w' h hs
    obtain ⟨s₁, w₁, hvisit, hrest⟩ := Act.bind_ok h
    obtain ⟨hq, hs₁, hcalls⟩ := visit_ok hvisit hs
    rw [← hq.store] at hrest hs₁
    obtain ⟨hq', hcalls'⟩ := ih hrest hs₁
    refine ⟨Quiet.trans _ _ _ hq hq', fun i j => ?_⟩
    rw [hcalls', hcalls, hq.store]
    simp [or_assoc]

/-- Linking the calls of a file that is read makes them current, or changes nothing. -/
lemma calls_ends {D : Document} (hD : w.Reads D) :
    Act.Ends (fun w r w' => Calm w w' ∧
        Relinks .calls (fun k => ∃ i, k = .unit i ∧ hasEntry w.store.graph.unitsByFile D.path i = true)
          w.store.graph w'.store.graph ∧
        (∀ 𝒟, Tidy 𝒟 w.store.graph → w'.store.graph.CallsCurrent D) ∧ r.1 = D.fingerprint)
      Quiet w (calls D.scanned w) := by
  obtain ⟨-, content, hread, hprint, hextract⟩ := hD
  rcases World.readFile_of_readAt hread with hread | hread
  case inr =>
    simp only [calls, Document.scanned, Act.bind_apply, Act.get_apply, hread]
    exact Quiet.refl w
  simp only [calls, Document.scanned, Act.bind_apply, Act.get_apply, hread, hextract]
  rcases hunits : Act.unitsInFile D.path w with ⟨e | units, w₁⟩
  · exact (Act.quiet_ask _ _).of_error hunits
  obtain ⟨rfl, hq₁⟩ := Act.ask_ok hunits
  simp only
  rcases hscan : CallScan.visitAll D.path (w.store.graph.unitsInFile D.path) {} D.extraction.calls w₁
    with ⟨e | scan, w₂⟩
  · exact Quiet.trans _ _ _ hq₁ ((Act.asks_quiet.visitAll _ _ _ _).of_error hscan)
  rw [← hq₁.store] at hscan
  obtain ⟨hq₂, hcalls⟩ := CallScan.visitAll_ok _ hscan fun n units h => by cases h
  simp only
  rcases h : Act.applyBatch [.replaceCalls D.path scan.calls.reverse] w₂ with ⟨e | summary, w₃⟩
  · exact Quiet.trans _ _ _ (Quiet.trans _ _ _ hq₁ hq₂) (Act.applyBatch_error h)
  obtain ⟨hcalm, happly⟩ := Act.applyBatch_ok h
  have hstore : w₂.store = w.store := hq₂.store.trans hq₁.store
  rw [hq₁.store] at hcalls
  rw [hstore] at happly
  have hgraph := (GraphStore.apply_eq_ok happly).1
  change w₃.store.graph = (Draft.replaceCalls { graph := w.store.graph } _ _).graph at hgraph
  have hrelinks := GraphStore.relinks_calls happly
  refine ⟨Calm.trans _ _ _ (Quiet.trans _ _ _ hq₁ hq₂).toCalm hcalm, hrelinks, fun 𝒟 ht i j u hu hp => ?_,
    hprint.symm⟩
  rw [hrelinks.units] at hu
  have hentry : hasEntry w.store.graph.unitsByFile D.path i = true := (ht.byFile _ _).mpr ⟨u, hu, hp⟩
  simp only [callsBy_of_tables hrelinks.tables]
  rw [hgraph, Draft.hasEdge_replaceCalls]
  constructor
  · rintro (⟨-, a, b, hmem, -, ha, hb⟩ | ⟨hno, -⟩)
    · cases ha
      cases hb
      simpa using (hcalls i j).mp (List.mem_reverse.mp hmem)
    · exact absurd ⟨rfl, i, hentry, rfl⟩ hno
  · rintro ⟨c, hc, hby⟩
    refine Or.inl ⟨⟨rfl, i, hentry, rfl⟩, i, j, ?_, ?_, rfl, rfl⟩
    · exact List.mem_reverse.mpr ((hcalls i j).mpr (Or.inr ⟨c, hc, hby⟩))
    · obtain ⟨caller, callee, -, -, hne, rfl, rfl⟩ := hby
      exact hne.symm

end Linking

end RepoAtlas
