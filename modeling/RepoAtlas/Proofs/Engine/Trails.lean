import RepoAtlas.Proofs.Engine.FileRun
import RepoAtlas.Proofs.Engine.Intact
import RepoAtlas.Proofs.Engine.Undivided

/-!
# What runs pass through

Runs write by batches of four kinds: they store the document of a file, remove a file, and replace the
imports or the calls of a file. A trail lists the graphs between two graphs, each made from the one
before by one such batch. Every run moves along a trail, whatever becomes of it, and stores of several
files may come in any order. So in every graph that a history passes through all files are stored whole.
-/

namespace RepoAtlas

open KnowledgeGraph

/-- The batches of runs that store known documents, with what they replace. -/
inductive Step (𝒟 : Document → Prop) : Touch → KnowledgeGraph → KnowledgeGraph → Prop
  | store {g : KnowledgeGraph} {D : Document} (t : Instant) (cs : List SemanticChunk) : 𝒟 D →
      (∀ c ∈ cs, D.Embeds c) →
      Step 𝒟 (.contents D.path) g (g.applyBatch (Ingest.contents (D.node t) D.units cs)).graph
  | remove {g : KnowledgeGraph} (path : String) :
      Step 𝒟 (.contents path) g (g.applyBatch [.removeFile path]).graph
  | imports {g : KnowledgeGraph} (path : String) (targets : List String) :
      Step 𝒟 (.imports path) g (g.applyBatch [.replaceImports path targets]).graph
  | calls {g : KnowledgeGraph} (path : String) (calls : List (String × String)) :
      Step 𝒟 (.calls path) g (g.applyBatch [.replaceCalls path calls]).graph

/-- The graphs after each of some batches, which replace only what is in a set. -/
inductive Trail (𝒟 : Document → Prop) (S : Touch → Prop) :
    KnowledgeGraph → List KnowledgeGraph → KnowledgeGraph → Prop
  | nil (g : KnowledgeGraph) : Trail 𝒟 S g [] g
  | cons {g g' g'' : KnowledgeGraph} {l : List KnowledgeGraph} {t : Touch} : S t → Step 𝒟 t g g' →
      Trail 𝒟 S g' l g'' → Trail 𝒟 S g (g' :: l) g''

variable {𝒟 : Document → Prop} {S : Touch → Prop}

section

variable {g g' g'' : KnowledgeGraph} {l l' : List KnowledgeGraph}

lemma Trail.append (h : Trail 𝒟 S g l g') (h' : Trail 𝒟 S g' l' g'') : Trail 𝒟 S g (l ++ l') g'' := by
  induction h with
  | nil => exact h'
  | cons ht hstep _ ih => exact .cons ht hstep (ih h')

/-- What every batch preserves holds of all graphs of a trail, and of the last one. -/
lemma Trail.forall_of_step {P : KnowledgeGraph → Prop} (h : Trail 𝒟 S g l g')
    (hstep : ∀ t u v, S t → Step 𝒟 t u v → P u → P v) (hg : P g) : (∀ u ∈ l, P u) ∧ P g' := by
  induction h with
  | nil g => exact ⟨by simp, hg⟩
  | cons ht hs _ ih =>
    obtain ⟨hall, hlast⟩ := ih (hstep _ _ _ ht hs hg)
    exact ⟨by simpa using ⟨hstep _ _ _ ht hs hg, hall⟩, hlast⟩

/-- Each batch stores files whole, and leaves the others whole. -/
theorem Step.undivided {t : Touch} (hcolon : ∀ D, 𝒟 D → ':' ∉ D.path.toList) (h : Step 𝒟 t g g')
    (hg : Undivided 𝒟 (fun _ => False) g) : Undivided 𝒟 (fun _ => False) g' := by
  cases h with
  | store t cs hD hcs => exact (hg.contents (fun _ => hD) (hcolon _ hD) hcs).1
  | remove path => exact hg.removeFile (d := { graph := g }) path
  | imports path targets => exact hg.replaceImports (d := { graph := g })
  | calls path calls => exact hg.replaceCalls (d := { graph := g })

lemma Trail.undivided (hcolon : ∀ D, 𝒟 D → ':' ∉ D.path.toList) (h : Trail 𝒟 S g l g')
    (hg : Undivided 𝒟 (fun _ => False) g) :
    (∀ u ∈ l, Undivided 𝒟 (fun _ => False) u) ∧ Undivided 𝒟 (fun _ => False) g' :=
  h.forall_of_step (fun _ _ _ _ hstep hu => hstep.undivided hcolon hu) hg

end

/-! ### Actions -/

variable {w w' : World}

/-- The graph moved along a trail. -/
def Moves (𝒟 : Document → Prop) (S : Touch → Prop) (w w' : World) : Prop :=
  ∃ l, Trail 𝒟 S w.store.graph l w'.store.graph

lemma Moves.refl (w : World) : Moves 𝒟 S w w := ⟨[], .nil _⟩

lemma Moves.trans (u v w : World) (h : Moves 𝒟 S u v) (h' : Moves 𝒟 S v w) : Moves 𝒟 S u w := by
  obtain ⟨l, hl⟩ := h
  obtain ⟨l', hl'⟩ := h'
  exact ⟨l ++ l', hl.append hl'⟩

lemma Saved.moves (h : Saved w w') : Moves 𝒟 S w w' := ⟨[], h.graph ▸ .nil _⟩

/-- The graph moved along a trail, and nothing else changed that is read later. -/
structure Walks (𝒟 : Document → Prop) (S : Touch → Prop) (w w' : World) : Prop where
  calm : Calm w w'
  moves : Moves 𝒟 S w w'

lemma Walks.refl (w : World) : Walks 𝒟 S w w := ⟨Calm.refl w, Moves.refl w⟩

lemma Walks.trans (u v w : World) (h : Walks 𝒟 S u v) (h' : Walks 𝒟 S v w) : Walks 𝒟 S u w :=
  ⟨Calm.trans _ _ _ h.calm h'.calm, Moves.trans _ _ _ h.moves h'.moves⟩

lemma Quiet.walks (h : Quiet w w') : Walks 𝒟 S w w' := ⟨h.toCalm, h.saved.moves⟩

/-- What a language reads at a path is a known document. -/
def World.Offers (𝒟 : Document → Prop) (w : World) (path language : String) : Prop :=
  ∀ content x, w.tree.readAt path = .ok content → w.registry.extract? (Text.lossy content) language = some x →
    𝒟 ⟨path, language, fingerprintBytes content, x⟩

lemma Calm.offers {path language : String} (h : Calm w w') (ho : w.Offers 𝒟 path language) :
    w'.Offers 𝒟 path language := by
  intro content x hread hx
  rw [h.tree] at hread
  rw [h.registry] at hx
  exact ho content x hread hx

namespace Act

variable {α : Type}

lemma Keeps.walks {m : Act α} (h : m.Keeps Quiet) : m.Keeps (Walks 𝒟 S) := h.mono fun _ _ => Quiet.walks

lemma walks_applyBatch {b : WriteBatch} {t : Touch} (ht : S t)
    (hstep : ∀ g : KnowledgeGraph, Step 𝒟 t g (g.applyBatch b).graph) : Keeps (Walks 𝒟 S) (applyBatch b) := by
  intro w
  rcases hrun : applyBatch b w with ⟨e | summary, w'⟩
  · exact (applyBatch_error hrun).walks
  · obtain ⟨hcalm, happly⟩ := applyBatch_ok hrun
    refine ⟨hcalm, [w'.store.graph], .cons ht ?_ (.nil _)⟩
    rw [(GraphStore.apply_eq_ok happly).1]
    exact hstep _

lemma writes_walks : Writes S (Walks 𝒟 S) where
  refl := Walks.refl
  trans := Walks.trans
  query _ _ := (quiet_query _ _).walks
  now := quiet_now.walks
  cancel w c n := (quiet_cancel w c n).walks
  count := Sync.quiet_startRun.walks
  remove path hS := walks_applyBatch hS fun _ => .remove path
  imports path targets hS := walks_applyBatch hS fun _ => .imports path targets
  calls path calls hS := walks_applyBatch hS fun _ => .calls path calls

lemma writes_moves : Writes S (Moves 𝒟 S) := writes_walks.mono Moves.refl Moves.trans fun _ _ => Walks.moves

lemma saves_moves : Saves (Moves 𝒟 S) := .of_saved fun _ _ => Saved.moves

end Act

lemma Ingest.walks_file {f : ScannedFile} (ho : w.Offers 𝒟 f.path f.language) (hS : S (.contents f.path)) :
    Walks 𝒟 S w (Ingest.file f w).2 := by
  refine (Act.writes_walks (S := S)).ingest fun content x hread hx => ⟨(Act.quiet_embedAll _).walks, ?_⟩
  intro t results
  have hD := ho content x hread hx
  exact Act.walks_applyBatch hS fun g => .store t _ hD fun c => Ingest.embeds_of_mem_chunks

namespace Sync

/-- What is new or changed was collected. -/
lemma collects_of_mem_toIngest {work : Worklist} (h : work.Sorts w) {f : ScannedFile} (hf : f ∈ work.toIngest) :
    w.Collects f := by
  rcases List.mem_append.mp hf with hf | hf
  · exact ((h.new f).mp hf).1.collects
  · exact ((h.changed f).mp hf).1.collects

/-- The first part of a full run moves along a trail of what it removes and stores. -/
lemma walks_prepare (ho : ∀ f, w.Collects f → w.Offers 𝒟 f.path f.language)
    (hS : ∀ work : Worklist, work.Sorts w →
      (∀ q ∈ work.deleted, S (.contents q)) ∧ ∀ f ∈ work.toIngest, S (.contents f.path)) :
    Walks 𝒟 S w (prepare w).2 := by
  refine Act.writes_walks.prepare fun work v hscan => ?_
  have hsorts := sorts_of_quiet (quiet_start w) (scan_ok hscan).2
  obtain ⟨hdeleted, hfiles⟩ := hS work hsorts
  refine ⟨hdeleted, fun f hf u hu => Ingest.walks_file (hu.calm.offers (ho f ?_)) (hfiles f hf)⟩
  exact collects_of_mem_toIngest hsorts hf

/-- A full run moves along a trail, whatever becomes of it. -/
lemma moves_full (ho : ∀ f, w.Collects f → w.Offers 𝒟 f.path f.language)
    (hS : ∀ work : Worklist, work.Sorts w →
      (∀ q ∈ work.deleted, S (.contents q)) ∧ ∀ f ∈ work.toIngest, S (.contents f.path))
    (hlinks : ∀ q, S (.imports q) ∧ S (.calls q)) : Moves 𝒟 S w (full w).2 :=
  Act.writes_moves.full Act.saves_moves (walks_prepare ho hS).moves hlinks

/-- A run for one file moves along a trail, whatever becomes of it. -/
lemma moves_event {e : FileEvent}
    (ho : ∀ language, w.registry.detect? e.path = some language → w.Offers 𝒟 e.path language) :
    Moves 𝒟 (fun _ => True) w (event e w).2 := by
  refine Act.writes_moves.event Act.saves_moves (fun _ => trivial) fun language fingerprint v hq hlanguage => ?_
  have hoffers : v.Offers 𝒟 e.path language := hq.offers (ho language hlanguage)
  exact (Ingest.walks_file (f := ⟨e.path, language, fingerprint⟩) hoffers trivial).moves

/-! ### Histories -/

/-- The states that runs lead to, whatever becomes of them, over one set of languages and without colons in
paths. A history starts with an empty graph; between runs everything but the graph may change, also what
the store is going to refuse, so that a run may stop after any of its batches. -/
inductive Lived (r : Registry) : World → Prop
  | start {w : World} : w.store.graph = {} → Lived r w
  | edit {w w' : World} : Lived r w → w'.store.graph = w.store.graph → Lived r w'
  | full {w : World} : Lived r w → w.registry = r → (∀ f, w.Collects f → ':' ∉ f.path.toList) →
      Lived r (full w).2
  | event {w : World} (e : FileEvent) : Lived r w → w.registry = r → ':' ∉ e.path.toList →
      Lived r (event e w).2

end Sync

/-- A document that the languages of a registry read from a content, whose path has no colon. -/
structure Registry.Reads (r : Registry) (D : Document) : Prop where
  path : ':' ∉ D.path.toList
  content : ∃ content, D.fingerprint = fingerprintBytes content ∧
    r.extract? (Text.lossy content) D.language = some D.extraction

lemma World.offers_reads {path : String} (hpath : ':' ∉ path.toList) (language : String) :
    w.Offers w.registry.Reads path language := fun content _ _ hx => ⟨hpath, content, rfl, hx⟩

namespace Sync

variable {r : Registry}

/-- A history moves along a trail. -/
lemma Lived.exists_trail (h : Lived r w) : ∃ trail, Trail r.Reads (fun _ => True) {} trail w.store.graph := by
  induction h with
  | start hgraph =>
    rw [hgraph]
    exact ⟨[], .nil _⟩
  | edit _ hgraph ih =>
    rw [hgraph]
    exact ih
  | full _ hr hcolon ih =>
    obtain ⟨l, hl⟩ := ih
    subst hr
    obtain ⟨l', hl'⟩ := moves_full (S := fun _ => True)
      (fun f hf => World.offers_reads (hcolon f hf) f.language)
      (fun _ _ => ⟨fun _ _ => trivial, fun _ _ => trivial⟩) fun _ => ⟨trivial, trivial⟩
    exact ⟨l ++ l', hl.append hl'⟩
  | event e _ hr hpath ih =>
    obtain ⟨l, hl⟩ := ih
    subst hr
    obtain ⟨l', hl'⟩ := moves_event fun language _ => World.offers_reads hpath language
    exact ⟨l ++ l', hl.append hl'⟩

end Sync

/-! ### Files are never half-replaced -/

/-- Two lists of texts have the same fingerprint. -/
def Collide (a b : List String) : Prop := a ≠ b ∧ fingerprintParts a = fingerprintParts b

/-- What is stored of a file is what was read from one content. The units are exactly those of the content,
and the chunks that describe them have their texts and ids, unless definitions have names that look
numbered, which no identifier does; then the last unit of each id is stored. A chunk that describes a unit
could only be overwritten by one that is about another unit if fingerprints collide. -/
structure StoredWhole (r : Registry) (g : KnowledgeGraph) (f : SourceFile) (content : Bytes)
    (x : Extraction) : Prop where
  fingerprint : f.fingerprint = fingerprintBytes content
  extracted : r.extract? (Text.lossy content) f.language = some x
  imports : f.imports = x.imports.map (·.target)
  callees : f.callees = (NameSet.ofList (x.calls.map (·.name))).toList
  units : (∀ d ∈ x.definitions, ¬LooksNumbered d.name) →
    ∀ u, u ∈ g.unitsInFile f.path ↔ u ∈ x.definitions.map (CodeUnit.ofDefinition f.path)
  chunks : (∀ d ∈ x.definitions, ¬LooksNumbered d.name) →
    ∀ (h : String) (s : StoredChunk) u, u ∈ g.unitsInFile f.path → g.chunks[h]? = some s →
      g.hasEdge ⟨.describes, .chunk h, .unit u.id⟩ = true ∨ s.chunk.unitId = u.id →
      s.chunk.id = h ∧ h = fingerprintParts [u.id, u.chunkText] ∧
        (s.chunk.unitId = u.id ∧ s.chunk.text = u.chunkText ∨
          Collide [s.chunk.unitId, s.chunk.text] [u.id, u.chunkText])
  lastUnits : ∀ u, u ∈ g.unitsInFile f.path ↔
    ∃ i, lastUnit (x.definitions.map (CodeUnit.ofDefinition f.path)) i = some u

variable {g : KnowledgeGraph} {D : Document} {r : Registry}

lemma Undivided.mem_unitsInFile {skip : String → Prop} (hg : Undivided 𝒟 skip g) {p : String} {u : CodeUnit} :
    u ∈ g.unitsInFile p ↔ g.units[u.id]? = some u ∧ u.path = p := by
  simp only [unitsInFile, List.mem_mergeSort, List.mem_filterMap, mem_entries, hg.byFile]
  constructor
  · rintro ⟨i, ⟨v, hv, hp⟩, hu⟩
    rw [hv] at hu
    cases hu
    rw [(hg.unit i u hv).1]
    exact ⟨hv, hp⟩
  · rintro ⟨hu, hp⟩
    exact ⟨u.id, ⟨u, hu, hp⟩, hu⟩

/-- Units with distinct ids are each the last one of their ids. -/
lemma lastUnit_eq_some {l : List CodeUnit} (hl : (l.map (·.id)).Nodup) {u : CodeUnit} (hu : u ∈ l) :
    lastUnit l u.id = some u := by
  obtain ⟨v, hv⟩ := lastUnit_isSome hu
  obtain ⟨hmem, hid⟩ := mem_of_lastUnit hv
  rw [hv, List.inj_on_of_nodup_map hl hmem hu hid]

/-- The ids of the units of a document are distinct if its names do not look numbered. -/
lemma Registry.Reads.nodup_ids (h : r.Reads D)
    (hplain : ∀ d ∈ D.extraction.definitions, ¬LooksNumbered d.name) : (D.units.map (·.id)).Nodup := by
  obtain ⟨content, -, hx⟩ := h.content
  have hnames := Registry.nodup_qualifiedNames hx hplain
  have hids : D.units.map (·.id) = (D.extraction.definitions.map (·.qualifiedName)).map
      (CodeUnit.identity D.path) := by
    simp only [Document.units, List.map_map]
    rfl
  rw [hids]
  refine hnames.map fun a b hab => ?_
  simpa [CodeUnit.identity, String.append_right_inj] using hab

/-- A document that is stored whole. -/
lemma Undivided.storedWhole {skip : String → Prop} (hg : Undivided r.Reads skip g) (hD : r.Reads D)
    (hwhole : D.Whole g) {t : Instant} : ∃ content, StoredWhole r g (D.node t) content D.extraction := by
  obtain ⟨content, hprint, hx⟩ := hD.content
  have hlast : ∀ u, u ∈ g.unitsInFile D.path ↔ ∃ i, lastUnit D.units i = some u := by
    intro u
    rw [hg.mem_unitsInFile, hwhole.unit]
    refine ⟨fun h => ⟨_, h⟩, fun ⟨i, h⟩ => ?_⟩
    rw [(mem_of_lastUnit h).2]
    exact h
  have hunits : (∀ d ∈ D.extraction.definitions, ¬LooksNumbered d.name) →
      ∀ u, u ∈ g.unitsInFile D.path ↔ u ∈ D.units := by
    intro hplain u
    rw [hlast]
    exact ⟨fun ⟨i, h⟩ => (mem_of_lastUnit h).1, fun hu => ⟨_, lastUnit_eq_some (hD.nodup_ids hplain) hu⟩⟩
  refine ⟨content, ⟨hprint, hx, rfl, rfl, hunits, ?_, hlast⟩⟩
  intro hplain h s u hu hs habout
  have hmem : u ∈ D.units := (hunits hplain u).mp hu
  obtain ⟨hid, hkey, -, he⟩ := hg.chunk h s hs
  have hdescribes : g.hasEdge ⟨.describes, .chunk h, .unit u.id⟩ = true := by
    rcases habout with habout | habout
    · exact habout
    · rw [← habout]
      exact he
  -- the only unit of the document with the id is the stored one
  have honly : ∀ v ∈ D.units, v.id = u.id → v = u :=
    fun v hv hvu => List.inj_on_of_nodup_map (hD.nodup_ids hplain) hv hmem hvu
  obtain ⟨v, hv, hvid, hchunk⟩ := hwhole.describes _ _ hdescribes ⟨u, hmem, rfl⟩
  obtain rfl := honly v hv hvid
  have hprint' : h = fingerprintParts [v.id, v.chunkText] := by
    cases hchunk
    rfl
  refine ⟨hid, hprint', ?_⟩
  by_cases hunit : s.chunk.unitId = v.id
  · obtain ⟨v', hv', hvid', htext⟩ := hwhole.chunk h s hs ⟨v, hmem, hunit.symm⟩
    obtain rfl := honly v' hv' (hvid'.trans hunit)
    exact Or.inl ⟨hunit, htext.symm⟩
  · refine Or.inr ⟨fun heq => hunit (List.cons.inj heq).1, by rw [← hkey, hprint']⟩

/-- Every stored file is stored whole. -/
def FilesWhole (r : Registry) (g : KnowledgeGraph) : Prop :=
  ∀ (p : String) (f : SourceFile), g.files[p]? = some f →
    f.path = p ∧ ∃ content x, StoredWhole r g f content x

lemma Undivided.filesWhole (hg : Undivided r.Reads (fun _ => False) g) : FilesWhole r g := by
  intro p f hf
  obtain ⟨D, t, hD, rfl, rfl, hwhole⟩ := hg.file p f hf id
  obtain ⟨content, h⟩ := hg.storedWhole hD hwhole (t := t)
  exact ⟨rfl, content, D.extraction, h⟩

namespace Sync

/-- Files are never half-replaced: a history moves along a trail, whatever becomes of its runs, and in
every graph of every trail to its graph each stored file is stored whole. -/
theorem Lived.filesWhole_of_mem_trail (h : Lived r w) :
    (∃ trail, Trail r.Reads (fun _ => True) {} trail w.store.graph) ∧
      ∀ trail, Trail r.Reads (fun _ => True) {} trail w.store.graph → ∀ g ∈ {} :: trail, FilesWhole r g := by
  refine ⟨h.exists_trail, fun trail htrail g hg => ?_⟩
  rcases List.mem_cons.mp hg with rfl | hg
  · exact undivided_empty.filesWhole
  · exact ((htrail.undivided (fun _ hD => hD.path) undivided_empty).1 g hg).filesWhole

/-- A file is stored, and replaced by a run whose embedding fails. -/
theorem filesWhole_unembedded :
    (full unembedded).2.store.graph.files.contains "a.py" = true ∧
      (∃ trail, Trail (Registry.Reads {}) (fun _ => True) {} trail (full unembedded).2.store.graph) ∧
        ∀ trail, Trail (Registry.Reads {}) (fun _ => True) {} trail (full unembedded).2.store.graph →
          ∀ g ∈ {} :: trail, FilesWhole {} g := by
  have hcolon : ∀ w : World, (∀ f ∈ w.collected, ':' ∉ f.path.toList) →
      ∀ f, w.Collects f → ':' ∉ f.path.toList := fun w h f hf => h f (World.collects_iff.mp hf)
  have hdrafted : Lived {} (full .drafted).2 :=
    (Lived.start rfl).full rfl (hcolon _ (by decide +kernel))
  have hunembedded : Lived {} unembedded := hdrafted.edit rfl
  exact ⟨by decide +kernel,
    Lived.filesWhole_of_mem_trail (hunembedded.full rfl (hcolon _ (by decide +kernel)))⟩

end Sync

end RepoAtlas
