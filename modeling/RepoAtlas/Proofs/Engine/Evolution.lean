import RepoAtlas.Proofs.Engine.Contents
import RepoAtlas.Proofs.Graph.Orphans

/-!
# How runs change a graph

`Holds` says that a graph holds a document, with a chunk for each unit. Storing a document and removing a
file touch one path: what is held under other paths stays, units stay unless their name is affected,
and calls stay unless the caller was orphaned. `Evolves` states this for any number of such steps.
-/

namespace RepoAtlas

open KnowledgeGraph

variable {𝒟 : Document → Prop} {g g' g'' : KnowledgeGraph} {vec : String → Embedding} {D D' : Document}

/-- The graph holds the file, the units and the chunks of a document, and no others under its path. -/
structure Holds (vec : String → Embedding) (g : KnowledgeGraph) (D : Document) : Prop where
  file : ∃ t, g.files[D.path]? = some (D.node t)
  unit : ∀ i u, (g.units[i]? = some u ∧ u.path = D.path) ↔ lastUnit D.units i = some u
  chunk : ∀ u ∈ D.units, ∃ s, g.chunks[u.chunkId]? = some s ∧ s.chunk.unitId = u.id ∧
    s.chunk.text = u.chunkText ∧ s.chunk.embedding = vec u.chunkText
  only : ∀ i s, g.chunks[i]? = some s → (∃ u ∈ D.units, u.id = s.chunk.unitId) →
    ∃ u ∈ D.units, u.chunkId = i

/-- Chunks of units of a document with their embeddings. -/
def Embedded (vec : String → Embedding) (D : Document) (cs : List SemanticChunk) : Prop :=
  ∀ c ∈ cs, ∃ u, ChunkOf D c u ∧ c.text = u.chunkText ∧ c.embedding = vec u.chunkText

/-- A document that was stored with a chunk for each unit is held. -/
lemma Replaces.holds {t : Instant} {cs : List SemanticChunk} (hr : Replaces D t cs g g') (ha : Apart 𝒟)
    (ht : Tidy 𝒟 g) (ht' : Tidy 𝒟 g') (hD : 𝒟 D) (hcs : Embedded vec D cs)
    (hall : ∀ u ∈ D.units, ∃ c ∈ cs, c.id = u.chunkId) : Holds vec g' D where
  file := ⟨t, (hr.file _ _).mpr (Or.inl ⟨rfl, rfl⟩)⟩
  unit i u := by
    rw [hr.unit]
    constructor
    · rintro ⟨h | ⟨hne, -⟩, hp⟩
      · exact h
      · exact absurd hp hne
    · intro h
      exact ⟨Or.inl h, Document.path_of_mem_units (mem_of_lastUnit h).1⟩
  chunk u hu := by
    obtain ⟨c, hc, hid⟩ := hall u hu
    obtain ⟨s, hs, hmem⟩ := hr.chunk_new c hc
    rw [hid] at hs
    obtain ⟨u', hu', htext, hvec⟩ := hcs _ hmem
    have hkey := (ht'.chunk_known _ _ hs).1
    obtain ⟨hsame, hsame'⟩ := ha.chunk D D u' u hD hD hu'.mem hu (by rw [hu'.id, hkey])
    exact ⟨s, hs, by rw [← hu'.unit, hsame], by rw [htext, hsame'], by rw [hvec, hsame']⟩
  only i s hs hunit := by
    obtain ⟨u, hu, hid⟩ := hunit
    by_cases hnew : ∃ c ∈ cs, c.id = i
    · obtain ⟨c, hc, rfl⟩ := hnew
      obtain ⟨u', hu', -⟩ := hcs c hc
      exact ⟨u', hu'.mem, hu'.id⟩
    · -- an older chunk would belong to a unit that went
      obtain ⟨hs, hno⟩ := (hr.chunk_old i s fun c hc hi => hnew ⟨c, hc, hi⟩).mp hs
      obtain ⟨-, hstored, -⟩ := ht.chunk_known _ _ hs
      obtain ⟨v, hv⟩ := contains_iff_getElem?.mp hstored
      exact absurd ⟨s, v, hs, hv, ht.path_eq ha hv hD hu hid⟩ hno

/-- A document stays held if its file, its units and the chunks of its units stay. -/
lemma Holds.of_same (h : Holds vec g D) (hfile : g'.files[D.path]? = g.files[D.path]?)
    (hunit : ∀ (i : String) (u : CodeUnit), u.path = D.path → (g'.units[i]? = some u ↔ g.units[i]? = some u))
    (hchunk : ∀ (i : String) (s : StoredChunk), (∃ u ∈ D.units, u.id = s.chunk.unitId) →
      (g'.chunks[i]? = some s ↔ g.chunks[i]? = some s)) : Holds vec g' D where
  file := by
    rw [hfile]
    exact h.file
  unit i u := by
    rw [← h.unit i u]
    exact and_congr_left fun hp => hunit i u hp
  chunk u hu := by
    obtain ⟨s, hs, hid, hrest⟩ := h.chunk u hu
    exact ⟨s, (hchunk _ s ⟨u, hu, hid.symm⟩).mpr hs, hid, hrest⟩
  only i s hs hunits := h.only i s ((hchunk i s hunits).mp hs) hunits

/-- A chunk of a unit of a document is under no path but that of the document. -/
lemma Tidy.not_contentOf_chunk (ht : Tidy 𝒟 g) (ha : Apart 𝒟) (hD : 𝒟 D) {path i : String} {s : StoredChunk}
    (hs : g.chunks[i]? = some s) (hunits : ∃ u ∈ D.units, u.id = s.chunk.unitId) (hne : D.path ≠ path) :
    ¬ContentOf g path (.chunk i) := by
  obtain ⟨u, hu, hid⟩ := hunits
  rintro ⟨s', v, hs', hv, hp⟩
  rw [hs] at hs'
  cases hs'
  exact hne (by rw [← ht.path_eq ha hv hD hu hid, hp])

/-- A chunk of a unit of a document has not the id of a chunk of another document. -/
lemma Tidy.id_ne_of_chunkOf (ht : Tidy 𝒟 g) (ha : Apart 𝒟) (hD : 𝒟 D) (hD' : 𝒟 D') {i : String}
    {s : StoredChunk} {c : SemanticChunk} {u : CodeUnit} (hs : g.chunks[i]? = some s)
    (hunits : ∃ u ∈ D.units, u.id = s.chunk.unitId) (hne : D.path ≠ D'.path) (hc : ChunkOf D' c u) : c.id ≠ i := by
  rintro rfl
  obtain ⟨v, hv, hid⟩ := hunits
  obtain ⟨-, -, D₁, u₁, hD₁, hu₁, hid₁, hunit₁⟩ := ht.chunk_known _ s hs
  have hsame := (ha.chunk D' D₁ u u₁ hD' hD₁ hc.mem hu₁ (by rw [hc.id, hid₁])).1
  exact hne (ha.unit D' D u v hD' hD hc.mem hv (by rw [hsame, hunit₁, hid])).symm

/-- What a part of a run did to a graph: it touched some paths, of which some were removed; units of
other than some names, and calls of files other than some orphans, are as before. -/
structure Evolves (vec : String → Embedding) (𝒟 : Document → Prop)
    (touched removed names orphans : String → Prop) (g g' : KnowledgeGraph) : Prop where
  tidy : Tidy 𝒟 g'
  file : ∀ q, ¬touched q → g'.files[q]? = g.files[q]?
  holds : ∀ D, 𝒟 D → ¬touched D.path → Holds vec g D → Holds vec g' D
  unit : ∀ (i : String) (u : CodeUnit), ¬touched u.path → (g'.units[i]? = some u ↔ g.units[i]? = some u)
  named : ∀ (i : String) (u : CodeUnit), ¬names u.name → (g'.units[i]? = some u ↔ g.units[i]? = some u)
  imports : ∀ p q, g'.hasEdge ⟨.imports, .file p, .file q⟩ = true ↔
    g.hasEdge ⟨.imports, .file p, .file q⟩ = true ∧ ¬removed p ∧ ¬removed q
  calls : ∀ (i : String) (u : CodeUnit) b, g.units[i]? = some u → ¬touched u.path → ¬orphans u.path →
    (g'.hasEdge ⟨.calls, .unit i, b⟩ = true ↔ g.hasEdge ⟨.calls, .unit i, b⟩ = true)

namespace Evolves

variable {touched touched' removed removed' names names' orphans orphans' : String → Prop}

lemma refl (ht : Tidy 𝒟 g) (hremoved : ∀ q, ¬removed q) :
    Evolves vec 𝒟 touched removed names orphans g g where
  tidy := ht
  file _ _ := rfl
  holds _ _ _ h := h
  unit _ _ _ := Iff.rfl
  named _ _ _ := Iff.rfl
  imports p q := by simp [hremoved]
  calls _ _ _ _ _ _ := Iff.rfl

lemma trans (h : Evolves vec 𝒟 touched removed names orphans g g')
    (h' : Evolves vec 𝒟 touched' removed' names' orphans' g' g'') :
    Evolves vec 𝒟 (fun q => touched q ∨ touched' q) (fun q => removed q ∨ removed' q)
      (fun n => names n ∨ names' n) (fun q => orphans q ∨ orphans' q) g g'' where
  tidy := h'.tidy
  file q hq := by
    rw [not_or] at hq
    rw [h'.file q hq.2, h.file q hq.1]
  holds D hD hq hh := by
    rw [not_or] at hq
    exact h'.holds D hD hq.2 (h.holds D hD hq.1 hh)
  unit i u hq := by
    rw [not_or] at hq
    rw [h'.unit i u hq.2, h.unit i u hq.1]
  named i u hn := by
    rw [not_or] at hn
    rw [h'.named i u hn.2, h.named i u hn.1]
  imports p q := by
    rw [h'.imports, h.imports]
    tauto
  calls i u b hu hq ho := by
    rw [not_or] at hq ho
    rw [h'.calls i u b ((h.unit i u hq.1).mpr hu) hq.2 ho.2, h.calls i u b hu hq.1 ho.1]

/-- The exact sets do not matter where they are only avoided. -/
lemma mono (h : Evolves vec 𝒟 touched removed names orphans g g') (htouched : ∀ q, touched q → touched' q)
    (hremoved : ∀ q, removed q ↔ removed' q) (hnames : ∀ n, names n → names' n)
    (horphans : ∀ q, orphans q → orphans' q) :
    Evolves vec 𝒟 touched' removed' names' orphans' g g' where
  tidy := h.tidy
  file q hq := h.file q fun hq' => hq (htouched q hq')
  holds D hD hq hh := h.holds D hD (fun hq' => hq (htouched _ hq')) hh
  unit i u hq := h.unit i u fun hq' => hq (htouched _ hq')
  named i u hn := h.named i u fun hn' => hn (hnames _ hn')
  imports p q := by
    rw [h.imports, hremoved, hremoved]
  calls i u b hu hq ho :=
    h.calls i u b hu (fun hq' => hq (htouched _ hq')) fun ho' => ho (horphans _ ho')

end Evolves

/-! ### Storing a document -/

/-- Callers of other files are orphaned when the contents of a file go. -/
lemma Tidy.orphaned_clearFile {path : String} (ht : Tidy 𝒟 g) {i j : String} {u v : CodeUnit}
    (hv : g.units[i]? = some v) (hu : g.units[j]? = some u) (hpath : u.path = path)
    (hne : v.path ≠ path) (hcall : g.hasEdge ⟨.calls, .unit i, .unit j⟩ = true) :
    (Draft.clearFile { graph := g } path).Orphaned v.path := by
  have hlisted : ∀ k ∈ entries g.unitsByFile path, ∀ w, g.units[k]? = some w → w.path = path := by
    intro k hk w hw
    obtain ⟨w', hw', hp⟩ := (ht.byFile _ _).mp (mem_entries.mp hk)
    rw [hw] at hw'
    cases hw'
    exact hp
  refine (Draft.orphaned_foldl_removeUnit (d := { graph := g }) ht.mirrored hlisted).mpr (Or.inr ?_)
  exact ⟨hne, i, v, j, u, hv, rfl, mem_entries.mpr ((ht.byFile _ _).mpr ⟨u, hu, hpath⟩), hu, hcall⟩

lemma orphaned_contents {t : Instant} {cs : List SemanticChunk} {q : String}
    (h : (Draft.clearFile { graph := g } D.path).Orphaned q) :
    (g.applyBatch (Ingest.contents (D.node t) D.units cs)).Orphaned q := by
  rw [applyBatch_contents, Draft.orphaned_foldl_upsertChunk, Draft.orphaned_foldl_upsertUnit,
    Draft.orphaned_upsertFile]
  exact h

/-- Storing a document touches its path and affects the names of its units, before and after. -/
lemma Tidy.evolves_contents (vec : String → Embedding) {t : Instant} {cs : List SemanticChunk}
    (ha : Apart 𝒟) (ht : Tidy 𝒟 g) (hD : 𝒟 D) (hcs : ∀ c ∈ cs, ∃ u, ChunkOf D c u) (names : String → Prop)
    (hold : ∀ (i : String) (u : CodeUnit), g.units[i]? = some u → u.path = D.path → names u.name)
    (hnew : ∀ u ∈ D.units, names u.name) :
    Evolves vec 𝒟 (· = D.path) (fun _ => False) names
      (g.applyBatch (Ingest.contents (D.node t) D.units cs)).Orphaned g
      (g.applyBatch (Ingest.contents (D.node t) D.units cs)).graph := by
  obtain ⟨ht', hr⟩ := ht.replaces (t := t) ha hD hcs
  have hunit : ∀ (i : String) (u : CodeUnit), u.path ≠ D.path →
      ((g.applyBatch (Ingest.contents (D.node t) D.units cs)).graph.units[i]? = some u ↔
        g.units[i]? = some u) := by
    intro i u hne
    rw [hr.unit]
    constructor
    · rintro (h | ⟨-, h⟩)
      · exact absurd (Document.path_of_mem_units (mem_of_lastUnit h).1) hne
      · exact h
    · exact fun h => Or.inr ⟨hne, h⟩
  constructor
  case tidy => exact ht'
  case file =>
    intro q hq
    apply Option.ext
    intro f
    rw [hr.file]
    simp [hq]
  case holds =>
    intro D' hD' hne hh
    refine hh.of_same (Option.ext fun f => ?_) (fun i u hp => hunit i u (by rw [hp]; exact hne))
      fun i s hunits => ?_
    · rw [hr.file]
      simp [hne]
    · -- chunks of the two documents have different ids
      have hids : ∀ {g : KnowledgeGraph}, Tidy 𝒟 g → g.chunks[i]? = some s → ∀ c ∈ cs, c.id ≠ i := by
        intro g ht hs c hc
        obtain ⟨u, hu⟩ := hcs c hc
        exact ht.id_ne_of_chunkOf ha hD' hD hs hunits hne hu
      constructor
      · exact fun hs => ((hr.chunk_old i s (hids ht' hs)).mp hs).1
      · exact fun hs => (hr.chunk_old i s (hids ht hs)).mpr ⟨hs, ht.not_contentOf_chunk ha hD' hs hunits hne⟩
  case unit => exact hunit
  case named =>
    intro i u hn
    by_cases hp : u.path = D.path
    · constructor
      · intro h
        rcases (hr.unit i u).mp h with h | ⟨hne, -⟩
        · exact absurd (hnew u (mem_of_lastUnit h).1) hn
        · exact absurd hp hne
      · exact fun h => absurd (hold i u h hp) hn
    · exact hunit i u hp
  case imports =>
    intro p q
    rw [hr.imports]
    simp
  case calls =>
    intro i u b hu hne ho
    rw [hr.calls]
    refine and_iff_left_of_imp fun he => ⟨?_, ?_⟩
    · rintro ⟨v, hv, hp⟩
      rw [hu] at hv
      cases hv
      exact hne hp
    · obtain ⟨-, j, -, rfl, -, -⟩ := ht.calls _ _ he
      rintro ⟨v, hv, hp⟩
      exact ho (orphaned_contents (ht.orphaned_clearFile hu hv hp hne he))

/-! ### Removing a file -/

/-- A file that was stored counts as a node that went. -/
lemma nodesRemoved_removeFile {path : String} (hm : g.Mirrored) (h : g.files.contains path = true) :
    0 < (g.applyBatch [.removeFile path]).summary.nodesRemoved := by
  have hr := Draft.removes_clearFile (d := { graph := g }) hm path
  have hstays := (hr.contains_iff (.file path)).mpr ⟨h, Draft.goneWithContents_file⟩
  have hstays : ((Draft.clearFile { graph := g } path).detach (.file path)).graph.files.contains path
      = true := hstays
  show 0 < (Draft.removeFile { graph := g } path).summary.nodesRemoved
  simp only [Draft.removeFile, if_pos hstays, Draft.removedNode]
  omega

/-- Removing a file touches its path and affects the names of its units. -/
lemma Tidy.evolves_removeFile (vec : String → Embedding) (path : String) (ha : Apart 𝒟) (ht : Tidy 𝒟 g)
    (names : String → Prop)
    (hold : ∀ (i : String) (u : CodeUnit), g.units[i]? = some u → u.path = path → names u.name) :
    Evolves vec 𝒟 (· = path) (· = path) names (g.applyBatch [.removeFile path]).Orphaned g
        (g.applyBatch [.removeFile path]).graph ∧
      (g.applyBatch [.removeFile path]).graph.files[path]? = none := by
  obtain ⟨hr, ht'⟩ := ht.removeFile (d := { graph := g }) path
  change Removes _ g (g.applyBatch [.removeFile path]).graph at hr
  change Tidy 𝒟 (g.applyBatch [.removeFile path]).graph at ht'
  generalize hd : g.applyBatch [.removeFile path] = d at *
  have hunit : ∀ (i : String) (u : CodeUnit), u.path ≠ path →
      (d.graph.units[i]? = some u ↔ g.units[i]? = some u) := by
    intro i u hne
    rw [hr.unit]
    refine and_iff_left_of_imp fun hu => ?_
    rintro (⟨u', hu', hp⟩ | h)
    · rw [hu] at hu'
      cases hu'
      exact hne hp
    · cases h
  have hfile : ∀ (q : String) (f : SourceFile), q ≠ path →
      (d.graph.files[q]? = some f ↔ g.files[q]? = some f) := by
    intro q f hq
    rw [hr.file]
    refine and_iff_left ?_
    rintro (h | h)
    · exact h.elim
    · cases h
      exact hq rfl
  refine ⟨?_, ?_⟩
  · constructor
    case tidy => exact ht'
    case file =>
      intro q hq
      exact Option.ext fun f => hfile q f hq
    case holds =>
      intro D' hD' hne hh
      refine hh.of_same (Option.ext fun f => hfile _ f hne) (fun i u hp => hunit i u (by rw [hp]; exact hne))
        fun i s hunits => ?_
      rw [hr.chunk]
      refine and_iff_left_of_imp fun hs => ?_
      rintro (hgone | h)
      · exact ht.not_contentOf_chunk ha hD' hs hunits hne hgone
      · cases h
    case unit => exact hunit
    case named =>
      intro i u hn
      by_cases hp : u.path = path
      · exact ⟨fun h => absurd (hold i u ((hr.unit i u).mp h).1 hp) hn, fun h => absurd (hold i u h hp) hn⟩
      · exact hunit i u hp
    case imports =>
      intro p q
      rw [hr.edge]
      simp [ContentOf]
    case calls =>
      intro i u b hu hne ho
      rw [hr.edge]
      refine and_iff_left_of_imp fun he => ⟨?_, ?_⟩
      · rintro (⟨v, hv, hp⟩ | h)
        · rw [hu] at hv
          cases hv
          exact hne hp
        · cases h
      · obtain ⟨-, j, -, rfl, -, -⟩ := ht.calls _ _ he
        rintro (⟨v, hv, hp⟩ | h)
        · subst hd
          exact ho (Draft.orphaned_removeFile.mpr (ht.orphaned_clearFile hu hv hp hne he))
        · cases h
  · rw [Option.eq_none_iff_forall_ne_some]
    intro f hf
    exact ((hr.file _ _).mp hf).2 (Or.inr rfl)

end RepoAtlas
