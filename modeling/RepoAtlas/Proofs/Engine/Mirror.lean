import RepoAtlas.Proofs.Engine.Evolution
import RepoAtlas.Proofs.Engine.Links

/-!
# Graphs that mirror documents

A graph mirrors some documents if it holds each of them, stores no other file, and all its links are
current. Two graphs that mirror the same documents hold the same: they differ at most in the times that
they were written at and in the order of their chunks. `Evolves` tells which links stay current.
-/

namespace RepoAtlas

open KnowledgeGraph

variable {𝒟 𝒮 : Document → Prop} {vec : String → Embedding} {g g' : KnowledgeGraph} {D D' : Document}

/-! ### Graphs that hold the same -/

/-- What a file node says, apart from its time. -/
def SourceFile.timeless (f : SourceFile) : String × String × String × List String × List String :=
  (f.path, f.language, f.fingerprint, f.imports, f.callees)

/-- What a chunk says, apart from its time and its place in the order of insertion. -/
def StoredChunk.timeless (s : StoredChunk) : String × String × String × Embedding :=
  (s.chunk.id, s.chunk.unitId, s.chunk.text, s.chunk.embedding)

/-- The kinds of edges that runs over files write. -/
def EdgeKind.IsContent : EdgeKind → Prop
  | .contains | .describes | .imports | .calls => True
  | _ => False

/-- Two graphs hold the same of files: nodes and edges, apart from times and the order of chunks. -/
structure SameContents (g g' : KnowledgeGraph) : Prop where
  files : ∀ p : String, g.files[p]?.map SourceFile.timeless = g'.files[p]?.map SourceFile.timeless
  units : ∀ i : String, g.units[i]? = g'.units[i]?
  chunks : ∀ i : String, g.chunks[i]?.map StoredChunk.timeless = g'.chunks[i]?.map StoredChunk.timeless
  edges : ∀ e : GraphEdge, e.kind.IsContent → g.hasEdge e = g'.hasEdge e

/-! ### Mirrors -/

/-- The graph holds exactly some documents, and its links are current. -/
structure Mirror (vec : String → Embedding) (𝒟 𝒮 : Document → Prop) (g : KnowledgeGraph) : Prop where
  tidy : Tidy 𝒟 g
  holds : ∀ D, 𝒮 D → Holds vec g D
  stored : ∀ q, g.files.contains q = true ↔ ∃ D, 𝒮 D ∧ D.path = q
  imports : ∀ D, 𝒮 D → g.ImportsCurrent D.path
  calls : ∀ D, 𝒮 D → g.CallsCurrent D

namespace Mirror

variable (h : Mirror vec 𝒟 𝒮 g) (h' : Mirror vec 𝒟 𝒮 g')
include h h'

lemma files_le {p : String} {f : SourceFile} (hf : g.files[p]? = some f) :
    ∃ f', g'.files[p]? = some f' ∧ f'.timeless = f.timeless := by
  obtain ⟨D, hD, rfl⟩ := (h.stored p).mp (contains_iff_getElem?.mpr ⟨f, hf⟩)
  obtain ⟨t, ht⟩ := (h.holds D hD).file
  obtain ⟨t', ht'⟩ := (h'.holds D hD).file
  rw [ht] at hf
  cases hf
  exact ⟨_, ht', rfl⟩

lemma units_le {i : String} {u : CodeUnit} (hu : g.units[i]? = some u) : g'.units[i]? = some u := by
  obtain ⟨-, hfile, -⟩ := h.tidy.unit_known i u hu
  obtain ⟨D, hD, hpath⟩ := (h.stored _).mp hfile
  have := ((h.holds D hD).unit i u).mp ⟨hu, hpath.symm⟩
  exact (((h'.holds D hD).unit i u).mpr this).1

lemma chunks_le {i : String} {s : StoredChunk} (hs : g.chunks[i]? = some s) :
    ∃ s', g'.chunks[i]? = some s' ∧ s'.timeless = s.timeless := by
  obtain ⟨hid, hunit, -⟩ := h.tidy.chunk_known i s hs
  obtain ⟨v, hv⟩ := contains_iff_getElem?.mp hunit
  obtain ⟨hvid, hfile, -⟩ := h.tidy.unit_known _ v hv
  obtain ⟨D, hD, hpath⟩ := (h.stored _).mp hfile
  have hlast := ((h.holds D hD).unit _ v).mp ⟨hv, hpath.symm⟩
  obtain ⟨u, hu, rfl⟩ := (h.holds D hD).only i s hs ⟨v, (mem_of_lastUnit hlast).1, hvid⟩
  obtain ⟨s₁, hs₁, hunit₁, htext₁, hvec₁⟩ := (h.holds D hD).chunk u hu
  obtain ⟨s₂, hs₂, hunit₂, htext₂, hvec₂⟩ := (h'.holds D hD).chunk u hu
  rw [hs] at hs₁
  cases hs₁
  have hid₂ := (h'.tidy.chunk_known _ _ hs₂).1
  exact ⟨s₂, hs₂, by simp only [StoredChunk.timeless, hid, hid₂, hunit₁, hunit₂, htext₁, htext₂, hvec₁, hvec₂]⟩

lemma edges_le {e : GraphEdge} (hk : e.kind.IsContent) (he : g.hasEdge e = true) : g'.hasEdge e = true := by
  obtain ⟨kind, a, b⟩ := e
  have hunits : ∀ (i : String) (u : CodeUnit), g'.units[i]? = some u ↔ g.units[i]? = some u :=
    fun i u => ⟨units_le h' h, units_le h h'⟩
  cases kind with
  | contains =>
    obtain ⟨i, u, hu, rfl, rfl⟩ := (h.tidy.contains a b).mp he
    exact (h'.tidy.contains _ _).mpr ⟨i, u, units_le h h' hu, rfl, rfl⟩
  | describes =>
    obtain ⟨i, s, hs, rfl, rfl⟩ := (h.tidy.describes a b).mp he
    obtain ⟨s', hs', hsame⟩ := chunks_le h h' hs
    refine (h'.tidy.describes _ _).mpr ⟨i, s', hs', rfl, ?_⟩
    simp only [StoredChunk.timeless, Prod.mk.injEq] at hsame
    rw [hsame.2.1]
  | imports =>
    obtain ⟨p, q, rfl, rfl, hp, -⟩ := h.tidy.imports a b he
    obtain ⟨D, hD, rfl⟩ := (h.stored p).mp hp
    refine (h'.imports D hD q).mpr (imports_congr (fun f hf => ?_) (fun r => ?_) ((h.imports D hD q).mp he))
    · obtain ⟨f', hf', hsame⟩ := files_le h h' hf
      simp only [SourceFile.timeless, Prod.mk.injEq] at hsame
      exact ⟨f', hf', hsame.2.2.2.1⟩
    · rw [h.stored, h'.stored]
  | calls =>
    obtain ⟨i, j, rfl, rfl, hi, -⟩ := h.tidy.calls a b he
    obtain ⟨u, hu⟩ := contains_iff_getElem?.mp hi
    obtain ⟨-, hfile, -⟩ := h.tidy.unit_known i u hu
    obtain ⟨D, hD, hpath⟩ := (h.stored _).mp hfile
    obtain ⟨c, hc, hby⟩ := (h.calls D hD i j u hu hpath.symm).mp he
    refine (h'.calls D hD i j u (units_le h h' hu) hpath.symm).mpr ⟨c, hc, ?_⟩
    exact (callsBy_congr h.tidy h'.tidy (fun i u _ => hunits i u) fun i u _ => hunits i u).mpr hby
  | _ => exact hk.elim

/-- Graphs that mirror the same documents hold the same. -/
theorem same : SameContents g g' := by
  refine ⟨fun p => ?_, fun i => ?_, fun i => ?_, fun e hk => ?_⟩
  · cases hf : g.files[p]? with
    | some f =>
      obtain ⟨f', hf', hsame⟩ := files_le h h' hf
      rw [hf', Option.map_some, Option.map_some, hsame]
    | none =>
      cases hf' : g'.files[p]? with
      | none => rfl
      | some f' =>
        obtain ⟨f'', hf'', -⟩ := files_le h' h hf'
        rw [hf] at hf''
        cases hf''
  · exact Option.ext fun u => ⟨units_le h h', units_le h' h⟩
  · cases hs : g.chunks[i]? with
    | some s =>
      obtain ⟨s', hs', hsame⟩ := chunks_le h h' hs
      rw [hs', Option.map_some, Option.map_some, hsame]
    | none =>
      cases hs' : g'.chunks[i]? with
      | none => rfl
      | some s' =>
        obtain ⟨s'', hs'', -⟩ := chunks_le h' h hs'
        rw [hs] at hs''
        cases hs''
  · rw [Bool.eq_iff_iff]
    exact ⟨edges_le h h' hk, edges_le h' h hk⟩

end Mirror

/-! ### Links of graphs that hold the same -/

namespace SameContents

variable (h : SameContents g g')
include h

lemma symm : SameContents g' g :=
  ⟨fun p => (h.files p).symm, fun i => (h.units i).symm, fun i => (h.chunks i).symm,
    fun e he => (h.edges e he).symm⟩

lemma file_le {p : String} {f : SourceFile} (hf : g.files[p]? = some f) :
    ∃ f', g'.files[p]? = some f' ∧ f'.imports = f.imports := by
  have hsame := h.files p
  rw [hf, Option.map_some, eq_comm, Option.map_eq_some_iff] at hsame
  obtain ⟨f', hf', hsame⟩ := hsame
  simp only [SourceFile.timeless, Prod.mk.injEq] at hsame
  exact ⟨f', hf', hsame.2.2.2.1⟩

lemma contains_file {p : String} : g.files.contains p = true ↔ g'.files.contains p = true := by
  simp only [contains_iff_getElem?]
  constructor
  · rintro ⟨f, hf⟩
    obtain ⟨f', hf', -⟩ := h.file_le hf
    exact ⟨f', hf'⟩
  · rintro ⟨f, hf⟩
    obtain ⟨f', hf', -⟩ := h.symm.file_le hf
    exact ⟨f', hf'⟩

lemma importsCurrent {q : String} (hcurrent : g.ImportsCurrent q) : g'.ImportsCurrent q := by
  intro r
  rw [← h.edges ⟨.imports, .file q, .file r⟩ trivial, hcurrent r]
  constructor
  · exact imports_congr (fun f hf => h.file_le hf) fun r => h.contains_file
  · exact imports_congr (fun f hf => h.symm.file_le hf) fun r => h.symm.contains_file

lemma callsCurrent (ht : Tidy 𝒟 g) (ht' : Tidy 𝒟 g') (hcurrent : g.CallsCurrent D) :
    g'.CallsCurrent D := by
  intro i j u hu hpath
  have hunits : ∀ (i : String) (u : CodeUnit), g'.units[i]? = some u ↔ g.units[i]? = some u :=
    fun i u => by rw [h.units]
  rw [← h.edges ⟨.calls, .unit i, .unit j⟩ trivial, hcurrent i j u ((hunits i u).mp hu) hpath]
  exact exists_congr fun c => and_congr_right fun _ =>
    (callsBy_congr ht ht' (fun i u _ => hunits i u) fun i u _ => hunits i u).symm

end SameContents

/-! ### Links that stay current -/

namespace Evolves

variable {touched removed names orphans : String → Prop}
  (h : Evolves vec 𝒟 touched removed names orphans g g')
include h

/-- The imports of a file that was not touched stay current or out of date if the set of files stays the
same. -/
lemma importsCurrent_iff (ht : Tidy 𝒟 g) {q : String} (hq : ¬touched q)
    (hremoved : ∀ r, removed r → g.files.contains r = false)
    (hfiles : ∀ r, g'.files.contains r = true ↔ g.files.contains r = true) :
    g'.ImportsCurrent q ↔ g.ImportsCurrent q := by
  have hedge : ∀ r, g'.hasEdge ⟨.imports, .file q, .file r⟩ = true ↔
      g.hasEdge ⟨.imports, .file q, .file r⟩ = true := by
    intro r
    rw [h.imports]
    refine and_iff_left_of_imp fun he => ?_
    obtain ⟨p, s, hp, hs, hstored, hstored'⟩ := ht.imports _ _ he
    cases hp
    cases hs
    refine ⟨fun hr => ?_, fun hr => ?_⟩
    · rw [hremoved _ hr] at hstored
      cases hstored
    · rw [hremoved _ hr] at hstored'
      cases hstored'
  exact importsCurrent_congr (h.file q hq) hfiles hedge

/-- The calls of a document that was not touched stay current or out of date if no caller in it was
orphaned and it calls no affected name. -/
lemma callsCurrent_iff (ht : Tidy 𝒟 g) (hq : ¬touched D.path) (ho : ¬orphans D.path)
    (hn : ∀ c ∈ D.extraction.calls, ¬names c.name) : g'.CallsCurrent D ↔ g.CallsCurrent D := by
  have hunit : ∀ (i : String) (u : CodeUnit), u.path = D.path →
      (g'.units[i]? = some u ↔ g.units[i]? = some u) :=
    fun i u hpath => h.unit i u (by rw [hpath]; exact hq)
  have hedge : ∀ (i : String) (u : CodeUnit) b, g.units[i]? = some u → u.path = D.path →
      (g'.hasEdge ⟨.calls, .unit i, b⟩ = true ↔ g.hasEdge ⟨.calls, .unit i, b⟩ = true) :=
    fun i u b hu hpath => h.calls i u b hu (by rw [hpath]; exact hq) (by rw [hpath]; exact ho)
  have hby : ∀ i j, (∃ c ∈ D.extraction.calls, g'.CallsBy D.path c i j) ↔
      ∃ c ∈ D.extraction.calls, g.CallsBy D.path c i j := by
    intro i j
    refine exists_congr fun c => and_congr_right fun hc => callsBy_congr ht h.tidy hunit ?_
    exact fun i u hname => h.named i u (by rw [hname]; exact hn c hc)
  constructor
  · intro hcurrent i j u hu hpath
    rw [← hedge i u _ hu hpath, hcurrent i j u ((hunit i u hpath).mpr hu) hpath, hby]
  · intro hcurrent i j u hu hpath
    have hu := (hunit i u hpath).mp hu
    rw [hedge i u _ hu hpath, hcurrent i j u hu hpath, hby]

end Evolves

/-- The names that a document calls are the callees of its node. -/
lemma Document.mem_callees {t : Instant} {n : String} :
    n ∈ (D.node t).callees ↔ ∃ c ∈ D.extraction.calls, c.name = n := by
  show n ∈ (NameSet.ofList (D.extraction.calls.map (·.name))).toList ↔ _
  rw [Std.ExtTreeSet.mem_toList, ← Std.ExtTreeSet.contains_iff_mem, NameSet.ofList, contains_foldl_insert]
  simp

end RepoAtlas
