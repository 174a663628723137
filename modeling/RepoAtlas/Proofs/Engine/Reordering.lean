import Mathlib.Data.List.Permutation
import RepoAtlas.Proofs.Engine.Uploads

/-!
# The order of the writes of a stage

The jobs of a stage end in any order, and so do their writes. Uploads of different files agree in any order
up to the places of chunks, if none of them stores a chunk that another one takes away: `Upload.Entangled`
says when that happens, and then two orders do differ. It does not happen in a graph without dangling
references. Replacements of the imports of different files, and of the calls of different files, own
different edges, so all orders give the same graph.
-/

namespace RepoAtlas

open KnowledgeGraph

variable {g g₁ g₂ : KnowledgeGraph} {U A B : Upload} {Us : List Upload} {s s' : GraphStore}

/-! ### What goes with another path -/

namespace Uploaded

/-- The units of other paths are those that were stored before. -/
lemma unit_iff (h : Uploaded [U] g g₁) {i : String} {u : CodeUnit} (hp : u.path ≠ U.path) :
    g₁.units[i]? = some u ↔ g.units[i]? = some u := by
  rw [h.unit]
  simp only [List.mem_singleton, exists_eq_left, forall_eq]
  constructor
  · rintro (hu | ⟨-, hu⟩)
    · exact absurd (U.unit_path u (mem_of_lastUnit hu).1) hp
    · exact hu
  · exact fun hu => Or.inr ⟨Ne.symm hp, hu⟩

/-- The units of an upload do not go with other paths. -/
lemma not_goneFrom_unit (h : Uploaded [U] g g₁) {q : String} (hq : q ≠ U.path) {u : CodeUnit}
    (hu : u ∈ U.units) : ¬GoneFrom g₁ q (.unit u.id) := by
  rintro ⟨v, hv, rfl⟩
  obtain ⟨w, hw⟩ := lastUnit_isSome hu
  have hstored : g₁.units[u.id]? = some w := (h.unit _ _).mpr (Or.inl ⟨U, by simp, hw⟩)
  rw [hv] at hstored
  cases hstored
  exact hq (U.unit_path v (mem_of_lastUnit hw).1)

/-- After an upload, less goes with the other paths: what went with its own path is not there any more. -/
lemma goneFrom_iff (h : Uploaded [U] g g₁) {q : String} (hq : q ≠ U.path) {k : NodeKey} :
    GoneFrom g₁ q k ↔ GoneFrom g q k ∧ ¬GoneFrom g U.path k := by
  have hunit : ∀ (i : String) (u : CodeUnit), u.path = q → (g₁.units[i]? = some u ↔ g.units[i]? = some u) :=
    fun i u hp => h.unit_iff (hp ▸ hq)
  have hstays : ∀ (i : String) (u : CodeUnit), g.units[i]? = some u → u.path = q →
      ¬GoneFrom g U.path (.unit i) := by
    rintro i u hu rfl ⟨v, hv, hp⟩
    rw [hu] at hv
    cases hv
    exact hq hp
  cases k with
  | unit i =>
    constructor
    · rintro ⟨u, hu, hp⟩
      have hu := (hunit i u hp).mp hu
      exact ⟨⟨u, hu, hp⟩, hstays i u hu hp⟩
    · rintro ⟨⟨u, hu, hp⟩, -⟩
      exact ⟨u, (hunit i u hp).mpr hu, hp⟩
  | chunk c =>
    constructor
    · rintro ⟨i, u, hu, hp, he⟩
      rcases (h.edge _).mp he with ⟨V, hV, hput⟩ | ⟨he, hkept⟩
      · -- what the upload puts describes units of its own
        cases List.mem_singleton.mp hV
        cases hput with
        | describes hc =>
          obtain ⟨v, hv, hid⟩ := U.chunk_unit _ hc
          exact absurd ⟨u, hid ▸ hu, hp⟩ (h.not_goneFrom_unit hq hv)
      · exact ⟨⟨i, u, (hunit i u hp).mp hu, hp, he⟩, (hkept U (by simp)).1⟩
    · rintro ⟨⟨i, u, hu, hp, he⟩, hno⟩
      refine ⟨i, u, (hunit i u hp).mpr hu, hp, (h.edge _).mpr (Or.inr ⟨he, fun V hV => ?_⟩)⟩
      cases List.mem_singleton.mp hV
      exact ⟨hno, hstays i u hu hp⟩
  | file p | commit i | author i | revision i => exact ⟨fun h => h.elim, fun h => h.1.elim⟩

end Uploaded

/-! ### Uploads one after the other -/

namespace Upload

/-- A chunk of the first upload goes with the path of the second one, and not with its own. -/
def Entangled (A B : Upload) (g : KnowledgeGraph) : Prop :=
  ∃ c ∈ A.chunks, GoneFrom g B.path (.chunk c.id) ∧ ¬GoneFrom g A.path (.chunk c.id)

/-- Uploads of different files with chunks of their own, where no path has a colon. -/
structure Separate (Us : List Upload) (g : KnowledgeGraph) : Prop where
  distinct : Us.Pairwise fun A B => A.path ≠ B.path
  path : ∀ U ∈ Us, ':' ∉ U.path.toList
  stored : ∀ (i : String) (u : CodeUnit), g.units[i]? = some u → ':' ∉ u.path.toList
  chunk : ∀ A ∈ Us, ∀ B ∈ Us, ∀ c ∈ A.chunks, ∀ c' ∈ B.chunks, c.id = c'.id → c.unitId = c'.unitId

end Upload

lemma Uploaded.nil (g : KnowledgeGraph) : Uploaded [] g g := by
  constructor
  case history => exact Spares.refl _ g
  all_goals simp

section

variable (h : Uploaded [U] g g₁) (h' : Uploaded Us g₁ g₂) (hpath : ∀ V ∈ Us, V.path ≠ U.path)
include h

/-- An upload of another file puts the same edges after an upload as before it. -/
lemma Uploaded.puts_iff (hp : A.path ≠ U.path) {e : GraphEdge} : A.Puts g₁ e ↔ A.Puts g e := by
  have hfile : g₁.files[A.path]? = g.files[A.path]? := by
    apply Option.ext
    intro f
    rw [h.file]
    simp [Ne.symm hp]
  rw [Upload.puts_iff, Upload.puts_iff, hfile, show g₁.revisions = g.revisions from h.history.nodes.2.2]

/-- What an upload puts does not go with the path of another one, unless it is entangled with that. -/
lemma Uploaded.not_goneFrom_puts (hp : A.path ≠ U.path) (hfree : ¬U.Entangled A g) {e : GraphEdge}
    (he : U.Puts g e) : ¬GoneFrom g₁ A.path e.source ∧ ¬GoneFrom g₁ A.path e.target := by
  cases he with
  | contains hu => exact ⟨id, h.not_goneFrom_unit hp hu⟩
  | describes hc =>
    obtain ⟨u, hu, hid⟩ := U.chunk_unit _ hc
    exact ⟨fun hgone => hfree ⟨_, hc, (h.goneFrom_iff hp).mp hgone⟩, hid ▸ h.not_goneFrom_unit hp hu⟩
  | versionOf => exact ⟨id, id⟩

include h' hpath

lemma Uploaded.cons_file (p : String) (f : SourceFile) : g₂.files[p]? = some f ↔
    (∃ V ∈ U :: Us, V.path = p ∧ V.file = f) ∨ ((∀ V ∈ U :: Us, V.path ≠ p) ∧ g.files[p]? = some f) := by
  rw [h'.file, h.file]
  simp only [List.mem_singleton, exists_eq_left, forall_eq, List.exists_mem_cons_iff, List.forall_mem_cons]
  constructor
  · rintro (hf | ⟨hall, hf | ⟨hne, hf⟩⟩)
    · exact Or.inl (Or.inr hf)
    · exact Or.inl (Or.inl hf)
    · exact Or.inr ⟨⟨hne, hall⟩, hf⟩
  · rintro ((⟨rfl, hf⟩ | hf) | ⟨⟨hne, hall⟩, hf⟩)
    · exact Or.inr ⟨hpath, Or.inl ⟨rfl, hf⟩⟩
    · exact Or.inl hf
    · exact Or.inr ⟨hall, Or.inr ⟨hne, hf⟩⟩

lemma Uploaded.cons_unit (i : String) (u : CodeUnit) : g₂.units[i]? = some u ↔
    (∃ V ∈ U :: Us, lastUnit V.units i = some u) ∨
      ((∀ V ∈ U :: Us, V.path ≠ u.path) ∧ g.units[i]? = some u) := by
  rw [h'.unit, h.unit]
  simp only [List.mem_singleton, exists_eq_left, forall_eq, List.exists_mem_cons_iff, List.forall_mem_cons]
  constructor
  · rintro (hu | ⟨hall, hu | ⟨hne, hu⟩⟩)
    · exact Or.inl (Or.inr hu)
    · exact Or.inl (Or.inl hu)
    · exact Or.inr ⟨⟨hne, hall⟩, hu⟩
  · rintro ((hu | hu) | ⟨⟨hne, hall⟩, hu⟩)
    · have hp : u.path = U.path := U.unit_path u (mem_of_lastUnit hu).1
      exact Or.inr ⟨fun V hV => hp ▸ hpath V hV, Or.inl hu⟩
    · exact Or.inl hu
    · exact Or.inr ⟨hall, Or.inr ⟨hne, hu⟩⟩

lemma Uploaded.cons_byFile (p i : String) : hasEntry g₂.unitsByFile p i = true ↔
    (∃ V ∈ U :: Us, ∃ u ∈ V.units, p = u.path ∧ i = u.id) ∨
      (hasEntry g.unitsByFile p i = true ∧
        ∀ V ∈ U :: Us, V.path = p → ∀ u, g.units[i]? = some u → u.path ≠ p) := by
  have hlater : (∀ V ∈ Us, V.path = p → ∀ u, g₁.units[i]? = some u → u.path ≠ p) ↔
      ∀ V ∈ Us, V.path = p → ∀ u, g.units[i]? = some u → u.path ≠ p := by
    refine forall₂_congr fun V hV => forall_congr' fun hp => forall_congr' fun u => ?_
    constructor
    · rintro hno hu rfl
      exact hno ((h.unit_iff (hp ▸ hpath V hV)).mpr hu) rfl
    · rintro hno hu rfl
      exact hno ((h.unit_iff (hp ▸ hpath V hV)).mp hu) rfl
  rw [h'.byFile, h.byFile, hlater]
  simp only [List.mem_singleton, exists_eq_left, forall_eq, List.exists_mem_cons_iff, List.forall_mem_cons]
  constructor
  · rintro (hu | ⟨hu | ⟨hi, hfirst⟩, hall⟩)
    · exact Or.inl (Or.inr hu)
    · exact Or.inl (Or.inl hu)
    · exact Or.inr ⟨hi, hfirst, hall⟩
  · rintro ((⟨u, hu, rfl, hi⟩ | hu) | ⟨hi, hfirst, hall⟩)
    · refine Or.inr ⟨Or.inl ⟨u, hu, rfl, hi⟩, fun V hV hp => ?_⟩
      exact absurd (hp.trans (U.unit_path u hu)) (hpath V hV)
    · exact Or.inl hu
    · exact Or.inr ⟨Or.inr ⟨hi, hfirst⟩, hall⟩

variable (hfree : ∀ V ∈ Us, ¬U.Entangled V g ∧ ¬V.Entangled U g)
include hfree

lemma Uploaded.cons_edge (e : GraphEdge) : g₂.hasEdge e = true ↔ (∃ V ∈ U :: Us, V.Puts g e) ∨
    (g.hasEdge e = true ∧ ∀ V ∈ U :: Us, ¬GoneFrom g V.path e.source ∧ ¬GoneFrom g V.path e.target) := by
  have hlater : (∃ V ∈ Us, V.Puts g₁ e) ↔ ∃ V ∈ Us, V.Puts g e :=
    exists_congr fun V => and_congr_right fun hV => h.puts_iff (hpath V hV)
  rw [h'.edge, h.edge, hlater]
  simp only [List.mem_singleton, exists_eq_left, forall_eq, List.exists_mem_cons_iff, List.forall_mem_cons]
  constructor
  · rintro (hput | ⟨hput | ⟨he, hfirst⟩, hall⟩)
    · exact Or.inl (Or.inr hput)
    · exact Or.inl (Or.inl hput)
    · refine Or.inr ⟨he, hfirst, fun V hV => (hall V hV).imp ?_ ?_⟩
      · exact fun hno hgone => hno ((h.goneFrom_iff (hpath V hV)).mpr ⟨hgone, hfirst.1⟩)
      · exact fun hno hgone => hno ((h.goneFrom_iff (hpath V hV)).mpr ⟨hgone, hfirst.2⟩)
  · rintro ((hput | hput) | ⟨he, hfirst, hall⟩)
    · exact Or.inr ⟨Or.inl hput, fun V hV => h.not_goneFrom_puts (hpath V hV) (hfree V hV).1 hput⟩
    · exact Or.inl hput
    · refine Or.inr ⟨Or.inr ⟨he, hfirst⟩, fun V hV => (hall V hV).imp ?_ ?_⟩
      · exact fun hno hgone => hno ((h.goneFrom_iff (hpath V hV)).mp hgone).1
      · exact fun hno hgone => hno ((h.goneFrom_iff (hpath V hV)).mp hgone).1

/-- An upload before others, none of which is entangled with it. -/
lemma Uploaded.cons (hchunk : ∀ V ∈ Us, ∀ c ∈ U.chunks, ∀ c' ∈ V.chunks, c'.id ≠ c.id) :
    Uploaded (U :: Us) g g₂ where
  file := h.cons_file h' hpath
  unit := h.cons_unit h' hpath
  byFile := h.cons_byFile h' hpath
  chunk_new V hV c hc := by
    rcases List.mem_cons.mp hV with rfl | hV
    · -- the later uploads leave the chunk alone
      obtain ⟨old, hold, hnew⟩ := h.chunk_new V (by simp) c hc
      refine ⟨old, hold, hnew ▸ Option.ext fun s => ?_⟩
      rw [h'.chunk_old _ _ fun W hW c' hc' => hchunk W hW c hc c' hc']
      refine and_iff_left fun W hW hgone => (hfree W hW).1 ⟨c, hc, ?_⟩
      exact (h.goneFrom_iff (hpath W hW)).mp hgone
    · -- the first upload takes nothing away that does not go anyway
      obtain ⟨old, hold, hnew⟩ := h'.chunk_new V hV c hc
      refine ⟨old, fun s => ?_, hnew⟩
      rw [hold, h.chunk_old, h.goneFrom_iff (hpath V hV)]
      · simp only [List.mem_singleton, forall_eq]
        have hkept : ¬GoneFrom g V.path (.chunk c.id) → ¬GoneFrom g U.path (.chunk c.id) :=
          fun hno hgone => (hfree V hV).2 ⟨c, hc, hgone, hno⟩
        tauto
      · simp only [List.mem_singleton, forall_eq]
        exact fun c' hc' => Ne.symm (hchunk V hV c' hc' c hc)
  chunk_old i s hi := by
    rw [List.forall_mem_cons] at hi
    rw [h'.chunk_old i s hi.2, h.chunk_old i s (by simpa using hi.1), and_assoc]
    simp only [List.mem_singleton, forall_eq, List.forall_mem_cons]
    refine and_congr_right fun _ => and_congr_right fun hno => forall₂_congr fun V hV => not_congr ?_
    rw [h.goneFrom_iff (hpath V hV)]
    exact and_iff_left hno
  edge := h.cons_edge h' hpath hfree
  history := h.history.trans h'.history

end

/-! ### Runs of uploads -/

namespace Upload.Separate

/-- Chunks of different uploads have different ids: the id tells the unit, and that tells the path. -/
lemma chunk_ne (hsep : Separate (U :: Us) g) (hU : ∀ u ∈ U.units, OwnedBy U.path u.id) (hA : A ∈ Us)
    (hown : ∀ u ∈ A.units, OwnedBy A.path u.id) {c c' : SemanticChunk} (hc : c ∈ U.chunks)
    (hc' : c' ∈ A.chunks) : c'.id ≠ c.id := by
  intro hid
  obtain ⟨u, hu, hunit⟩ := U.chunk_unit c hc
  obtain ⟨v, hv, hunit'⟩ := A.chunk_unit c' hc'
  have hsame : v.id = u.id := by
    rw [hunit, hunit']
    exact hsep.chunk A (by simp [hA]) U (by simp) c' hc' c hc hid
  refine (List.pairwise_cons.mp hsep.distinct).1 A hA ?_
  exact (hU u hu).unique (hsame ▸ hown v hv) (hsep.path U (by simp)) (hsep.path A (by simp [hA]))

/-- After the first upload, the paths have no colon either. -/
lemma tail (hsep : Separate (U :: Us) g) (h : Uploaded [U] g g₁) : Separate Us g₁ where
  distinct := (List.pairwise_cons.mp hsep.distinct).2
  path V hV := hsep.path V (by simp [hV])
  stored i u hu := by
    rcases (h.unit i u).mp hu with ⟨V, hV, hlast⟩ | ⟨-, hu⟩
    · cases List.mem_singleton.mp hV
      rw [U.unit_path u (mem_of_lastUnit hlast).1]
      exact hsep.path U (by simp)
    · exact hsep.stored i u hu
  chunk A hA B hB := hsep.chunk A (by simp [hA]) B (by simp [hB])

lemma perm (hsep : Separate Us g) {l : List Upload} (hl : l.Perm Us) : Separate l g where
  distinct := (hl.pairwise_iff fun h => Ne.symm h).mpr hsep.distinct
  path U hU := hsep.path U (hl.mem_iff.mp hU)
  stored := hsep.stored
  chunk A hA B hB := hsep.chunk A (hl.mem_iff.mp hA) B (hl.mem_iff.mp hB)

end Upload.Separate

/-- An upload that a store admits. -/
lemma GraphStore.uploaded_of_apply {summary : WriteSummary} (hs : s.graph.Reachable)
    (hstored : ∀ (i : String) (u : CodeUnit), s.graph.units[i]? = some u → ':' ∉ u.path.toList)
    (hpath : ':' ∉ U.path.toList) (h : s.apply U.batch = .ok (s', summary)) :
    Uploaded [U] s.graph s'.graph ∧ ∀ u ∈ U.units, OwnedBy U.path u.id := by
  obtain ⟨hgraph, -, hflaw⟩ := apply_eq_ok h
  have hregular := Overlay.regular_of_batchFlaw? hflaw
  exact ⟨hgraph ▸ Upload.uploaded hs.wellFormed hs.shelved hstored hpath hregular,
    fun u hu => Upload.ownedBy hregular hu⟩

/-- Units of uploads that are admitted one after the other have ids of their paths. -/
lemma GraphStore.ownedBy_of_applyAll (h : s.applyAll (Us.map Upload.batch) = .ok s') :
    ∀ U ∈ Us, ∀ u ∈ U.units, OwnedBy U.path u.id := by
  induction Us generalizing s with
  | nil => simp
  | cons A Us ih =>
    obtain ⟨s₁, summary, hfirst, hrest⟩ := applyAll_cons_eq_ok.mp h
    obtain ⟨-, -, hflaw⟩ := apply_eq_ok hfirst
    rintro U (_ | ⟨_, hU⟩)
    · exact fun u hu => Upload.ownedBy (Overlay.regular_of_batchFlaw? hflaw) hu
    · exact ih hrest U hU

/-- Uploads that are not entangled do to a graph together what each of them does to it. -/
theorem GraphStore.uploaded_of_applyAll (hs : s.graph.Reachable) (hsep : Upload.Separate Us s.graph)
    (hfree : ∀ A ∈ Us, ∀ B ∈ Us, ¬A.Entangled B s.graph) (h : s.applyAll (Us.map Upload.batch) = .ok s') :
    Uploaded Us s.graph s'.graph := by
  induction Us generalizing s with
  | nil =>
    cases h
    exact .nil _
  | cons U Us ih =>
    have howned := ownedBy_of_applyAll h
    obtain ⟨s₁, summary, hfirst, hrest⟩ := applyAll_cons_eq_ok.mp h
    obtain ⟨hone, hU⟩ := uploaded_of_apply hs hsep.stored (hsep.path U (by simp)) hfirst
    have hpath : ∀ V ∈ Us, V.path ≠ U.path :=
      fun V hV => Ne.symm ((List.pairwise_cons.mp hsep.distinct).1 V hV)
    have hlater : Uploaded Us s₁.graph s'.graph := by
      refine ih (.applied hs hfirst) (hsep.tail hone) ?_ hrest
      -- what an upload takes away does not entangle the others
      rintro A hA B hB ⟨c, hc, hB', hA'⟩
      rw [hone.goneFrom_iff (hpath B hB)] at hB'
      rw [hone.goneFrom_iff (hpath A hA)] at hA'
      exact hfree A (by simp [hA]) B (by simp [hB]) ⟨c, hc, hB'.1, fun hgone => hA' ⟨hgone, hB'.2⟩⟩
    refine hone.cons hlater hpath (fun V hV => ?_) fun V hV c hc c' hc' => ?_
    · exact ⟨hfree U (by simp) V (by simp [hV]), hfree V (by simp [hV]) U (by simp)⟩
    · exact hsep.chunk_ne hU hV (howned V (by simp [hV])) hc hc'

/-! ### Orders that agree -/

namespace Uploaded

/-- Only which uploads there are matters. -/
lemma congr {Vs : List Upload} (h : Uploaded Us g g₁) (hmem : ∀ U, U ∈ Us ↔ U ∈ Vs) : Uploaded Vs g g₁ := by
  obtain ⟨hfile, hunit, hbyFile, hnew, hold, hedge, hhistory⟩ := h
  simp only [hmem] at hfile hunit hbyFile hnew hold hedge
  exact ⟨hfile, hunit, hbyFile, hnew, hold, hedge, hhistory⟩

/-- What uploads make of a graph is known up to the places of the chunks. -/
lemma unnumbered_eq (h₁ : Uploaded Us g g₁) (h₂ : Uploaded Us g g₂) (hw₁ : g₁.WellFormed)
    (hw₂ : g₂.WellFormed) : g₁.unnumbered = g₂.unnumbered := by
  have hfiles : g₁.files = g₂.files := Std.ExtTreeMap.ext_getElem? fun p => Option.ext fun f =>
    (h₁.file p f).trans (h₂.file p f).symm
  have hunits : g₁.units = g₂.units := Std.ExtTreeMap.ext_getElem? fun i => Option.ext fun u =>
    (h₁.unit i u).trans (h₂.unit i u).symm
  have hcontent : ∀ i, g₁.content i = g₂.content i := by
    intro i
    by_cases hi : ∃ U ∈ Us, ∃ c ∈ U.chunks, c.id = i
    · obtain ⟨U, hU, c, hc, rfl⟩ := hi
      obtain ⟨old₁, hold₁, hnew₁⟩ := h₁.chunk_new U hU c hc
      obtain ⟨old₂, hold₂, hnew₂⟩ := h₂.chunk_new U hU c hc
      have hsame : old₁ = old₂ := Option.ext fun s => (hold₁ s).trans (hold₂ s).symm
      rw [hnew₁, hnew₂, hsame]
    · have hno : ∀ U ∈ Us, ∀ c ∈ U.chunks, c.id ≠ i := fun U hU c hc hid => hi ⟨U, hU, c, hc, hid⟩
      exact Option.ext fun s => (h₁.chunk_old i s hno).trans (h₂.chunk_old i s hno).symm
  obtain ⟨hcommits₁, hauthors₁, hrevisions₁⟩ := h₁.history.nodes
  obtain ⟨hcommits₂, hauthors₂, hrevisions₂⟩ := h₂.history.nodes
  exact hw₁.unnumbered_eq hw₂ hfiles hunits hcontent (hcommits₁.trans hcommits₂.symm)
    (hauthors₁.trans hauthors₂.symm) (hrevisions₁.trans hrevisions₂.symm)
    (fun p i => (h₁.byFile p i).trans (h₂.byFile p i).symm) fun e => (h₁.edge e).trans (h₂.edge e).symm

end Uploaded

/-- Whatever the order in which the batches of some jobs are admitted, the same comes out. -/
def GraphStore.SameInAnyOrder {ι : Type} (s : GraphStore) (same : KnowledgeGraph → KnowledgeGraph → Prop)
    (batch : ι → WriteBatch) (jobs : List ι) : Prop :=
  ∀ (l l' : List ι) (s₁ s₂ : GraphStore), l.Perm jobs → l'.Perm jobs → s.applyAll (l.map batch) = .ok s₁ →
    s.applyAll (l'.map batch) = .ok s₂ → same s₁.graph s₂.graph

namespace GraphStore

/-- Uploads that are not entangled agree in any order. -/
lemma sameInAnyOrder_uploads (hs : s.graph.Reachable) (hsep : Upload.Separate Us s.graph)
    (hfree : ∀ A ∈ Us, ∀ B ∈ Us, ¬A.Entangled B s.graph) :
    s.SameInAnyOrder (fun g g' => g.unnumbered = g'.unnumbered) Upload.batch Us := by
  have hrun : ∀ (l : List Upload) (s' : GraphStore), l.Perm Us → s.applyAll (l.map Upload.batch) = .ok s' →
      Uploaded Us s.graph s'.graph := by
    intro l s' hl h
    refine (uploaded_of_applyAll hs (hsep.perm hl) (fun A hA B hB => ?_) h).congr fun U => hl.mem_iff
    exact hfree A (hl.mem_iff.mp hA) B (hl.mem_iff.mp hB)
  intro l l' s₁ s₂ hl hl' h h'
  exact (hrun l s₁ hl h).unnumbered_eq (hrun l' s₂ hl' h') (hs.applyAll h).wellFormed
    (hs.applyAll h').wellFormed

/-- In a graph without dangling references a chunk that describes any unit describes its own, so no upload
is entangled with another one. -/
lemma not_entangled_of_referential (hr : g.Referential) (ht : g.Traced) (hs : g.Shelved)
    (hstored : ∀ (i : String) (u : CodeUnit), g.units[i]? = some u → ':' ∉ u.path.toList)
    (hpath : ':' ∉ A.path.toList) (hown : ∀ u ∈ A.units, OwnedBy A.path u.id)
    (hchunk : ∀ c ∈ A.chunks, ∀ c', g.content c.id = some c' → c'.unitId = c.unitId) : ¬A.Entangled B g := by
  rintro ⟨c, hc, ⟨i, u, -, -, he⟩, hno⟩
  obtain ⟨stored, hstored'⟩ := contains_iff_getElem?.mp (hr.edges _ he).1
  have hunit : stored.chunk.unitId = c.unitId := hchunk c hc _ (content_eq_some.mpr ⟨stored, hstored', rfl⟩)
  obtain ⟨v, hv⟩ := contains_iff_getElem?.mp (hr.chunks _ _ hstored')
  have hedge := ht.chunk_edge _ _ hstored'
  obtain ⟨w, hw, hid⟩ := A.chunk_unit c hc
  rw [hunit, ← hid] at hv hedge
  exact hno ⟨w.id, v, hv, (hs.ownedBy hv).unique (hown w hw) (hstored _ _ hv) hpath, hedge⟩

/-- Uploads into a graph without dangling references agree in any order, if ids of chunks tell units. -/
theorem sameInAnyOrder_of_referential (hs : s.graph.Reachable) (hr : s.graph.Referential)
    (ht : s.graph.Traced) (hsep : Upload.Separate Us s.graph)
    (hchunk : ∀ U ∈ Us, ∀ c ∈ U.chunks, ∀ c', s.graph.content c.id = some c' → c'.unitId = c.unitId) :
    s.SameInAnyOrder (fun g g' => g.unnumbered = g'.unnumbered) Upload.batch Us := by
  intro l l' s₁ s₂ hl hl' h h'
  have howned := ownedBy_of_applyAll h
  refine sameInAnyOrder_uploads hs hsep (fun A hA B hB => ?_) l l' s₁ s₂ hl hl' h h'
  exact not_entangled_of_referential hr ht hs.shelved hsep.stored (hsep.path A hA)
    (howned A (hl.mem_iff.mpr hA)) (hchunk A hA)

/-! ### Orders that differ -/

/-- A chunk that goes with the path of an upload is gone in the end, unless an upload stores it. -/
lemma content_eq_none_of_applyAll {i : String} (hs : s.graph.Reachable) (hsep : Upload.Separate Us s.graph)
    (hi : ∀ U ∈ Us, ∀ c ∈ U.chunks, c.id ≠ i)
    (hgone : s.graph.content i = none ∨ ∃ U ∈ Us, GoneFrom s.graph U.path (.chunk i))
    (h : s.applyAll (Us.map Upload.batch) = .ok s') : s'.graph.content i = none := by
  induction Us generalizing s with
  | nil =>
    cases h
    simpa using hgone
  | cons U Us ih =>
    obtain ⟨s₁, summary, hfirst, hrest⟩ := applyAll_cons_eq_ok.mp h
    obtain ⟨hone, -⟩ := uploaded_of_apply hs hsep.stored (hsep.path U (by simp)) hfirst
    have hkept : ∀ c, s₁.graph.content i = some c →
        s.graph.content i = some c ∧ ¬GoneFrom s.graph U.path (.chunk i) := by
      intro c hc
      simpa using (hone.chunk_old i c (by simpa using hi U (by simp))).mp hc
    refine ih (.applied hs hfirst) (hsep.tail hone) (fun V hV => hi V (by simp [hV])) ?_ hrest
    cases hcontent : s₁.graph.content i with
    | none => exact Or.inl rfl
    | some c =>
      -- it did not go with the first upload, so it goes with a later one
      obtain ⟨hstored, hno⟩ := hkept c hcontent
      rcases hgone with hnone | ⟨V, hV, hgoneV⟩
      · rw [hnone] at hstored
        cases hstored
      · rcases List.mem_cons.mp hV with rfl | hV
        · exact absurd hgoneV hno
        · have hne := (List.pairwise_cons.mp hsep.distinct).1 V hV
          exact Or.inr ⟨V, hV, (hone.goneFrom_iff hne.symm).mpr ⟨hgoneV, hno⟩⟩

/-- After an upload its chunks are stored. -/
lemma exists_content {summary : WriteSummary} {c : SemanticChunk} (hc : c ∈ U.chunks)
    (h : s.apply U.batch = .ok (s', summary)) : ∃ c', s'.graph.content c.id = some c' := by
  rw [(apply_eq_ok h).1, Upload.batch, applyBatch_contents, Draft.content_foldl_upsertChunk]
  exact exists_putChunks hc _

/-- If an upload is entangled with another one, its chunk is gone when it comes first, and stored when it
comes last. -/
lemma not_sameInAnyOrder_of_entangled (hs : s.graph.Reachable) (hsep : Upload.Separate Us s.graph)
    (haccepted : ∀ l : List Upload, l.Perm Us → ∃ s', s.applyAll (l.map Upload.batch) = .ok s')
    (hA : A ∈ Us) (hB : B ∈ Us) (hAB : A.Entangled B s.graph) :
    ¬s.SameInAnyOrder (fun g g' => g.unnumbered = g'.unnumbered) Upload.batch Us := by
  intro hsame
  obtain ⟨c, hc, hgoneB, hgoneA⟩ := hAB
  obtain ⟨before, after, rfl⟩ := List.append_of_mem hA
  have hfirst : (A :: (before ++ after)).Perm (before ++ A :: after) := List.perm_middle.symm
  have hlast : ((before ++ after) ++ [A]).Perm (before ++ A :: after) :=
    (List.perm_append_singleton A _).trans hfirst
  obtain ⟨s₁, hs₁⟩ := haccepted _ hfirst
  obtain ⟨s₂, hs₂⟩ := haccepted _ hlast
  -- first: the chunk is stored, and goes with the path of the other upload
  have hnone : s₁.graph.content c.id = none := by
    have howned := ownedBy_of_applyAll hs₁
    obtain ⟨t, summary, happly, hrest⟩ := applyAll_cons_eq_ok.mp hs₁
    have hsep₁ := hsep.perm hfirst
    obtain ⟨hone, hA⟩ := uploaded_of_apply hs hsep₁.stored (hsep₁.path A (by simp)) happly
    refine content_eq_none_of_applyAll (.applied hs happly) (hsep₁.tail hone) ?_ (Or.inr ⟨B, ?_, ?_⟩) hrest
    · exact fun V hV c' hc' => hsep₁.chunk_ne hA hV (howned V (List.mem_cons_of_mem _ hV)) hc hc'
    · refine (List.mem_cons.mp (hfirst.mem_iff.mpr hB)).resolve_left ?_
      rintro rfl
      exact hgoneA hgoneB
    · refine (hone.goneFrom_iff ?_).mpr ⟨hgoneB, hgoneA⟩
      intro hp
      rw [hp] at hgoneB
      exact hgoneA hgoneB
  -- last: the chunk is stored, and nothing comes after it
  obtain ⟨c', hc'⟩ : ∃ c', s₂.graph.content c.id = some c' := by
    rw [List.map_append, applyAll_append_eq_ok] at hs₂
    obtain ⟨t, -, hA⟩ := hs₂
    obtain ⟨t', summary, happly, hend⟩ := applyAll_cons_eq_ok.mp hA
    cases hend
    exact exists_content hc happly
  have hcontent := congrArg (fun g => content g c.id) (hsame _ _ s₁ s₂ hfirst hlast hs₁ hs₂)
  simp only [content_unnumbered, hnone, hc'] at hcontent
  cases hcontent

end GraphStore

/-! ### Replacements of edges -/

/-- A write that owns some edges: it makes those of them that it puts, takes the others away, and leaves all
else as it is. What it owns and puts may depend on the nodes. -/
structure WriteOp.Rewrites (op : WriteOp) (t : NodeTables) (owns puts : GraphEdge → Prop) : Prop where
  tables : ∀ d : Draft, d.graph.tables = t → (d.applyOp op).graph.tables = t
  edge : ∀ d : Draft, d.graph.tables = t → ∀ e, (d.applyOp op).graph.hasEdge e = true ↔
    (owns e ∧ puts e) ∨ (¬owns e ∧ d.graph.hasEdge e = true)

namespace GraphStore

section

variable {ι : Type} {op : ι → WriteOp} {owns puts : ι → GraphEdge → Prop} {jobs : List ι} {t : NodeTables}

/-- Replacements that own different edges do together what each of them does. -/
lemma rewrites_of_applyAll (ht : s.graph.tables = t) (hop : ∀ j ∈ jobs, (op j).Rewrites t (owns j) (puts j))
    (hdisjoint : jobs.Pairwise fun j k => ∀ e, owns j e → ¬owns k e)
    (h : s.applyAll (jobs.map fun j => [op j]) = .ok s') : s'.graph.tables = t ∧
      ∀ e, s'.graph.hasEdge e = true ↔ (∃ j ∈ jobs, owns j e ∧ puts j e) ∨
        ((∀ j ∈ jobs, ¬owns j e) ∧ s.graph.hasEdge e = true) := by
  induction jobs generalizing s with
  | nil =>
    cases h
    exact ⟨ht, by simp⟩
  | cons j jobs ih =>
    obtain ⟨s₁, summary, hfirst, hrest⟩ := applyAll_cons_eq_ok.mp h
    obtain ⟨hgraph, -, -⟩ := apply_eq_ok hfirst
    have hj := hop j (by simp)
    have ht₁ : s₁.graph.tables = t := hgraph ▸ hj.tables { graph := s.graph } ht
    have he₁ : ∀ e, s₁.graph.hasEdge e = true ↔ (owns j e ∧ puts j e) ∨ (¬owns j e ∧ s.graph.hasEdge e = true) :=
      hgraph ▸ hj.edge { graph := s.graph } ht
    obtain ⟨hjobs, hlater⟩ := List.pairwise_cons.mp hdisjoint
    obtain ⟨ht', he'⟩ := ih ht₁ (fun k hk => hop k (by simp [hk])) hlater hrest
    refine ⟨ht', fun e => ?_⟩
    rw [he', he₁, List.exists_mem_cons_iff, List.forall_mem_cons]
    constructor
    · rintro (hput | ⟨hno, hput | ⟨hfree, he⟩⟩)
      · exact Or.inl (Or.inr hput)
      · exact Or.inl (Or.inl hput)
      · exact Or.inr ⟨⟨hfree, hno⟩, he⟩
    · rintro ((hput | hput) | ⟨⟨hfree, hno⟩, he⟩)
      · exact Or.inr ⟨fun k hk => hjobs k hk e hput.1, Or.inl hput⟩
      · exact Or.inl hput
      · exact Or.inr ⟨hno, Or.inr ⟨hfree, he⟩⟩

variable (op owns puts)

/-- Replacements that own different edges make the same graph in any order. -/
lemma sameInAnyOrder_rewrites (hs : s.graph.Reachable)
    (hop : ∀ j ∈ jobs, (op j).Rewrites s.graph.tables (owns j) (puts j))
    (hdisjoint : jobs.Pairwise fun j k => ∀ e, owns j e → ¬owns k e) :
    s.SameInAnyOrder Eq (fun j => [op j]) jobs := by
  have hsymm : ∀ {j k : ι}, (∀ e, owns j e → ¬owns k e) → ∀ e, owns k e → ¬owns j e :=
    fun h e hk hj => h e hj hk
  have hrun : ∀ (l : List ι) (s' : GraphStore), l.Perm jobs → s.applyAll (l.map fun j => [op j]) = .ok s' →
      s'.graph.tables = s.graph.tables ∧ ∀ e, s'.graph.hasEdge e = true ↔
        (∃ j ∈ jobs, owns j e ∧ puts j e) ∨ ((∀ j ∈ jobs, ¬owns j e) ∧ s.graph.hasEdge e = true) := by
    intro l s' hl h
    have hrewrites := rewrites_of_applyAll rfl (fun j hj => hop j (hl.mem_iff.mp hj))
      ((hl.pairwise_iff hsymm).mpr hdisjoint) h
    simpa only [hl.mem_iff] using hrewrites
  intro l l' s₁ s₂ hl hl' h h'
  obtain ⟨ht₁, he₁⟩ := hrun l s₁ hl h
  obtain ⟨ht₂, he₂⟩ := hrun l' s₂ hl' h'
  exact (hs.applyAll h).wellFormed.eq_of_tables (hs.applyAll h').wellFormed (ht₁.trans ht₂.symm)
    fun e => (he₁ e).trans (he₂ e).symm

end

/-- The imports of different files are replaced in any order. -/
lemma sameInAnyOrder_imports (hs : s.graph.Reachable) {jobs : List (String × List String)}
    (hdistinct : (jobs.map (·.1)).Nodup) :
    s.SameInAnyOrder Eq (fun j => [.replaceImports j.1 j.2]) jobs := by
  refine sameInAnyOrder_rewrites (fun j : String × List String => .replaceImports j.1 j.2)
    (fun j e => e.kind = .imports ∧ e.source = .file j.1)
    (fun j e => ∃ t ∈ j.2, t ≠ j.1 ∧ e.target = .file t) hs (fun j _ => ?_) ?_
  · exact ⟨fun d ht => Draft.tables_replaceImports.trans ht, fun d _ e => Draft.hasEdge_replaceImports⟩
  · refine (List.pairwise_map.mp hdistinct).imp fun {j k} hne e hj hk => hne ?_
    exact NodeKey.file.inj (hj.2.symm.trans hk.2)

/-- The calls of different files are replaced in any order: no unit is listed under two of them. -/
lemma sameInAnyOrder_calls (hs : s.graph.Reachable) {jobs : List (String × List (String × String))}
    (hdistinct : (jobs.map (·.1)).Nodup) (hpath : ∀ j ∈ jobs, ':' ∉ j.1.toList) :
    s.SameInAnyOrder Eq (fun j => [.replaceCalls j.1 j.2]) jobs := by
  refine sameInAnyOrder_rewrites (fun j : String × List (String × String) => .replaceCalls j.1 j.2)
    (fun j e => e.kind = .calls ∧
      ∃ a, hasEntry s.graph.tables.unitsByFile j.1 a = true ∧ e.source = .unit a)
    (fun j e => ∃ a b, (a, b) ∈ j.2 ∧ a ≠ b ∧ e.source = .unit a ∧ e.target = .unit b) hs
    (fun j _ => ?_) ?_
  · refine ⟨fun d ht => Draft.tables_replaceCalls.trans ht, fun d ht e => ?_⟩
    rw [← ht]
    exact Draft.hasEdge_replaceCalls
  · refine (List.pairwise_map.mp hdistinct).imp_of_mem fun {j k} hj hk hne e hej hek => hne ?_
    obtain ⟨-, a, ha, hsource⟩ := hej
    obtain ⟨-, b, hb, hsource'⟩ := hek
    cases hsource.symm.trans hsource'
    exact (hs.shelved.owned _ _ ha).unique (hs.shelved.owned _ _ hb) (hpath j hj) (hpath k hk)

/-- Writes of a stage that are admitted in any order. Uploads of different files agree up to the places of
chunks exactly if no upload is entangled with another one; replacements of the imports of different files,
and of the calls of different files, give the same graph. -/
theorem sameInAnyOrder (hs : s.graph.Reachable) :
    (∀ Us : List Upload, Upload.Separate Us s.graph →
      (∀ l : List Upload, l.Perm Us → ∃ s', s.applyAll (l.map Upload.batch) = .ok s') →
      (s.SameInAnyOrder (fun g g' => g.unnumbered = g'.unnumbered) Upload.batch Us ↔
        ∀ A ∈ Us, ∀ B ∈ Us, ¬A.Entangled B s.graph)) ∧
    (∀ jobs : List (String × List String), (jobs.map (·.1)).Nodup →
      s.SameInAnyOrder Eq (fun j => [.replaceImports j.1 j.2]) jobs) ∧
    ∀ jobs : List (String × List (String × String)), (jobs.map (·.1)).Nodup →
      (∀ j ∈ jobs, ':' ∉ j.1.toList) → s.SameInAnyOrder Eq (fun j => [.replaceCalls j.1 j.2]) jobs := by
  refine ⟨fun Us hsep haccepted => ⟨fun hsame A hA B hB hAB => ?_, sameInAnyOrder_uploads hs hsep⟩,
    fun jobs => sameInAnyOrder_imports hs, fun jobs => sameInAnyOrder_calls hs⟩
  exact not_sameInAnyOrder_of_entangled hs hsep haccepted hA hB hAB hsame

/-- A file with a unit and a chunk of it. -/
def callee : Upload where
  file := ⟨"a.py", "python", "f", default, [], []⟩
  units := [{ (default : CodeUnit) with id := "a.py:f", path := "a.py", name := "f", qualifiedName := "f" }]
  chunks := [⟨"c", "a.py:f", "text", [1], default⟩]
  unit_path := by simp
  chunk_unit := by simp

/-- A file with a unit that has no chunk. -/
def caller : Upload where
  file := ⟨"b.py", "python", "f", default, ["a"], ["f"]⟩
  units := [{ (default : CodeUnit) with id := "b.py:g", path := "b.py", name := "g", qualifiedName := "g" }]
  chunks := []
  unit_path := by simp
  chunk_unit := by simp

/-- The two uploads can be told apart in a graph whose units are of the two files. -/
lemma separate_twoFiles (hs : s.graph.Reachable)
    (hall : s.graph.units.values.all (fun u => u.path == "a.py" || u.path == "b.py") = true) :
    Upload.Separate [callee, caller] s.graph where
  distinct := by simp [Upload.path, callee, caller]
  path := by simp [Upload.path, callee, caller]
  stored i u hu := by
    have hkey := hs.wellFormed.indexed.units
    have hmem := List.all_eq_true.mp hall u (hkey.mem_values.mpr (by rw [hkey i u hu]; exact hu))
    simp only [Bool.or_eq_true, beq_iff_eq] at hmem
    rcases hmem with hp | hp <;> rw [hp] <;> decide
  chunk := by simp [callee, caller]

/-- Both orders of the two uploads are admitted if the runs end. -/
lemma accepted_twoFiles {bs : List WriteBatch} (hs : ({} : GraphStore).applyAll bs = .ok s)
    (hab : (({} : GraphStore).applyAll (bs ++ [callee.batch, caller.batch])).toOption.isSome = true)
    (hba : (({} : GraphStore).applyAll (bs ++ [caller.batch, callee.batch])).toOption.isSome = true)
    (l : List Upload) (hl : l.Perm [callee, caller]) : ∃ s', s.applyAll (l.map Upload.batch) = .ok s' := by
  have hperms := List.mem_permutations'.mpr hl
  simp only [List.permutations', List.permutations'Aux, List.flatMap_cons, List.flatMap_nil, List.map_cons,
    List.map_nil, List.append_nil, List.mem_cons, List.not_mem_nil, or_false] at hperms
  rcases hperms with rfl | rfl
  · exact exists_applyAll_of_append hab hs
  · exact exists_applyAll_of_append hba hs

theorem sameInAnyOrder_twoFiles : ∃ s, ({} : GraphStore).applyAll [callee.batch, caller.batch] = .ok s ∧
    (s.SameInAnyOrder (fun g g' => g.unnumbered = g'.unnumbered) Upload.batch [callee, caller] ↔
      ∀ A ∈ [callee, caller], ∀ B ∈ [callee, caller], ¬A.Entangled B s.graph) ∧
    s.SameInAnyOrder Eq (fun j => [.replaceImports j.1 j.2]) [("a.py", ["b.py"]), ("b.py", ["a.py"])] ∧
    s.SameInAnyOrder Eq (fun j => [.replaceCalls j.1 j.2])
      [("a.py", []), ("b.py", [("b.py:g", "a.py:f")])] := by
  have hunits : (({} : GraphStore).applyAll [callee.batch, caller.batch]).toOption.map (fun s =>
      s.graph.units.values.all fun u => u.path == "a.py" || u.path == "b.py") = some true := by
    decide
  cases hrun : ({} : GraphStore).applyAll [callee.batch, caller.batch] with
  | error e => simp [hrun, Except.toOption] at hunits
  | ok s =>
    have hs : s.graph.Reachable := .applyAll .empty hrun
    simp only [hrun, Except.toOption, Option.map_some, Option.some.injEq] at hunits
    have hall := sameInAnyOrder hs
    refine ⟨s, rfl, hall.1 _ (separate_twoFiles hs hunits) ?_, hall.2.1 _ ?_, hall.2.2 _ ?_ ?_⟩
    · exact accepted_twoFiles hrun (by decide) (by decide)
    · decide
    · decide
    · decide

/-- The first upload is entangled with the second one after the drifting batch: its chunk is not stored, and
describes the unit of the other file. -/
lemma entangled_drifting {s : GraphStore} (hs : ({} : GraphStore).applyAll [driftingBatch] = .ok s) :
    callee.Entangled caller s.graph := by
  have hunits : (({} : GraphStore).applyAll [driftingBatch]).toOption.map (fun s =>
      (s.graph.units["b.py:g"]?.map (·.path), s.graph.units.values.all fun u => u.path == "b.py",
        s.graph.hasEdge ⟨.describes, .chunk "c", .unit "b.py:g"⟩)) = some (some "b.py", true, true) := by
    decide
  simp only [hs, Except.toOption, Option.map_some, Option.some.injEq, Prod.mk.injEq,
    Option.map_eq_some_iff] at hunits
  obtain ⟨⟨u, hu, hp⟩, hall, hedge⟩ := hunits
  refine ⟨_, List.mem_singleton_self _, ⟨_, u, hu, hp, hedge⟩, ?_⟩
  -- no unit of the first file is stored
  rintro ⟨i, v, hv, hpath, -⟩
  have hkey := (Reachable.applyAll .empty hs).wellFormed.indexed.units
  have hmem := List.all_eq_true.mp hall v (hkey.mem_values.mpr (by rw [hkey i v hv]; exact hv))
  rw [beq_iff_eq, hpath] at hmem
  exact absurd hmem (by decide)

/-- Uploads do not agree in every order, although all orders are admitted, no path has a colon, and chunk
ids tell units: the drifting batch left an edge that takes the chunk of one upload away with the other. -/
theorem not_sameInAnyOrder :
    ¬∀ (s : GraphStore) (Us : List Upload), s.graph.Reachable → Upload.Separate Us s.graph →
      (∀ U ∈ Us, ∀ c ∈ U.chunks, ∀ c', s.graph.content c.id = some c' → c'.unitId = c.unitId) →
      (∀ l : List Upload, l.Perm Us → ∃ s', s.applyAll (l.map Upload.batch) = .ok s') →
      s.SameInAnyOrder (fun g g' => g.unnumbered = g'.unnumbered) Upload.batch Us := by
  intro hall
  have hunits : (({} : GraphStore).applyAll [driftingBatch]).toOption.map (fun s =>
      (s.graph.units.values.all (fun u => u.path == "a.py" || u.path == "b.py"),
        s.graph.chunks.isEmpty)) = some (true, true) := by
    decide
  cases hrun : ({} : GraphStore).applyAll [driftingBatch] with
  | error e => simp [hrun, Except.toOption] at hunits
  | ok s =>
    have hs : s.graph.Reachable := .applyAll .empty hrun
    simp only [hrun, Except.toOption, Option.map_some, Option.some.injEq, Prod.mk.injEq] at hunits
    have hsep := separate_twoFiles hs hunits.1
    have haccepted := accepted_twoFiles hrun (by decide) (by decide)
    refine not_sameInAnyOrder_of_entangled hs hsep haccepted (A := callee) (B := caller) (by simp) (by simp)
      (entangled_drifting hrun) (hall s _ hs hsep ?_ haccepted)
    intro U hU c hc c' hc'
    simp [content, Std.ExtTreeMap.isEmpty_iff.mp hunits.2] at hc'

end GraphStore

end RepoAtlas
