import RepoAtlas.Proofs.Engine.Preparing

/-!
# What the progress of a run records

The progress of a run tells which files it removed and which documents it stored. `Recorded` says that the
table of files agrees with it: what was removed is gone, what was stored is there, and other files are as
before. Each step of the first part of a run preserves this, whatever the graph holds besides.
-/

namespace RepoAtlas

open KnowledgeGraph

/-! ### The table of files -/

namespace Draft

lemma files_foldl {β : Type} {op : Draft → β → Draft}
    (hop : ∀ d b, (op d b).graph.files = d.graph.files) (l : List β) (d : Draft) :
    (l.foldl op d).graph.files = d.graph.files := by
  induction l generalizing d with
  | nil => rfl
  | cons b l ih => rw [List.foldl_cons, ih, hop]

lemma files_removeUnit (d : Draft) (id : String) : (d.removeUnit id).graph.files = d.graph.files := by
  have hchunk : ∀ (d : Draft) id, (d.removeChunk id).graph.files = d.graph.files := by
    intro d id
    simp only [removeChunk]
    split <;> rfl
  have horphan : ∀ path (d : Draft) caller, (d.orphan path caller).graph.files = d.graph.files := by
    intro path d caller
    simp only [orphan]
    split
    · split <;> rfl
    · rfl
  simp only [removeUnit]
  split
  · rfl
  · simp only [removedNode, detach, KnowledgeGraph.detach]
    rw [files_foldl (horphan _), files_foldl hchunk]

lemma files_clearFile (d : Draft) (path : String) : (d.clearFile path).graph.files = d.graph.files :=
  files_foldl files_removeUnit _ _

lemma files_removeFile (d : Draft) (path : String) {q : String} (hq : q ≠ path) :
    (d.removeFile path).graph.files[q]? = d.graph.files[q]? := by
  have hcleared : ((d.clearFile path).detach (.file path)).graph.files = d.graph.files :=
    files_clearFile d path
  simp only [removeFile]
  split
  · show (((d.clearFile path).detach (.file path)).graph.files.erase path)[q]? = _
    rw [hcleared, Std.ExtTreeMap.getElem?_erase, if_neg]
    exact fun h => hq (Std.LawfulEqCmp.eq_of_compare h).symm
  · rw [hcleared]

lemma file_removeFile (d : Draft) (path : String) : (d.removeFile path).graph.files[path]? = none := by
  simp only [removeFile]
  split
  · exact Std.ExtTreeMap.getElem?_erase_self
  · rename_i hno
    rw [Option.eq_none_iff_forall_ne_some]
    exact fun f hf => hno (contains_iff_getElem?.mpr ⟨f, hf⟩)

lemma files_upsertUnit (d : Draft) (u : CodeUnit) : (d.upsertUnit u).graph.files = d.graph.files := by
  by_cases h : d.graph.units[u.id]? = some u
  · rw [upsertUnit_of_eq h]
  · exact congrArg NodeTables.files (tables_upsertUnit h)

lemma files_upsertChunk (d : Draft) (c : SemanticChunk) : (d.upsertChunk c).graph.files = d.graph.files := by
  obtain ⟨stored, n, -, -, htables⟩ := tables_upsertChunk d c
  exact congrArg NodeTables.files htables

end Draft

/-- The batch that stores a document puts its file. -/
lemma files_contents (g : KnowledgeGraph) (f : SourceFile) (units : List CodeUnit) (cs : List SemanticChunk) :
    (g.applyBatch (Ingest.contents f units cs)).graph.files = g.files.insert f.path f := by
  rw [applyBatch_contents, Draft.files_foldl Draft.files_upsertChunk, Draft.files_foldl Draft.files_upsertUnit,
    show (((Draft.clearFile { graph := g } f.path).upsertFile f).graph.files) = _ from
      congrArg NodeTables.files Draft.tables_upsertFile]
  show (Draft.clearFile { graph := g } f.path).graph.files.insert f.path f = _
  rw [Draft.files_clearFile]

namespace Ingest.Stores

variable {D : Document} {f : IngestedFile} {w w' : World}

/-- Storing a document puts its file and leaves the other files alone. -/
lemma files (h : Stores D f w w') :
    ∃ t, w'.store.graph.files = w.store.graph.files.insert D.path (D.node t) := by
  obtain ⟨t, cs, -, hgraph, -⟩ := h.batch
  rw [hgraph, files_contents, Document.node_path]
  exact ⟨t, rfl⟩

lemma file_self (h : Stores D f w w') : ∃ t, w'.store.graph.files[D.path]? = some (D.node t) := by
  obtain ⟨t, ht⟩ := h.files
  exact ⟨t, by rw [ht, Std.ExtTreeMap.getElem?_insert_self]⟩

lemma file_other (h : Stores D f w w') {q : String} (hq : q ≠ D.path) :
    w'.store.graph.files[q]? = w.store.graph.files[q]? := by
  obtain ⟨t, ht⟩ := h.files
  rw [ht, Std.ExtTreeMap.getElem?_insert, if_neg]
  exact fun heq => hq (Std.LawfulEqCmp.eq_of_compare heq).symm

end Ingest.Stores

namespace Sync

variable {w₀ w w' : World} {p : Progress}

/-- The files are as the progress of a run says. -/
structure Recorded (w₀ : World) (p : Progress) (w : World) : Prop where
  calm : Calm w₀ w
  gone : ∀ q, p.Removed q → p.ingested.contains q = false → w.store.graph.files[q]? = none
  stored : ∀ (q : String) (f : IngestedFile), p.ingested[q]? = some f → ∃ D t, w₀.Shows D ∧
    D.path = q ∧ f.path = q ∧ f.fingerprint = D.fingerprint ∧
    w.store.graph.files[q]? = some (D.node t) ∧ f.imports = (D.node t).imports
  kept : ∀ q, ¬p.Touched q → w.store.graph.files[q]? = w₀.store.graph.files[q]?
  complete : p.report.failures = [] → ∀ (q : String) (f : IngestedFile), p.ingested[q]? = some f →
    f.isComplete = true
  deleted : 0 < p.report.filesDeleted ↔ ∃ q, p.Removed q
  updates : ∀ u, u ∈ p.updates ↔ ∃ q, p.Removed q ∧ (u = (.file q, none) ∨ u = (.callGraph q, none))

namespace Recorded

lemma begin (work : Worklist) (hq : Quiet w₀ w) : Recorded w₀ (begin work) w where
  calm := hq.toCalm
  gone q h := by cases h
  stored q f h := by
    have : (∅ : Std.ExtTreeMap String IngestedFile)[q]? = some f := h
    simp at this
  kept q _ := by rw [hq.store]
  complete _ q f h := by
    have : (∅ : Std.ExtTreeMap String IngestedFile)[q]? = some f := h
    simp at this
  deleted := by
    constructor
    · intro h
      exact absurd h (Nat.lt_irrefl 0)
    · rintro ⟨q, h⟩
      cases h
  updates u := by
    constructor
    · intro h
      cases h
    · rintro ⟨q, h, -⟩
      cases h

lemma quiet (h : Recorded w₀ p w) (hq : Quiet w w') : Recorded w₀ p w' := by
  obtain ⟨hcalm, hgone, hstored, hkept, hcomplete, hdeleted, hupdates⟩ := h
  rw [← hq.store] at hgone hstored hkept
  exact ⟨Calm.trans _ _ _ hcalm hq.toCalm, hgone, hstored, hkept, hcomplete, hdeleted, hupdates⟩

lemma mark (h : Recorded w₀ p w) (report : SyncReport) (blocked : NameSet)
    (hfailures : report.failures = [] → p.report.failures = [])
    (hdeleted : report.filesDeleted = p.report.filesDeleted) :
    Recorded w₀ { p with report := report, blocked := blocked } w where
  calm := h.calm
  gone := h.gone
  stored := h.stored
  kept := h.kept
  complete hf := h.complete (hfailures hf)
  deleted := by
    rw [hdeleted]
    exact h.deleted
  updates := h.updates

/-- A file was removed before any was stored. -/
lemma addRemoved (h : Recorded w₀ p w) {path : String} {units : List CodeUnit} {s : WriteSummary}
    (hnew : p.ingested = ∅) (hcalm : Calm w w')
    (hgraph : w'.store.graph = (w.store.graph.applyBatch [.removeFile path]).graph) :
    Recorded w₀ (p.addRemoved path units s) w' := by
  have hremoved : ∀ q, (p.addRemoved path units s).Removed q ↔ p.Removed q ∨ q = path :=
    fun q => Progress.removed_addRemoved
  have hnone : ∀ q, p.ingested.contains q = false := by simp [hnew]
  have hother : ∀ q, q ≠ path → w'.store.graph.files[q]? = w.store.graph.files[q]? := by
    intro q hq
    rw [hgraph]
    exact Draft.files_removeFile { graph := w.store.graph } path hq
  constructor
  case calm => exact Calm.trans _ _ _ h.calm hcalm
  case gone =>
    intro q hq _
    by_cases hp : q = path
    · rw [hp, hgraph]
      exact Draft.file_removeFile { graph := w.store.graph } path
    · rw [hother q hp]
      exact h.gone q (((hremoved q).mp hq).resolve_right hp) (hnone q)
  case stored =>
    intro q f hf
    change p.ingested[q]? = some f at hf
    rw [hnew] at hf
    simp at hf
  case kept =>
    intro q hq
    rw [Progress.Touched, hremoved, not_or, not_or] at hq
    rw [hother q hq.1.2]
    exact h.kept q (not_or.mpr ⟨hq.1.1, hq.2⟩)
  case complete =>
    intro _ q f hf
    change p.ingested[q]? = some f at hf
    rw [hnew] at hf
    simp at hf
  case deleted => exact ⟨fun _ => ⟨path, (hremoved path).mpr (Or.inr rfl)⟩, fun _ => Nat.succ_pos _⟩
  case updates =>
    intro u
    simp only [hremoved]
    simp only [Progress.addRemoved, List.mem_append, h.updates]
    constructor
    · rintro (⟨q, hq, hu⟩ | hu)
      · exact ⟨q, Or.inl hq, hu⟩
      · exact ⟨path, Or.inr rfl, by simpa using hu⟩
    · rintro ⟨q, hq | rfl, hu⟩
      · exact Or.inl ⟨q, hq, hu⟩
      · exact Or.inr (by simpa using hu)

/-- A document was stored. -/
lemma addIngested (h : Recorded w₀ p w) {D : Document} {f : IngestedFile} (hD : w₀.Shows D)
    (hs : Ingest.Stores D f w w') : Recorded w₀ (p.addIngested f) w' := by
  have hget : ∀ q f', (p.addIngested f).ingested[q]? = some f' ↔
      (q = D.path ∧ f' = f) ∨ (q ≠ D.path ∧ p.ingested[q]? = some f') := by
    intro q f'
    simp only [Progress.addIngested, hs.path, Draft.getElem?_insert_eq_some_iff]
  have hcontains : ∀ q, (p.addIngested f).ingested.contains q = true ↔
      q = D.path ∨ p.ingested.contains q = true := by
    intro q
    rw [Progress.contains_addIngested, hs.path]
  constructor
  case calm => exact Calm.trans _ _ _ h.calm hs.calm
  case gone =>
    intro q hq hno
    rw [← Bool.not_eq_true, hcontains, not_or, Bool.not_eq_true] at hno
    rw [hs.file_other hno.1]
    exact h.gone q hq hno.2
  case stored =>
    intro q f' hf
    rcases (hget q f').mp hf with ⟨rfl, rfl⟩ | ⟨hne, hf⟩
    · obtain ⟨t, ht⟩ := hs.file_self
      exact ⟨D, t, hD, rfl, hs.path, hs.fingerprint, ht, hs.imports t⟩
    · rw [hs.file_other hne]
      exact h.stored q f' hf
  case kept =>
    intro q hq
    rw [Progress.Touched, hcontains, not_or, not_or] at hq
    rw [hs.file_other hq.2.1]
    exact h.kept q (not_or.mpr ⟨hq.1, hq.2.2⟩)
  case complete =>
    intro hf q f' hget'
    simp only [Progress.addIngested, SyncReport.addIngested, List.append_eq_nil_iff,
      Option.toList_eq_nil_iff] at hf
    rcases (hget q f').mp hget' with ⟨-, rfl⟩ | ⟨-, hget'⟩
    · simp [IngestedFile.isComplete, hf.2]
    · exact h.complete hf.1 q f' hget'
  case deleted => exact h.deleted
  case updates => exact h.updates

end Recorded

/-- The steps of a run keep its records right. -/
lemma carries_recorded (w : World) : Carries w (Recorded w) where
  calm _ _ h := h.calm
  begin work _ hq := Recorded.begin work hq
  quiet _ _ _ h hq := h.quiet hq
  mark _ _ report blocked h hf hd := h.mark report blocked hf hd
  removes _ _ _ _ _ _ h hnew hcalm _ hgraph _ := h.addRemoved hnew hcalm hgraph
  stores _ _ _ _ _ h hD hs := h.addIngested hD hs

end Sync

end RepoAtlas
