import RepoAtlas.Graph.Query
import RepoAtlas.Proofs.Graph.Arrivals

/-!
# The chunks nearest to a vector

A search sorts what it finds by score, and by number where scores are equal. Numbers are different and grow in the order
in which the chunks arrived, so there is one sorted list of the matches, in whatever order the table of chunks is gone
through, and a search lists the first ones of it.
-/

namespace RepoAtlas

open KnowledgeGraph

/-! ### Sorted matches -/

namespace ChunkMatch

/-- Whether a match is listed before another one. -/
def nearer (a b : ChunkMatch) : Bool :=
  let x := Single.order a.score
  let y := Single.order b.score
  y < x || (x == y && a.sequence ≤ b.sequence)

lemma nearer_iff {a b : ChunkMatch} : a.nearer b = true ↔ Single.order b.score < Single.order a.score ∨
    Single.order a.score = Single.order b.score ∧ a.sequence ≤ b.sequence := by
  simp [nearer]

lemma nearer_trans (a b c : ChunkMatch) (h : a.nearer b = true) (h' : b.nearer c = true) : a.nearer c = true := by
  rw [nearer_iff] at *
  omega

lemma nearer_total (a b : ChunkMatch) : (a.nearer b || b.nearer a) = true := by
  rw [Bool.or_eq_true, nearer_iff, nearer_iff]
  omega

lemma sequence_eq_of_nearer {a b : ChunkMatch} (h : a.nearer b = true) (h' : b.nearer a = true) :
    a.sequence = b.sequence := by
  rw [nearer_iff] at *
  omega

end ChunkMatch

namespace KnowledgeGraph

variable {g : KnowledgeGraph} {v : Embedding} {order : List String} {l : List ChunkMatch} {m m' : ChunkMatch}

/-- A chunk as it is found, if its embedding is as long as the vector and its unit is stored. -/
def match? (g : KnowledgeGraph) (v : Embedding) (stored : StoredChunk) : Option ChunkMatch := do
  let c := stored.chunk
  if c.embedding.length != v.length then none
  else
    let unit ← g.units[c.unitId]?
    return { chunkId := c.id, text := c.text, score := v.cosine c.embedding,
             sequence := stored.sequence, unit : ChunkMatch }

/-- The first matches among some chunks. -/
def nearestAmong (g : KnowledgeGraph) (listing : List StoredChunk) (v : Embedding) (limit : Nat) :
    List ChunkMatch :=
  ((listing.filterMap (g.match? v)).mergeSort ChunkMatch.nearer).take limit

lemma nearestChunks_eq (hv : v ≠ []) (limit : Nat) :
    g.nearestChunks v limit = g.nearestAmong g.chunks.values v limit := by
  rw [nearestChunks, List.isEmpty_eq_false_iff.mpr hv, Bool.or_false]
  split
  · rename_i hzero
    rw [beq_iff_eq.mp hzero, nearestAmong, List.take_zero]
  · rfl

/-- What a match says of the graph: its chunk is stored and as long as the vector, its unit is the stored one, and
its score is that of the chunk. -/
structure Found (g : KnowledgeGraph) (v : Embedding) (m : ChunkMatch) (stored : StoredChunk) : Prop where
  chunk : g.chunks[m.chunkId]? = some stored
  length : stored.chunk.embedding.length = v.length
  unit : g.units[stored.chunk.unitId]? = some m.unit
  text : m.text = stored.chunk.text
  score : m.score = v.cosine stored.chunk.embedding
  sequence : m.sequence = stored.sequence

lemma match?_eq_some_iff {stored : StoredChunk} : g.match? v stored = some m ↔
    m.chunkId = stored.chunk.id ∧ stored.chunk.embedding.length = v.length ∧
      g.units[stored.chunk.unitId]? = some m.unit ∧ m.text = stored.chunk.text ∧
      m.score = v.cosine stored.chunk.embedding ∧ m.sequence = stored.sequence := by
  obtain ⟨id, text, score, sequence, unit⟩ := m
  by_cases hlength : stored.chunk.embedding.length = v.length
  · cases hunit : g.units[stored.chunk.unitId]? with
    | none => simp [match?, hlength, hunit]
    | some u =>
      simp only [match?, hlength, hunit, bne_self_eq_false, Bool.false_eq_true, if_false, bind, Option.bind,
        pure, Option.some.injEq, ChunkMatch.mk.injEq, true_and]
      tauto
  · simp [match?, hlength]

lemma mem_matches (hg : g.WellFormed) :
    m ∈ g.chunks.values.filterMap (g.match? v) ↔ ∃ stored, g.Found v m stored := by
  rw [List.mem_filterMap]
  refine exists_congr fun stored => ?_
  have hlisted : stored ∈ g.chunks.values ↔ g.chunks[stored.chunk.id]? = some stored :=
    hg.indexed.chunks.mem_values
  rw [hlisted, match?_eq_some_iff]
  constructor
  · rintro ⟨hstored, hid, hlength, hunit, htext, hscore, hsequence⟩
    exact ⟨hid ▸ hstored, hlength, hunit, htext, hscore, hsequence⟩
  · intro h
    have hid : stored.chunk.id = m.chunkId := hg.indexed.chunks m.chunkId stored h.chunk
    exact ⟨hid ▸ h.chunk, hid.symm, h.length, h.unit, h.text, h.score, h.sequence⟩

/-- A chunk is found in one way only. -/
lemma Found.unique {stored : StoredChunk} (h : g.Found v m stored) {stored' : StoredChunk}
    (h' : g.Found v m' stored') (hid : m.chunkId = m'.chunkId) : m = m' := by
  have hstored := h.chunk
  rw [hid, h'.chunk] at hstored
  cases hstored
  have hunit := h.unit
  rw [h'.unit] at hunit
  obtain ⟨id, text, score, sequence, unit⟩ := m
  obtain ⟨id', text', score', sequence', unit'⟩ := m'
  cases hunit
  obtain rfl := hid
  obtain rfl := h.text.trans h'.text.symm
  obtain rfl := h.score.trans h'.score.symm
  obtain rfl := h.sequence.trans h'.sequence.symm
  rfl

/-- The matches in the order in which they are listed: by descending score, and in the order of arrival where scores
are equal. -/
structure Ranking (g : KnowledgeGraph) (v : Embedding) (order : List String) (l : List ChunkMatch) : Prop where
  mem : ∀ m, m ∈ l ↔ ∃ stored, g.Found v m stored
  sorted : l.Pairwise fun a b => Single.order b.score < Single.order a.score ∨
    Single.order a.score = Single.order b.score ∧ [a.chunkId, b.chunkId].Sublist order

/-- Two members of a list come one after the other. -/
lemma sublist_or_sublist {α : Type} {l : List α} {a b : α} (ha : a ∈ l) (hb : b ∈ l) (hne : a ≠ b) :
    [a, b].Sublist l ∨ [b, a].Sublist l := by
  obtain ⟨s, t, rfl⟩ := List.append_of_mem ha
  rcases List.mem_append.mp hb with hb | hb
  · exact Or.inr ((List.singleton_sublist.mpr hb).append (List.singleton_sublist.mpr (List.mem_cons_self ..)))
  · have hb : b ∈ t := (List.mem_cons.mp hb).resolve_left (Ne.symm hne)
    exact Or.inl (((List.singleton_sublist.mpr hb).cons_cons a).trans (List.sublist_append_right s _))

namespace Ranking

lemma nearer (h : g.Ranking v order l) (horder : g.Numbered order) :
    l.Pairwise fun a b => a.nearer b = true := by
  refine h.sorted.imp_of_mem fun {a b} ha hb hab => ChunkMatch.nearer_iff.mpr (hab.imp id (And.imp id fun hsub => ?_))
  obtain ⟨x, hx⟩ := (h.mem a).mp ha
  obtain ⟨y, hy⟩ := (h.mem b).mp hb
  rw [hx.sequence, hy.sequence]
  exact Nat.le_of_lt (List.pairwise_iff_forall_sublist.mp horder.increasing hsub x y hx.chunk hy.chunk)

lemma nodup (h : g.Ranking v order l) (horder : g.Numbered order) : l.Nodup := by
  refine h.sorted.imp fun {a b} hab heq => ?_
  subst heq
  obtain hlt | ⟨-, hsub⟩ := hab
  · exact Int.lt_irrefl _ hlt
  · simpa using horder.nodup.sublist hsub

end Ranking

lemma nodup_matches (hg : g.WellFormed) : (g.chunks.values.filterMap (g.match? v)).Nodup := by
  have hvalues : g.chunks.values.Nodup := by
    rw [values_eq_map_snd, List.Nodup, List.pairwise_map]
    refine g.chunks.distinct_keys_toList.imp_of_mem ?_
    rintro ⟨i, x⟩ ⟨j, y⟩ hi hj hne rfl
    have hx := hg.indexed.chunks i x (Std.ExtTreeMap.mem_toList_iff_getElem?_eq_some.mp hi)
    have hy := hg.indexed.chunks j x (Std.ExtTreeMap.mem_toList_iff_getElem?_eq_some.mp hj)
    exact hne (by rw [← hx, ← hy]; exact Std.ReflCmp.compare_self)
  refine (List.pairwise_filterMap.mpr ?_)
  refine hvalues.imp_of_mem fun {x y} hx hy hne m hm m' hm' heq => hne ?_
  subst heq
  have hid := (match?_eq_some_iff.mp hm).1.symm.trans (match?_eq_some_iff.mp hm').1
  have hx' : g.chunks[x.chunk.id]? = some x := hg.indexed.chunks.mem_values.mp hx
  have hy' : g.chunks[y.chunk.id]? = some y := hg.indexed.chunks.mem_values.mp hy
  rw [hid, hy'] at hx'
  exact (Option.some.inj hx').symm

/-- Sorted matches are a ranking. -/
lemma ranking_mergeSort (hg : g.WellFormed) (horder : g.Numbered order) :
    g.Ranking v order ((g.chunks.values.filterMap (g.match? v)).mergeSort ChunkMatch.nearer) := by
  have hperm := List.mergeSort_perm (g.chunks.values.filterMap (g.match? v)) ChunkMatch.nearer
  have hmem : ∀ m, m ∈ (g.chunks.values.filterMap (g.match? v)).mergeSort ChunkMatch.nearer ↔
      ∃ stored, g.Found v m stored := fun m => hperm.mem_iff.trans (mem_matches hg)
  have hnodup := hperm.nodup_iff.mpr (nodup_matches hg)
  have hsorted := List.pairwise_mergeSort ChunkMatch.nearer_trans ChunkMatch.nearer_total
    (g.chunks.values.filterMap (g.match? v))
  refine ⟨hmem, (hnodup.and hsorted).imp_of_mem ?_⟩
  rintro a b ha hb ⟨hne, hab⟩
  obtain ⟨x, hx⟩ := (hmem a).mp ha
  obtain ⟨y, hy⟩ := (hmem b).mp hb
  refine (ChunkMatch.nearer_iff.mp hab).imp id (And.imp id fun hle => ?_)
  -- had the second one arrived first, its number would be the lower one
  have hlisted : ∀ {m stored}, g.Found v m stored → m.chunkId ∈ order := fun hm => by
    rw [horder.mem, Std.ExtTreeMap.contains_eq_isSome_getElem?, hm.chunk]
    rfl
  refine (sublist_or_sublist (hlisted hx) (hlisted hy) fun hid => hne (hx.unique hy hid)).resolve_right fun hsub => ?_
  have hlt := List.pairwise_iff_forall_sublist.mp horder.increasing hsub y x hy.chunk hx.chunk
  rw [← hx.sequence, ← hy.sequence] at hlt
  omega

/-- The only ranking is the one that is found, in whatever order the chunks are gone through. -/
lemma Ranking.eq_mergeSort (h : g.Ranking v order l) (hg : g.WellFormed) (horder : g.Numbered order)
    {listing : List StoredChunk} (hlisting : listing.Perm g.chunks.values) :
    (listing.filterMap (g.match? v)).mergeSort ChunkMatch.nearer = l := by
  have hmatches := hlisting.filterMap (g.match? v)
  have hsort := List.mergeSort_perm (listing.filterMap (g.match? v)) ChunkMatch.nearer
  have hsame : (g.chunks.values.filterMap (g.match? v)).Perm l :=
    (List.perm_ext_iff_of_nodup (nodup_matches hg) (h.nodup horder)).mpr fun m =>
      (mem_matches hg).trans (h.mem m).symm
  have hfound : ∀ m ∈ l, ∃ stored, g.Found v m stored := fun m => (h.mem m).mp
  have hperm := (hsort.trans hmatches).trans hsame
  refine List.Perm.eq_of_pairwise (fun a b ha hb hab hba => ?_)
    (List.pairwise_mergeSort ChunkMatch.nearer_trans ChunkMatch.nearer_total _) (h.nearer horder) hperm
  obtain ⟨x, hx⟩ := hfound a (hperm.mem_iff.mp ha)
  obtain ⟨y, hy⟩ := hfound b hb
  have hnumber := ChunkMatch.sequence_eq_of_nearer hab hba
  rw [hx.sequence, hy.sequence] at hnumber
  exact hx.unique hy (hg.indexed.sequence_injective a.chunkId b.chunkId x y hx.chunk hy.chunk hnumber)

/-- Only chunks and units matter to the search. -/
lemma nearestChunks_congr {r : KnowledgeGraph} (hchunks : r.chunks = g.chunks) (hunits : r.units = g.units) :
    r.nearestChunks = g.nearestChunks := by
  funext v limit
  simp only [nearestChunks, nearest, hchunks, hunits]

end KnowledgeGraph

/-- A commit does not change what is found, and a store that is opened after it went well finds the same. -/
lemma GraphStore.Session.nearestChunks_eq {dir : String} {s s' s'' : GraphStore} {tree tree' tree'' : FileTree}
    (h : Session dir s tree) (hd : s.graph.snapshot.Decodes) (hcommit : s.commit tree = (s', tree', none))
    (hload : load tree' dir = .ok (tree'', s'')) :
    s'.graph.nearestChunks = s.graph.nearestChunks ∧ s''.graph.nearestChunks = s.graph.nearestChunks := by
  obtain ⟨saved, hbacked⟩ := h.backed
  obtain ⟨hsame, -⟩ := of_commit hbacked.location hcommit
  obtain ⟨saved', hbacked', hrestores⟩ := hbacked.commit hd hcommit
  obtain ⟨rfl, -⟩ := of_load hbacked'.holds hload
  exact ⟨by rw [hsame], nearestChunks_congr (hrestores rfl).chunks (hrestores rfl).units⟩

namespace KnowledgeGraph

/-- The search is exact: of the one ranking by score and by the order of arrival it lists the first matches. -/
structure ExactSearch (g : KnowledgeGraph) (order : List String) : Prop where
  /-- There is one ranking, and it is also found if the chunks are gone through in another order. -/
  first : ∀ v, v ≠ [] → ∃ l, (∀ l', g.Ranking v order l' ↔ l' = l) ∧
    (∀ limit, g.nearestChunks v limit = l.take limit) ∧
    ∀ listing, listing.Perm g.chunks.values → ∀ limit, g.nearestAmong listing v limit = l.take limit
  /-- A smaller limit takes a part of what a larger one takes. -/
  limits : ∀ v m n, m ≤ n → g.nearestChunks v m <+: g.nearestChunks v n
  /-- A batch keeps the order of the chunks that none of its writes takes out, also of those that it updates. -/
  kept : ∀ (s s' : GraphStore) batch summary, s.graph = g → s.apply batch = .ok (s', summary) →
    ∃ order', s'.graph.Arrived order' ∧ ∀ l : List String, l.Sublist order →
      (∀ past, past <+: batch → ∀ id ∈ l, (g.applyBatch past).graph.chunks.contains id = true) → l.Sublist order'
  /-- The graph of the document finds the same. -/
  loaded : (KnowledgeGraph.ofSnapshot g.snapshot).nearestChunks = g.nearestChunks
  /-- So does the store after a commit, and the one that is opened next. -/
  reopened : ∀ dir (s s' s'' : GraphStore) tree tree' tree'', GraphStore.Session dir s tree → s.graph = g →
    g.snapshot.Decodes → s.commit tree = (s', tree', none) → GraphStore.load tree' dir = .ok (tree'', s'') →
      s'.graph.nearestChunks = g.nearestChunks ∧ s''.graph.nearestChunks = g.nearestChunks

/-- The chunks of a reachable graph have one order of arrival, and the search is exact for it. -/
theorem Reachable.nearestChunks_exact {g : KnowledgeGraph} (h : g.Reachable) :
    ∃ order, g.Arrived order ∧ (∀ order', g.Arrived order' → order' = order) ∧ g.ExactSearch order := by
  obtain ⟨order, harrived⟩ := h.exists_arrived
  have hg := h.wellFormed
  have horder := harrived.numbered
  refine ⟨order, harrived, fun order' h' => horder.unique h'.numbered, ?_⟩
  constructor
  case first =>
    intro v hv
    have hranking := ranking_mergeSort (v := v) hg horder
    refine ⟨_, fun l' => ⟨fun h' => ?_, fun heq => heq ▸ hranking⟩, fun limit => nearestChunks_eq hv limit,
      fun listing hlisting limit => ?_⟩
    · exact (h'.eq_mergeSort hg horder (List.Perm.refl _)).symm
    · rw [nearestAmong, hranking.eq_mergeSort hg horder hlisting]
  case limits =>
    intro v m n hle
    rcases eq_or_ne v [] with rfl | hv
    · have hnone : ∀ limit, g.nearestChunks [] limit = [] := fun limit => by simp [nearestChunks]
      exact (hnone m).symm ▸ List.nil_prefix
    · rw [nearestChunks_eq hv, nearestChunks_eq hv]
      exact List.take_prefix_take_left hle
  case kept =>
    rintro s s' batch summary rfl happly
    exact ⟨_, harrived.applied happly, fun l hl hstays => Draft.sublist_arrivalsAfter hl hstays⟩
  case loaded =>
    exact nearestChunks_congr hg.restores_ofSnapshot.chunks hg.restores_ofSnapshot.units
  case reopened =>
    rintro dir s s' s'' tree tree' tree'' hsession rfl hd hcommit hload
    exact hsession.nearestChunks_eq hd hcommit hload

/-- A second chunk arrives after the first one, which is then updated. -/
def updatingBatch : WriteBatch :=
  GraphStore.smallBatch ++
    [.upsertNode (.semanticChunk ⟨"b", "a.py:f", "text", [1], default⟩),
      .upsertNode (.semanticChunk ⟨"c", "a.py:f", "other", [1], default⟩)]

/-- The chunk that was updated is still the first one among equal scores. -/
theorem Reachable.nearestChunks_exact_updatingBatch : ∃ s, ({} : GraphStore).applyAll [updatingBatch] = .ok s ∧
    s.graph.Arrived ["c", "b"] ∧ s.graph.ExactSearch ["c", "b"] := by
  obtain ⟨s, hrun, -⟩ : ∃ s, ({} : GraphStore).applyAll [updatingBatch] = .ok s ∧ s.graph.chunks.size = 2 :=
    GraphStore.exists_applyAll_of_map (by decide)
  have hs : s.graph.Reachable := .applyAll .empty hrun
  have horder : Draft.arrivalsAfter {} [] updatingBatch = ["c", "b"] := by decide
  have harrived : s.graph.Arrived ["c", "b"] := by
    obtain ⟨s₁, summary, happly, hrest⟩ := GraphStore.applyAll_cons_eq_ok.mp hrun
    cases hrest
    exact horder ▸ Arrived.empty.applied happly
  obtain ⟨order, -, honly, hsearch⟩ := hs.nearestChunks_exact
  cases honly _ harrived
  exact ⟨s, hrun, harrived, hsearch⟩

end KnowledgeGraph

end RepoAtlas
