import Mathlib.Data.List.Induction
import RepoAtlas.Proofs.Engine.Act
import RepoAtlas.Proofs.Graph.Durability
import RepoAtlas.Proofs.Scan.Parts

/-!
# Checkpoints are saved whole

A batch of updates counts once it is saved, and it is saved by writing a file beside the one of the checkpoints and
moving it into place. So wherever a save is cut short, the memory and the file of the checkpoints stay as they were and
agree, and the value of a key is what the last successful batch that mentions it gave it last.
-/

namespace RepoAtlas

/-! ### One place of a tree -/

namespace FileTree

variable {t t' t'' : FileTree} {path other : String} {content : Bytes}

/-- What stands at a path stays. -/
structure SameAt (path : String) (t t' : FileTree) : Prop where
  read : t'.read? path = t.read? path
  directory : t'.isDirectory path = t.isDirectory path

lemma SameAt.refl : SameAt path t t := ⟨rfl, rfl⟩

lemma SameAt.trans (h : SameAt path t t') (h' : SameAt path t' t'') : SameAt path t t'' :=
  ⟨h'.read.trans h.read, h'.directory.trans h.directory⟩

lemma dirs_write (h : t.write path content = .ok t') : t'.dirs = t.dirs := by
  rw [write_ok h]

lemma SameAt.write (hne : other ≠ path) (h : t.write other content = .ok t') : SameAt path t t' where
  read := by rw [read?_write h, if_neg hne]
  directory := by rw [isDirectory, isDirectory, dirs_write h]

/-- The directory of a file, and those above it. -/
def directoriesOf (path : String) : List String :=
  let dir := (Paths.parent? path).getD ""
  directoriesAbove dir ++ [dir]

lemma not_mem_directoriesOf (hpath : path ≠ "") : path ∉ directoriesOf path := by
  have hparent := Paths.length_parent_lt hpath
  simp only [directoriesOf, List.mem_append, List.mem_singleton, not_or]
  constructor
  · intro hmem
    have hle := Paths.directory_length_le hmem
    omega
  · intro heq
    exact absurd (congrArg String.length heq) (Nat.ne_of_gt hparent)

/-- No directory is created in place of the file. -/
lemma SameAt.insert_dirs {l : List String} (hl : ∀ dir ∈ l, dir ∈ directoriesOf path) :
    SameAt path t { t with dirs := l.foldl (·.insert ·) t.dirs } := by
  refine ⟨rfl, ?_⟩
  by_cases hpath : path = ""
  · have hempty : path.isEmpty = true := String.isEmpty_iff.mpr hpath
    simp only [isDirectory, hempty, Bool.true_or]
  · have hnot : path ∉ l := fun hmem => not_mem_directoriesOf hpath (hl path hmem)
    have hcontains : (l.foldl (·.insert ·) t.dirs).contains path = t.dirs.contains path := by
      rw [Bool.eq_iff_iff, contains_foldl_insert, or_iff_right hnot]
    simp only [isDirectory, hcontains]

lemma SameAt.createDirectories (h : t.createDirectories ((Paths.parent? path).getD "") = .ok t') :
    SameAt path t t' := by
  rcases createDirectories_ok h with rfl | rfl
  · exact .refl
  · exact .insert_dirs fun _ hdir => hdir

/-- An operation that may fail, and then changes nothing. -/
lemma SameAt.getD {result : Except FileError FileTree} (h : ∀ t', result = .ok t' → SameAt path t t') :
    SameAt path t (result.toOption.getD t) := by
  cases result with
  | error e => exact .refl
  | ok t' => exact h t' rfl

/-- A file whose replacement fails is as it was. -/
lemma SameAt.replace {e : FileError} (h : t.replace path content = (t', some e)) : SameAt path t t' := by
  simp only [FileTree.replace] at h
  split at h
  · cases h
    exact .refl
  rename_i beside hbeside
  split at h
  · cases h
    exact .refl
  · rename_i t₁ hwrite
    split at h
    · cases h
      exact .write (beside_ne hbeside) hwrite
    · cases h

end FileTree

open FileTree

/-! ### Values of keys -/

namespace Checkpoints

variable {c : Checkpoints} {k : CheckpointKey} {updates : List CheckpointUpdate}

/-- The value that updates give a key last; `none` if none of them is about it. -/
def lastUpdate? (updates : List CheckpointUpdate) (k : CheckpointKey) : Option (Option String) :=
  (updates.reverse.find? (·.1 = k)).map (·.2)

lemma get?_setAll : (c.setAll updates).get? k = (lastUpdate? updates k).getD (c.get? k) := by
  induction updates using List.reverseRecOn with
  | nil => rfl
  | append_singleton updates u ih =>
    have hset : c.setAll (updates ++ [u]) = (c.setAll updates).set u := List.foldl_concat ..
    rw [hset, get?_set, lastUpdate?, List.reverse_append]
    by_cases hu : u.1 = k
    · simp [hu]
    · rw [if_neg (Ne.symm hu), ih]
      simp [lastUpdate?, hu]

lemma eq_of_same {a b : Checkpoints} (h : a.same b = true) : a = b := by
  simp only [same, Bool.and_eq_true, beq_iff_eq, Std.ExtTreeMap.toList_inj] at h
  obtain ⟨⟨hfiles, hcalls⟩, hrevisions⟩ := h
  cases a
  cases b
  simp_all

/-- Checkpoints are read back from their document. -/
def Decodes (c : Checkpoints) : Prop := parse (toJson c).pretty = .ok c

end Checkpoints

open Checkpoints

namespace CheckpointStore

variable {s s₀ s' : CheckpointStore} {tree tree₀ tree' : FileTree} {path : String} {c : Checkpoints}
  {updates : List CheckpointUpdate} {error : Option CheckpointError} {k : CheckpointKey}

/-! ### Opening -/

lemma load_of_not_exists (hnew : tree.exists? path = false) :
    load tree path = .ok { state := {}, location := some path } := by
  simp only [load, hnew, Bool.false_eq_true, if_false]
  rfl

lemma load_of_exists (hexists : tree.exists? path = true) : load tree path =
    match tree.readText path with
    | .error e => .error (.io e.message)
    | .ok text =>
      match parse text with
      | .error e => .error e
      | .ok c => .ok { state := c, location := some path } := by
  simp only [load, hexists, if_true]
  cases tree.readText path with
  | error e => rfl
  | ok text =>
    simp only [Except.mapError, bind, Except.bind]
    cases parse text <;> rfl

/-- Opening reads nothing but what stands at the path. -/
lemma load_congr (h : SameAt path tree tree') : load tree' path = load tree path := by
  obtain ⟨hread, hdirectory⟩ := h
  have hfile : tree'.isFile path = tree.isFile path := by
    simp only [isFile, Std.ExtTreeMap.contains_eq_isSome_getElem?]
    exact congrArg Option.isSome hread
  have hexists : tree'.exists? path = tree.exists? path := by rw [exists?, exists?, hfile, hdirectory]
  cases hold : tree.exists? path with
  | false => rw [load_of_not_exists hold, load_of_not_exists (hexists.trans hold)]
  | true =>
    have htext : tree'.readText path = tree.readText path := by
      simp only [readText, FileTree.read, show tree'.files[path]? = tree.files[path]? from hread, hdirectory]
      cases hfiles : tree.files[path]? with
      | some content => rfl
      | none =>
        -- then a directory stands there
        have hnone : tree.isFile path = false := by
          rw [isFile, Std.ExtTreeMap.contains_eq_isSome_getElem?, hfiles]
          rfl
        rw [exists?, hnone, Bool.false_or] at hold
        rw [hold]
        rfl
    rw [load_of_exists hold, load_of_exists (hexists.trans hold), htext]

lemma location_of_load (h : load tree path = .ok s) : s.location = some path := by
  cases hexists : tree.exists? path with
  | false =>
    rw [load_of_not_exists hexists] at h
    cases h
    rfl
  | true =>
    rw [load_of_exists hexists] at h
    split at h
    · cases h
    · split at h
      · cases h
      · cases h
        rfl

/-- A document that was saved is loaded. -/
lemma load_of_read (hread : tree.read? path = some (Text.bytes (toJson c).pretty)) (hd : c.Decodes) :
    load tree path = .ok { state := c, location := some path } := by
  have hfile : tree.files[path]? = some (Text.bytes (toJson c).pretty) := hread
  have hexists : tree.exists? path = true := by
    rw [exists?, isFile, Std.ExtTreeMap.contains_eq_isSome_getElem?, hfile]
    rfl
  have htext : tree.readText path = .ok (toJson c).pretty := by
    simp only [readText, FileTree.read, hfile, bind, Except.bind, Text.ofBytes?_bytes]
    rfl
  rw [load_of_exists hexists, htext]
  simp only [show parse (toJson c).pretty = .ok c from hd]

/-! ### Saving -/

/-- Where a save is cut short. -/
inductive SaveFault where
  /-- Only the first directories are created. -/
  | directories (n : Nat)
  /-- The file beside is left with some content, be it whole or not, and is not moved into place. -/
  | beside (left : Bytes)

/-- What a save leaves behind that is cut short. -/
def SaveFault.leaves (tree : FileTree) (path : String) : SaveFault → FileTree
  | .directories n => { tree with dirs := ((directoriesOf path).take n).foldl (·.insert ·) tree.dirs }
  | .beside left =>
    let tree := (tree.createDirectories ((Paths.parent? path).getD "")).toOption.getD tree
    match Paths.withExtension? path "json.tmp" with
    | none => tree
    | some other => (tree.write other left).toOption.getD tree

lemma SaveFault.sameAt (fault : SaveFault) (tree : FileTree) (path : String) :
    SameAt path tree (fault.leaves tree path) := by
  cases fault with
  | directories n => exact .insert_dirs fun _ hdir => List.mem_of_mem_take hdir
  | beside left =>
    refine SameAt.trans (.getD fun _ hdirs => .createDirectories hdirs) ?_
    rw [leaves]
    split
    · exact .refl
    · rename_i other hbeside
      exact .getD fun _ hwrite => .write (beside_ne hbeside) hwrite

/-- Save checkpoints, unless the save is cut short for some reason. -/
def persistUnder (fault : Option (SaveFault × String)) (tree : FileTree) (path : String) (c : Checkpoints) :
    FileTree × Option CheckpointError :=
  match fault with
  | none => persist tree path c
  | some (fault, reason) => (fault.leaves tree path, some (.io reason))

/-- Apply all updates or none, with a save that may be cut short. -/
def setBatchUnder (fault : Option (SaveFault × String)) (s : CheckpointStore) (tree : FileTree)
    (updates : List CheckpointUpdate) : CheckpointStore × FileTree × Option CheckpointError :=
  let next := s.state.setAll updates
  if next.same s.state then (s, tree, none)
  else
    match s.location with
    | none => ({ s with state := next }, tree, none)
    | some path =>
      match persistUnder fault tree path next with
      | (tree, none) => ({ s with state := next }, tree, none)
      | (tree, some e) => (s, tree, some e)

lemma setBatchUnder_none : setBatchUnder none s tree updates = s.setBatch tree updates := by
  rfl

variable {fault : Option (SaveFault × String)}

/-- A save that is not cut short fails before it touches anything, or replaces the file once its directories
are there. -/
lemma persist_cases {e : Option CheckpointError} (h : persist tree path c = (tree', e)) :
    (tree' = tree ∧ e.isSome = true) ∨ ∃ t e', tree.createDirectories ((Paths.parent? path).getD "") = .ok t ∧
      t.replace path (Text.bytes (toJson c).pretty) = (tree', e') ∧ e = e'.map fun e => .io e.message := by
  unfold persist at h
  split at h
  · cases h
    exact Or.inl ⟨rfl, rfl⟩
  · rename_i t hdirs
    cases h
    exact Or.inr ⟨t, _, hdirs, rfl, rfl⟩

lemma read?_of_persistUnder (h : persistUnder fault tree path c = (tree', none)) :
    tree'.read? path = some (Text.bytes (toJson c).pretty) := by
  cases fault with
  | some fault => cases h
  | none =>
    rcases persist_cases h with ⟨-, he⟩ | ⟨t, e', -, hreplace, he⟩
    · cases he
    · cases e' with
      | none => exact read?_of_replace hreplace
      | some e => cases he

/-- A save that fails leaves the file of the checkpoints as it was. -/
lemma sameAt_of_persistUnder {e : CheckpointError} (h : persistUnder fault tree path c = (tree', some e)) :
    SameAt path tree tree' := by
  cases fault with
  | some fault =>
    cases h
    exact fault.1.sameAt tree path
  | none =>
    rcases persist_cases h with ⟨rfl, -⟩ | ⟨t, e', hdirs, hreplace, he⟩
    · exact .refl
    · cases e' with
      | none => cases he
      | some e => exact SameAt.trans (.createDirectories hdirs) (.replace hreplace)

/-! ### One batch -/

/-- A batch that fails changes no key, and the file is as it was. -/
lemma of_setBatchUnder_error {e : CheckpointError} (hlocation : s.location = some path)
    (h : setBatchUnder fault s tree updates = (s', tree', some e)) : s' = s ∧ SameAt path tree tree' := by
  simp only [setBatchUnder, hlocation] at h
  split at h
  · cases h
  · cases hpersist : persistUnder fault tree path (s.state.setAll updates) with
    | mk t e' =>
      rw [hpersist] at h
      cases e' with
      | none => cases h
      | some e' =>
        cases h
        exact ⟨rfl, sameAt_of_persistUnder hpersist⟩

/-- A batch that succeeds makes all its updates. The file is written unless they change nothing. -/
lemma of_setBatchUnder_ok (hlocation : s.location = some path)
    (h : setBatchUnder fault s tree updates = (s', tree', none)) :
    s' = { state := s.state.setAll updates, location := some path } ∧
      ((s' = s ∧ tree' = tree) ∨ tree'.read? path = some (Text.bytes (toJson s'.state).pretty)) := by
  simp only [setBatchUnder, hlocation] at h
  split at h
  · rename_i hsame
    cases h
    rw [eq_of_same hsame, ← hlocation]
    exact ⟨rfl, .inl ⟨rfl, rfl⟩⟩
  · cases hpersist : persistUnder fault tree path (s.state.setAll updates) with
    | mk t e' =>
      rw [hpersist] at h
      cases e' with
      | some e' => cases h
      | none =>
        cases h
        exact ⟨rfl, .inr (read?_of_persistUnder hpersist)⟩

/-! ### Sessions -/

/-- A call that sets some checkpoints, and the error if it failed. -/
structure Call where
  updates : List CheckpointUpdate
  error : Option CheckpointError

/-- The value that a key has by the last successful call that mentions it; `none` if none does. -/
def lastValue? (calls : List Call) (k : CheckpointKey) : Option (Option String) :=
  calls.reverse.findSome? fun c => if c.error = none then lastUpdate? c.updates k else none

/-- The calls on a store that was opened on a path. Documents are read back as they were written, saves may be cut short,
and what is elsewhere on the disk may change between the calls. -/
inductive Session (path : String) (tree₀ : FileTree) (s₀ : CheckpointStore) :
    List Call → CheckpointStore → FileTree → Prop
  | opened : Session path tree₀ s₀ [] s₀ tree₀
  | called {calls : List Call} {s s' : CheckpointStore} {tree tree' : FileTree} {error : Option CheckpointError}
      (updates : List CheckpointUpdate) (fault : Option (SaveFault × String)) :
      Session path tree₀ s₀ calls s tree → (s.state.setAll updates).Decodes →
      setBatchUnder fault s tree updates = (s', tree', error) →
      Session path tree₀ s₀ (calls ++ [⟨updates, error⟩]) s' tree'
  | disturbed {calls : List Call} {s : CheckpointStore} {tree tree' : FileTree} :
      Session path tree₀ s₀ calls s tree → SameAt path tree tree' → Session path tree₀ s₀ calls s tree'

variable {calls : List Call}

lemma lastValue?_concat (updates : List CheckpointUpdate) (error : Option CheckpointError) :
    lastValue? (calls ++ [⟨updates, error⟩]) k =
      (if error = none then lastUpdate? updates k else none).or (lastValue? calls k) := by
  rw [lastValue?, List.reverse_append, List.reverse_singleton, List.singleton_append, List.findSome?_cons]
  cases (if error = none then lastUpdate? updates k else none) <;> rfl

/-- Whatever is opened now is what is in memory. -/
lemma Session.load_eq (hload : load tree₀ path = .ok s₀) (h : Session path tree₀ s₀ calls s tree) :
    load tree path = .ok s := by
  induction h with
  | opened => exact hload
  | disturbed _ hsame ih => exact (load_congr hsame).trans ih
  | @called calls s s' tree tree' error updates fault _ hd hset ih =>
    have hlocation := location_of_load ih
    cases error with
    | some e =>
      obtain ⟨rfl, hsame⟩ := of_setBatchUnder_error hlocation hset
      exact (load_congr hsame).trans ih
    | none =>
      obtain ⟨rfl, ⟨heq, rfl⟩ | hread⟩ := of_setBatchUnder_ok hlocation hset
      · rw [heq]
        exact ih
      · exact load_of_read hread hd

lemma Session.get?_eq (hload : load tree₀ path = .ok s₀) (h : Session path tree₀ s₀ calls s tree) (k : CheckpointKey) :
    s.state.get? k = (lastValue? calls k).getD (s₀.state.get? k) := by
  induction h with
  | opened => rfl
  | disturbed _ _ ih => exact ih
  | @called calls s s' tree tree' error updates fault hsession _ hset ih =>
    have hlocation := location_of_load (hsession.load_eq hload)
    rw [lastValue?_concat]
    cases error with
    | some e =>
      obtain ⟨rfl, -⟩ := of_setBatchUnder_error hlocation hset
      simpa using ih
    | none =>
      obtain ⟨rfl, -⟩ := of_setBatchUnder_ok hlocation hset
      rw [get?_setAll, ih]
      cases lastUpdate? updates k <;> simp

/-- After any calls, with saves that are cut short anywhere, each key has the value of the last update to it in the last
successful call that mentions it, else the one at the opening, which is none if there was no file; a call
that fails now changes no key; and opening the path again gives what is in memory. -/
theorem Session.atomic (hload : load tree₀ path = .ok s₀) (h : Session path tree₀ s₀ calls s tree) :
    (∀ k, s.state.get? k = (lastValue? calls k).getD (s₀.state.get? k)) ∧
    (tree₀.exists? path = false → ∀ k, s₀.state.get? k = none) ∧
    (∀ fault updates s' tree' e, setBatchUnder fault s tree updates = (s', tree', some e) → s' = s) ∧
    load tree path = .ok s := by
  refine ⟨h.get?_eq hload, fun hnew k => ?_, fun fault updates s' tree' e hset => ?_, h.load_eq hload⟩
  · rw [load_of_not_exists hnew] at hload
    cases hload
    cases k <;> simp [Checkpoints.get?]
  · exact (of_setBatchUnder_error (location_of_load (h.load_eq hload)) hset).1

/-- A store that was opened where nothing is. -/
def fresh : CheckpointStore := { location := some "data/checkpoints.json" }

def firstUpdates : List CheckpointUpdate := [(.file "a", some "1"), (.revision "r", some "x"), (.file "a", some "2")]

def secondUpdates : List CheckpointUpdate := [(.file "a", some "3"), (.callGraph "a", some "9")]

def thirdUpdates : List CheckpointUpdate := [(.revision "r", none)]

lemma decodes_of_same (h : (parse (toJson c).pretty).toOption.any (·.same c) = true) : c.Decodes := by
  rw [Decodes]
  cases hparse : parse (toJson c).pretty with
  | error e => simp [hparse, Except.toOption] at h
  | ok c' =>
    have hsame : c'.same c = true := by simpa [hparse, Except.toOption] using h
    rw [eq_of_same hsame]

/-- The save of the second batch ends before its file is moved into place. -/
theorem Session.atomic_cutShort : ∃ s tree, Session "data/checkpoints.json" {} fresh
      [⟨firstUpdates, none⟩, ⟨secondUpdates, some (.io "disk full")⟩, ⟨thirdUpdates, none⟩] s tree ∧
    s.state.get? (.file "a") = some "2" ∧ s.state.get? (.callGraph "a") = none ∧
    s.state.get? (.revision "r") = none ∧ load tree "data/checkpoints.json" = .ok s := by
  let r₁ := setBatchUnder none fresh {} firstUpdates
  let r₂ := setBatchUnder (some (.beside [123], "disk full")) r₁.1 r₁.2.1 secondUpdates
  let r₃ := setBatchUnder none r₂.1 r₂.2.1 thirdUpdates
  have h₁ : r₁.2.2 = none := by decide +kernel
  have h₂ : r₂.2.2 = some (.io "disk full") := by decide +kernel
  have h₃ : r₃.2.2 = none := by decide +kernel
  have hfirst : Session "data/checkpoints.json" {} fresh [⟨firstUpdates, none⟩] r₁.1 r₁.2.1 :=
    .called firstUpdates none .opened (decodes_of_same (by decide +kernel)) (by rw [← h₁])
  have hsecond := hfirst.called secondUpdates (some (.beside [123], "disk full"))
    (decodes_of_same (by decide +kernel)) (show _ = (r₂.1, r₂.2.1, some (.io "disk full")) by rw [← h₂])
  have hthird := hsecond.called thirdUpdates none (decodes_of_same (by decide +kernel))
    (show _ = (r₃.1, r₃.2.1, none) by rw [← h₃])
  obtain ⟨hvalue, -, -, hload⟩ := hthird.atomic (load_of_not_exists (by decide +kernel))
  exact ⟨r₃.1, r₃.2.1, hthird, hvalue (.file "a"), hvalue (.callGraph "a"), hvalue (.revision "r"), hload⟩

end CheckpointStore

end RepoAtlas
