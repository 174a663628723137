import RepoAtlas.Proofs.Scan.Parts
import RepoAtlas.Scan.Collect

/-!
# The walk and events

The walk asks of every entry on the way to a file what the rules of the directories above it say, nearest
first, by rank of the ignore files. An event asks of every directory above the file what its rules for
version control say of the file, or else of the nearest entry above of which they say anything. Of a path
that the filter admits they agree exactly if both find an entry or a directory that ignores it, or neither
does. So they agree wherever nothing is included again, only files that events read speak of entries on the
way, and no rules ignore their own directory.
-/

namespace RepoAtlas.ScanFilter

open Paths

variable {f : ScanFilter} {tree : FileTree} {l : List String} {p : String}

/-! ### What both ask -/

/-- The rules of the directory that ends at a place of a path. -/
def rulesAt (f : ScanFilter) (tree : FileTree) (l : List String) (k : Nat) : DirectoryRules :=
  f.directoryRules tree (between l 0 k)

/-- The rules of the directories above a place of a path, nearest first. -/
def rulesAbove (f : ScanFilter) (tree : FileTree) (l : List String) (m : Nat) : List DirectoryRules :=
  (List.range m).reverse.map (f.rulesAt tree l)

lemma rulesAbove_succ (f : ScanFilter) (tree : FileTree) (l : List String) (m : Nat) :
    f.rulesAbove tree l (m + 1) = f.rulesAt tree l m :: f.rulesAbove tree l m := by
  simp [rulesAbove, List.range_succ]

/-- What the walk finds of the entry that ends at a place: what the rules of the directories above it say of
it. -/
def walkVerdict (f : ScanFilter) (tree : FileTree) (l : List String) (m : Nat) : Ignore.Verdict :=
  ignoreVerdict (f.rulesAbove tree l m) (between l 0 m) (m < l.length)

/-- The rules of the directory at a place that events read. -/
def heardRules (f : ScanFilter) (tree : FileTree) (l : List String) (k : Nat) : List Ignore.Rule :=
  if k = 0 then (f.rulesAt tree l k).gitignore ++ (f.rulesAt tree l k).exclude else (f.rulesAt tree l k).gitignore

/-- What an event finds in the directory at a place: what its rules say of the path, or else of the nearest
entry above it of which they say anything, the directory itself being the last. -/
def eventVerdict (f : ScanFilter) (tree : FileTree) (l : List String) (k : Nat) : Ignore.Verdict :=
  firstVerdict ((List.range (l.length - k + 1)).reverse.map fun i =>
    Ignore.verdict (f.heardRules tree l k) (between l k (k + i)) (k + i < l.length))

/-! ### Verdicts -/

lemma silent_orElse (v : Ignore.Verdict) : Ignore.Verdict.silent.orElse v = v := rfl

lemma orElse_silent (v : Ignore.Verdict) : v.orElse .silent = v := by
  cases v <;> rfl

lemma firstVerdict_cons (v : Ignore.Verdict) (vs : List Ignore.Verdict) :
    firstVerdict (v :: vs) = v.orElse (firstVerdict vs) := rfl

lemma getD_find?_eq_firstVerdict (vs : List Ignore.Verdict) :
    (vs.find? (· != .silent)).getD .silent = firstVerdict vs := by
  induction vs with
  | nil => rfl
  | cons v vs ih =>
    rw [firstVerdict_cons, ← ih]
    cases v <;> rfl

lemma firstVerdict_eq_silent {vs : List Ignore.Verdict} (h : ∀ v ∈ vs, v = .silent) :
    firstVerdict vs = .silent := by
  induction vs with
  | nil => rfl
  | cons v vs ih =>
    rw [firstVerdict_cons, h v (by simp), ih fun w hw => h w (by simp [hw])]
    rfl

lemma verdict_nil (path : String) (isDirectory : Bool) : Ignore.verdict [] path isDirectory = .silent := rfl

/-- The ignore files of version control are asked after the others. -/
lemma ignoreVerdict_eq (rules : List DirectoryRules) (path : String) (isDirectory : Bool) :
    ignoreVerdict rules path isDirectory =
      (firstVerdict (rules.map fun r => Ignore.verdict r.ignore (below r.path path) isDirectory)).orElse
        ((firstVerdict (rules.map fun r => Ignore.verdict r.gitignore (below r.path path) isDirectory)).orElse
          (firstVerdict (rules.map fun r => Ignore.verdict r.exclude (below r.path path) isDirectory))) := by
  conv_rhs => rw [← orElse_silent (firstVerdict (rules.map fun r =>
    Ignore.verdict r.exclude (below r.path path) isDirectory))]
  rfl

/-- Rules that are asked of a path and of those above it, below the directory at a place. -/
lemma verdictAbove_between (h : Named l) {k : Nat} (hk : k < l.length) (rules : List Ignore.Rule) :
    Ignore.verdictAbove rules (between l k l.length) =
      firstVerdict ((List.range (l.length - k + 1)).reverse.map fun i =>
        Ignore.verdict rules (between l k (k + i)) (k + i < l.length)) := by
  have hlast : k + (l.length - k) = l.length := by omega
  rw [Ignore.verdictAbove, ancestors_between h, getD_find?_eq_firstVerdict, List.range_succ, List.reverse_append]
  simp only [List.reverse_singleton, List.singleton_append, List.map_cons, List.drop_one, List.tail_cons,
    firstVerdict_cons, hlast, List.map_map, Nat.lt_irrefl, decide_false]
  refine congrArg (Ignore.Verdict.orElse _ <| firstVerdict ·) ?_
  refine List.map_congr_left fun i hi => ?_
  have hi : k + i < l.length := by
    simp at hi
    omega
  simp [hi]

/-! ### The filter of a repository -/

/-- A filter that was built of a tree. -/
structure BuiltOf (f : ScanFilter) (tree : FileTree) : Prop where
  overrides : ∀ r ∈ f.overrides, r.includes = true
  rootRules : f.rootRules = (f.directoryRules tree "").gitignore ++ (f.directoryRules tree "").exclude

/-- A line that begins with an exclamation mark includes paths. -/
lemma includes_of_readLine {openClass : Bool} {pattern : String} {r : Ignore.Rule}
    (h : Ignore.readLine openClass ("!" ++ pattern) = .rule r) : r.includes = true := by
  have hhash : Text.startsWith ("!" ++ pattern) "#" = false := by
    simp [Text.startsWith, Text.stripStart?, Text.after?]
  simp only [Ignore.readLine, hhash, Bool.false_eq_true, if_false] at h
  generalize hline : (if Text.endsWith ("!" ++ pattern) "\\ " = true then "!" ++ pattern
    else Text.trimEnd ("!" ++ pattern)) = line at h
  -- no blank is cut off before the mark
  have hmark : ∃ cs, line.toList = '!' :: cs := by
    rw [← hline]
    split
    · exact ⟨pattern.toList, by simp⟩
    · have hbang : Text.isBlank '!' = false := by decide
      simp only [Text.trimEnd, Text.trimEndBy, Text.dropEndWhile, String.toList_ofList, String.toList_append]
      rw [show ("!" : String).toList = ['!'] from rfl, List.reverse_append, List.reverse_singleton,
        List.dropWhile_append]
      split <;> simp [hbang]
  obtain ⟨cs, hcs⟩ := hmark
  have hescaped : (Text.startsWith line "\\!" || Text.startsWith line "\\#") = false := by
    simp [Text.startsWith, Text.stripStart?, hcs, Text.after?]
  have hincludes : Text.startsWith line "!" = true := by
    simp [Text.startsWith, Text.stripStart?, hcs, Text.after?]
  have hnonempty : line.isEmpty = false := by simp [← String.toList_inj, hcs]
  simp only [hescaped, hincludes, hnonempty, Bool.false_eq_true, if_false] at h
  generalize Ignore.parseGlob? openClass _ = glob at h
  cases glob with
  | some glob =>
    cases h
    rfl
  | none => cases h

lemma includes_of_overrides? {patterns : List String} : ∀ {rules : List Ignore.Rule},
    overrides? patterns = some rules → ∀ r ∈ rules, r.includes = true := by
  induction patterns with
  | nil =>
    intro rules h
    cases h
    simp
  | cons pattern patterns ih =>
    intro rules h
    simp only [overrides?, List.mapM_cons, Option.map_eq_some_iff, Option.bind_eq_bind,
      Option.bind_eq_some_iff] at h
    obtain ⟨ls, ⟨own, hown, rest, hrest, hls⟩, rfl⟩ := h
    cases hls
    intro r hr
    rcases List.mem_append.mp hr with hr | hr
    · cases hline : Ignore.readLine false ("!" ++ pattern) with
      | rule r' =>
        rw [hline] at hown
        cases hown
        cases List.mem_singleton.mp hr
        exact includes_of_readLine hline
      | blank =>
        rw [hline] at hown
        cases hown
        cases hr
      | malformed =>
        rw [hline] at hown
        cases hown
    · exact ih (by rw [overrides?, hrest]; rfl) r hr

lemma builtOf_of_build? {settings : IndexingSettings} {registry : Registry}
    (h : build? settings registry tree = some f) : f.BuiltOf tree := by
  simp only [build?, Option.bind_eq_bind, Option.bind_eq_some_iff] at h
  obtain ⟨overrides, hoverrides, h⟩ := h
  cases h
  refine ⟨includes_of_overrides? hoverrides, ?_⟩
  simp only [directoryRules]
  by_cases hrespect : settings.respectGitignore = true
  · simp [hrespect, Paths.join]
  · simp [hrespect]

/-- Ignore patterns of the settings never include a path. -/
lemma BuiltOf.overrideVerdict_ne_included (hf : f.BuiltOf tree) (path : String) (isDirectory : Bool) :
    f.overrideVerdict path isDirectory ≠ .included := by
  simp only [overrideVerdict, Ignore.verdict]
  split
  · rename_i r hr
    have hmem : r ∈ f.overrides := List.mem_reverse.mp (List.mem_of_find?_eq_some hr)
    simp [hf.overrides r hmem, Ignore.Verdict.invert]
  · simp [Ignore.Verdict.invert]

/-! ### What the walk does -/

lemma named_of_admits (hp : f.admits p = true) (hnames : "" ∉ parts p) : Named (parts p) := by
  simp only [admits, Bool.and_eq_true, List.all_eq_true, Bool.not_eq_true'] at hp
  obtain ⟨⟨⟨⟨⟨-, -⟩, hdots⟩, -⟩, -⟩, -⟩ := hp
  exact fun x hx => ⟨fun hempty => hnames (hempty ▸ hx), not_mem_of_mem_parts hx, hdots x hx⟩

/-- The ignore patterns of the settings say nothing of any entry on the way to an admitted path. -/
lemma overrideVerdict_eq_silent (hf : f.BuiltOf tree) (hp : f.admits p = true) {m : Nat} (hm : 0 < m)
    (hl : m ≤ (parts p).length) :
    f.overrideVerdict (between (parts p) 0 m) (m < (parts p).length) = .silent := by
  have hne : f.overrideVerdict (between (parts p) 0 m) (m < (parts p).length) ≠ .ignored := by
    simp only [admits, Bool.and_eq_true, List.all_eq_true, bne_iff_ne, properPrefixes_eq, List.mem_map,
      forall_exists_index, and_imp, forall_apply_eq_imp_iff₂, List.mem_range] at hp
    obtain ⟨⟨-, hfile⟩, hdirs⟩ := hp
    rcases Nat.lt_or_eq_of_le hl with hlt | rfl
    · have hdir := hdirs (m - 1) (by omega)
      rw [show m - 1 + 1 = m by omega] at hdir
      simpa [between, hlt] using hdir
    · simpa [between_zero_length] using hfile
  cases h : f.overrideVerdict (between (parts p) 0 m) (m < (parts p).length) with
  | silent => rfl
  | ignored => exact absurd h hne
  | included => exact absurd h (hf.overrideVerdict_ne_included _ _)

lemma getLast?_parts_between (h : Named l) {m : Nat} (hm : 0 < m) (hl : m ≤ l.length) :
    (parts (between l 0 m)).getLast? = l[m - 1]? := by
  have hparts : parts (between l 0 m) = l.take m :=
    parts_join (take_ne_nil hm hl) fun x hx => (h.take m x hx).2.1
  rw [hparts, List.getLast?_take, if_neg (by omega), List.getElem?_eq_getElem (by omega)]
  rfl

/-- Of an entry on the way to an admitted path, only the ignore files can make the walk pass over it. -/
lemma skips_between (hf : f.BuiltOf tree) (hp : f.admits p = true) (hnames : "" ∉ parts p) {m : Nat} (hm : 0 < m)
    (hl : m ≤ (parts p).length) (rules : List DirectoryRules) :
    f.skips rules (between (parts p) 0 m) (m < (parts p).length) =
      (ignoreVerdict rules (between (parts p) 0 m) (m < (parts p).length) == .ignored) := by
  have hnamed := named_of_admits hp hnames
  have hplace : m - 1 < (parts p).length := by omega
  have hdot := (hnamed _ (List.getElem_mem hplace)).2.2
  have hdirs : (decide (m < (parts p).length) && f.settings.ignoreDirs.contains (parts p)[m - 1]) = false := by
    simp only [admits, Bool.and_eq_true, List.all_eq_true, Bool.not_eq_true'] at hp
    obtain ⟨⟨⟨-, hdirs⟩, -⟩, -⟩ := hp
    by_cases hlt : m < (parts p).length
    · have hmem : (parts p)[m - 1] ∈ (parts p).dropLast :=
        List.mem_iff_getElem.mpr ⟨m - 1, by simp; omega, List.getElem_dropLast _⟩
      simpa [hlt] using hdirs _ hmem
    · simp [hlt]
  simp only [skips, overrideVerdict_eq_silent hf hp hm hl, getLast?_parts_between hnamed hm hl,
    List.getElem?_eq_getElem hplace, Option.getD_some, hdirs, hdot, Bool.or_false]
  cases ignoreVerdict rules (between (parts p) 0 m) (m < (parts p).length) <;> rfl

lemma directoriesAbove_eq (p : String) :
    FileTree.directoriesAbove p = (List.range' 1 ((parts p).length - 1)).map (between (parts p) 0) := by
  rw [FileTree.directoriesAbove, properPrefixes_eq, List.map_map, List.range'_eq_map_range, List.map_map]
  refine List.map_congr_left fun i _ => ?_
  simp [between, Nat.add_comm]

/-- The walk from a directory on: it reaches the path if it finds no entry further on the way that is ignored. -/
lemma reaches_from (hf : f.BuiltOf tree) (hp : f.admits p = true) (hnames : "" ∉ parts p) (j : Nat) :
    ∀ k, k + j + 1 = (parts p).length →
      (f.reaches tree p (f.rulesAbove tree (parts p) (k + 1)) ((List.range' (k + 1) j).map (between (parts p) 0)) =
          true ↔
        ∀ m, k < m → m ≤ (parts p).length → f.walkVerdict tree (parts p) m ≠ .ignored) := by
  induction j with
  | zero =>
    intro k hk
    have hlast : (parts p).length = k + 1 := by omega
    have hskips := skips_between hf hp hnames (m := (parts p).length) (by omega) (Nat.le_refl _)
      (f.rulesAbove tree (parts p) (parts p).length)
    rw [← walkVerdict, between_zero_length] at hskips
    simp only [Nat.lt_irrefl, decide_false] at hskips
    simp only [List.range'_zero, List.map_nil, reaches, ← hlast, hskips, Bool.not_eq_true', beq_eq_false_iff_ne]
    refine ⟨fun h m hkm hm => ?_, fun h => h _ (by omega) (Nat.le_refl _)⟩
    obtain rfl : m = (parts p).length := by omega
    exact h
  | succ j ih =>
    intro k hk
    have hlt : k + 1 < (parts p).length := by omega
    have hskips := skips_between hf hp hnames (Nat.succ_pos k) (Nat.le_of_lt hlt)
      (f.rulesAbove tree (parts p) (k + 1))
    rw [← walkVerdict] at hskips
    simp only [hlt, decide_true] at hskips
    rw [List.range'_succ, List.map_cons, reaches, Bool.and_eq_true, hskips, Bool.not_eq_true', beq_eq_false_iff_ne]
    have hrest := ih (k + 1) (by omega)
    rw [rulesAbove_succ] at hrest
    refine (and_congr_right' hrest).trans ⟨fun ⟨hfirst, hlater⟩ m hkm hm => ?_, fun h => ?_⟩
    · rcases Nat.lt_or_eq_of_le (Nat.succ_le_of_lt hkm) with hlater' | rfl
      · exact hlater m hlater' hm
      · exact hfirst
    · exact ⟨h _ (by omega) (by omega), fun m hkm hm => h m (by omega) hm⟩

/-- The walk collects a file that the filter admits if no entry on the way to it is ignored. -/
lemma exists_mem_collect_iff (hf : f.BuiltOf tree) (hmem : p ∈ tree.files) (hnames : "" ∉ parts p) :
    (∃ s ∈ f.collect tree, s.path = p) ↔ f.admits p = true ∧
      ∀ m, 0 < m → m ≤ (parts p).length → f.walkVerdict tree (parts p) m ≠ .ignored := by
  have hpos : 0 < (parts p).length := by simp [parts, Text.splitAt_eq, List.length_pos_iff]
  have hreaches (hp : f.admits p = true) := reaches_from hf hp hnames ((parts p).length - 1) 0 (by omega)
  have hroot : f.rulesAbove tree (parts p) 1 = [f.directoryRules tree ""] := rfl
  rw [← directoriesAbove_eq, hroot] at hreaches
  simp only [collect, List.mem_filterMap, Prod.exists, Std.ExtTreeMap.mem_toList_iff_getElem?_eq_some]
  constructor
  · rintro ⟨s, ⟨path, content, -, hs⟩, rfl⟩
    split at hs
    · cases hs
    rename_i hadmits
    split at hs
    · cases hs
    rename_i hreached
    simp only [Option.bind_eq_bind, Option.bind_eq_some_iff] at hs
    obtain ⟨language, -, hs⟩ := hs
    cases hs
    simp only [Bool.not_eq_true', Bool.not_eq_false] at hadmits hreached
    exact ⟨hadmits, (hreaches hadmits).mp hreached⟩
  · rintro ⟨hadmits, hverdicts⟩
    have hlanguage : (f.registry.detect? p).isSome := by
      simp only [admits, Bool.and_eq_true] at hadmits
      exact hadmits.1.1.1.1.2
    obtain ⟨language, hlanguage⟩ := Option.isSome_iff_exists.mp hlanguage
    obtain ⟨content, hcontent⟩ : ∃ content, tree.files[p]? = some content :=
      ⟨_, Std.ExtTreeMap.getElem?_eq_some_getElem hmem⟩
    refine ⟨⟨p, language, fingerprintBytes content⟩, ⟨p, content, hcontent, ?_⟩, rfl⟩
    simp [hadmits, (hreaches hadmits).mpr hverdicts, hlanguage]

/-! ### What an event asks -/

lemma rulesOfDirectory_take (h : Named l) {k : Nat} (hk : 0 < k) (hl : k ≤ l.length)
    (hrespect : f.settings.respectGitignore = true) :
    rulesOfDirectory tree (l.take k) = f.heardRules tree l k := by
  have hnames : (l.take k).filter (!·.isEmpty) = l.take k := by
    rw [List.filter_eq_self]
    intro x hx
    simpa using (h.take k x hx).1
  have hpath : Text.join "/" (l.take k ++ [".gitignore"]) = join (between l 0 k) ".gitignore" := by
    rw [join_between h hk hl (by decide), join_append (take_ne_nil hk hl) (by simp)]
    simp [between, Text.join]
  simp [rulesOfDirectory, hnames, hpath, heardRules, show k ≠ 0 by omega, rulesAt, directoryRules, hrespect]

/-- Below a directory an event finds a path ignored if the rules of one of the next directories ignore it. -/
lemma ignoredBelow_append (tree : FileTree) (above rest : List String) :
    ignoredBelow tree above rest = true ↔ ∃ k, above.length < k ∧ k < (above ++ rest).length ∧
      Ignore.verdictAbove (rulesOfDirectory tree ((above ++ rest).take k))
        (between (above ++ rest) k (above ++ rest).length) = .ignored := by
  induction rest generalizing above with
  | nil =>
    simp only [ignoredBelow, Bool.false_eq_true, List.append_nil, false_iff]
    omega
  | cons part rest ih =>
    cases rest with
    | nil =>
      simp only [ignoredBelow, Bool.false_eq_true, List.length_append, List.length_cons, List.length_nil, false_iff]
      omega
    | cons next rest =>
      have hlist : above ++ part :: next :: rest = (above ++ [part]) ++ next :: rest := by simp
      have hhere : Ignore.verdictAbove (rulesOfDirectory tree (above ++ [part])) (Text.join "/" (next :: rest)) =
          Ignore.verdictAbove
            (rulesOfDirectory tree (((above ++ [part]) ++ next :: rest).take (above ++ [part]).length))
            (between ((above ++ [part]) ++ next :: rest) (above ++ [part]).length
              ((above ++ [part]) ++ next :: rest).length) := by
        rw [between, List.take_length, List.take_left, List.drop_left]
      rw [ignoredBelow.eq_3 _ _ _ _ (List.cons_ne_nil next rest), Bool.or_eq_true, beq_iff_eq, ih, hhere, hlist]
      constructor
      · rintro (h | ⟨k, hk, hlt, h⟩)
        · exact ⟨_, by simp, by simp, h⟩
        · exact ⟨k, by simp at hk; omega, hlt, h⟩
      · rintro ⟨k, hk, hlt, h⟩
        rcases Nat.lt_or_eq_of_le (Nat.succ_le_of_lt hk) with hk | rfl
        · exact .inr ⟨k, by simpa using hk, hlt, h⟩
        · exact .inl (by simpa using h)

/-- An event finds an admitted path ignored if it finds so in one of the directories above it. -/
lemma isGitignored_iff (hf : f.BuiltOf tree) (h : Named (parts p)) :
    f.isGitignored tree p = true ↔ ∃ k < (parts p).length, f.eventVerdict tree (parts p) k = .ignored := by
  have hpos : 0 < (parts p).length := by simp [parts, Text.splitAt_eq, List.length_pos_iff]
  have hevent : ∀ k < (parts p).length, f.eventVerdict tree (parts p) k =
      Ignore.verdictAbove (f.heardRules tree (parts p) k) (between (parts p) k (parts p).length) :=
    fun k hk => (verdictAbove_between h hk _).symm
  have hroot : f.rootRules = f.heardRules tree (parts p) 0 := by
    simp [hf.rootRules, heardRules, rulesAt, between_same]
  by_cases hrespect : f.settings.respectGitignore = true
  · have hbelow := ignoredBelow_append tree [] (parts p)
    simp only [List.nil_append, List.length_nil] at hbelow
    rw [isGitignored, hrespect, Bool.true_and, Bool.or_eq_true, beq_iff_eq, hbelow, hroot]
    constructor
    · rintro (hignored | ⟨k, hk, hlt, hignored⟩)
      · exact ⟨0, hpos, by rwa [hevent 0 hpos, between_zero_length]⟩
      · exact ⟨k, hlt, by rwa [hevent k hlt, ← rulesOfDirectory_take h hk (Nat.le_of_lt hlt) hrespect]⟩
    · rintro ⟨k, hlt, hignored⟩
      rw [hevent k hlt] at hignored
      rcases Nat.eq_zero_or_pos k with rfl | hk
      · exact .inl (by rwa [between_zero_length] at hignored)
      · exact .inr ⟨k, hk, hlt, by rwa [rulesOfDirectory_take h hk (Nat.le_of_lt hlt) hrespect]⟩
  · have hsilent : ∀ k < (parts p).length, f.eventVerdict tree (parts p) k = .silent := by
      intro k hk
      have hrules : f.heardRules tree (parts p) k = [] := by
        simp [heardRules, rulesAt, directoryRules, hrespect]
      rw [eventVerdict, hrules]
      exact firstVerdict_eq_silent (by simp [verdict_nil])
    simp only [isGitignored, hrespect, Bool.false_and, Bool.false_eq_true, false_iff, not_exists, not_and]
    intro k hk
    simp [hsilent k hk]

/-! ### Where both agree -/

/-- On the way to a path nothing is included again, only the files that events read say anything of an
entry, and no rules speak of their own directory. -/
structure Plain (f : ScanFilter) (tree : FileTree) (l : List String) : Prop where
  ignore : ∀ k m, k < m → m ≤ l.length →
    Ignore.verdict (f.rulesAt tree l k).ignore (between l k m) (m < l.length) = .silent
  exclude : ∀ k m, 0 < k → k < m → m ≤ l.length →
    Ignore.verdict (f.rulesAt tree l k).exclude (between l k m) (m < l.length) = .silent
  rootExclude : ∀ m, 0 < m → m ≤ l.length →
    Ignore.verdict (f.rulesAt tree l 0).exclude (between l 0 m) (m < l.length) ≠ .included
  gitignore : ∀ k m, k < m → m ≤ l.length →
    Ignore.verdict (f.rulesAt tree l k).gitignore (between l k m) (m < l.length) ≠ .included
  own : ∀ k < l.length, Ignore.verdict (f.heardRules tree l k) "" true = .silent

lemma orElse_eq_ignored_iff {a b : Ignore.Verdict} (ha : a ≠ .included) :
    a.orElse b = .ignored ↔ a = .ignored ∨ b = .ignored := by
  cases a <;> simp_all [Ignore.Verdict.orElse]

lemma orElse_ne_included {a b : Ignore.Verdict} (ha : a ≠ .included) (hb : b ≠ .included) :
    a.orElse b ≠ .included := by
  cases a <;> simp_all [Ignore.Verdict.orElse]

/-- Where nothing is included, whatever is ignored decides. -/
lemma firstVerdict_eq_ignored_iff {vs : List Ignore.Verdict} (h : .included ∉ vs) :
    firstVerdict vs = .ignored ↔ .ignored ∈ vs := by
  induction vs with
  | nil => simp [firstVerdict]
  | cons v vs ih =>
    simp only [List.mem_cons, not_or] at h
    rw [firstVerdict_cons, orElse_eq_ignored_iff (Ne.symm h.1), ih h.2, List.mem_cons, eq_comm]

lemma firstVerdict_ne_included {vs : List Ignore.Verdict} (h : .included ∉ vs) : firstVerdict vs ≠ .included := by
  induction vs with
  | nil => simp [firstVerdict]
  | cons v vs ih =>
    simp only [List.mem_cons, not_or] at h
    rw [firstVerdict_cons]
    exact orElse_ne_included (Ne.symm h.1) (ih h.2)

/-- Rules that follow others are asked first. -/
lemma verdict_append (rules later : List Ignore.Rule) (path : String) (isDirectory : Bool) :
    Ignore.verdict (rules ++ later) path isDirectory =
      (Ignore.verdict later path isDirectory).orElse (Ignore.verdict rules path isDirectory) := by
  simp only [Ignore.verdict, List.reverse_append, List.find?_append]
  cases List.find? _ later.reverse with
  | none => rfl
  | some r => cases hr : r.includes <;> simp [hr, Ignore.Verdict.orElse]

lemma below_between (h : Named l) {k m : Nat} (hkm : k < m) (hm : m ≤ l.length) :
    below (between l 0 k) (between l 0 m) = between l k m := by
  rcases Nat.eq_zero_or_pos k with rfl | hk
  · simp [below, between_same]
  · rw [below, isEmpty_between h hk (by omega), between_zero hk hkm hm, Text.stripStart?_append]
    rfl

/-- What is asked of the rules of the directories above an entry. -/
lemma map_rulesAbove {α : Type} (f : ScanFilter) (tree : FileTree) (h : Named l) {m : Nat} (hm : m ≤ l.length)
    (ask : DirectoryRules → String → α) :
    ((f.rulesAbove tree l m).map fun r => ask r (below r.path (between l 0 m))) =
      (List.range m).reverse.map fun k => ask (f.rulesAt tree l k) (between l k m) := by
  rw [rulesAbove, List.map_map]
  refine List.map_congr_left fun k hk => ?_
  have hkm : k < m := by simpa using hk
  have hpath : (f.rulesAt tree l k).path = between l 0 k := rfl
  rw [Function.comp, hpath, below_between h hkm hm]

namespace Plain

variable (h : f.Plain tree l)
include h

/-- What the rules that events read say of an entry. -/
lemma heard_eq_ignored_iff {k m : Nat} (hkm : k < m) (hm : m ≤ l.length) :
    Ignore.verdict (f.heardRules tree l k) (between l k m) (m < l.length) = .ignored ↔
      Ignore.verdict (f.rulesAt tree l k).gitignore (between l k m) (m < l.length) = .ignored ∨
        Ignore.verdict (f.rulesAt tree l k).exclude (between l k m) (m < l.length) = .ignored := by
  rcases Nat.eq_zero_or_pos k with rfl | hk
  · rw [heardRules, if_pos rfl, verdict_append, orElse_eq_ignored_iff (h.rootExclude m hkm hm), or_comm]
  · simp [heardRules, show k ≠ 0 by omega, h.exclude k m hk hkm hm]

lemma heard_ne_included {k m : Nat} (hkm : k < m) (hm : m ≤ l.length) :
    Ignore.verdict (f.heardRules tree l k) (between l k m) (m < l.length) ≠ .included := by
  rcases Nat.eq_zero_or_pos k with rfl | hk
  · rw [heardRules, if_pos rfl, verdict_append]
    exact orElse_ne_included (h.rootExclude m hkm hm) (h.gitignore 0 m hkm hm)
  · simpa [heardRules, show k ≠ 0 by omega] using h.gitignore k m hkm hm

lemma exclude_ne_included {k m : Nat} (hkm : k < m) (hm : m ≤ l.length) :
    Ignore.verdict (f.rulesAt tree l k).exclude (between l k m) (m < l.length) ≠ .included := by
  rcases Nat.eq_zero_or_pos k with rfl | hk
  · exact h.rootExclude m hkm hm
  · simp [h.exclude k m hk hkm hm]

/-- The walk finds an entry ignored if the rules of a directory above it that events read ignore it. -/
lemma walkVerdict_iff (hl : Named l) {m : Nat} (hm : m ≤ l.length) : f.walkVerdict tree l m = .ignored ↔
    ∃ k < m, Ignore.verdict (f.heardRules tree l k) (between l k m) (m < l.length) = .ignored := by
  have hask (part : DirectoryRules → List Ignore.Rule) :=
    f.map_rulesAbove tree hl hm fun r path => Ignore.verdict (part r) path (m < l.length)
  have hignore : firstVerdict ((List.range m).reverse.map fun k =>
      Ignore.verdict (f.rulesAt tree l k).ignore (between l k m) (m < l.length)) = .silent := by
    refine firstVerdict_eq_silent ?_
    simp only [List.mem_map, List.mem_reverse, List.mem_range, forall_exists_index, and_imp,
      forall_apply_eq_imp_iff₂]
    exact fun k hk => h.ignore k m hk hm
  have hgitignore : .included ∉ (List.range m).reverse.map fun k =>
      Ignore.verdict (f.rulesAt tree l k).gitignore (between l k m) (m < l.length) := by
    simpa using fun k hk => h.gitignore k m hk hm
  have hexclude : .included ∉ (List.range m).reverse.map fun k =>
      Ignore.verdict (f.rulesAt tree l k).exclude (between l k m) (m < l.length) := by
    simpa using fun k hk => h.exclude_ne_included hk hm
  rw [walkVerdict, ignoreVerdict_eq, hask (·.ignore), hask (·.gitignore), hask (·.exclude), hignore,
    silent_orElse, orElse_eq_ignored_iff (firstVerdict_ne_included hgitignore),
    firstVerdict_eq_ignored_iff hgitignore, firstVerdict_eq_ignored_iff hexclude]
  simp only [List.mem_map, List.mem_reverse, List.mem_range]
  rw [← exists_or]
  refine exists_congr fun k => ?_
  rw [← and_or_left, and_congr_right_iff]
  exact fun hk => (h.heard_eq_ignored_iff hk hm).symm

/-- In a directory an event finds the path ignored if the rules there that it reads ignore an entry below. -/
lemma eventVerdict_iff {k : Nat} (hk : k < l.length) : f.eventVerdict tree l k = .ignored ↔
    ∃ m, k < m ∧ m ≤ l.length ∧
      Ignore.verdict (f.heardRules tree l k) (between l k m) (m < l.length) = .ignored := by
  have hown : Ignore.verdict (f.heardRules tree l k) (between l k k) (k < l.length) = .silent := by
    simpa [between_same, hk] using h.own k hk
  have hincluded : .included ∉ (List.range (l.length - k + 1)).reverse.map fun i =>
      Ignore.verdict (f.heardRules tree l k) (between l k (k + i)) (k + i < l.length) := by
    simp only [List.mem_map, List.mem_reverse, List.mem_range, not_exists, not_and]
    intro i hi
    rcases Nat.eq_zero_or_pos i with rfl | hpos
    · simp [hown]
    · exact h.heard_ne_included (by omega) (by omega)
  rw [eventVerdict, firstVerdict_eq_ignored_iff hincluded]
  simp only [List.mem_map, List.mem_reverse, List.mem_range]
  constructor
  · rintro ⟨i, hi, hverdict⟩
    rcases Nat.eq_zero_or_pos i with rfl | hpos
    · simp [hown] at hverdict
    · exact ⟨k + i, by omega, by omega, hverdict⟩
  · rintro ⟨m, hkm, hm, hverdict⟩
    exact ⟨m - k, by omega, by rwa [Nat.add_sub_cancel' (Nat.le_of_lt hkm)]⟩

end Plain

/-- The walk collects a file and events accept its path in the same cases exactly if, where the filter admits
it, the walk finds an entry on the way ignored and events a directory that ignores it, or neither does. They
do so where all rules on the way are plain. -/
theorem collects_iff_accepts {settings : IndexingSettings} {registry : Registry}
    (hbuild : build? settings registry tree = some f) (hmem : p ∈ tree.files) (hnames : "" ∉ parts p) :
    (((∃ s ∈ f.collect tree, s.path = p) ↔ f.accepts tree p = true) ↔
      (f.admits p = true →
        ((∃ m, 0 < m ∧ m ≤ (parts p).length ∧ f.walkVerdict tree (parts p) m = .ignored) ↔
          ∃ k < (parts p).length, f.eventVerdict tree (parts p) k = .ignored))) ∧
    (f.Plain tree (parts p) → ((∃ s ∈ f.collect tree, s.path = p) ↔ f.accepts tree p = true)) := by
  have hf := builtOf_of_build? hbuild
  have hexact : ((∃ s ∈ f.collect tree, s.path = p) ↔ f.accepts tree p = true) ↔
      (f.admits p = true →
        ((∃ m, 0 < m ∧ m ≤ (parts p).length ∧ f.walkVerdict tree (parts p) m = .ignored) ↔
          ∃ k < (parts p).length, f.eventVerdict tree (parts p) k = .ignored)) := by
    rw [exists_mem_collect_iff hf hmem hnames, accepts, Bool.and_eq_true, Bool.not_eq_true', and_congr_right_iff]
    refine imp_congr_right fun hadmits => ?_
    have hwalk : (∀ m, 0 < m → m ≤ (parts p).length → f.walkVerdict tree (parts p) m ≠ .ignored) ↔
        ¬∃ m, 0 < m ∧ m ≤ (parts p).length ∧ f.walkVerdict tree (parts p) m = .ignored := by
      simp only [not_exists, not_and, ne_eq]
    rw [← isGitignored_iff hf (named_of_admits hadmits hnames), hwalk, ← Bool.not_eq_true, not_iff_not]
  refine ⟨hexact, fun hplain => hexact.mpr fun hadmits => ?_⟩
  have hnamed := named_of_admits hadmits hnames
  constructor
  · rintro ⟨m, -, hm, hignored⟩
    obtain ⟨k, hkm, hverdict⟩ := (hplain.walkVerdict_iff hnamed hm).mp hignored
    exact ⟨k, by omega, (hplain.eventVerdict_iff (by omega)).mpr ⟨m, hkm, hm, hverdict⟩⟩
  · rintro ⟨k, hk, hignored⟩
    obtain ⟨m, hkm, hm, hverdict⟩ := (hplain.eventVerdict_iff hk).mp hignored
    exact ⟨m, by omega, hm, (hplain.walkVerdict_iff hnamed hm).mpr ⟨k, hkm, hverdict⟩⟩

/-- A directory with a file that its ignore file names, and one that it does not. -/
def partlyIgnored : FileTree :=
  { files := .ofList [(".gitignore", "build.py\n".toUTF8.toList), ("s/.gitignore", "b.py\n".toUTF8.toList),
      ("s/a.py", []), ("s/b.py", [])]
    dirs := .ofList ["s"] }

def partlyIgnoredFilter : ScanFilter := ⟨{}, {}, [], Ignore.rulesOf "build.py\n".toUTF8.toList⟩

lemma plain_partlyIgnored {l : List String} (hl : l = ["s", "a.py"] ∨ l = ["s", "b.py"]) :
    partlyIgnoredFilter.Plain partlyIgnored l := by
  have hlength : l.length = 2 := by rcases hl with rfl | rfl <;> rfl
  have hplaces : ∀ m ≤ 2, ∀ k < m,
      Ignore.verdict (partlyIgnoredFilter.rulesAt partlyIgnored l k).ignore (between l k m) (m < 2) = .silent ∧
      Ignore.verdict (partlyIgnoredFilter.rulesAt partlyIgnored l k).exclude (between l k m) (m < 2) = .silent ∧
      Ignore.verdict (partlyIgnoredFilter.rulesAt partlyIgnored l k).gitignore (between l k m) (m < 2) ≠
        .included ∧
      Ignore.verdict (partlyIgnoredFilter.heardRules partlyIgnored l k) "" true = .silent := by
    rcases hl with rfl | rfl <;> decide +kernel
  constructor <;> rw [hlength]
  · exact fun k m hk hm => (hplaces m hm k hk).1
  · exact fun k m _ hk hm => (hplaces m hm k hk).2.1
  · intro m hpos hm
    rw [(hplaces m hm 0 hpos).2.1]
    exact Ignore.Verdict.noConfusion
  · exact fun k m hk hm => (hplaces m hm k hk).2.2.1
  · exact fun k hk => (hplaces 2 (Nat.le_refl 2) k hk).2.2.2

theorem collects_iff_accepts_partlyIgnored :
    build? {} {} partlyIgnored = some partlyIgnoredFilter ∧
      (∃ s ∈ partlyIgnoredFilter.collect partlyIgnored, s.path = "s/a.py") ∧
      ¬∃ s ∈ partlyIgnoredFilter.collect partlyIgnored, s.path = "s/b.py" := by
  have hbuild : build? {} {} partlyIgnored = some partlyIgnoredFilter := by
    have hroot : partlyIgnored.read? ".gitignore" = some "build.py\n".toUTF8.toList := by decide +kernel
    have hexclude : partlyIgnored.read? ".git/info/exclude" = none := by decide
    simp [build?, overrides?, hroot, hexclude, partlyIgnoredFilter]
  have hagree : ∀ p, p ∈ partlyIgnored.files → (parts p = ["s", "a.py"] ∨ parts p = ["s", "b.py"]) →
      ((∃ s ∈ partlyIgnoredFilter.collect partlyIgnored, s.path = p) ↔
        partlyIgnoredFilter.accepts partlyIgnored p = true) := by
    intro p hp hparts
    refine (collects_iff_accepts hbuild hp ?_).2 (plain_partlyIgnored hparts)
    rcases hparts with hparts | hparts <;> simp [hparts]
  refine ⟨hbuild, (hagree _ (by decide +kernel) (by decide +kernel)).mpr (by decide +kernel), ?_⟩
  rw [hagree _ (by decide) (by decide)]
  decide +kernel

/-- A file that only the walk knows to be ignored. -/
def privatelyIgnored : FileTree :=
  { files := .ofList [(".ignore", "a.py\n".toUTF8.toList), ("a.py", [])] }

/-- The walk passes over a file that an ignore file names which is not one of version control, and events
accept it. -/
theorem accepts_not_collected : ∃ f, build? {} {} privatelyIgnored = some f ∧
    "a.py" ∈ privatelyIgnored.files ∧ f.accepts privatelyIgnored "a.py" = true ∧
    ¬∃ s ∈ f.collect privatelyIgnored, s.path = "a.py" := by
  have hbuild : build? {} {} privatelyIgnored = some ⟨{}, {}, [], []⟩ := rfl
  have hmem : "a.py" ∈ privatelyIgnored.files := by decide
  refine ⟨_, hbuild, hmem, by decide, ?_⟩
  rw [exists_mem_collect_iff (builtOf_of_build? hbuild) hmem (by decide)]
  rintro ⟨-, hverdicts⟩
  exact hverdicts 1 Nat.one_pos (by decide +kernel) (by decide +kernel)

end RepoAtlas.ScanFilter
