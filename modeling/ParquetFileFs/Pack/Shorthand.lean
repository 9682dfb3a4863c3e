import ParquetFileFs.Lib.FileTree
import ParquetFileFs.Pack.Files
import ParquetFileFs.Pack.GlobRoot

/-!
# Directories as patterns

A directory stands for all files below it: its name becomes the beginning of a
pattern and is the root.  The pattern reads wildcards in the name as such, so the
files it finds are those below the directory only if the name, as a pattern,
stands for itself and for nothing else that has files below it.

## Main definitions

* `selectGlob` — what packing a pattern does before anything is written.
* `Tree` — the trees of directories and regular files.
* `SelectsBelow` — the pairs are those of the files below a directory.
* `GlobRules`, `Globs` — what the glob library is relied on for.
* `ShorthandFits` — the name of the directory stands for the directory.

## Main results

* `packGlob_eq` — packing a pattern selects, and then writes.
* `shorthand_iff` — **exactly when a directory stands for its files.**
* `shorthandFits_of_literal` — a name without wildcards does.
-/

namespace ParquetFileFs

open Program Segments Glob

/-! ### Selecting -/

/-- The files a pattern finds below the root. -/
def selectExpanded (pattern root : Str) : FileM (List (Str × Str)) :=
  .call (.expand pattern) fun
    | .error e => .ret (.error (.err (.pack ("bad glob pattern '".toList ++ pattern ++ "': ".toList
        ++ e))))
    | .ok entries =>
        (mapEach (globEntry root) entries).andThen fun found =>
          let pairs := found.filterMap id
          if pairs = [] then
            .ret (.error (.err (.pack ("no files matched '".toList ++ pattern ++ "'".toList))))
          else .ret (.ok pairs)

/-- The files a pattern or a directory stands for. -/
def selectGlob (pattern : Str) (root : Option Str) : FileM (List (Str × Str)) :=
  .call (.stat pattern) fun
    | .ok .dir =>
        let dir := pattern.rdropWhile (· = '/')
        selectExpanded (dir ++ "/**/*".toList) (root.getD dir)
    | _ => selectExpanded pattern (root.getD (globFixedPrefix pattern))

theorem packExpanded_eq (W : ParquetWriter) (pattern root out : Str) (opts : PackOptions) :
    packExpanded W pattern root out opts =
      (selectExpanded pattern root).andThen fun pairs => writePairs W pairs out opts := by
  rw [packExpanded, selectExpanded, call_andThen]
  congr 1
  funext r
  cases r with
  | error e => rfl
  | ok entries =>
    dsimp only
    rw [andThen_assoc]
    congr 1
    funext found
    split_ifs <;> rfl

/-- **Packing a pattern selects, and then writes.** -/
theorem packGlob_eq (W : ParquetWriter) (pattern : Str) (root : Option Str) (out : Str)
    (opts : PackOptions) : packGlob W pattern root out opts =
      (selectGlob pattern root).andThen fun pairs => writePairs W pairs out opts := by
  rw [packGlob, selectGlob, call_andThen]
  congr 1
  funext r
  match r with
  | .ok .dir => exact packExpanded_eq W _ _ out opts
  | .ok .file => exact packExpanded_eq W _ _ out opts
  | .error e => exact packExpanded_eq W _ _ out opts

/-! ### Trees -/

/-- Directories and regular files, by their names. -/
structure Tree extends FileTree Str where
  isName : ∀ {names}, kind names ≠ none → ∀ s ∈ names, IsName s

/-- The paths that end in a separator or in `.` are those of directories. -/
def EndsAsDir (p : Str) : Prop :=
  (p.splitOn '/').getLast? = some [] ∨ (p.splitOn '/').getLast? = some ".".toList

instance : DecidablePred EndsAsDir := fun _ => inferInstanceAs (Decidable (_ ∨ _))

namespace Tree

/-- The names a path leads to. -/
def resolve (t : Tree) (p : Str) : Option (List Str) :=
  t.walk "..".toList (if p.head? = some '/' then [] else t.cwd) (nameSegs p)

/-- What a path leads to. -/
def stat (t : Tree) (p : Str) : Option FileSystem.Kind :=
  if p = [] then none
  else
    match (t.resolve p).bind t.kind with
    | some .file => if EndsAsDir p then none else some .file
    | k => k

/-- `names` lead from the directory `d` to a regular file. -/
def Below (t : Tree) (d : Str) (names : List Str) : Prop :=
  names ≠ [] ∧ ∃ dir, t.resolve d = some dir ∧ t.kind (dir ++ names) = some .file

end Tree

/-- The pairs of a stored path and a source are those of the regular files below
the directory, each once and stored under the names that lead to it. -/
structure SelectsBelow (t : Tree) (d : Str) (pairs : List (Str × Str)) : Prop where
  nodup : (pairs.map Prod.fst).Nodup
  sound : ∀ s p, (s, p) ∈ pairs → ∃ names, t.Below d names ∧ s = join '/' names ∧
    t.stat p = some .file ∧ t.resolve p = (t.resolve d).map (· ++ names)
  complete : ∀ names, t.Below d names → join '/' names ∈ pairs.map Prod.fst

theorem Tree.kind_of_stat {t : Tree} {p : Str} (h : t.stat p = some .file) :
    ∃ names, t.resolve p = some names ∧ t.kind names = some .file := by
  unfold stat at h
  split at h
  · cases h
  · split at h
    · next hkind => exact Option.bind_eq_some_iff.mp hkind
    · next hkind =>
      rw [h] at hkind
      exact absurd rfl hkind

/-! ### The glob library -/

/-- Two spellings of one path: repeated separators and `.` do not count. -/
def SamePath (p q : Str) : Prop :=
  (p.head? = some '/' ↔ q.head? = some '/') ∧ nameSegs p = nameSegs q

/-- Which segments the segments of a pattern stand for: those without wildcards
for themselves, and `**` and `*` at the end for names at any depth.  Only with a
further `**` may they stand for segments in more than one way. -/
structure GlobRules (stands once : List Str → List Str → Prop) : Prop where
  literal : ∀ {ss ts}, (∀ s ∈ ss, containsAny s globChars = false) → (stands ss ts ↔ ts = ss)
  deep : ∀ {ss ts}, stands (ss ++ ["**".toList, "*".toList]) ts ↔
    ∃ us names, ts = us ++ names ∧ stands ss us ∧ names ≠ [] ∧ "..".toList ∉ names
  once : ∀ {ss ts}, "**".toList ∉ ss → once (ss ++ ["**".toList, "*".toList]) ts

/-- The paths found for a pattern in a tree: each thing in it for which the pattern
stands, and once if it stands for it in one way. -/
structure Finds (stands once : List Str → List Str → Prop) (t : Tree) (pattern : Str)
    (paths : List Str) : Prop where
  once_iff : ∀ p ∈ paths,
    (paths.map nameSegs).count (nameSegs p) = 1 ↔ once (nameSegs pattern) (nameSegs p)
  stat : ∀ p ∈ paths, t.stat p ≠ none
  found_iff : ∀ p, (∃ q ∈ paths, SamePath q p) ↔
    (p.head? = some '/' ↔ pattern.head? = some '/') ∧ stands (nameSegs pattern) (nameSegs p) ∧
      (t.resolve p).bind t.kind ≠ none

section Handler

variable {σ : Type} (h : (o : FsOp Str UInt8) → σ → FsOp.Res Str o × σ) (s : σ)

/-- In the state `s` the tree is what the calls show. -/
structure ShowsTree (t : Tree) : Prop where
  stat_iff : ∀ p k, (h (.stat p) s).1 = .ok k ↔ t.stat p = some k
  stat_state : ∀ p, (h (.stat p) s).2 = s

/-- What the library answers for a pattern: it rejects it, or finds its paths. -/
structure Globs (valid : Str → Prop) (stands once : List Str → List Str → Prop) (t : Tree)
    (pattern : Str) : Prop where
  rejects : ¬valid pattern → ∃ e, h (.expand pattern) s = (.error e, s)
  finds : valid pattern → ∃ paths, h (.expand pattern) s = (.ok (paths.map .ok), s) ∧
    Finds stands once t pattern paths

end Handler

/-! ### When a directory stands for its files -/

/-- `names` lead from `d` to `p`, as the two are spelled. -/
structure Leads (d p : Str) (names : List Str) : Prop where
  absolute : p.head? = some '/' ↔ d.head? = some '/'
  nameSegs : nameSegs p = nameSegs d ++ names
  ne_nil : names ≠ []
  dots : "..".toList ∉ names

/-- The path is spelled by segments that `stands` relates to those of `d`, and
then by names. -/
def SpelledBelow (stands : List Str → List Str → Prop) (d p : Str) : Prop :=
  (p.head? = some '/' ↔ d.head? = some '/') ∧
    ∃ ts names, nameSegs p = ts ++ names ∧ stands (nameSegs d) ts ∧ names ≠ [] ∧
      "..".toList ∉ names

/-- The directory does not consist of separators only, the library accepts the
pattern, what the name stands for as a pattern has the same files below it as the
directory itself, and the pattern stands for each of these in one way. -/
structure ShorthandFits (valid : Str → Prop) (stands once : List Str → List Str → Prop)
    (t : Tree) (d : Str) : Prop where
  ne_nil : d.rdropWhile (· = '/') ≠ []
  valid : valid (d.rdropWhile (· = '/') ++ "/**/*".toList)
  files : ∀ p, t.stat p = some .file → (SpelledBelow stands d p ↔ SpelledBelow Eq d p)
  once : ∀ p, t.stat p = some .file → SpelledBelow Eq d p →
    once (nameSegs d ++ ["**".toList, "*".toList]) (nameSegs p)

/-! ### What is spelled below a directory -/

section Spelled

variable {t : Tree} {d p q s : Str} {names : List Str}

theorem nameSegs_rdropWhile (d : Str) : nameSegs (d.rdropWhile (· = '/')) = nameSegs d := by
  rw [nameSegs, segs_rdropWhile, nameSegs]

theorem nameSegs_pattern (d : Str) : nameSegs (d.rdropWhile (· = '/') ++ "/**/*".toList)
    = nameSegs d ++ ["**".toList, "*".toList] := by
  have hdeep : nameSegs "**/*".toList = ["**".toList, "*".toList] := rfl
  have hcons : "/**/*".toList = '/' :: "**/*".toList := rfl
  rw [hcons, nameSegs_append_sep, nameSegs_rdropWhile, hdeep]

/-- Dropping separators at the end leaves the first character, if any is left. -/
theorem head?_rdropWhile (h : d.rdropWhile (· = '/') ≠ []) :
    (d.rdropWhile (· = '/')).head? = d.head? := by
  obtain ⟨rest, hrest⟩ := List.rdropWhile_prefix (· = '/') d
  conv_rhs => rw [← hrest]
  rw [List.head?_append_of_ne_nil _ h]

/-- The pattern is absolute if the directory is. -/
theorem head?_pattern (hne : d ≠ []) :
    (d.rdropWhile (· = '/') ++ "/**/*".toList).head? = some '/' ↔ d.head? = some '/' := by
  by_cases hnil : d.rdropWhile (· = '/') = []
  · -- only separators are dropped, and there is one
    rw [hnil]
    obtain ⟨c, rest, rfl⟩ := List.exists_cons_of_ne_nil hne
    have hc := List.rdropWhile_eq_nil_iff.mp hnil c List.mem_cons_self
    refine iff_of_true rfl ?_
    simpa using hc
  · rw [List.head?_append_of_ne_nil _ hnil, head?_rdropWhile hnil]

theorem rootDir_notMem (ss names : List Str) :
    Component.rootDir ∉ ss.map segComponent ++ names.map Component.normal := by
  intro h
  rcases List.mem_append.mp h with h | h
  · obtain ⟨s, -, hs⟩ := List.mem_map.mp h
    unfold segComponent at hs
    split_ifs at hs
  · obtain ⟨s, -, hs⟩ := List.mem_map.mp h
    cases hs

/-- Names follow one path in another if both are absolute or neither is. -/
theorem clean_eq_append_iff : clean p = clean d ++ names.map .normal ↔
    (p.head? = some '/' ↔ d.head? = some '/') ∧ nameSegs p = nameSegs d ++ names ∧
      "..".toList ∉ names := by
  rw [clean_eq, clean_eq, ← map_segComponent_eq_append, List.append_assoc]
  by_cases hp : p.head? = some '/' <;> by_cases hd : d.head? = some '/'
  · simp [hp, hd]
  · rw [if_pos hp, if_neg hd, List.nil_append, List.singleton_append]
    refine iff_of_false (fun h => ?_) fun h => hd (h.1.mp hp)
    apply rootDir_notMem (nameSegs d) names
    rw [← h]
    exact List.mem_cons_self
  · rw [if_neg hp, if_pos hd, List.nil_append, List.singleton_append]
    refine iff_of_false (fun h => ?_) fun h => hp (h.1.mpr hd)
    apply rootDir_notMem (nameSegs p) []
    rw [List.map_nil, List.append_nil, h]
    exact List.mem_cons_self
  · simp [hp, hd]

/-- **The stored path below the directory is made of the names that lead to the file.** -/
theorem storedPath_rdropWhile_iff (hnil : d.rdropWhile (· = '/') ≠ []) :
    storedPath p (d.rdropWhile (· = '/')) = .ok s ↔
      ∃ names, Leads d p names ∧ s = join '/' names := by
  have hclean : clean (d.rdropWhile (· = '/')) = clean d := by
    rw [clean_eq, clean_eq, head?_rdropWhile hnil, nameSegs_rdropWhile]
  rw [storedPath_ok_iff, hclean]
  simp only [clean_eq_append_iff]
  constructor
  · intro ⟨names, hne, ⟨habs, hsegs, hdots⟩, hs⟩
    exact ⟨names, ⟨habs, hsegs, hne, hdots⟩, hs⟩
  · intro ⟨names, hleads, hs⟩
    exact ⟨names, hleads.ne_nil, ⟨hleads.absolute, hleads.nameSegs, hleads.dots⟩, hs⟩

theorem spelledBelow_eq_iff : SpelledBelow Eq d p ↔ ∃ names, Leads d p names := by
  constructor
  · intro ⟨habs, ts, names, hsegs, hts, hne, hdots⟩
    exact ⟨names, habs, by rw [hsegs, hts], hne, hdots⟩
  · intro ⟨names, h⟩
    exact ⟨h.absolute, _, names, h.nameSegs, rfl, h.ne_nil, h.dots⟩

theorem Leads.isName (h : Leads d p names) : ∀ n ∈ names, IsName n := by
  intro n hn
  have hmem : n ∈ ParquetFileFs.nameSegs p := by
    rw [h.nameSegs]
    exact List.mem_append_right _ hn
  obtain ⟨hne, hsep, hdot⟩ := of_mem_nameSegs hmem
  exact ⟨hne, hsep, hdot, ne_of_mem_of_not_mem hn h.dots⟩

theorem Leads.same (h : Leads d p names) (hpq : SamePath q p) : Leads d q names :=
  ⟨hpq.1.trans h.absolute, hpq.2.trans h.nameSegs, h.ne_nil, h.dots⟩

theorem Leads.samePath (h : Leads d p names) (h' : Leads d q names) : SamePath q p :=
  ⟨h'.absolute.trans h.absolute.symm, h'.nameSegs.trans h.nameSegs.symm⟩

/-! ### What is spelled below a directory lies below it -/

theorem resolve_same (hpq : SamePath q p) : t.resolve q = t.resolve p := by
  rw [Tree.resolve, Tree.resolve, hpq.2]
  congr 1
  exact if_congr hpq.1 rfl rfl

/-- Whichever way a regular file is spelled, it is one, if it is anything. -/
theorem stat_same (hpq : SamePath q p) (hp : t.stat p = some .file) (hq : t.stat q ≠ none) :
    t.stat q = some .file := by
  obtain ⟨found, hres, hkind⟩ := Tree.kind_of_stat hp
  have hbind : (t.resolve q).bind t.kind = some .file := by
    rw [resolve_same hpq, hres, Option.bind_some, hkind]
  unfold Tree.stat at hq ⊢
  rw [hbind] at hq ⊢
  split_ifs at hq ⊢
  · exact absurd rfl hq
  · exact absurd rfl hq
  · rfl

/-- The names are followed from where the directory is. -/
theorem Leads.resolve (h : Leads d p names) :
    t.resolve p = (t.resolve d).bind fun dir => t.walk "..".toList dir names := by
  have hstart : (if p.head? = some '/' then [] else t.cwd)
      = if d.head? = some '/' then [] else t.cwd := if_congr h.absolute rfl rfl
  rw [Tree.resolve, h.nameSegs, hstart, FileTree.walk_append, Tree.resolve]

/-- The names lead to the file in the tree, too. -/
theorem Leads.below (h : Leads d p names) (hp : t.stat p = some .file) :
    t.Below d names ∧ t.resolve p = (t.resolve d).map (· ++ names) := by
  obtain ⟨found, hres, hkind⟩ := Tree.kind_of_stat hp
  rw [h.resolve] at hres ⊢
  obtain ⟨dir, hdir, hnames⟩ := Option.bind_eq_some_iff.mp hres
  obtain rfl := FileTree.eq_append_of_walk h.dots hnames
  refine ⟨⟨h.ne_nil, dir, hdir, hkind⟩, ?_⟩
  rw [hdir, Option.bind_some, hnames, Option.map_some]

/-- Every file below a directory has a path that is spelled below it. -/
theorem exists_leads {names : List Str} (hnil : d.rdropWhile (· = '/') ≠ [])
    (h : t.Below d names) : ∃ p, Leads d p names ∧ t.stat p = some .file := by
  obtain ⟨hne, dir, hdir, hkind⟩ := h
  have hnames : ∀ n ∈ names, IsName n := fun n hn =>
    t.isName (by rw [hkind]; simp) n (List.mem_append_right dir hn)
  have hdots : "..".toList ∉ names := fun hmem => (hnames _ hmem).2.2.2 rfl
  have hleads : Leads d (d.rdropWhile (· = '/') ++ '/' :: join '/' names) names := by
    refine ⟨?_, ?_, hne, hdots⟩
    · rw [List.head?_append_of_ne_nil _ hnil, head?_rdropWhile hnil]
    · rw [nameSegs_append_sep, nameSegs_rdropWhile, nameSegs_join hnames]
  refine ⟨_, hleads, ?_⟩
  have hlast : ¬EndsAsDir (d.rdropWhile (· = '/') ++ '/' :: join '/' names) := by
    -- the last segment is the last of the names
    have hsplit : (join '/' names).splitOn '/' = names :=
      List.splitOn_intercalate '/' (fun n hn => (hnames n hn).2.1) hne
    unfold EndsAsDir
    rw [List.splitOn_append_cons_self, hsplit, List.getLast?_append_of_ne_nil _ hne]
    intro h
    rcases h with h | h
    · exact (hnames _ (List.mem_of_getLast? h)).1 rfl
    · exact (hnames _ (List.mem_of_getLast? h)).2.2.1 rfl
  have hres :
      t.resolve (d.rdropWhile (· = '/') ++ '/' :: join '/' names) = some (dir ++ names) := by
    rw [hleads.resolve, hdir, Option.bind_some]
    exact FileTree.walk_of_kind hdots (by simp [hkind])
  unfold Tree.stat
  rw [if_neg (by simp), hres, Option.bind_some, hkind]
  exact if_neg hlast

end Spelled

/-! ### What is selected -/

/-- The regular files among the paths that have a stored path below the root. -/
def filePairs (t : Tree) (root : Str) (paths : List Str) : List (Str × Str) :=
  paths.filterMap fun p =>
    if t.stat p = some .file then (storedPath p root).toOption.map fun s => (s, p) else none

theorem mem_filePairs {t : Tree} {root : Str} {paths : List Str} {s p : Str} :
    (s, p) ∈ filePairs t root paths ↔
      p ∈ paths ∧ t.stat p = some .file ∧ storedPath p root = .ok s := by
  unfold filePairs
  rw [List.mem_filterMap]
  constructor
  · intro ⟨q, hq, h⟩
    split_ifs at h with hfile
    cases hs : storedPath q root with
    | error e =>
      rw [hs] at h
      cases h
    | ok s' =>
      rw [hs] at h
      cases h
      exact ⟨hq, hfile, hs⟩
  · intro ⟨hp, hfile, hs⟩
    refine ⟨p, hp, ?_⟩
    rw [if_pos hfile, hs]
    rfl

section Select

variable {σ : Type} {h : (o : FsOp Str UInt8) → σ → FsOp.Res Str o × σ} {st : σ} {t : Tree}
  {root p : Str} {paths : List Str}

/-- A file is taken under its stored path, and anything else passed over. -/
theorem exec_globEntry (hshows : ShowsTree h st t) (root p : Str) :
    exec h (globEntry root (.ok p)) st =
      (if t.stat p = some .file then lift ((storedPath p root).map fun s => some (s, p))
        else .ok none, st) := by
  have hst : (h (.stat p) st).2 = st := hshows.stat_state p
  have hkind : ∀ k, (h (.stat p) st).1 = .ok k ↔ t.stat p = some k := hshows.stat_iff p
  rw [globEntry, exec_call, hst]
  generalize hr : (h (.stat p) st).1 = r at hkind
  match r with
  | .ok .file =>
    rw [if_pos ((hkind .file).mp rfl)]
    rfl
  | .ok .dir =>
    have hdir := (hkind .dir).mp rfl
    rw [if_neg (by simp [hdir])]
    rfl
  | .error e =>
    rw [if_neg fun hfile => by cases (hkind .file).mpr hfile]
    rfl

/-- If every file has a stored path, all of them are found. -/
theorem exec_mapEach_ok (hshows : ShowsTree h st t)
    (hall : ∀ p ∈ paths, t.stat p = some .file → ∃ s, storedPath p root = .ok s) :
    ∃ found, exec h (mapEach (globEntry root) (paths.map .ok)) st = (.ok found, st) ∧
      found.filterMap id = filePairs t root paths := by
  induction paths with
  | nil => exact ⟨[], rfl, rfl⟩
  | cons p paths ih =>
    obtain ⟨found, hexec, hfound⟩ := ih fun q hq => hall q (List.mem_cons_of_mem p hq)
    -- what becomes of the first path
    obtain ⟨o, hentry, ho⟩ : ∃ o, exec h (globEntry root (.ok p)) st = (.ok o, st) ∧
        [o].filterMap id = filePairs t root [p] := by
      rw [exec_globEntry hshows]
      by_cases hfile : t.stat p = some .file
      · obtain ⟨s, hs⟩ := hall p List.mem_cons_self hfile
        refine ⟨some (s, p), by rw [if_pos hfile, hs]; rfl, ?_⟩
        simp [filePairs, hfile, hs, Except.toOption]
      · exact ⟨none, by rw [if_neg hfile], by simp [filePairs, hfile]⟩
    refine ⟨o :: found, ?_, ?_⟩
    · rw [List.map_cons, mapEach, exec_andThen h (a := o) (by rw [hentry]), hentry,
        exec_andThen h (a := found) (by rw [hexec]), hexec, exec_ret]
    · have happend : ∀ ps qs, filePairs t root (ps ++ qs)
          = filePairs t root ps ++ filePairs t root qs := fun _ _ => List.filterMap_append
      rw [← List.singleton_append, List.filterMap_append, ho, hfound, ← happend]
      rfl

/-- A file that has none ends the search. -/
theorem exec_mapEach_error (hshows : ShowsTree h st t) (hp : p ∈ paths)
    (hfile : t.stat p = some .file) (hout : ∀ s, storedPath p root ≠ .ok s) :
    ∃ e, (exec h (mapEach (globEntry root) (paths.map .ok)) st).1 = .error e := by
  induction paths with
  | nil => cases hp
  | cons q paths ih =>
    rw [List.map_cons, mapEach]
    cases hres : (exec h (globEntry root (.ok q)) st).1 with
    | error e => exact ⟨e, by rw [exec_andThen_error h hres]⟩
    | ok o =>
      have hst : (exec h (globEntry root (.ok q)) st).2 = st := by rw [exec_globEntry hshows]
      have hne : p ≠ q := by
        intro heq
        rw [← heq, exec_globEntry hshows, if_pos hfile] at hres
        cases hs : storedPath p root with
        | ok s => exact hout s hs
        | error e =>
          rw [hs] at hres
          cases hres
      obtain ⟨e, he⟩ := ih ((List.mem_cons.mp hp).resolve_left hne)
      refine ⟨e, ?_⟩
      rw [exec_andThen h hres, hst, exec_andThen_error h he]

/-- **The files are selected exactly if each of them has a stored path.** -/
theorem exec_selectExpanded_iff {pattern : Str} {pairs : List (Str × Str)}
    (hshows : ShowsTree h st t) (hexpand : h (.expand pattern) st = (.ok (paths.map .ok), st)) :
    exec h (selectExpanded pattern root) st = (.ok pairs, st) ↔
      (∀ p ∈ paths, t.stat p = some .file → ∃ s, storedPath p root = .ok s) ∧ pairs ≠ [] ∧
        pairs = filePairs t root paths := by
  rw [selectExpanded, exec_call, hexpand]
  dsimp only
  by_cases hall : ∀ p ∈ paths, t.stat p = some .file → ∃ s, storedPath p root = .ok s
  · obtain ⟨found, hexec, hfound⟩ := exec_mapEach_ok hshows hall
    rw [exec_andThen h (a := found) (by rw [hexec]), hexec, hfound]
    split_ifs with hnil
    · refine iff_of_false (fun hr => by cases hr) fun ⟨_, hne, hpairs⟩ => hne (hpairs.trans hnil)
    · constructor
      · intro hr
        cases hr
        exact ⟨hall, hnil, rfl⟩
      · intro ⟨_, _, hpairs⟩
        rw [hpairs]
        rfl
  · refine iff_of_false (fun hr => ?_) fun hr => hall hr.1
    push Not at hall
    obtain ⟨p, hp, hfile, hout⟩ := hall
    obtain ⟨e, he⟩ := exec_mapEach_error hshows hp hfile hout
    rw [exec_andThen_error h he] at hr
    cases hr

/-! ### Directories -/

variable {d : Str} {valid : Str → Prop} {stands once : List Str → List Str → Prop}

/-- A directory selects what its pattern finds below its own name. -/
theorem exec_selectGlob (hshows : ShowsTree h st t) (hdir : t.stat d = some .dir) :
    exec h (selectGlob d none) st
      = exec h (selectExpanded (d.rdropWhile (· = '/') ++ "/**/*".toList)
          (d.rdropWhile (· = '/'))) st := by
  have hst : (h (.stat d) st).2 = st := hshows.stat_state d
  have hkind : (h (.stat d) st).1 = .ok .dir := (hshows.stat_iff d .dir).mpr hdir
  rw [selectGlob, exec_call, hst, hkind]
  rfl

/-- What is found for a directory: the spellings below what its name stands for. -/
theorem Finds.below_iff (hrules : GlobRules stands once) (hne : d ≠ [])
    (hfinds : Finds stands once t (d.rdropWhile (· = '/') ++ "/**/*".toList) paths)
    (hfile : t.stat p = some .file) :
    (∃ q ∈ paths, SamePath q p) ↔ SpelledBelow stands d p := by
  obtain ⟨found, hres, hkind⟩ := Tree.kind_of_stat hfile
  have hbind : (t.resolve p).bind t.kind ≠ none := by
    rw [hres, Option.bind_some, hkind]
    simp
  rw [hfinds.found_iff, head?_pattern hne, nameSegs_pattern, hrules.deep]
  constructor
  · intro ⟨habs, ⟨ts, names, hsegs, hts, hnames, hdots⟩, _⟩
    exact ⟨habs, ts, names, hsegs, hts, hnames, hdots⟩
  · intro ⟨habs, ts, names, hsegs, hts, hnames, hdots⟩
    exact ⟨habs, ⟨ts, names, hsegs, hts, hnames, hdots⟩, hbind⟩

/-- Two paths that are found are spelled alike if their names are equal. -/
theorem Finds.samePath {pattern q : Str} (hfinds : Finds stands once t pattern paths)
    (hp : p ∈ paths) (hq : q ∈ paths) (hsegs : nameSegs q = nameSegs p) : SamePath q p := by
  have habs : ∀ p ∈ paths, p.head? = some '/' ↔ pattern.head? = some '/' := fun p hp =>
    ((hfinds.found_iff p).mp ⟨p, hp, Iff.rfl, rfl⟩).1
  exact ⟨(habs q hq).trans (habs p hp).symm, hsegs⟩

/-- A stored path occurs as often as the names that lead to it are found. -/
theorem count_filePairs {names : List Str} (hnil : d.rdropWhile (· = '/') ≠ [])
    (hleads : Leads d p names) (hsame : ∀ q ∈ paths, nameSegs q = nameSegs p →
      SamePath q p ∧ t.stat q = some .file) :
    ((filePairs t (d.rdropWhile (· = '/')) paths).map Prod.fst).count (join '/' names)
      = (paths.map nameSegs).count (nameSegs p) := by
  rw [filePairs, List.map_filterMap, List.count_filterMap, List.count, List.countP_map]
  refine List.countP_congr fun q hq => ?_
  simp only [beq_iff_eq, Function.comp_apply]
  constructor
  · intro h
    split_ifs at h with hfile
    · cases hs : storedPath q (d.rdropWhile (· = '/')) with
      | error e =>
        rw [hs] at h
        cases h
      | ok s =>
        rw [hs] at h
        obtain ⟨names', hleads', rfl⟩ := (storedPath_rdropWhile_iff hnil).mp hs
        have hjoin : join '/' names' = join '/' names := Option.some.inj h
        -- equal stored paths are made of equal names
        have hnames : names' = names := by
          rw [← nameSegs_join hleads'.isName, hjoin, nameSegs_join hleads.isName]
        rw [hleads'.nameSegs, hleads.nameSegs, hnames]
    · cases h
  · intro hsegs
    obtain ⟨hpath, hfile⟩ := hsame q hq hsegs
    have hs := (storedPath_rdropWhile_iff hnil).mpr ⟨names, hleads.same hpath, rfl⟩
    rw [if_pos hfile, hs]
    rfl

/-- What is found for a directory counts as often as it is stored. -/
theorem Finds.count_eq {pattern : Str} {names : List Str}
    (hfinds : Finds stands once t pattern paths) (hnil : d.rdropWhile (· = '/') ≠ [])
    (hp : p ∈ paths) (hfile : t.stat p = some .file) (hleads : Leads d p names) :
    ((filePairs t (d.rdropWhile (· = '/')) paths).map Prod.fst).count (join '/' names)
      = (paths.map nameSegs).count (nameSegs p) := by
  refine count_filePairs hnil hleads fun q hq hsegs => ?_
  have hsame := hfinds.samePath hp hq hsegs
  exact ⟨hsame, stat_same hsame hfile (hfinds.stat q hq)⟩

/-- If the name stands for the directory, the files below it are selected. -/
theorem ShorthandFits.selects (hfits : ShorthandFits valid stands once t d)
    (hrules : GlobRules stands once)
    (hfinds : Finds stands once t (d.rdropWhile (· = '/') ++ "/**/*".toList) paths) (hne : d ≠ []) :
    (∀ p ∈ paths, t.stat p = some .file →
        ∃ s, storedPath p (d.rdropWhile (· = '/')) = .ok s) ∧
      SelectsBelow t d (filePairs t (d.rdropWhile (· = '/')) paths) := by
  have hleads : ∀ p ∈ paths, t.stat p = some .file → ∃ names, Leads d p names := by
    intro p hp hfile
    have hspelled : SpelledBelow stands d p :=
      (hfinds.below_iff hrules hne hfile).mp ⟨p, hp, Iff.rfl, rfl⟩
    exact spelledBelow_eq_iff.mp ((hfits.files p hfile).mp hspelled)
  constructor
  · intro p hp hfile
    obtain ⟨names, hleads⟩ := hleads p hp hfile
    exact ⟨_, (storedPath_rdropWhile_iff hfits.ne_nil).mpr ⟨names, hleads, rfl⟩⟩
  · refine ⟨?_, fun s p hmem => ?_, fun names hnames => ?_⟩
    · -- the pattern stands for each file in one way
      rw [List.nodup_iff_count_eq_one]
      intro s hs
      obtain ⟨⟨s, p⟩, hmem, rfl⟩ := List.mem_map.mp hs
      obtain ⟨hp, hfile, hs⟩ := mem_filePairs.mp hmem
      obtain ⟨names, hleads, rfl⟩ := (storedPath_rdropWhile_iff hfits.ne_nil).mp hs
      have honce := hfits.once p hfile (spelledBelow_eq_iff.mpr ⟨names, hleads⟩)
      rw [← nameSegs_pattern, ← hfinds.once_iff p hp] at honce
      rw [hfinds.count_eq hfits.ne_nil hp hfile hleads, honce]
    · obtain ⟨-, hfile, hs⟩ := mem_filePairs.mp hmem
      obtain ⟨names, hleads, hjoin⟩ := (storedPath_rdropWhile_iff hfits.ne_nil).mp hs
      obtain ⟨hbelow, hres⟩ := hleads.below hfile
      exact ⟨names, hbelow, hjoin, hfile, hres⟩
    · -- a path spelled below the directory is found in some spelling
      obtain ⟨p, hleads, hfile⟩ := exists_leads hfits.ne_nil hnames
      have hspelled := (hfits.files p hfile).mpr (spelledBelow_eq_iff.mpr ⟨names, hleads⟩)
      obtain ⟨q, hq, hsame⟩ := (hfinds.below_iff hrules hne hfile).mpr hspelled
      have hstored := (storedPath_rdropWhile_iff hfits.ne_nil).mpr ⟨names, hleads.same hsame, rfl⟩
      have hmem := mem_filePairs.mpr ⟨hq, stat_same hsame hfile (hfinds.stat q hq), hstored⟩
      exact List.mem_map.mpr ⟨_, hmem, rfl⟩

/-- If the files below the directory are selected, its name stands for it. -/
theorem SelectsBelow.fits (hselects : SelectsBelow t d (filePairs t (d.rdropWhile (· = '/')) paths))
    (hrules : GlobRules stands once) (hvalid : valid (d.rdropWhile (· = '/') ++ "/**/*".toList))
    (hfinds : Finds stands once t (d.rdropWhile (· = '/') ++ "/**/*".toList) paths) (hne : d ≠ [])
    (hall : ∀ p ∈ paths, t.stat p = some .file →
      ∃ s, storedPath p (d.rdropWhile (· = '/')) = .ok s)
    (hbelow : ∃ names, t.Below d names) : ShorthandFits valid stands once t d := by
  have hnil : d.rdropWhile (· = '/') ≠ [] := by
    intro hnil
    -- the root is empty, and what is found is absolute
    obtain ⟨names, hnames⟩ := hbelow
    obtain ⟨⟨s, p⟩, hmem, -⟩ := List.mem_map.mp (hselects.complete names hnames)
    obtain ⟨hp, -, hs⟩ := mem_filePairs.mp hmem
    have hhead : p.head? = some '/' := by
      have hfound := (hfinds.found_iff p).mp ⟨p, hp, Iff.rfl, rfl⟩
      rw [hnil] at hfound
      exact hfound.1.mpr rfl
    obtain ⟨names', -, hclean, -⟩ := storedPath_ok_iff.mp hs
    rw [hnil, clean_eq_append_iff] at hclean
    exact absurd (hclean.1.mp hhead) (by simp)
  -- a file that is spelled below the directory is selected in some spelling
  have hselected : ∀ p names, t.stat p = some .file → Leads d p names →
      ∃ q ∈ paths, t.stat q = some .file ∧ Leads d q names ∧
        join '/' names ∈ (filePairs t (d.rdropWhile (· = '/')) paths).map Prod.fst := by
    intro p names hfile hleads
    have hstored := hselects.complete names (hleads.below hfile).1
    obtain ⟨⟨s, q⟩, hmem, hjoin⟩ := List.mem_map.mp hstored
    obtain ⟨hq, hfile', hs⟩ := mem_filePairs.mp hmem
    obtain ⟨names', hleads', hjoin'⟩ := (storedPath_rdropWhile_iff hnil).mp hs
    have hnames : names' = names := by
      rw [← nameSegs_join hleads'.isName, ← hjoin', ← nameSegs_join hleads.isName, ← hjoin]
    exact ⟨q, hq, hfile', hnames ▸ hleads', hstored⟩
  refine ⟨hnil, hvalid, fun p hfile => ?_, fun p hfile hspelled => ?_⟩
  · rw [← hfinds.below_iff hrules hne hfile, spelledBelow_eq_iff]
    constructor
    · intro ⟨q, hq, hsame⟩
      obtain ⟨s, hs⟩ := hall q hq (stat_same hsame hfile (hfinds.stat q hq))
      obtain ⟨names, hleads, -⟩ := (storedPath_rdropWhile_iff hnil).mp hs
      exact ⟨names, hleads.same ⟨hsame.1.symm, hsame.2.symm⟩⟩
    · intro ⟨names, hleads⟩
      obtain ⟨q, hq, -, hleads', -⟩ := hselected p names hfile hleads
      exact ⟨q, hq, hleads.samePath hleads'⟩
  · obtain ⟨names, hleads⟩ := spelledBelow_eq_iff.mp hspelled
    obtain ⟨q, hq, hfile', hleads', hstored⟩ := hselected p names hfile hleads
    have hcount := List.count_eq_one_of_mem hselects.nodup hstored
    rw [hfinds.count_eq hnil hq hfile' hleads', hfinds.once_iff q hq, nameSegs_pattern] at hcount
    rwa [hleads'.nameSegs, ← hleads.nameSegs] at hcount

/-- **Exactly when a directory stands for its files.** -/
theorem shorthand_iff (hshows : ShowsTree h st t) (hrules : GlobRules stands once)
    (hglobs : Globs h st valid stands once t (d.rdropWhile (· = '/') ++ "/**/*".toList))
    (hdir : t.stat d = some .dir) (hbelow : ∃ names, t.Below d names) :
    (∀ W out opts, packGlob W d none out opts =
        (selectGlob d none).andThen fun pairs => writePairs W pairs out opts) ∧
      ((∃ pairs, exec h (selectGlob d none) st = (.ok pairs, st) ∧ SelectsBelow t d pairs) ↔
        ShorthandFits valid stands once t d) := by
  refine ⟨fun W out opts => packGlob_eq W d none out opts, ?_⟩
  have hne : d ≠ [] := by
    rintro rfl
    cases hdir
  rw [exec_selectGlob hshows hdir]
  by_cases hvalid : valid (d.rdropWhile (· = '/') ++ "/**/*".toList)
  · obtain ⟨paths, hexpand, hfinds⟩ := hglobs.finds hvalid
    simp only [exec_selectExpanded_iff hshows hexpand]
    constructor
    · intro ⟨pairs, ⟨hall, _, hpairs⟩, hselects⟩
      rw [hpairs] at hselects
      exact hselects.fits hrules hvalid hfinds hne hall hbelow
    · intro hfits
      obtain ⟨hall, hselects⟩ := hfits.selects hrules hfinds hne
      refine ⟨_, ⟨hall, ?_, rfl⟩, hselects⟩
      obtain ⟨names, hnames⟩ := hbelow
      intro hnil
      have hmem := hselects.complete names hnames
      rw [hnil] at hmem
      cases hmem
  · obtain ⟨e, he⟩ := hglobs.rejects hvalid
    refine iff_of_false (fun ⟨pairs, hpairs, _⟩ => ?_) fun hfits => hvalid hfits.valid
    rw [selectExpanded, exec_call, he] at hpairs
    cases hpairs

/-- **A name without wildcards stands for its directory.** -/
theorem shorthandFits_of_literal (hrules : GlobRules stands once)
    (hvalid : valid (d.rdropWhile (· = '/') ++ "/**/*".toList))
    (hnil : d.rdropWhile (· = '/') ≠ []) (hlit : containsAny d globChars = false) :
    ShorthandFits valid stands once t d := by
  have hsegs : ∀ s ∈ nameSegs d, containsAny s globChars = false := by
    intro s hs
    have hsub : s ⊆ d := subset_of_mem_segs (List.mem_of_mem_filter hs)
    simp only [containsAny, List.any_eq_false] at hlit ⊢
    exact fun c hc => hlit c (hsub hc)
  have hstands : ∀ ts, stands (nameSegs d) ts ↔ nameSegs d = ts :=
    fun ts => (hrules.literal hsegs).trans eq_comm
  have hdeep : "**".toList ∉ nameSegs d := fun hmem => by cases hsegs _ hmem
  refine ⟨hnil, hvalid, fun p _ => ?_, fun p _ _ => hrules.once hdeep⟩
  unfold SpelledBelow
  simp only [hstands]

end Select

/-! ### Matching segment by segment -/

section Matching

variable {segMatch : Str → Str → Prop}

/-- Every `..` of the pattern stands for one. -/
theorem count_dots_le (hlit : LiteralSegs segMatch) {ss ts : List Str}
    (h : Matches (· = "**".toList) segMatch ss ts) :
    ss.count "..".toList ≤ ts.count "..".toList := by
  induction h with
  | nil => exact le_rfl
  | @cons p ps u us hp hm _ ih =>
    by_cases hdots : p = "..".toList
    · have hu : u = "..".toList := by
        rw [hdots] at hm
        exact (hlit _ rfl u).mp hm
      rw [hdots, hu, List.count_cons_self, List.count_cons_self]
      omega
    · have hle : us.count "..".toList ≤ (u :: us).count "..".toList := List.count_le_count_cons
      rw [List.count_cons_of_ne hdots]
      omega
  | @skip p ps us hp _ ih =>
    have hdots : p ≠ "..".toList := by
      rw [hp]
      decide
    rwa [List.count_cons_of_ne hdots]
  | @more p ps u us hp _ ih =>
    have hle : us.count "..".toList ≤ (u :: us).count "..".toList := List.count_le_count_cons
    omega

/-- Matching in which wildcards do not stand for `..` keeps the rules, with patterns that
have at most one `**` standing for segments in one way. -/
theorem globRules_matches (hlit : LiteralSegs segMatch) (hstar : ∀ t, segMatch "*".toList t) :
    GlobRules (fun ss ts => Matches (· = "**".toList) segMatch ss ts ∧
      ts.count "..".toList = ss.count "..".toList) fun ss _ => ss.count "**".toList ≤ 1 := by
  constructor
  · intro ss ts hss
    have hliteral : ∀ s ∈ ss, s ≠ "**".toList ∧ ∀ u, segMatch s u ↔ u = s := by
      intro s hs
      refine ⟨?_, hlit s (hss s hs)⟩
      rintro rfl
      cases hss _ hs
    rw [matches_literals_iff hliteral]
    constructor
    · intro h
      exact h.1
    · intro h
      exact ⟨h, by rw [h]⟩
  · intro ss ts
    have hbelow : ∀ us : List Str, Matches (· = "**".toList) segMatch ["**".toList, "*".toList] us ↔
        us ≠ [] := fun us => matches_below_iff rfl (by decide) hstar
    have hcount : (ss ++ ["**".toList, "*".toList]).count "..".toList = ss.count "..".toList := by
      rw [List.count_append]
      rfl
    rw [matches_append_iff, hcount]
    constructor
    · intro ⟨⟨us, names, hts, hus, hnames⟩, hdots⟩
      have hle := count_dots_le hlit hus
      rw [hts, List.count_append] at hdots
      refine ⟨us, names, hts, ⟨hus, by omega⟩, (hbelow names).mp hnames, ?_⟩
      exact List.count_eq_zero.mp (by omega)
    · intro ⟨us, names, hts, ⟨hus, hdots⟩, hne, hnames⟩
      refine ⟨⟨us, names, hts, hus, (hbelow names).mpr hne⟩, ?_⟩
      rw [hts, List.count_append, hdots, List.count_eq_zero.mpr hnames, Nat.add_zero]
  · intro ss ts hss
    rw [List.count_append, List.count_eq_zero.mpr hss]
    exact Nat.le_refl 1

end Matching

/-! ### A directory with a wildcard in its name -/

/-- The calls on a tree to which nothing is written. -/
def treeHandler (t : Tree) (expand : Str → Except Str (List (Except (Str × Str) Str))) :
    (o : FsOp Str UInt8) → Unit → FsOp.Res Str o × Unit
  | .create _, _ => (.error [], ())
  | .write _ _, _ => (.error [], ())
  | .close _, _ => ((), ())
  | .read _, _ => (.error [], ())
  | .poll, _ => (.ok (), ())
  | .alloc _, _ => ((), ())
  | .rename _ _, _ => (.error [], ())
  | .remove _, _ => ((), ())
  | .stat p, _ => ((t.stat p).elim (.error []) .ok, ())
  | .expand pattern, _ => (expand pattern, ())

theorem showsTree_treeHandler (t : Tree)
    (expand : Str → Except Str (List (Except (Str × Str) Str))) :
    ShowsTree (treeHandler t expand) () t := by
  constructor
  · intro p k
    show (t.stat p).elim (Except.error []) Except.ok = Except.ok k ↔ _
    cases t.stat p <;> simp
  · exact fun _ => rfl

/-- A file in a directory `a*`, and one in its sibling `ab`. -/
def starFiles : List (List Str) :=
  [["a*".toList, "x".toList], ["ab".toList, "y".toList]]

def starDirs : List (List Str) := [[], ["a*".toList], ["ab".toList]]

def starKind (names : List Str) : Option FileSystem.Kind :=
  if names ∈ starFiles then some .file else if names ∈ starDirs then some .dir else none

theorem mem_of_starKind {names : List Str} (h : starKind names ≠ none) :
    names ∈ starFiles ++ starDirs := by
  by_contra hno
  rw [List.mem_append, not_or] at hno
  exact h (by rw [starKind, if_neg hno.1, if_neg hno.2])

def starTree : Tree where
  kind := starKind
  kind_parent := by
    intro names s h
    have hdrop : ∀ l ∈ starFiles ++ starDirs, starKind l.dropLast = some .dir := by decide
    have hparent := hdrop _ (mem_of_starKind h)
    rwa [List.dropLast_concat] at hparent
  cwd := []
  kind_cwd := rfl
  isName := by
    intro names h s hs
    have hnames : ∀ l ∈ starFiles ++ starDirs, ∀ s ∈ l,
        s ≠ [] ∧ '/' ∉ s ∧ s ≠ ".".toList ∧ s ≠ "..".toList := by decide
    exact hnames names (mem_of_starKind h) s hs

/-- What the patterns of the two directories find. -/
def starExpand (pattern : Str) : Except Str (List (Except (Str × Str) Str)) :=
  if pattern = "a*/**/*".toList then .ok [.ok "a*/x".toList, .ok "ab/y".toList]
  else if pattern = "ab/**/*".toList then .ok [.ok "ab/y".toList]
  else .ok []

/-- What segments with `*` and `?` stand for. -/
def starStands (ss ts : List Str) : Prop :=
  Matches (· = "**".toList) (fun s t => starMatch s t = true) ss ts ∧
    ts.count "..".toList = ss.count "..".toList

/-- With one `**` they stand for segments in one way. -/
def starOnce (ss _ : List Str) : Prop := ss.count "**".toList ≤ 1

theorem starMatch_star (t : Str) : starMatch "*".toList t = true := by
  have hnil : [] ∈ t.tails := (List.mem_tails _ _).mpr List.nil_suffix
  exact List.any_eq_true.mpr ⟨[], hnil, rfl⟩

theorem globRules_starStands : GlobRules starStands starOnce :=
  globRules_matches literalSegs_starMatch starMatch_star

theorem starStands_singleton_iff {s : Str} (hdeep : s ≠ "**".toList) (hdots : s ≠ "..".toList)
    {ts : List Str} (hts : "..".toList ∉ ts) :
    starStands [s] ts ↔ ∃ t, ts = [t] ∧ starMatch s t = true := by
  have hcount : ts.count "..".toList = [s].count "..".toList := by
    rw [List.count_eq_zero.mpr hts, List.count_eq_zero.mpr (by simpa using hdots.symm)]
  constructor
  · intro h
    cases h.1 with
    | @cons _ _ t us _ hm hus => exact ⟨t, by rw [matches_nil_iff.mp hus], hm⟩
    | skip hd _ => exact absurd hd hdeep
    | more hd _ => exact absurd hd hdeep
  · rintro ⟨t, rfl, hm⟩
    exact ⟨.cons hdeep hm .nil, hcount⟩

/-- The paths found in the tree for a pattern of one segment and the rest. -/
theorem finds_starTree {pattern s : Str} {paths : List Str} (habs : pattern.head? ≠ some '/')
    (hpattern : nameSegs pattern = [s] ++ ["**".toList, "*".toList]) (hdeep : s ≠ "**".toList)
    (hdots : s ≠ "..".toList) (hnodup : (paths.map nameSegs).Nodup)
    (hstat : ∀ q ∈ paths, starTree.stat q ≠ none)
    (hpaths : ∀ q ∈ paths, q.head? ≠ some '/' ∧ nameSegs q ∈ starFiles)
    (hmatch : ∀ names ∈ starFiles, (∃ q ∈ paths, nameSegs q = names) ↔
      starMatch s (names.headD []) = true) :
    Finds starStands starOnce starTree pattern paths := by
  have honce : ∀ ts, starOnce (nameSegs pattern) ts := fun ts => by
    rw [hpattern]
    exact globRules_starStands.once (by simpa using hdeep.symm)
  refine ⟨fun p hp => ?_, hstat, fun p => ?_⟩
  · exact iff_of_true (List.count_eq_one_of_mem hnodup (List.mem_map_of_mem hp)) (honce _)
  rw [hpattern, globRules_starStands.deep, iff_false_right habs]
  constructor
  · intro ⟨q, hq, hsame⟩
    obtain ⟨hrel, hfile⟩ := hpaths q hq
    have hp : p.head? ≠ some '/' := fun h => hrel (hsame.1.mpr h)
    rw [hsame.2] at hfile
    have hshape : ∀ l ∈ starFiles, l = [l.headD []] ++ l.tail ∧ l.tail ≠ [] ∧ "..".toList ∉ l ∧
        starKind l ≠ none := by decide
    obtain ⟨hsplit, hne, hnames, hkind⟩ := hshape _ hfile
    have hsplitDots := hnames
    rw [hsplit, List.mem_append, not_or] at hsplitDots
    have hstands : starStands [s] [(nameSegs p).headD []] :=
      (starStands_singleton_iff hdeep hdots hsplitDots.1).mpr
        ⟨_, rfl, (hmatch _ hfile).mp ⟨q, hq, hsame.2⟩⟩
    refine ⟨hp, ⟨_, _, hsplit, hstands, hne, hsplitDots.2⟩, ?_⟩
    have hres : starTree.resolve p = some (nameSegs p) := by
      unfold Tree.resolve
      rw [if_neg hp]
      exact FileTree.walk_of_kind hnames hkind
    rw [hres, Option.bind_some]
    exact hkind
  · intro ⟨hp, ⟨us, names, hsegs, hus, hne, hnames⟩, hbind⟩
    -- no `..` is left, so the names are found where they say
    have hdotsUs : "..".toList ∉ us := by
      rw [← List.count_eq_zero, hus.2, List.count_eq_zero]
      simpa using hdots.symm
    have hup : "..".toList ∉ nameSegs p := by
      rw [hsegs, List.mem_append, not_or]
      exact ⟨hdotsUs, hnames⟩
    obtain ⟨t, rfl, hmt⟩ := (starStands_singleton_iff hdeep hdots hdotsUs).mp hus
    have hkind : starKind (nameSegs p) ≠ none := by
      obtain ⟨k, hk⟩ := Option.ne_none_iff_exists'.mp hbind
      obtain ⟨found, hres, hk⟩ := Option.bind_eq_some_iff.mp hk
      unfold Tree.resolve at hres
      rw [if_neg hp] at hres
      rw [FileTree.eq_append_of_walk hup hres] at hk
      exact Option.ne_none_iff_exists'.mpr ⟨k, hk⟩
    have hfile : nameSegs p ∈ starFiles := by
      refine (List.mem_append.mp (mem_of_starKind hkind)).resolve_right fun hdir => ?_
      have hshort : ∀ l ∈ starDirs, l.length < 2 := by decide
      have hlen := hshort _ hdir
      have hpos := List.length_pos_of_ne_nil hne
      rw [hsegs, List.length_append, List.length_singleton] at hlen
      omega
    have hhead : (nameSegs p).headD [] = t := by
      rw [hsegs]
      rfl
    obtain ⟨q, hq, hsame⟩ := (hmatch _ hfile).mpr (hhead ▸ hmt)
    exact ⟨q, hq, iff_of_false (hpaths q hq).1 hp, hsame⟩

/-- The pattern made of the name `a*` finds the file in `ab`, too. -/
theorem globs_star_dir : Globs (treeHandler starTree starExpand) () (fun _ => True) starStands
    starOnce starTree "a*/**/*".toList := by
  refine ⟨fun h => absurd trivial h, fun _ => ⟨["a*/x".toList, "ab/y".toList], rfl, ?_⟩⟩
  exact finds_starTree (by decide) rfl (by decide) (by decide) (by decide) (by decide) (by decide)
    (by decide)

/-- A directory whose name is a wildcard is not packed: its pattern leads outside. -/
theorem shorthand_star :
    ShowsTree (treeHandler starTree starExpand) () starTree ∧ GlobRules starStands starOnce ∧
      Globs (treeHandler starTree starExpand) () (fun _ => True) starStands starOnce starTree
        "a*/**/*".toList ∧
      starTree.stat "a*".toList = some .dir ∧ starTree.Below "a*".toList ["x".toList] ∧
      ¬∃ pairs, exec (treeHandler starTree starExpand) (selectGlob "a*".toList none) ()
          = (.ok pairs, ()) ∧ SelectsBelow starTree "a*".toList pairs := by
  refine ⟨showsTree_treeHandler starTree starExpand, globRules_starStands, globs_star_dir, rfl,
    ⟨by decide, ["a*".toList], rfl, rfl⟩, ?_⟩
  intro ⟨pairs, hexec, _⟩
  cases hexec

/-- Its sibling is, with any number of separators after its name. -/
theorem shorthand_plain :
    ∃ pairs, exec (treeHandler starTree starExpand) (selectGlob "ab//".toList none) ()
      = (.ok pairs, ()) ∧ SelectsBelow starTree "ab//".toList pairs := by
  have hglobs : Globs (treeHandler starTree starExpand) () (fun _ => True) starStands
      starOnce starTree "ab/**/*".toList := by
    refine ⟨fun h => absurd trivial h, fun _ => ⟨["ab/y".toList], rfl, ?_⟩⟩
    exact finds_starTree (by decide) rfl (by decide) (by decide) (by decide) (by decide)
      (by decide) (by decide)
  exact (shorthand_iff (d := "ab//".toList) (showsTree_treeHandler starTree starExpand)
    globRules_starStands hglobs rfl ⟨["y".toList], by decide, ["ab".toList], rfl, rfl⟩).2.mpr
    (shorthandFits_of_literal globRules_starStands trivial (by decide) (by decide))

end ParquetFileFs
