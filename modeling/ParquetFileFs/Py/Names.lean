import ParquetFileFs.Py.Fs

/-!
# Names, and what `find` collects

The lists `find` and `glob` build are sorted lists of names of the archive.
This module says which names they hold; how often each occurs is the subject of
the modules on `find` and `glob`.

## Main definitions

* `NoClash` — no file is also a directory.

## Main results

* `mem_findNames` — the names `find` returns.
* `pairwise_sortStrs`, `eq_of_pairwise_lt` — sorted lists of names.
-/

namespace ParquetFileFs

open Segments

/-! ### Sorted lists -/

theorem mem_sortStrs {l : List Str} {x : Str} : x ∈ sortStrs l ↔ x ∈ l :=
  (List.perm_insertionSort (· ≤ ·) l).mem_iff

theorem nodup_sortStrs {l : List Str} : (sortStrs l).Nodup ↔ l.Nodup :=
  (List.perm_insertionSort (· ≤ ·) l).nodup_iff

/-- A list without repetitions is sorted strictly. -/
theorem pairwise_sortStrs {l : List Str} (h : l.Nodup) : (sortStrs l).Pairwise (· < ·) := by
  have hle : (sortStrs l).Pairwise (· ≤ ·) := List.pairwise_insertionSort (· ≤ ·) l
  have hnd : (sortStrs l).Nodup := nodup_sortStrs.mpr h
  exact (hle.and hnd).imp fun h => lt_of_le_of_ne h.1 h.2

theorem nodup_of_pairwise_lt {l : List Str} (h : l.Pairwise (· < ·)) : l.Nodup :=
  h.imp fun hlt => ne_of_lt hlt

/-- Strictly sorted lists with the same members are equal. -/
theorem eq_of_pairwise_lt {l l' : List Str} (h : l.Pairwise (· < ·)) (h' : l'.Pairwise (· < ·))
    (hmem : ∀ x, x ∈ l ↔ x ∈ l') : l = l' := by
  have hperm : l.Perm l' :=
    (List.perm_ext_iff_of_nodup (nodup_of_pairwise_lt h) (nodup_of_pairwise_lt h')).mpr hmem
  exact hperm.eq_of_pairwise (fun a b _ _ hab hba => absurd hab (lt_asymm hba)) h h'

/-! ### Results of lists -/

theorem exists_of_map_ok {ε α β : Type} {f : α → β} {x : Except ε α} {b : β}
    (h : x.map f = .ok b) : ∃ a, x = .ok a ∧ f a = b := by
  cases x with
  | error e => cases h
  | ok a => exact ⟨a, rfl, Except.ok.inj h⟩

theorem exists_of_mem_mapM {ε α β : Type} {f : α → Except ε β} {xs : List α} {ys : List β}
    (h : xs.mapM f = .ok ys) {y : β} (hy : y ∈ ys) : ∃ x ∈ xs, f x = .ok y := by
  induction xs generalizing ys with
  | nil =>
    cases h
    cases hy
  | cons x xs ih =>
    rw [List.mapM_cons] at h
    cases hx : f x with
    | error e => simp [hx, bind, Except.bind] at h
    | ok b =>
      cases hxs : xs.mapM f with
      | error e => simp [hx, hxs, bind, Except.bind] at h
      | ok bs =>
        simp only [hx, hxs, bind, Except.bind, pure, Except.pure, Except.ok.injEq] at h
        subst h
        rcases List.mem_cons.mp hy with rfl | hy
        · exact ⟨x, List.mem_cons_self, hx⟩
        · obtain ⟨x', hx', hfx'⟩ := ih hxs hy
          exact ⟨x', List.mem_cons_of_mem x hx', hfx'⟩

/-! ### Names without clashes -/

/-- No file key is a proper ancestor of another. -/
def Index.NoClash (ix : Index) : Prop :=
  ∀ k ∈ ix.files.keys, ∀ k' ∈ ix.files.keys, ¬k ++ ['/'] <+: k'

namespace Index.WellFormed

variable {ix : Index}

/-- The ancestors of a directory are directories. -/
theorem mem_dirs_of_below_dir (h : ix.WellFormed) {x d : Str} (hd : d ∈ ix.dirs.keys)
    (hx : x ++ ['/'] <+: d) : x ∈ ix.dirs.keys := by
  obtain ⟨k, hk, hdk⟩ := h.mem_dirs.mp hd
  exact h.mem_dirs.mpr ⟨k, hk, append_sep_prefix_trans hx hdk⟩

theorem noClash_iff (h : ix.WellFormed) :
    ix.NoClash ↔ ∀ x, x ∈ ix.files.keys → x ∉ ix.dirs.keys := by
  constructor
  · intro hno x hx hd
    obtain ⟨k, hk, hxk⟩ := h.mem_dirs.mp hd
    exact hno x hx k hk hxk
  · intro hno k hk k' hk' hkk'
    exact hno k hk (h.mem_dirs.mpr ⟨k', hk', hkk'⟩)

end Index.WellFormed

namespace ParquetFileSystem

variable {fs : ParquetFileSystem}

theorem archiveIsDir_iff {path : Str} :
    fs.archiveIsDir path ↔ normalize path = [] ∨ normalize path ∈ fs.dirs :=
  fs.wellFormed.isDir_iff_mem

theorem archiveExists_iff {path : Str} :
    fs.archiveExists path ↔ fs.archive.IsName (normalize path) := by
  have hcanon := canonical_normalize path
  rw [archiveExists, Bool.or_eq_true, SortedMap.contains_iff_mem_keys, fs.wellFormed.isDir_iff_mem,
    Index.IsName]
  tauto

/-! ### What `find` collects -/

theorem findPrefix_eq_stem (path : Str) : findPrefix path = stem '/' path := by
  unfold findPrefix
  split
  · next h => rw [h, stem_nil]
  · next h => rw [stem_of_ne_nil h]

/-- Nothing is below `path`, and it is a file only: it is found as itself. -/
def FindsItself (fs : ParquetFileSystem) (path : Str) : Prop :=
  (∀ x ∈ fs.paths, ¬stem '/' path <+: x) ∧ fs.archiveExists path ∧ ¬fs.archiveIsDir path

/-- A canonical path is found as itself if it is a file and no directory. -/
theorem findsItself_iff {path : Str} (h : Canonical '/' path) :
    FindsItself fs path ↔ path ∈ fs.paths ∧ path ∉ fs.dirs := by
  have hself : normalize path = path := normalize_eq_self_iff.mpr h
  rw [FindsItself, archiveExists_iff, archiveIsDir_iff, hself, not_or]
  constructor
  · rintro ⟨-, hname, hne, hdir⟩
    exact ⟨(hname.2.resolve_left hne).resolve_right hdir, hdir⟩
  · -- a file below it would make it a directory
    rintro ⟨hfile, hdir⟩
    have hne : path ≠ [] := fs.wellFormed.ne_nil hfile
    refine ⟨fun x hx hpre => hdir ?_, fs.wellFormed.isName_file hfile, hne, hdir⟩
    rw [stem_of_ne_nil hne] at hpre
    exact fs.wellFormed.mem_dirs.mpr ⟨x, hx, hpre⟩

theorem findFiles_of_findsItself {path : Str} (h : FindsItself fs path) :
    fs.findFiles path = [path] := by
  have hnil : fs.paths.filter (findPrefix path <+: ·) = [] := by
    rw [findPrefix_eq_stem, List.filter_eq_nil_iff]
    simpa using h.1
  simp only [findFiles, hnil]
  exact if_pos ⟨trivial, h.2⟩

theorem findFiles_of_not {path : Str} (h : ¬FindsItself fs path) :
    fs.findFiles path = fs.paths.filter (stem '/' path <+: ·) := by
  rw [findFiles, findPrefix_eq_stem]
  refine if_neg fun hnot => h ⟨?_, hnot.2⟩
  simpa [List.filter_eq_nil_iff] using hnot.1

theorem mem_findFiles {path x : Str} : x ∈ fs.findFiles path ↔
    (x ∈ fs.paths ∧ stem '/' path <+: x) ∨ (FindsItself fs path ∧ x = path) := by
  by_cases h : FindsItself fs path
  · have hnone : ¬(x ∈ fs.paths ∧ stem '/' path <+: x) := fun hx => h.1 x hx.1 hx.2
    simp [findFiles_of_findsItself h, h, hnone]
  · simp [findFiles_of_not h, h]

theorem nodup_findFiles (path : Str) : (fs.findFiles path).Nodup := by
  by_cases h : FindsItself fs path
  · rw [findFiles_of_findsItself h]
    exact List.nodup_singleton path
  · rw [findFiles_of_not h]
    exact fs.archive.files.nodup_keys.filter _

theorem withinDepth_iff {path : Str} {maxdepth : Option ℤ} {p : Str} :
    withinDepth path maxdepth p ↔
      ∀ d, maxdepth = some d → (p.count '/' : ℤ) - (stem '/' path).count '/' < d := by
  rw [← findPrefix_eq_stem]
  cases maxdepth <;> simp [withinDepth]

/-- **The names `find` returns**: the files below the path, or the path itself
if it is only a file, and the directories below it. -/
theorem mem_findNames {path x : Str} {maxdepth : Option ℤ} {withdirs : Bool} :
    x ∈ fs.findNames path maxdepth withdirs ↔
      ((x ∈ fs.paths ∧ stem '/' (fs.stripProtocol path) <+: x) ∨
        (FindsItself fs (fs.stripProtocol path) ∧ x = fs.stripProtocol path) ∨
        (withdirs = true ∧ x ∈ fs.dirs ∧ stem '/' (fs.stripProtocol path) <+: x)) ∧
      withinDepth (fs.stripProtocol path) maxdepth x := by
  simp only [findNames, mem_sortStrs, List.mem_filter, findPrefix_eq_stem]
  cases withdirs <;> simp [mem_findFiles, or_assoc]

/-- A name that `find` collects both as a file and as a directory is below the path. -/
theorem below_of_mem_findFiles {path x : Str} (hx : x ∈ fs.findFiles path)
    (hbelow : stem '/' path <+: x) : x ∈ fs.paths := by
  rcases mem_findFiles.mp hx with ⟨hfile, -⟩ | ⟨hself, rfl⟩
  · exact hfile
  · -- nothing but the root is below itself, and the root is a directory
    exfalso
    have hnil : x = [] := by
      by_contra hne
      rw [stem_of_ne_nil hne] at hbelow
      simpa using hbelow.length_le
    apply hself.2.2
    rw [archiveIsDir_iff, hnil, normalize_nil]
    exact Or.inl rfl

/-- The names found increase strictly, unless with directories a name is both. -/
theorem pairwise_findNames {path : Str} (maxdepth : Option ℤ) {withdirs : Bool}
    (h : withdirs = true → ∀ x ∈ fs.paths, x ∈ fs.dirs → ¬stem '/' (fs.stripProtocol path) <+: x) :
    (fs.findNames path maxdepth withdirs).Pairwise (· < ·) := by
  apply pairwise_sortStrs
  apply List.Nodup.filter
  cases withdirs with
  | false => exact nodup_findFiles _
  | true =>
    have hdirs : (fs.dirs.filter (findPrefix (fs.stripProtocol path) <+: ·)).Nodup :=
      fs.archive.dirs.nodup_keys.filter _
    -- only a name that is both a file and a directory could repeat
    refine (nodup_findFiles _).append hdirs fun x hx hx' => ?_
    rw [findPrefix_eq_stem, List.mem_filter, decide_eq_true_eq] at hx'
    exact h rfl x (below_of_mem_findFiles hx hx'.2) hx'.1 hx'.2

theorem find_false (path : Str) (maxdepth : Option ℤ) (withdirs : Bool) :
    fs.find path maxdepth withdirs false = .ok (.names (fs.findNames path maxdepth withdirs)) := by
  simp [find, withDetail]

end ParquetFileSystem

end ParquetFileFs
