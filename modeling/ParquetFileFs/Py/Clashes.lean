import ParquetFileFs.Py.Spellings

/-!
# Names that are both a file and a directory

`find` and `glob` work on the list of files followed by the list of directories.
A name in both lists is listed twice, and a path that is both is not found as
itself, since `find` only looks for the path itself when it is no directory.

## Main definitions

* `FindExact` — `find` lists exactly the files at or below a path, and the
  directories below it, in strictly increasing order.
* `GlobExact` — `glob` lists each matching name once.

## Main results

* `find_exact_iff`, `glob_exact_iff` — **both are exact exactly when no such name
  is in the way.**
* `clash_sample` — an archive in which they are not.
-/

namespace ParquetFileFs

open Segments

namespace ParquetFileSystem

variable {fs : ParquetFileSystem}

/-- `find` lists the files at or below the path and, with directories, the
directories below it, in strictly increasing order. -/
def FindExact (fs : ParquetFileSystem) (path : Str) (withdirs : Bool) : Prop :=
  ∃ l, fs.find path none withdirs false = .ok (.names l) ∧ l.Pairwise (· < ·) ∧
    ∀ x, x ∈ l ↔
      (x ∈ fs.paths ∧ (x = fs.stripProtocol path ∨ stem '/' (fs.stripProtocol path) <+: x)) ∨
      (withdirs = true ∧ x ∈ fs.dirs ∧ stem '/' (fs.stripProtocol path) <+: x)

/-- `glob` lists each file and directory that matches, once. -/
def GlobExact (fs : ParquetFileSystem) (pattern : Str) (regex : Str → Bool) : Prop :=
  ∃ l, fs.glob pattern none false = .ok (.names l) ∧ l.Nodup ∧
    ∀ x, x ∈ l ↔ (x ∈ fs.paths ∨ x ∈ fs.dirs) ∧ regex x

/-- Sorted strictly, the names `find` lists have no file among the directories. -/
theorem pairwise_findNames_iff {path : Str} {withdirs : Bool} :
    (fs.findNames path none withdirs).Pairwise (· < ·) ↔
      (withdirs = true →
        ∀ x ∈ fs.paths, x ∈ fs.dirs → ¬stem '/' (fs.stripProtocol path) <+: x) := by
  constructor
  · rintro hlt rfl x hfile hdir hbelow
    -- the name is in both lists, so it occurs twice
    have hnd := nodup_of_pairwise_lt hlt
    rw [findNames, nodup_sortStrs] at hnd
    have hall : ∀ l : List Str, l.filter (withinDepth (fs.stripProtocol path) none) = l := by
      intro l
      rw [List.filter_eq_self]
      simp [withinDepth]
    simp only [↓reduceIte] at hnd
    rw [hall] at hnd
    refine List.disjoint_of_nodup_append hnd (mem_findFiles.mpr (Or.inl ⟨hfile, hbelow⟩)) ?_
    rw [List.mem_filter, findPrefix_eq_stem, decide_eq_true_eq]
    exact ⟨hdir, hbelow⟩
  · exact pairwise_findNames none

/-- The names `find` lists for a name of the archive are those it should list,
unless the name is both a file and a directory. -/
theorem mem_findNames_exact_iff {path : Str} {withdirs : Bool}
    (h : fs.archive.IsName (fs.stripProtocol path)) :
    (∀ x, x ∈ fs.findNames path none withdirs ↔
      (x ∈ fs.paths ∧ (x = fs.stripProtocol path ∨ stem '/' (fs.stripProtocol path) <+: x)) ∨
      (withdirs = true ∧ x ∈ fs.dirs ∧ stem '/' (fs.stripProtocol path) <+: x)) ↔
      ¬(fs.stripProtocol path ∈ fs.paths ∧ fs.stripProtocol path ∈ fs.dirs) := by
  simp only [mem_findNames, withinDepth, and_true, findsItself_iff h.1]
  generalize fs.stripProtocol path = t at h
  constructor
  · rintro hmem ⟨hfile, hdir⟩
    -- asked for as itself, the name is not found: it is not below itself
    have hself : ¬stem '/' t <+: t := by
      rw [stem_of_ne_nil (fs.wellFormed.ne_nil hfile)]
      intro hpre
      simpa using hpre.length_le
    rcases (hmem t).mpr (Or.inl ⟨hfile, Or.inl rfl⟩) with ⟨-, hpre⟩ | ⟨hno, -⟩ | ⟨-, -, hpre⟩
    · exact hself hpre
    · exact hno.2 hdir
    · exact hself hpre
  · intro hno x
    constructor
    · rintro (⟨hfile, hpre⟩ | ⟨⟨hfile, -⟩, rfl⟩ | hdir)
      · exact Or.inl ⟨hfile, Or.inr hpre⟩
      · exact Or.inl ⟨hfile, Or.inl rfl⟩
      · exact Or.inr hdir
    · rintro (⟨hfile, rfl | hpre⟩ | hdir)
      · exact Or.inr (Or.inl ⟨⟨hfile, fun hdir => hno ⟨hfile, hdir⟩⟩, rfl⟩)
      · exact Or.inl ⟨hfile, hpre⟩
      · exact Or.inr (Or.inr hdir)

/-- **When `find` is exact**: the path is not both a file and a directory, nor,
with directories, is a name below it. -/
theorem find_exact_iff {path : Str} {withdirs : Bool}
    (h : fs.archive.IsName (fs.stripProtocol path)) :
    FindExact fs path withdirs ↔
      ¬(fs.stripProtocol path ∈ fs.paths ∧ fs.stripProtocol path ∈ fs.dirs) ∧
      (withdirs = true →
        ∀ x ∈ fs.paths, x ∈ fs.dirs → ¬stem '/' (fs.stripProtocol path) <+: x) := by
  rw [← mem_findNames_exact_iff h, ← pairwise_findNames_iff]
  constructor
  · rintro ⟨l, hl, hlt, hmem⟩
    rw [find_false] at hl
    cases hl
    exact ⟨hmem, hlt⟩
  · rintro ⟨hmem, hlt⟩
    exact ⟨_, find_false .., hlt, hmem⟩

theorem glob_false {pattern : Str} {regex : Str → Bool}
    (hwild : containsAny (fs.stripProtocol pattern) globChars)
    (hregex : fs.globTranslate (fs.stripProtocol pattern) = some regex) :
    fs.glob pattern none false
      = .ok (.names (sortStrs ((fs.paths ++ fs.dirs).filter fun p => regex p))) := by
  simp [glob, hwild, hregex, withDetail]

theorem mem_glob {regex : Str → Bool} {x : Str} :
    x ∈ sortStrs ((fs.paths ++ fs.dirs).filter fun p => regex p) ↔
      (x ∈ fs.paths ∨ x ∈ fs.dirs) ∧ regex x := by
  rw [mem_sortStrs, List.mem_filter, List.mem_append]

/-- A name that matches is listed twice exactly when it is both. -/
theorem nodup_filter_iff {regex : Str → Bool} :
    ((fs.paths ++ fs.dirs).filter fun p => regex p).Nodup ↔
      ∀ x ∈ fs.paths, x ∈ fs.dirs → ¬regex x := by
  rw [List.filter_append]
  constructor
  · intro hnd x hfile hdir hx
    exact List.disjoint_of_nodup_append hnd (List.mem_filter.mpr ⟨hfile, hx⟩)
      (List.mem_filter.mpr ⟨hdir, hx⟩)
  · intro hno
    -- each list alone has no repetitions
    refine (fs.archive.files.nodup_keys.filter _).append (fs.archive.dirs.nodup_keys.filter _) ?_
    intro x hx hx'
    exact hno x (List.mem_filter.mp hx).1 (List.mem_filter.mp hx').1 (List.mem_filter.mp hx).2

/-- **When `glob` is exact**: no name that matches is both a file and a directory. -/
theorem glob_exact_iff {pattern : Str} {regex : Str → Bool}
    (hwild : containsAny (fs.stripProtocol pattern) globChars)
    (hregex : fs.globTranslate (fs.stripProtocol pattern) = some regex) :
    GlobExact fs pattern regex ↔ ∀ x ∈ fs.paths, x ∈ fs.dirs → ¬regex x := by
  rw [← nodup_filter_iff, ← nodup_sortStrs]
  constructor
  · rintro ⟨l, hl, hnodup, -⟩
    rw [glob_false hwild hregex] at hl
    cases hl
    exact hnodup
  · intro hnodup
    exact ⟨_, glob_false hwild hregex, hnodup, fun x => mem_glob⟩

/-- **`find` and `glob` are exact exactly when no name in the way is both a file
and a directory.** -/
theorem find_glob_exact_iff (fs : ParquetFileSystem) :
    (∀ path withdirs, fs.archive.IsName (fs.stripProtocol path) →
      (FindExact fs path withdirs ↔
        ¬(fs.stripProtocol path ∈ fs.paths ∧ fs.stripProtocol path ∈ fs.dirs) ∧
        (withdirs = true →
          ∀ x ∈ fs.paths, x ∈ fs.dirs → ¬stem '/' (fs.stripProtocol path) <+: x))) ∧
    (∀ pattern regex, containsAny (fs.stripProtocol pattern) globChars →
      fs.globTranslate (fs.stripProtocol pattern) = some regex →
      (GlobExact fs pattern regex ↔ ∀ x ∈ fs.paths, x ∈ fs.dirs → ¬regex x)) :=
  ⟨fun _ _ h => find_exact_iff h, fun _ _ hwild hregex => glob_exact_iff hwild hregex⟩

theorem find_glob_exact_sample :
    FindExact sampleFileSystem "b".toList true ∧
      GlobExact sampleFileSystem "b/*".toList (matchSegments "b/*".toList) := by
  have hname : sampleFileSystem.archive.IsName (sampleFileSystem.stripProtocol "b".toList) :=
    ⟨by decide, Or.inr (Or.inr (by decide))⟩
  constructor
  · exact ((find_glob_exact_iff sampleFileSystem).1 "b".toList true hname).mpr
      ⟨by decide, by decide⟩
  · exact ((find_glob_exact_iff sampleFileSystem).2 "b/*".toList _ (by decide) rfl).mpr (by decide)

/-- The file `a` is also a directory: `find` lists what is below it without it,
and `glob` lists it twice. -/
theorem clash_sample :
    sampleFileSystem.archive.IsName (sampleFileSystem.stripProtocol "a".toList) ∧
      sampleFileSystem.find "a".toList none false false = .ok (.names ["a/d".toList]) ∧
      ¬FindExact sampleFileSystem "a".toList false ∧
      sampleFileSystem.glob "*".toList none false
        = .ok (.names ["a".toList, "a".toList, "b".toList]) ∧
      ¬GlobExact sampleFileSystem "*".toList (matchSegments "*".toList) := by
  have hfind : sampleFileSystem.find "a".toList none false false
      = .ok (.names ["a/d".toList]) := by
    have hnames : sampleFileSystem.findNames "a".toList none false = ["a/d".toList] := by decide
    rw [find_false, hnames]
  have hglob : sampleFileSystem.glob "*".toList none false
      = .ok (.names ["a".toList, "a".toList, "b".toList]) := by
    have hnames : sortStrs ((sampleFileSystem.paths ++ sampleFileSystem.dirs).filter fun p =>
        matchSegments "*".toList p) = ["a".toList, "a".toList, "b".toList] := by decide
    rw [glob_false (by decide) rfl]
    exact congrArg (fun l => Except.ok (Listing.names l)) hnames
  refine ⟨⟨by decide, Or.inr (Or.inl (by decide))⟩, hfind, ?_, hglob, ?_⟩
  · rintro ⟨l, hl, -, hmem⟩
    rw [hfind] at hl
    cases hl
    exact absurd ((hmem "a".toList).mpr (Or.inl ⟨by decide, Or.inl (by decide)⟩)) (by decide)
  · rintro ⟨l, hl, hnd, -⟩
    rw [hglob] at hl
    cases hl
    exact absurd hnd (by decide)

end ParquetFileSystem

end ParquetFileFs
