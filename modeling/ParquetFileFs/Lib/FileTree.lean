import ParquetFileFs.Lib.FileSystem

/-!
# Trees of files

Without links a file system is a tree: every directory and every regular file is
known by the names that lead to it from the root.  A path is followed one segment
at a time, each the name of an entry or the one that leads back up.

## Main definitions

* `FileTree` — what names lead to, and the working directory.
* `walk` — what the segments of a path lead to.

## Main results

* `walk_append` — a path is followed piece by piece.
* `walk_of_kind` — **names lead where they say**, if there is something.
-/

/-- What names lead to from the root. -/
structure FileTree (ν : Type*) where
  kind : List ν → Option FileSystem.Kind
  /-- Everything is found in a directory. -/
  kind_parent : ∀ {names s}, kind (names ++ [s]) ≠ none → kind names = some .dir
  /-- The working directory. -/
  cwd : List ν
  kind_cwd : kind cwd = some .dir

namespace FileTree

variable {ν : Type*} {t : FileTree ν} {up : ν} {dir found names ss ss' : List ν}

/-- What lies on the way to something is a directory. -/
theorem kind_of_append (h : t.kind (dir ++ names) ≠ none) (hne : names ≠ []) :
    t.kind dir = some .dir := by
  induction names using List.reverseRecOn with
  | nil => exact absurd rfl hne
  | append_singleton names s ih =>
    rw [← List.append_assoc] at h
    have hparent : t.kind (dir ++ names) = some .dir := t.kind_parent h
    by_cases hnames : names = []
    · rwa [hnames, List.append_nil] at hparent
    · exact ih (by simp [hparent]) hnames

variable [DecidableEq ν]

/-- What the segments of a path lead to from a directory. -/
def walk (t : FileTree ν) (up : ν) : List ν → List ν → Option (List ν)
  | dir, [] => some dir
  | dir, s :: ss =>
      if t.kind dir ≠ some .dir then none
      else if s = up then walk t up dir.dropLast ss
      else walk t up (dir ++ [s]) ss

@[simp] theorem walk_nil : t.walk up dir [] = some dir := rfl

/-- **A path is followed piece by piece.** -/
theorem walk_append :
    t.walk up dir (ss ++ ss') = (t.walk up dir ss).bind fun d => t.walk up d ss' := by
  induction ss generalizing dir with
  | nil => rfl
  | cons s ss ih =>
    rw [List.cons_append, walk, walk]
    split_ifs
    · rfl
    · exact ih
    · exact ih

/-- Names lead nowhere else. -/
theorem eq_append_of_walk (hup : up ∉ names) (h : t.walk up dir names = some found) :
    found = dir ++ names := by
  induction names generalizing dir with
  | nil =>
    cases h
    rw [List.append_nil]
  | cons s names ih =>
    rw [List.mem_cons, not_or] at hup
    rw [walk, if_neg (Ne.symm hup.1)] at h
    split_ifs at h
    rw [ih hup.2 h, List.append_assoc, List.singleton_append]

/-- **Names lead where they say**, if there is something. -/
theorem walk_of_kind (hup : up ∉ names) (h : t.kind (dir ++ names) ≠ none) :
    t.walk up dir names = some (dir ++ names) := by
  induction names generalizing dir with
  | nil => rw [walk_nil, List.append_nil]
  | cons s names ih =>
    rw [List.mem_cons, not_or] at hup
    have hdir : t.kind dir = some .dir := kind_of_append h (List.cons_ne_nil s names)
    rw [walk, if_neg (not_not.mpr hdir), if_neg (Ne.symm hup.1), ih hup.2, List.append_assoc,
      List.singleton_append]
    rwa [List.append_assoc, List.singleton_append]

end FileTree
