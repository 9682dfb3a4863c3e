import ParquetFileFs.Lib.Segments
import ParquetFileFs.Adapter

/-!
# Canonical virtual paths

`normalize` drops leading, trailing and repeated separators.  It computes the
canonical spelling of its argument read as a word cut by `'/'`, and the general
facts about such words carry over.

## Main definitions

* `normalize` — the canonical form of a virtual path.

## Main results

* `normalize_eq_canon` — the loop computes the canonical spelling.
* `normalize_eq_self_iff`, `normalize_normalize` — its fixed points.
* `normalize_canonical_form` — **it picks one spelling for each list of segments.**
-/

namespace ParquetFileFs

open Segments

/-- Canonical form of a virtual path: no leading or trailing separators and no
empty segments. -/
def normalize (path : Str) : Str :=
  ((path.splitOn '/').filter (· ≠ [])).foldl
    (fun out seg => (if out ≠ [] then out ++ ['/'] else out) ++ seg) []

/-- The loop of `normalize`, started with the segments `ss` already written. -/
theorem foldl_push_segs (ss ts : List Str) (hss : ss ≠ []) (hne : join '/' ss ≠ []) :
    ts.foldl (fun out seg => (if out ≠ [] then out ++ ['/'] else out) ++ seg) (join '/' ss)
      = join '/' (ss ++ ts) := by
  induction ts generalizing ss with
  | nil => simp
  | cons t ts ih =>
    have hstep : join '/' ss ++ ['/'] ++ t = join '/' (ss ++ [t]) := by
      rw [join_append hss (by simp), join_singleton, List.append_assoc, List.singleton_append]
    rw [List.foldl_cons, if_pos hne, hstep, ih (ss ++ [t]) (by simp) (by simp [← hstep]),
      List.append_assoc, List.singleton_append]

theorem normalize_eq_canon (path : Str) : normalize path = canon '/' path := by
  have hseg : ∀ s ∈ segs '/' path, s ≠ [] := fun s hs => (of_mem_segs hs).1
  rw [normalize, canon]
  unfold segs at hseg ⊢
  cases hcut : (path.splitOn '/').filter (· ≠ []) with
  | nil => rfl
  | cons s ss =>
    rw [hcut] at hseg
    have hs : s ≠ [] := hseg s (by simp)
    have h := foldl_push_segs [s] ss (by simp) (by simpa using hs)
    simpa using h

theorem normalize_eq_self_iff {path : Str} : normalize path = path ↔ Canonical '/' path := by
  rw [normalize_eq_canon, Canonical]

theorem canonical_normalize (path : Str) : Canonical '/' (normalize path) := by
  rw [normalize_eq_canon]
  exact canonical_canon path

@[simp] theorem normalize_normalize (path : Str) : normalize (normalize path) = normalize path :=
  normalize_eq_self_iff.mpr (canonical_normalize path)

@[simp] theorem normalize_nil : normalize [] = [] := by simp [normalize]

theorem normalize_eq_iff_segs {a b : Str} :
    normalize a = normalize b ↔ segs '/' a = segs '/' b := by
  rw [normalize_eq_canon, normalize_eq_canon, canon_eq_canon_iff]

/-- **`normalize` is the canonical form of paths with the same segments**: it has
only single separators between segments, it is its own canonical form, it tells
paths with other segments apart, and it joins the forms of two joined paths. -/
theorem normalize_canonical_form (a b : Str) :
    ((normalize a).head? ≠ some '/' ∧ (normalize a).getLast? ≠ some '/' ∧
      ¬['/', '/'] <:+: normalize a) ∧
    normalize (normalize a) = normalize a ∧
    (normalize a = normalize b ↔
      (a.splitOn '/').filter (· ≠ []) = (b.splitOn '/').filter (· ≠ [])) ∧
    normalize (a ++ '/' :: b) =
      if normalize a = [] then normalize b
      else if normalize b = [] then normalize a
      else normalize a ++ '/' :: normalize b := by
  refine ⟨(canonical_normalize a).separators, normalize_normalize a, normalize_eq_iff_segs, ?_⟩
  simp only [normalize_eq_canon]
  exact canon_append_sep a b

end ParquetFileFs
