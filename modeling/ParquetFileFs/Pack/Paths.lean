import ParquetFileFs.Index.Normalize
import Mathlib.Data.Prod.Lex

/-!
# Stored paths

The path under which a file is stored is the rest of its path below the root,
and that of an archive entry is its name with the separators of both kinds; both
are lists of names joined by single separators.

## Main definitions

* `components`, `clean` — a path as its components, and without `.`.
* `storedPath`, `entryStoredPath` — the stored paths of files and of entries.
* `globFixedPrefix` — the wildcard-free prefix of a pattern, the default root.
* `sortPairs` — the order in which files are packed.
* `IsStored` — the paths under which something can be stored.

## Main results

* `IsStored.canonical`, `IsStored.ne_nil` — **a stored path is canonical and not empty.**
-/

namespace ParquetFileFs

open Segments

/-! ### Components -/

/-- The components of a path. -/
inductive Component
  | rootDir
  | curDir
  | parentDir
  | normal (s : Str)
  deriving DecidableEq, Repr

def segComponent (s : Str) : Component := if s = "..".toList then .parentDir else .normal s

/-- The components of a path: repeated separators and `.` do not count, except
for `.` at the start of a relative path. -/
def components (p : Str) : List Component :=
  let segs := p.splitOn '/'
  (if p.head? = some '/' then [.rootDir]
    else if segs.head? = some ".".toList then [.curDir] else [])
    ++ (segs.filter fun s => s ≠ [] ∧ s ≠ ".".toList).map segComponent

/-- The components without `.`, so that roots such as `.` are prefixes. -/
def clean (p : Str) : List Component := (components p).filter (· ≠ .curDir)

/-- The name of an ordinary component. -/
def Component.name? : Component → Option Str
  | .normal s => some s
  | _ => none

/-! ### Stored paths -/

/-- The path of `file` relative to `root`. -/
def storedPath (file root : Str) : Except FsError Str :=
  if clean root <+: clean file then
    match ((clean file).drop (clean root).length).mapM Component.name? with
    | none => .error (.pack ("path '".toList ++ file ++ "' escapes the pack root".toList))
    | some [] => .error (.pack ("'".toList ++ file ++ "' yields an empty stored path".toList))
    | some (s :: ss) => .ok (join '/' (s :: ss))
  else .error (.pack ("file '".toList ++ file ++ "' is outside root '".toList ++ root
    ++ "'".toList))

/-- The stored path of an archive entry: `\` separates too, leading separators
and `.` are dropped, and `..` is rejected. -/
def entryStoredPath (raw : Str) : Except FsError Str :=
  let segs := (raw.map fun c => if c = '\\' then '/' else c).splitOn '/'
  if "..".toList ∈ segs then
    .error (.pack ("archive entry '".toList ++ raw ++ "' contains a '..' component".toList))
  else
    match segs.filter fun s => s ≠ [] ∧ s ≠ ".".toList with
    | [] => .error (.pack ("archive entry '".toList ++ raw
        ++ "' normalizes to an empty path".toList))
    | s :: ss => .ok (join '/' (s :: ss))

/-! ### The default root of a pattern -/

/-- Push a segment onto a path; an absolute one replaces it. -/
def pushPath (p seg : Str) : Str :=
  if seg.head? = some '/' then seg
  else if p = [] ∨ p.getLast? = some '/' then p ++ seg
  else p ++ '/' :: seg

/-- Push the segments up to the first wildcard; the last segment never counts. -/
def fixedPrefixFrom : Str → List Str → Str
  | p, seg :: next :: rest =>
      if containsAny seg globChars then p
      else if seg = [] then fixedPrefixFrom (pushPath p "/".toList) (next :: rest)
      else fixedPrefixFrom (pushPath p seg) (next :: rest)
  | p, _ => p

/-- The longest wildcard-free directory prefix of a pattern. -/
def globFixedPrefix (pattern : Str) : Str := fixedPrefixFrom [] (pattern.splitOn '/')

/-! ### The order of packing -/

/-- Components in the order of paths. -/
def Component.rank : Component → ℕ ×ₗ Str
  | .rootDir => toLex (0, [])
  | .curDir => toLex (1, [])
  | .parentDir => toLex (2, [])
  | .normal s => toLex (3, s)

/-- What pairs of a stored path and a source are sorted by. -/
def pairKey (pair : Str × Str) : Str ×ₗ List (ℕ ×ₗ Str) :=
  toLex (pair.1, (components pair.2).map Component.rank)

def sortPairs (pairs : List (Str × Str)) : List (Str × Str) :=
  pairs.insertionSort fun a b => pairKey a ≤ pairKey b

/-! ### What is stored is canonical -/

/-- The paths under which files and archive entries are stored. -/
def IsStored (s : Str) : Prop :=
  (∃ file root, storedPath file root = .ok s) ∨ ∃ raw, entryStoredPath raw = .ok s

theorem of_normal_mem_components {p s : Str} (h : Component.normal s ∈ components p) :
    s ≠ [] ∧ '/' ∉ s := by
  simp only [components, List.mem_append, List.mem_map, List.mem_filter, decide_eq_true_eq] at h
  rcases h with h | ⟨t, ⟨ht, hne, -⟩, hts⟩
  · split_ifs at h <;> simp at h
  · unfold segComponent at hts
    split_ifs at hts
    cases hts
    exact ⟨hne, sep_notMem_of_mem_splitOn ht⟩

/-- The names of ordinary components. -/
theorem mapM_name? {cs : List Component} {ss : List Str} (h : cs.mapM Component.name? = some ss) :
    cs = ss.map Component.normal := by
  induction cs generalizing ss with
  | nil =>
    cases h
    rfl
  | cons c cs ih =>
    rw [List.mapM_cons] at h
    cases c with
    | normal s =>
      cases hcs : cs.mapM Component.name? with
      | none => simp [Component.name?, hcs] at h
      | some ss' =>
        simp only [Component.name?, hcs, Option.pure_def, Option.bind_eq_bind, Option.bind_some,
          Option.some.injEq] at h
        rw [← h, ih hcs, List.map_cons]
    | rootDir => simp [Component.name?] at h
    | curDir => simp [Component.name?] at h
    | parentDir => simp [Component.name?] at h

theorem canonical_join {ss : List Str} (hne : ss ≠ []) (h : ∀ s ∈ ss, s ≠ [] ∧ '/' ∉ s) :
    Canonical '/' (join '/' ss) ∧ join '/' ss ≠ [] := by
  have hsegs : segs '/' (join '/' ss) = ss := segs_join h
  constructor
  · rw [Canonical, canon, hsegs]
  · intro hnil
    rw [hnil, segs_nil] at hsegs
    exact hne hsegs.symm

theorem canonical_storedPath {file root s : Str} (h : storedPath file root = .ok s) :
    Canonical '/' s ∧ s ≠ [] := by
  unfold storedPath at h
  split at h
  · split at h
    · cases h
    · cases h
    · next t ts hnames =>
      cases h
      apply canonical_join (List.cons_ne_nil t ts)
      intro u hu
      have hmem : Component.normal u ∈ (clean file).drop (clean root).length := by
        rw [mapM_name? hnames]
        exact List.mem_map_of_mem hu
      exact of_normal_mem_components (List.mem_filter.mp (List.mem_of_mem_drop hmem)).1
  · cases h

theorem canonical_entryStoredPath {raw s : Str} (h : entryStoredPath raw = .ok s) :
    Canonical '/' s ∧ s ≠ [] := by
  unfold entryStoredPath at h
  simp only at h
  split at h
  · cases h
  · split at h
    · cases h
    · next t ts hkept =>
      cases h
      apply canonical_join (List.cons_ne_nil t ts)
      intro u hu
      rw [← hkept, List.mem_filter, decide_eq_true_eq] at hu
      exact ⟨hu.2.1, sep_notMem_of_mem_splitOn hu.1⟩

theorem IsStored.canonical {s : Str} (h : IsStored s) : Canonical '/' s :=
  h.elim (fun ⟨_, _, h⟩ => (canonical_storedPath h).1) fun ⟨_, h⟩ => (canonical_entryStoredPath h).1

theorem IsStored.ne_nil {s : Str} (h : IsStored s) : s ≠ [] :=
  h.elim (fun ⟨_, _, h⟩ => (canonical_storedPath h).2) fun ⟨_, h⟩ => (canonical_entryStoredPath h).2

end ParquetFileFs
