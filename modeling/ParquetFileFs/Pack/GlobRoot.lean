import ParquetFileFs.Lib.Glob
import ParquetFileFs.Pack.Containment

/-!
# The default root of a pattern

The default root is read off the segments before the first wildcard.  What a
pattern matches begins with their names, so it lies below the root, unless an
empty segment among them has set the root back to `/`.

## Main definitions

* `GlobMatches` — what the glob library finds for a pattern.
* `fixedSegs`, `afterLastEmpty` — the segments the root is made of, and those
  after the last empty one.
* `RootContains` — the pattern's root contains the file.

## Main results

* `clean_globFixedPrefix` — the components of the default root.
* `globRoot_contains_iff` — **exactly when a match is stored below the root.**
-/

namespace ParquetFileFs

open Segments Glob

/-! ### What a pattern matches -/

/-- A segment without wildcards stands for itself only. -/
def LiteralSegs (segMatch : Str → Str → Prop) : Prop :=
  ∀ s, containsAny s globChars = false → ∀ t, segMatch s t ↔ t = s

/-- `p` matches the pattern segment by segment, where empty segments and `.` do
not count and `**` stands for any number of segments. -/
def GlobMatches (segMatch : Str → Str → Prop) (pattern p : Str) : Prop :=
  (p.head? = some '/' ↔ pattern.head? = some '/') ∧
    Matches (· = "**".toList) segMatch (nameSegs pattern) (nameSegs p)

/-! ### The segments of the root -/

/-- The segments before the first one with a wildcard, the last one never counting. -/
def fixedSegs (ss : List Str) : List Str :=
  ss.dropLast.takeWhile fun s => ¬containsAny s globChars

/-- The segments after the last empty one, or all. -/
def afterLastEmpty : List Str → List Str
  | [] => []
  | s :: ss => if [] ∈ ss then afterLastEmpty ss else if s = [] then ss else s :: ss

theorem afterLastEmpty_of_notMem {ss : List Str} (h : [] ∉ ss) : afterLastEmpty ss = ss := by
  cases ss with
  | nil => rfl
  | cons s ss =>
    rw [List.mem_cons, not_or] at h
    rw [afterLastEmpty, if_neg h.2, if_neg (Ne.symm h.1)]

theorem fixedSegs_cons_cons (s t : Str) (ss : List Str) : fixedSegs (s :: t :: ss) =
    if containsAny s globChars then [] else s :: fixedSegs (t :: ss) := by
  unfold fixedSegs
  rw [List.dropLast_cons_cons, List.takeWhile_cons]
  cases containsAny s globChars <;> rfl

theorem clean_slash : clean "/".toList = [.rootDir] := rfl

/-- The names of a single segment. -/
theorem clean_segment {s : Str} (hsep : '/' ∉ s) (hne : s ≠ []) :
    clean s = ([s].filter (· ≠ ".".toList)).map segComponent := by
  have hhead : s.head? ≠ some '/' := fun h => hsep (List.mem_of_mem_head? h)
  have hsegs : segs '/' (join '/' [s]) = [s] := by
    apply segs_join
    intro t ht
    rw [List.mem_singleton.mp ht]
    exact ⟨hne, hsep⟩
  rw [join_singleton] at hsegs
  rw [clean_eq, if_neg hhead, nameSegs, hsegs, List.nil_append]

/-- **The loop keeps the names after the last empty segment**, and an empty
segment sets the path back to the root. -/
theorem clean_fixedPrefixFrom {ss : List Str} (hsep : ∀ s ∈ ss, '/' ∉ s) (p : Str) :
    clean (fixedPrefixFrom p ss) = (if [] ∈ fixedSegs ss then [.rootDir] else clean p) ++
      ((afterLastEmpty (fixedSegs ss)).filter (· ≠ ".".toList)).map segComponent := by
  induction ss generalizing p with
  | nil => simp [fixedPrefixFrom, fixedSegs, afterLastEmpty]
  | cons s ss ih =>
    cases ss with
    | nil => simp [fixedPrefixFrom, fixedSegs, afterLastEmpty]
    | cons t ss =>
      have ih' := ih fun u hu => hsep u (List.mem_cons_of_mem s hu)
      rw [fixedPrefixFrom, fixedSegs_cons_cons]
      split
      · simp [afterLastEmpty]
      · next hlit =>
        rw [afterLastEmpty]
        by_cases hnil : s = []
        · have hslash : pushPath p "/".toList = "/".toList := rfl
          have hroot : [] ∈ s :: fixedSegs (t :: ss) := by
            rw [hnil]
            exact List.mem_cons_self
          rw [if_pos hnil, ih', hslash, clean_slash, ite_self, if_pos hroot]
          by_cases hmem : [] ∈ fixedSegs (t :: ss)
          · rw [if_pos hmem]
          · rw [if_neg hmem, if_pos hnil, afterLastEmpty_of_notMem hmem]
        · have hs := hsep s List.mem_cons_self
          have hhead : s.head? ≠ some '/' := fun h => hs (List.mem_of_mem_head? h)
          rw [if_neg hnil, ih', clean_pushPath p hhead, clean_segment hs hnil]
          by_cases hmem : [] ∈ fixedSegs (t :: ss)
          · rw [if_pos hmem, if_pos (List.mem_cons_of_mem s hmem), if_pos hmem]
          · have hmem' : [] ∉ s :: fixedSegs (t :: ss) := by
              simpa using ⟨hnil, hmem⟩
            rw [if_neg hmem, if_neg hmem', if_neg hmem, if_neg hnil,
              afterLastEmpty_of_notMem hmem, List.append_assoc, ← List.map_append,
              ← List.filter_append, List.singleton_append]

/-- The names that count among the fixed segments of a pattern. -/
def fixedNames (pattern : Str) : List Str :=
  (fixedSegs (pattern.splitOn '/')).filter fun s => s ≠ [] ∧ s ≠ ".".toList

/-- The names of the default root. -/
def rootNames (pattern : Str) : List Str :=
  (afterLastEmpty (fixedSegs (pattern.splitOn '/'))).filter (· ≠ ".".toList)

/-- The components of the default root. -/
theorem clean_globFixedPrefix (pattern : Str) : clean (globFixedPrefix pattern) =
    (if [] ∈ fixedSegs (pattern.splitOn '/') then [.rootDir] else []) ++
      (rootNames pattern).map segComponent := by
  have hsep : ∀ s ∈ pattern.splitOn '/', '/' ∉ s := fun s hs => sep_notMem_of_mem_splitOn hs
  rw [globFixedPrefix, clean_fixedPrefixFrom hsep, clean_nil, rootNames]

theorem afterLastEmpty_suffix (ss : List Str) : afterLastEmpty ss <:+ ss := by
  induction ss with
  | nil => exact List.nil_suffix
  | cons s ss ih =>
    rw [afterLastEmpty]
    split_ifs
    · exact ih.trans (List.suffix_cons s ss)
    · exact List.suffix_cons s ss
    · exact List.suffix_rfl

theorem nil_notMem_afterLastEmpty (ss : List Str) : [] ∉ afterLastEmpty ss := by
  induction ss with
  | nil => simp [afterLastEmpty]
  | cons s ss ih =>
    rw [afterLastEmpty]
    split_ifs with hmem hnil
    · exact ih
    · exact hmem
    · rw [List.mem_cons, not_or]
      exact ⟨fun h => hnil h.symm, hmem⟩

/-- The names of the root are some of the fixed names. -/
theorem rootNames_sublist (pattern : Str) : (rootNames pattern).Sublist (fixedNames pattern) := by
  have heq : rootNames pattern = (afterLastEmpty (fixedSegs (pattern.splitOn '/'))).filter
      fun s => s ≠ [] ∧ s ≠ ".".toList := by
    unfold rootNames
    apply List.filter_congr
    intro s hs
    have hne : s ≠ [] := fun h => nil_notMem_afterLastEmpty _ (h ▸ hs)
    simp [hne]
  rw [heq, fixedNames]
  exact (afterLastEmpty_suffix _).sublist.filter _

/-- An absolute pattern has an empty segment first. -/
theorem nil_mem_fixedSegs {pattern : Str} (h : pattern.head? = some '/') :
    [] ∈ fixedSegs (pattern.splitOn '/') := by
  obtain ⟨rest, rfl⟩ : ∃ rest, pattern = '/' :: rest := by
    cases pattern with
    | nil => cases h
    | cons c rest =>
      cases h
      exact ⟨rest, rfl⟩
  obtain ⟨t, ts, hts⟩ := List.exists_cons_of_ne_nil (List.splitOn_ne_nil '/' rest)
  have hsplit : ('/' :: rest).splitOn '/' = [] :: t :: ts := by
    rw [List.splitOn_cons_eq_if_modifyHead, if_pos (by simp), hts]
  rw [hsplit, fixedSegs_cons_cons]
  exact List.mem_cons_self

/-- What a pattern matches begins with its fixed names. -/
theorem fixedNames_prefix {segMatch : Str → Str → Prop} (hlit : LiteralSegs segMatch)
    {pattern p : Str} (h : GlobMatches segMatch pattern p) :
    fixedNames pattern <+: nameSegs p := by
  -- the fixed segments are a beginning of the pattern's
  obtain ⟨rest, hrest⟩ : fixedSegs (pattern.splitOn '/') <+: pattern.splitOn '/' :=
    (List.takeWhile_prefix _).trans (List.dropLast_prefix _)
  have hnames : nameSegs pattern = fixedNames pattern ++
      rest.filter fun s => s ≠ [] ∧ s ≠ ".".toList := by
    rw [← filter_splitOn, ← hrest, List.filter_append, fixedNames]
  obtain ⟨-, hmatch⟩ := h
  rw [hnames, matches_append_iff] at hmatch
  obtain ⟨ts₁, ts₂, hp, hfixed, -⟩ := hmatch
  have hliteral : ∀ s ∈ fixedNames pattern, s ≠ "**".toList ∧ ∀ t, segMatch s t ↔ t = s := by
    intro s hs
    have hno : containsAny s globChars = false := by
      have hmem := List.mem_takeWhile_imp (List.mem_of_mem_filter hs)
      simpa using hmem
    refine ⟨?_, hlit s hno⟩
    rintro rfl
    cases hno
  rw [matches_literals_iff hliteral] at hfixed
  rw [hp, hfixed]
  exact List.prefix_append _ _

/-! ### What is stored below the root -/

/-- The default root of the pattern contains the file, and ordinary names lead to
it: no fixed segment is empty unless the pattern is absolute, the names after the
last empty one are also the first fixed names, and those of the file go on,
without `..`. -/
structure RootContains (pattern p : Str) : Prop where
  absolute : [] ∈ fixedSegs (pattern.splitOn '/') → pattern.head? = some '/'
  first : rootNames pattern <+: fixedNames pattern
  below : (rootNames pattern).length < (nameSegs p).length
  names : "..".toList ∉ (nameSegs p).drop (rootNames pattern).length

theorem segComponent_injective : Function.Injective segComponent := by
  intro s t h
  unfold segComponent at h
  split_ifs at h with hs ht
  · rw [hs, ht]
  · cases h
    rfl

theorem map_segComponent_eq_map_normal {ss names : List Str} :
    ss.map segComponent = names.map .normal ↔ ss = names ∧ "..".toList ∉ names := by
  constructor
  · intro h
    have hdots : "..".toList ∉ ss := by
      intro hmem
      have hparent : Component.parentDir ∈ ss.map segComponent := List.mem_map.mpr ⟨_, hmem, rfl⟩
      rw [h] at hparent
      obtain ⟨t, -, ht⟩ := List.mem_map.mp hparent
      cases ht
    have hnormal : ss.map segComponent = ss.map .normal :=
      List.map_congr_left fun s hs => if_neg (ne_of_mem_of_not_mem hs hdots)
    have hinj : Function.Injective Component.normal := fun s t e => Component.normal.inj e
    rw [hnormal] at h
    obtain rfl := hinj.list_map h
    exact ⟨rfl, hdots⟩
  · intro ⟨hss, hdots⟩
    rw [hss]
    exact List.map_congr_left fun s hs => if_neg (ne_of_mem_of_not_mem hs hdots)

/-- Names follow one list of names in another. -/
theorem map_segComponent_eq_append {ss ls names : List Str} :
    ss.map segComponent = ls.map segComponent ++ names.map .normal ↔
      ss = ls ++ names ∧ "..".toList ∉ names := by
  constructor
  · intro h
    obtain ⟨ss₁, ss₂, rfl, h₁, h₂⟩ := List.map_eq_append_iff.mp h
    obtain rfl := segComponent_injective.list_map h₁
    obtain ⟨rfl, hdots⟩ := map_segComponent_eq_map_normal.mp h₂
    exact ⟨rfl, hdots⟩
  · intro ⟨hss, hdots⟩
    rw [hss, List.map_append, map_segComponent_eq_map_normal.mpr ⟨rfl, hdots⟩]

/-- Ordinary names follow one list of names in another. -/
theorem map_segComponent_eq_append_iff {ss ls : List Str} :
    (∃ names : List Str, names ≠ [] ∧
        ss.map segComponent = ls.map segComponent ++ names.map .normal) ↔
      ls <+: ss ∧ ls.length < ss.length ∧ "..".toList ∉ ss.drop ls.length := by
  simp only [map_segComponent_eq_append]
  constructor
  · rintro ⟨names, hne, rfl, hdots⟩
    have hpos := List.length_pos_of_ne_nil hne
    refine ⟨List.prefix_append _ _, by rw [List.length_append]; omega, ?_⟩
    rwa [List.drop_left]
  · rintro ⟨⟨rest, rfl⟩, hlen, hdots⟩
    rw [List.drop_left] at hdots
    rw [List.length_append] at hlen
    refine ⟨rest, ?_, rfl, hdots⟩
    rintro rfl
    rw [List.length_nil] at hlen
    omega

/-- **Exactly when a match is stored below the default root**, and leads back from
it to the file. -/
theorem globRoot_contains_iff {segMatch : Str → Str → Prop} (hlit : LiteralSegs segMatch)
    {pattern p : Str} (hmatch : GlobMatches segMatch pattern p) :
    (∃ s, storedPath p (globFixedPrefix pattern) = .ok s ∧
        clean (pushPath (globFixedPrefix pattern) s) = clean p) ↔ RootContains pattern p := by
  have hprefix := fixedNames_prefix hlit hmatch
  -- the names of the root are compared with the fixed ones, which are no fewer
  have hfirst : rootNames pattern <+: nameSegs p ↔ rootNames pattern <+: fixedNames pattern :=
    ⟨fun h => List.prefix_of_prefix_length_le h hprefix (rootNames_sublist pattern).length_le,
      fun h => h.trans hprefix⟩
  have hstored : (∃ s, storedPath p (globFixedPrefix pattern) = .ok s ∧
      clean (pushPath (globFixedPrefix pattern) s) = clean p) ↔
        ∃ names : List Str, names ≠ [] ∧
          clean p = clean (globFixedPrefix pattern) ++ names.map .normal := by
    obtain ⟨hok, hback⟩ := storedPath_contained p (globFixedPrefix pattern)
    rw [← hok]
    exact ⟨fun ⟨s, hs, _⟩ => ⟨s, hs⟩, fun ⟨s, hs⟩ => ⟨s, hs, (hback s hs).1⟩⟩
  rw [hstored, clean_globFixedPrefix, clean_eq p]
  by_cases hroot : [] ∈ fixedSegs (pattern.splitOn '/')
  · rw [if_pos hroot]
    by_cases habs : pattern.head? = some '/'
    · rw [if_pos (hmatch.1.mpr habs)]
      simp only [List.append_assoc, List.append_cancel_left_eq]
      rw [map_segComponent_eq_append_iff, hfirst]
      exact ⟨fun ⟨h₁, h₂, h₃⟩ => ⟨fun _ => habs, h₁, h₂, h₃⟩, fun h => ⟨h.first, h.below, h.names⟩⟩
    · -- the root has been set back to `/`, and the file is relative
      rw [if_neg fun h => habs (hmatch.1.mp h)]
      refine iff_of_false ?_ fun h => habs (h.absolute hroot)
      rintro ⟨names, -, h⟩
      cases hp : nameSegs p with
      | nil =>
        rw [hp] at h
        cases h
      | cons t ts =>
        rw [hp] at h
        simp only [List.nil_append, List.map_cons, List.cons_append, List.cons.injEq] at h
        unfold segComponent at h
        split_ifs at h <;> cases h.1
  · have hrel : pattern.head? ≠ some '/' := fun h => hroot (nil_mem_fixedSegs h)
    rw [if_neg hroot, if_neg fun h => hrel (hmatch.1.mp h), List.nil_append, List.nil_append,
      map_segComponent_eq_append_iff, hfirst]
    exact ⟨fun ⟨h₁, h₂, h₃⟩ => ⟨fun h => absurd h hroot, h₁, h₂, h₃⟩,
      fun h => ⟨h.first, h.below, h.names⟩⟩

/-! ### Two patterns -/

/-- Matching of `*` and `?` within a segment. -/
def starMatch : Str → Str → Bool
  | [], t => t = []
  | p :: ps, t =>
      if p = '*' then t.tails.any (starMatch ps)
      else match t with
        | [] => false
        | c :: cs => (p = '?' ∨ p = c) && starMatch ps cs

theorem literalSegs_starMatch : LiteralSegs fun s t => starMatch s t = true := by
  intro s hs t
  induction s generalizing t with
  | nil => simp [starMatch]
  | cons p ps ih =>
    rw [containsAny, List.any_cons, Bool.or_eq_false_iff] at hs
    obtain ⟨hp, hps⟩ := hs
    have hstar : p ≠ '*' := by
      rintro rfl
      cases hp
    have hquestion : p ≠ '?' := by
      rintro rfl
      cases hp
    cases t with
    | nil => simp [starMatch, hstar]
    | cons c cs =>
      have ih' : starMatch ps cs = true ↔ cs = ps := ih hps cs
      simp only [starMatch, if_neg hstar]
      rw [Bool.and_eq_true, decide_eq_true_eq, ih', List.cons.injEq]
      exact ⟨fun ⟨h, hcs⟩ => ⟨(h.resolve_left hquestion).symm, hcs⟩,
        fun ⟨h, hcs⟩ => ⟨Or.inr h.symm, hcs⟩⟩

/-- A doubled separator makes the root an absolute path. -/
theorem globRoot_doubled_separator :
    GlobMatches (fun s t => starMatch s t = true) "a//b/*.txt".toList "a/b/x.txt".toList ∧
      ¬∃ s, storedPath "a/b/x.txt".toList (globFixedPrefix "a//b/*.txt".toList) = .ok s := by
  have hnames : nameSegs "a//b/*.txt".toList = ["a".toList, "b".toList, "*.txt".toList] := rfl
  have hnames' : nameSegs "a/b/x.txt".toList = ["a".toList, "b".toList, "x.txt".toList] := rfl
  have hdeep : ∀ s ∈ ["a".toList, "b".toList, "*.txt".toList], s ≠ "**".toList := by decide
  constructor
  · refine ⟨iff_of_false (by decide) (by decide), ?_⟩
    rw [hnames, hnames']
    exact .cons (hdeep _ (by simp)) (by decide) (.cons (hdeep _ (by simp)) (by decide)
      (.cons (hdeep _ (by simp)) (by decide) .nil))
  · rintro ⟨s, hs⟩
    cases hs

theorem globRoot_contains_sample :
    ∃ s, storedPath "/a/b/x.txt".toList (globFixedPrefix "/a/./b/*.txt".toList) = .ok s ∧
      clean (pushPath (globFixedPrefix "/a/./b/*.txt".toList) s) = clean "/a/b/x.txt".toList := by
  have hnames : nameSegs "/a/./b/*.txt".toList = ["a".toList, "b".toList, "*.txt".toList] := rfl
  have hnames' : nameSegs "/a/b/x.txt".toList = ["a".toList, "b".toList, "x.txt".toList] := rfl
  have hdeep : ∀ s ∈ ["a".toList, "b".toList, "*.txt".toList], s ≠ "**".toList := by decide
  have hmatch : GlobMatches (fun s t => starMatch s t = true) "/a/./b/*.txt".toList
      "/a/b/x.txt".toList := by
    refine ⟨iff_of_true (by decide) (by decide), ?_⟩
    rw [hnames, hnames']
    exact .cons (hdeep _ (by simp)) (by decide) (.cons (hdeep _ (by simp)) (by decide)
      (.cons (hdeep _ (by simp)) (by decide) .nil))
  have hcontains : RootContains "/a/./b/*.txt".toList "/a/b/x.txt".toList :=
    ⟨fun _ => rfl, by decide, by decide, by decide⟩
  exact (globRoot_contains_iff literalSegs_starMatch hmatch).mpr hcontains

end ParquetFileFs
