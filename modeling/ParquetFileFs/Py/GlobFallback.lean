import ParquetFileFs.Py.Walk

/-!
# `glob` and its fallback

`glob` matches a pattern against all names.  With a depth it falls back to
fsspec's own, which lists what is below the wildcard-free prefix of the pattern,
to some depth, and matches a pattern that ended in a separator against
directories only.  There, and for a pattern that ends in `/**`, directories are
matched with a separator appended.

## Main definitions

* `GlobSpec` — what fsspec promises for a pattern.
* `InRegion` — the names the fallback lists.

## Main results

* `glob_eq_fallback_iff` — **exactly when the two return the same names.**
* `glob_fallback_sample` — they do not for a pattern that ends in a separator
  and matches a file.
-/

namespace ParquetFileFs

open Segments

namespace ParquetFileSystem

variable {fs : ParquetFileSystem}

/-! ### What fsspec promises -/

/-- Whether fsspec matches directories with a separator appended. -/
def AppendsSep (fs : ParquetFileSystem) (pattern : Str) : Prop :=
  ['/'] <:+ pattern ∨ "/**".toList <:+ fs.stripProtocol pattern

instance (pattern : Str) : Decidable (AppendsSep fs pattern) := inferInstanceAs (Decidable (_ ∨ _))

/-- The name that is matched: a directory may get a separator. -/
def matchedName (fs : ParquetFileSystem) (pattern p : Str) : Str :=
  if AppendsSep fs pattern ∧ fs.entryIsDir p = true then p ++ ['/'] else p

/-- The names the fallback keeps: the candidates are what `find` lists with
directories below the wildcard-free prefix. -/
def fallbackNames (fs : ParquetFileSystem) (pattern : Str) (depth : ℤ) (regex' : Str → Bool) :
    List Str :=
  (fs.findNames (globRoot (fs.stripProtocol pattern)) (some depth) true).filter fun p =>
    regex' (fs.matchedName pattern p)

/-- What fsspec promises for a pattern with wildcards and a depth: `regex` matches
the pattern and `regex'` the pattern with its trailing separator; a name that
matches starts with the wildcard-free prefix; with a trailing separator only names
that have it match (and, for patterns such as `**/`, the empty name); and the
fallback searches as deep as the pattern has segments, or, with `**`, at least to
the depth given. -/
structure GlobSpec (fs : ParquetFileSystem) (pattern : Str) (maxdepth depth : ℤ)
    (regex regex' : Str → Bool) : Prop where
  strips : StripsProtocol fs.superStripProtocol
  translate : fs.globTranslate (fs.stripProtocol pattern) = some regex
  translate_sep : fs.globTranslate (if ['/'] <:+ pattern then fs.stripProtocol pattern ++ ['/']
    else fs.stripProtocol pattern) = some regex'
  fallback : 1 ≤ maxdepth → fs.superGlob.glob fs.globMethods pattern maxdepth false
    = .ok (.names (fs.fallbackNames pattern depth regex'))
  root_isPrefix : ∀ x, regex x → globRoot (fs.stripProtocol pattern) <+: x
  sep_isSuffix : ['/'] <:+ pattern → ∀ x, x ≠ [] → regex' x → ['/'] <:+ x
  depth_plain : ¬"**".toList <:+: fs.stripProtocol pattern →
    depth = ((fs.stripProtocol pattern).count '/' : ℤ)
      - (globRoot (fs.stripProtocol pattern)).count '/' + 1
  depth_recursive : "**".toList <:+: fs.stripProtocol pattern → maxdepth ≤ depth

/-- Where the fallback starts: `find` strips the wildcard-free prefix. -/
def searchRoot (fs : ParquetFileSystem) (pattern : Str) : Str :=
  fs.stripProtocol (globRoot (fs.stripProtocol pattern))

/-- Below the start of the search, and with no more segments than the pattern
has, unless it has `**`. -/
def InRegion (fs : ParquetFileSystem) (pattern x : Str) : Prop :=
  stem '/' (fs.searchRoot pattern) <+: x ∧
    ("**".toList <:+: fs.stripProtocol pattern ∨
      (x.count '/' : ℤ) - (stem '/' (fs.searchRoot pattern)).count '/' ≤
        ((fs.stripProtocol pattern).count '/' : ℤ)
          - (globRoot (fs.stripProtocol pattern)).count '/')

instance (pattern x : Str) : Decidable (InRegion fs pattern x) :=
  inferInstanceAs (Decidable (_ ∧ _))

/-! ### Wildcards survive stripping -/

theorem mem_dropWhile_of_not {l : Str} {p : Char → Bool} {c : Char} (hc : c ∈ l)
    (hp : p c = false) :
    c ∈ l.dropWhile p := by
  rw [← List.takeWhile_append_dropWhile (p := p) (l := l), List.mem_append] at hc
  refine hc.resolve_left fun htake => ?_
  rw [List.mem_takeWhile_imp htake] at hp
  cases hp

theorem mem_dropProtocol {s : Str} {c : Char} (hc : c ∈ s) (hglob : c ∈ globChars) :
    c ∈ dropProtocol s := by
  have hdrop : ∀ p : Str, p <+: s → c ∉ p → c ∈ s.drop p.length := by
    rintro p ⟨t, rfl⟩ hp
    rw [List.drop_left]
    exact (List.mem_append.mp hc).resolve_left hp
  -- the protocol has no wildcards, so dropping it drops none
  have hnone : ∀ d ∈ globChars, d ∉ "pfs://".toList ∧ d ∉ "pfs::".toList := by
    simp [globChars]
  unfold dropProtocol
  split_ifs with h1 h2
  · exact hdrop _ h1 (hnone c hglob).1
  · exact hdrop _ h2 (hnone c hglob).2
  · exact hc

theorem containsAny_stripProtocol (hsuper : StripsProtocol fs.superStripProtocol) {pattern : Str}
    (h : containsAny pattern globChars) : containsAny (fs.stripProtocol pattern) globChars := by
  rw [containsAny, List.any_eq_true] at h ⊢
  obtain ⟨c, hc, hglob⟩ := h
  refine ⟨c, ?_, hglob⟩
  have hglob' : c ∈ globChars := by simpa using hglob
  have hsep : decide (c = '/') = false := by
    have hne : ∀ d ∈ globChars, d ≠ '/' := by simp [globChars]
    simpa using hne c hglob'
  rw [stripProtocol_eq_trimSeparators hsuper, trimSeparators]
  apply mem_dropWhile_of_not _ hsep
  rw [List.rdropWhile, List.mem_reverse]
  apply mem_dropWhile_of_not _ hsep
  rw [List.mem_reverse]
  exact mem_dropProtocol hc hglob'

/-! ### What the fallback lists -/

section Fallback

variable {pattern x : Str} {maxdepth depth : ℤ} {regex regex' : Str → Bool}

/-- No file of the archive ends in a separator. -/
theorem not_sep_isSuffix_of_canonical (h : Canonical '/' x) : ¬['/'] <:+ x := by
  rintro ⟨y, rfl⟩
  exact (canonical_append_sep.mp h).2.2 rfl

theorem not_sep_isSuffix_searchRoot (hsuper : StripsProtocol fs.superStripProtocol)
    (pattern : Str) : ¬['/'] <:+ fs.searchRoot pattern := by
  rw [searchRoot, stripProtocol_eq_trimSeparators hsuper]
  exact not_sep_isSuffix_trimSeparators _

/-- The start of the search is no longer than the wildcard-free prefix, and
without its separator. -/
theorem not_root_isPrefix (hspec : GlobSpec fs pattern maxdepth depth regex regex')
    (hself : FindsItself fs (fs.searchRoot pattern)) :
    ¬globRoot (fs.stripProtocol pattern) <+: fs.searchRoot pattern := by
  intro hpre
  have hinfix : fs.searchRoot pattern <:+: globRoot (fs.stripProtocol pattern) := by
    rw [searchRoot, stripProtocol_eq_trimSeparators hspec.strips]
    exact (trimSeparators_isInfix _).trans (dropProtocol_isSuffix _).isInfix
  have heq : globRoot (fs.stripProtocol pattern) = fs.searchRoot pattern :=
    hpre.eq_of_length_le hinfix.length_le
  have hlast := not_sep_isSuffix_searchRoot hspec.strips pattern
  rw [← heq, globRoot] at hlast
  split at hlast
  · exact hlast (List.suffix_append _ _)
  · next hroot =>
    -- the prefix is empty, and the root of the archive is not a file
    have hnil : fs.searchRoot pattern = [] := by
      rw [← heq, globRoot, hroot]
    apply hself.2.2
    rw [archiveIsDir_iff, hnil, normalize_nil]
    exact Or.inl rfl

theorem entryIsDir_eq_true_iff {x : Str} :
    fs.entryIsDir x = true ↔ x ∈ fs.dirs ∧ x ∉ fs.paths := by
  rw [entryIsDir, decide_eq_true_iff, SortedMap.contains_iff_mem_keys,
    SortedMap.contains_iff_mem_keys]
  rfl

/-- What the fallback lists besides the region is only the start of the search,
as a file, and that does not match. -/
theorem not_matches_findsItself (hspec : GlobSpec fs pattern maxdepth depth regex regex')
    (hself : FindsItself fs (fs.searchRoot pattern)) :
    ¬regex' (fs.matchedName pattern (fs.searchRoot pattern)) := by
  have hnodir : ¬fs.entryIsDir (fs.searchRoot pattern) = true := by
    rw [entryIsDir_eq_true_iff]
    rintro ⟨hdir, -⟩
    apply hself.2.2
    rw [archiveIsDir_iff, normalize_eq_self_iff.mpr (fs.wellFormed.canonical_dir hdir).1]
    exact Or.inr hdir
  rw [matchedName, if_neg fun h => hnodir h.2]
  intro hx
  by_cases hsep : ['/'] <:+ pattern
  · -- the root of the archive is not a file
    have hne : fs.searchRoot pattern ≠ [] := by
      intro hnil
      apply hself.2.2
      rw [archiveIsDir_iff, hnil, normalize_nil]
      exact Or.inl rfl
    exact not_sep_isSuffix_searchRoot hspec.strips pattern (hspec.sep_isSuffix hsep _ hne hx)
  · have htr := hspec.translate_sep
    rw [if_neg hsep, hspec.translate, Option.some.injEq] at htr
    subst htr
    exact not_root_isPrefix hspec hself (hspec.root_isPrefix _ hx)

/-- The depth of the search reaches all names of the region. -/
theorem withinDepth_searchRoot_iff (hspec : GlobSpec fs pattern maxdepth depth regex regex')
    (hx : (x.count '/' : ℤ) + 1 ≤ maxdepth) (hbelow : stem '/' (fs.searchRoot pattern) <+: x) :
    withinDepth (fs.searchRoot pattern) (some depth) x = true ↔ InRegion fs pattern x := by
  rw [withinDepth_iff, InRegion]
  simp only [Option.some.injEq, forall_eq']
  by_cases hrec : "**".toList <:+: fs.stripProtocol pattern
  · -- no name is deeper than the depth given
    have hle := hspec.depth_recursive hrec
    simp only [hrec, true_or, and_true, hbelow, iff_true]
    omega
  · rw [hspec.depth_plain hrec]
    simp only [hrec, false_or, hbelow, true_and]
    omega

theorem count_lt_of_isName (hdepth : ∀ k ∈ fs.paths, (k.count '/' : ℤ) + 1 ≤ maxdepth)
    (hx : x ∈ fs.paths ∨ x ∈ fs.dirs) : (x.count '/' : ℤ) + 1 ≤ maxdepth := by
  rcases hx with hfile | hdir
  · exact hdepth x hfile
  · -- a directory has no more separators than a file below it
    obtain ⟨k, hk, hbelow⟩ := fs.wellFormed.mem_dirs.mp hdir
    have hcount : x.count '/' ≤ k.count '/' :=
      ((List.prefix_append x ['/']).trans hbelow).sublist.count_le '/'
    have hle := hdepth k hk
    omega

theorem mem_fallbackNames (hspec : GlobSpec fs pattern maxdepth depth regex regex')
    (hdepth : ∀ k ∈ fs.paths, (k.count '/' : ℤ) + 1 ≤ maxdepth) :
    x ∈ fs.fallbackNames pattern depth regex' ↔
      (x ∈ fs.paths ∨ x ∈ fs.dirs) ∧ InRegion fs pattern x ∧
        regex' (fs.matchedName pattern x) := by
  rw [fallbackNames, List.mem_filter, mem_findNames]
  change ((x ∈ fs.paths ∧ stem '/' (fs.searchRoot pattern) <+: x ∨
      FindsItself fs (fs.searchRoot pattern) ∧ x = fs.searchRoot pattern ∨
      true = true ∧ x ∈ fs.dirs ∧ stem '/' (fs.searchRoot pattern) <+: x) ∧
      withinDepth (fs.searchRoot pattern) (some depth) x = true) ∧ _ ↔ _
  constructor
  · rintro ⟨⟨⟨hfile, hpre⟩ | ⟨hself, rfl⟩ | ⟨-, hdir, hpre⟩, hwithin⟩, hmatch⟩
    · have hlt := count_lt_of_isName hdepth (Or.inl hfile)
      exact ⟨Or.inl hfile, (withinDepth_searchRoot_iff hspec hlt hpre).mp hwithin, hmatch⟩
    · exact absurd hmatch (not_matches_findsItself hspec hself)
    · have hlt := count_lt_of_isName hdepth (Or.inr hdir)
      exact ⟨Or.inr hdir, (withinDepth_searchRoot_iff hspec hlt hpre).mp hwithin, hmatch⟩
  · rintro ⟨hname, hregion, hmatch⟩
    have hlt := count_lt_of_isName hdepth hname
    refine ⟨⟨?_, (withinDepth_searchRoot_iff hspec hlt hregion.1).mpr hregion⟩, hmatch⟩
    exact hname.imp (fun hfile => ⟨hfile, hregion.1⟩) fun hdir => Or.inr ⟨rfl, hdir, hregion.1⟩

/-- Both lists are sorted, so they are equal when they have the same names. -/
theorem glob_eq_fallback_iff_mem (hno : fs.archive.NoClash) (hwild : containsAny pattern globChars)
    (hspec : GlobSpec fs pattern maxdepth depth regex regex') :
    fs.glob pattern none false = fs.glob pattern (some maxdepth) false ↔
      1 ≤ maxdepth ∧ ∀ x, ((x ∈ fs.paths ∨ x ∈ fs.dirs) ∧ regex x) ↔
        x ∈ fs.fallbackNames pattern depth regex' := by
  rw [glob_false (containsAny_stripProtocol hspec.strips hwild) hspec.translate]
  change _ = fs.superGlob.glob fs.globMethods pattern maxdepth false ↔ _
  by_cases hone : 1 ≤ maxdepth
  · rw [hspec.fallback hone]
    simp only [hone, true_and]
    have hclash := fs.wellFormed.noClash_iff.mp hno
    have hfast : (sortStrs ((fs.paths ++ fs.dirs).filter fun p => regex p)).Pairwise (· < ·) :=
      pairwise_sortStrs (nodup_filter_iff.mpr fun x hfile hdir => absurd hdir (hclash x hfile))
    have hslow : (fs.fallbackNames pattern depth regex').Pairwise (· < ·) :=
      (pairwise_findNames _ (not_below_of_noClash hno)).filter _
    constructor
    · intro heq x
      have hlist : sortStrs ((fs.paths ++ fs.dirs).filter fun p => regex p)
          = fs.fallbackNames pattern depth regex' := by simpa using heq
      rw [← hlist, mem_glob]
    · intro hmem
      refine congrArg (fun l => Except.ok (Listing.names l)) ?_
      exact eq_of_pairwise_lt hfast hslow fun x => mem_glob.trans (hmem x)
  · -- a depth below one is an error
    rw [fs.superGlob.shallow _ _ _ _ (not_le.mp hone)]
    simp [hone]

/-- A file is kept as it is; with a trailing separator no file is. -/
theorem file_mem_fallbackNames (hspec : GlobSpec fs pattern maxdepth depth regex regex')
    (hdepth : ∀ k ∈ fs.paths, (k.count '/' : ℤ) + 1 ≤ maxdepth) (hx : x ∈ fs.paths) :
    x ∈ fs.fallbackNames pattern depth regex' ↔
      InRegion fs pattern x ∧ ¬['/'] <:+ pattern ∧ regex x := by
  have hname : fs.matchedName pattern x = x :=
    if_neg fun h => (entryIsDir_eq_true_iff.mp h.2).2 hx
  rw [mem_fallbackNames hspec hdepth, hname]
  by_cases hsep : ['/'] <:+ pattern
  · -- a file never ends in a separator
    have hmatch : ¬regex' x := fun hm => not_sep_isSuffix_of_canonical (fs.wellFormed.canonical hx)
      (hspec.sep_isSuffix hsep x (fs.wellFormed.ne_nil hx) hm)
    simp [hsep, hmatch]
  · -- the same matcher on both sides
    have htr := hspec.translate_sep
    rw [if_neg hsep, hspec.translate, Option.some.injEq] at htr
    simp [hx, hsep, htr]

/-- A directory is kept with or without a separator appended. -/
theorem dir_mem_fallbackNames (hno : fs.archive.NoClash)
    (hspec : GlobSpec fs pattern maxdepth depth regex regex')
    (hdepth : ∀ k ∈ fs.paths, (k.count '/' : ℤ) + 1 ≤ maxdepth) (hx : x ∈ fs.dirs) :
    x ∈ fs.fallbackNames pattern depth regex' ↔ InRegion fs pattern x ∧
      if AppendsSep fs pattern then regex' (x ++ ['/']) = true else regex x = true := by
  have hisDir : fs.entryIsDir x = true := entryIsDir_eq_true_iff.mpr
    ⟨hx, fun hfile => fs.wellFormed.noClash_iff.mp hno x hfile hx⟩
  rw [mem_fallbackNames hspec hdepth, matchedName]
  by_cases happ : AppendsSep fs pattern
  · rw [if_pos ⟨happ, hisDir⟩, if_pos happ]
    simp [hx]
  · have htr := hspec.translate_sep
    rw [if_neg fun hsep => happ (Or.inl hsep), hspec.translate, Option.some.injEq] at htr
    rw [if_neg fun h => happ h.1, if_neg happ, htr]
    simp [hx]

/-- **When `glob` and its fallback agree.**  The depth is at least one; all names
that match are in the region the fallback lists; when the pattern ends in a
separator, no file matches; and where fsspec appends a separator to directories,
each directory of the region matches with it exactly when it matches without. -/
theorem glob_eq_fallback_iff (hno : fs.archive.NoClash) (hwild : containsAny pattern globChars)
    (hdepth : ∀ k ∈ fs.paths, (k.count '/' : ℤ) + 1 ≤ maxdepth)
    (hspec : GlobSpec fs pattern maxdepth depth regex regex') :
    fs.glob pattern none false = fs.glob pattern (some maxdepth) false ↔
      1 ≤ maxdepth ∧ (∀ x, x ∈ fs.paths ∨ x ∈ fs.dirs → regex x → InRegion fs pattern x) ∧
      (['/'] <:+ pattern → ∀ x ∈ fs.paths, ¬regex x) ∧
      (AppendsSep fs pattern → ∀ x ∈ fs.dirs, InRegion fs pattern x →
        (regex x ↔ regex' (x ++ ['/']))) := by
  rw [glob_eq_fallback_iff_mem hno hwild hspec]
  refine and_congr_right fun _ => ?_
  constructor
  · intro hmem
    have hregion : ∀ x, x ∈ fs.paths ∨ x ∈ fs.dirs → regex x → InRegion fs pattern x :=
      fun x hx hm => ((mem_fallbackNames hspec hdepth).mp ((hmem x).mp ⟨hx, hm⟩)).2.1
    refine ⟨hregion, fun hsep x hx hm => ?_, fun happ x hx hin => ?_⟩
    · have hkept := (hmem x).mp ⟨Or.inl hx, hm⟩
      exact ((file_mem_fallbackNames hspec hdepth hx).mp hkept).2.1 hsep
    · have hiff := hmem x
      rw [dir_mem_fallbackNames hno hspec hdepth hx, if_pos happ] at hiff
      simpa [hx, hin] using hiff
  · rintro ⟨hregion, hfile, hdir⟩ x
    constructor
    · rintro ⟨hx | hx, hm⟩
      · rw [file_mem_fallbackNames hspec hdepth hx]
        exact ⟨hregion x (Or.inl hx) hm, fun hsep => hfile hsep x hx hm, hm⟩
      · have hin := hregion x (Or.inr hx) hm
        rw [dir_mem_fallbackNames hno hspec hdepth hx]
        refine ⟨hin, ?_⟩
        split
        · next happ => exact (hdir happ x hx hin).mp hm
        · exact hm
    · intro hkept
      have hname := ((mem_fallbackNames hspec hdepth).mp hkept).1
      refine ⟨hname, ?_⟩
      rcases hname with hx | hx
      · exact ((file_mem_fallbackNames hspec hdepth hx).mp hkept).2.2
      · rw [dir_mem_fallbackNames hno hspec hdepth hx] at hkept
        obtain ⟨hin, hm⟩ := hkept
        split at hm
        · next happ => exact (hdir happ x hx hin).mpr hm
        · exact hm

end Fallback

/-! ### Two patterns with a trailing separator -/

/-- The matcher of two segments, the second empty, takes names that end in a separator. -/
theorem sep_isSuffix_of_matchSegments {pattern u x : Str} (hp : pattern.splitOn '/' = [u, []])
    (h : matchSegments pattern x = true) : ['/'] <:+ x := by
  simp only [matchSegments, hp, Bool.and_eq_true, decide_eq_true_eq] at h
  obtain ⟨hlen, hall⟩ := h
  obtain ⟨a, b, hab⟩ : ∃ a b, x.splitOn '/' = [a, b] := by
    match hx : x.splitOn '/', hlen with
    | [a, b], _ => exact ⟨a, b, rfl⟩
  rw [hab] at hall
  have hb : b = [] := by
    simp [matchSegment] at hall
    exact hall.2
  have hjoin : [('/' : Char)].intercalate (x.splitOn '/') = x := List.intercalate_splitOn '/'
  rw [hab, hb] at hjoin
  exact ⟨a, by simpa using hjoin⟩

/-- The fallback of the sample keeps what it should. -/
theorem segmentGlob_sampleTree {pattern : Str} {maxdepth : ℤ} (hone : 1 ≤ maxdepth)
    (hwild : containsAny (sampleTree.stripProtocol pattern) globChars = true) :
    sampleTree.superGlob.glob sampleTree.globMethods pattern maxdepth false
      = .ok (.names (sampleTree.fallbackNames pattern
          (searchDepth (sampleTree.stripProtocol pattern) maxdepth)
          (matchSegments (keptPattern (sampleTree.stripProtocol pattern) pattern)))) := by
  change segmentGlob.glob sampleTree.globMethods pattern maxdepth false = _
  have hwild' : containsAny (sampleTree.globMethods.stripProtocol pattern) globChars = true := hwild
  simp only [segmentGlob, if_neg (not_lt.mpr hone), hwild', not_true, if_false]
  simp only [fallbackNames, globMethods, List.filter_map, List.map_map]
  rw [show (Prod.fst ∘ fun p => (p, sampleTree.entryIsDir p)) = id from rfl, List.map_id]
  exact congrArg (fun l => Except.ok (Listing.names l)) (List.filter_congr fun p _ => rfl)

theorem globSpec_sampleTree (pattern P u : Str) (hP : sampleTree.stripProtocol pattern = P)
    (hsep : ['/'] <:+ pattern) (hwild : containsAny P globChars = true) (hroot : globRoot P = [])
    (hsplit : (P ++ ['/']).splitOn '/' = [u, []]) (hrec : ¬"**".toList <:+: P) (maxdepth : ℤ) :
    GlobSpec sampleTree pattern maxdepth (searchDepth P maxdepth) (matchSegments P)
      (matchSegments (P ++ ['/'])) where
  strips _ := rfl
  translate := by rw [hP]; rfl
  translate_sep := by rw [hP, if_pos hsep]; rfl
  fallback hone := by
    have h := segmentGlob_sampleTree hone (by rw [hP]; exact hwild)
    rwa [hP, keptPattern, if_pos hsep] at h
  root_isPrefix x _ := by rw [hP, hroot]; exact List.nil_prefix
  sep_isSuffix _ x _ hx := sep_isSuffix_of_matchSegments hsplit hx
  depth_plain _ := by rw [hP, searchDepth, if_neg hrec]
  depth_recursive h := absurd (hP ▸ h) hrec

theorem glob_eq_fallback_sample :
    sampleTree.glob "b*/".toList none false = sampleTree.glob "b*/".toList (some 2) false := by
  have hspec := globSpec_sampleTree "b*/".toList "b*".toList "b*".toList (by decide)
    (by decide) (by decide) (by decide) (by decide) (by decide) 2
  have hregion : ∀ x ∈ sampleTree.paths ++ sampleTree.dirs, matchSegments "b*".toList x →
      InRegion sampleTree "b*/".toList x := by decide
  exact (glob_eq_fallback_iff noClash_sampleTree (by decide) (by decide) hspec).mpr
    ⟨by decide, fun x hx => hregion x (List.mem_append.mpr hx), by decide, by decide⟩

/-- The pattern `*/` asks for directories, which is what the fallback returns;
`glob` returns the file `a` too. -/
theorem glob_fallback_sample :
    sampleTree.glob "*/".toList none false = .ok (.names ["a".toList, "b".toList]) ∧
      sampleTree.glob "*/".toList (some 2) false = .ok (.names ["b".toList]) ∧
      sampleTree.glob "*/".toList none false ≠ sampleTree.glob "*/".toList (some 2) false := by
  have hfast : sampleTree.glob "*/".toList none false
      = .ok (.names ["a".toList, "b".toList]) := rfl
  have hslow : sampleTree.glob "*/".toList (some 2) false = .ok (.names ["b".toList]) := rfl
  refine ⟨hfast, hslow, fun h => ?_⟩
  rw [hfast, hslow] at h
  simp at h

end ParquetFileSystem

end ParquetFileFs
