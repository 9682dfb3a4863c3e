import ParquetFileFs.Py.Names

/-!
# Spellings of a path

The archive normalizes every path it is asked about, but `find` and `glob`
compare the path itself, stripped of its outer separators only, with the names
of the archive.  A spelling with a doubled separator inside is therefore found
by some operations and not by others, and `glob` returns it as it stands.

## Main definitions

* `StripsProtocol` — what fsspec's own `_strip_protocol` does.
* `ProtocolFree` — a path without the protocol prefix.
* `SameResults`, `ReturnsNames` — two paths give the same results, and all names
  returned are canonical names of the archive.

## Main results

* `spellings_agree_iff` — **exactly when two spellings of a path are
  interchangeable**: when trimming makes both canonical, or when neither `find`
  nor `glob` finds anything.
* `spellings_disagree_sample` — they are not in general.
-/

namespace ParquetFileFs

open Segments

/-! ### Stripping -/

/-- The path without the protocol prefix. -/
def dropProtocol (s : Str) : Str :=
  if "pfs://".toList <+: s then s.drop "pfs://".toList.length
  else if "pfs::".toList <+: s then s.drop "pfs::".toList.length
  else s

/-- What fsspec's own `_strip_protocol` does: it drops the protocol prefix and
the separators at the end. -/
def StripsProtocol (superStripProtocol : Str → Str) : Prop :=
  ∀ s, superStripProtocol s = (dropProtocol s).rdropWhile (· = '/')

/-- Trim the separators at both ends. -/
def trimSeparators (s : Str) : Str := (s.rdropWhile (· = '/')).dropWhile (· = '/')

/-- The path does not start with the protocol prefix. -/
def ProtocolFree (s : Str) : Prop := ¬"pfs://".toList <+: s ∧ ¬"pfs::".toList <+: s

instance (s : Str) : Decidable (ProtocolFree s) := inferInstanceAs (Decidable (_ ∧ _))

theorem dropProtocol_of_protocolFree {s : Str} (h : ProtocolFree s) : dropProtocol s = s := by
  unfold dropProtocol
  rw [if_neg h.1, if_neg h.2]

theorem normalize_trimSeparators (s : Str) : normalize (trimSeparators s) = normalize s := by
  rw [normalize_eq_iff_segs, trimSeparators, segs_dropWhile, segs_rdropWhile]

theorem trimSeparators_isInfix (s : Str) : trimSeparators s <:+: s :=
  (List.dropWhile_suffix _).isInfix.trans (List.rdropWhile_prefix _ _).isInfix

theorem dropProtocol_isSuffix (s : Str) : dropProtocol s <:+ s := by
  unfold dropProtocol
  split_ifs
  · exact List.drop_suffix _ _
  · exact List.drop_suffix _ _
  · exact List.suffix_rfl

/-- What trimming leaves does not end in a separator. -/
theorem not_sep_isSuffix_trimSeparators (s : Str) : ¬['/'] <:+ trimSeparators s := by
  intro h
  have hsuf : ['/'] <:+ s.rdropWhile (· = '/') := h.trans (List.dropWhile_suffix _)
  obtain ⟨t, ht⟩ := hsuf
  have hne : s.rdropWhile (· = '/') ≠ [] := by simp [← ht]
  have hlast := List.rdropWhile_last_not (· = '/') s hne
  simp [← ht] at hlast

/-- Only separators spell the root, and trimming removes them. -/
theorem trimSeparators_of_normalize_eq_nil {s : Str} (h : normalize s = []) :
    trimSeparators s = [] := by
  have hsegs : segs '/' s = segs '/' [] := normalize_eq_iff_segs.mp (by rw [h, normalize_nil])
  have hall : ∀ c ∈ s, c = '/' := eq_sep_of_segs_eq_nil (by rw [hsegs, segs_nil])
  have hnil : s.rdropWhile (· = '/') = [] := List.rdropWhile_eq_nil_iff.mpr (by simpa using hall)
  rw [trimSeparators, hnil, List.dropWhile_nil]

/-! ### Results -/

namespace ParquetFileSystem

/-- The operations give the same results on both paths. -/
structure SameResults (fs : ParquetFileSystem) (p q : Str) : Prop where
  ls : ∀ detail, fs.ls p detail = fs.ls q detail
  info : fs.info p = fs.info q
  exists_ : fs.exists_ p = fs.exists_ q
  catFile : ∀ start stop, fs.catFile p start stop = fs.catFile q start stop
  find : ∀ maxdepth withdirs detail,
    fs.find p maxdepth withdirs detail = fs.find q maxdepth withdirs detail
  glob : ∀ maxdepth detail, fs.glob p maxdepth detail = fs.glob q maxdepth detail

/-- All names the operations return for a path are canonical names of the archive. -/
structure ReturnsNames (fs : ParquetFileSystem) (p : Str) : Prop where
  ls : ∀ detail l, fs.ls p detail = .ok l → ∀ x ∈ l.allNames, fs.archive.IsName x
  info : ∀ i, fs.info p = .ok i → fs.archive.IsName i.name
  find : ∀ maxdepth withdirs detail l, fs.find p maxdepth withdirs detail = .ok l →
    ∀ x ∈ l.allNames, fs.archive.IsName x
  glob : ∀ maxdepth detail l, fs.glob p maxdepth detail = .ok l →
    ∀ x ∈ l.allNames, fs.archive.IsName x

variable {fs : ParquetFileSystem}

theorem stripProtocol_eq_trimSeparators (hsuper : StripsProtocol fs.superStripProtocol) (s : Str) :
    fs.stripProtocol s = trimSeparators (dropProtocol s) := by
  rw [stripProtocol, hsuper, trimSeparators]

theorem stripProtocol_eq (hsuper : StripsProtocol fs.superStripProtocol) {s : Str}
    (h : ProtocolFree s) : fs.stripProtocol s = trimSeparators s := by
  rw [stripProtocol_eq_trimSeparators hsuper, dropProtocol_of_protocolFree h]

theorem isName_of_archiveInfo {path : Str} {i : PyInfo} (h : fs.archiveInfo path = .ok i) :
    i.name = normalize path ∧ fs.archive.IsName i.name := by
  have hname : i.name = normalize path := by
    unfold archiveInfo at h
    cases hd : ofOutcome (directInfo fs.decoder fs.archive (normalize path)) with
    | error e => simp [hd, Except.map] at h
    | ok r =>
      cases r <;> simp only [hd, Except.map, Except.ok.injEq] at h <;> rw [← h]
  refine ⟨hname, hname ▸ ⟨canonical_normalize path, ?_⟩⟩
  by_contra hno
  simp only [not_or] at hno
  obtain ⟨hnil, hfile, hdir⟩ := hno
  have hfind : fs.archive.files.find? (normalize path) = none := by
    rw [Option.eq_none_iff_forall_ne_some]
    intro e he
    exact hfile (SortedMap.mem_keys_iff_find?.mpr ⟨e, he⟩)
  have hisDir : fs.archive.isDir (normalize path) = false := by
    rw [Bool.eq_false_iff]
    intro hd
    exact (fs.wellFormed.isDir_iff_mem.mp hd).elim hnil hdir
  have herr : directInfo fs.decoder fs.archive (normalize path)
      = .error (.err (.notFound (normalize path))) := by
    simp [directInfo, hfind, hisDir]
  simp [archiveInfo, herr, ofOutcome, Except.map] at h

theorem isName_of_info {path : Str} {i : PyInfo} (h : fs.info path = .ok i) :
    fs.archive.IsName i.name :=
  (isName_of_archiveInfo h).2

/-- With details or without, a list of names of the archive gives such names. -/
theorem isName_of_withDetail {names : List Str} (hnames : ∀ x ∈ names, fs.archive.IsName x)
    {detail : Bool} {l : Listing} (h : fs.withDetail detail names = .ok l) :
    ∀ x ∈ l.allNames, fs.archive.IsName x := by
  intro x hx
  cases detail with
  | false =>
    simp only [withDetail, Bool.false_eq_true, ↓reduceIte, Except.ok.injEq] at h
    subst h
    exact hnames x hx
  | true =>
    simp only [withDetail, ↓reduceIte] at h
    obtain ⟨ps, hps, rfl⟩ := exists_of_map_ok h
    obtain ⟨e, he, hx⟩ := List.mem_flatMap.mp hx
    obtain ⟨p, hp, hpe⟩ := exists_of_mem_mapM hps he
    obtain ⟨i, hi, rfl⟩ := exists_of_map_ok hpe
    rcases List.mem_pair.mp hx with hx | hx
    · rw [hx]
      exact hnames p (List.mem_eraseDups.mp hp)
    · rw [hx]
      exact isName_of_info hi

/-- What `ls` returns are names of the archive, whatever the path. -/
theorem isName_of_ls {path : Str} {detail : Bool} {l : Listing} (h : fs.ls path detail = .ok l) :
    ∀ x ∈ l.allNames, fs.archive.IsName x := by
  intro x hx
  unfold ls at h
  cases hls : fs.archive.ls (fs.stripProtocol path) with
  | error e => simp [hls] at h
  | ok entries =>
    have hname : ∀ e ∈ entries.insertionSort fun a b => a.name ≤ b.name,
        fs.archive.IsName e.name := by
      intro e he
      rw [(List.perm_insertionSort _ entries).mem_iff] at he
      exact fs.wellFormed.isName_of_mem_ls hls he
    cases detail with
    | false =>
      simp only [hls, Bool.false_eq_true, ↓reduceIte, Except.ok.injEq] at h
      subst h
      obtain ⟨e, he, rfl⟩ := List.mem_map.mp hx
      exact hname e he
    | true =>
      simp only [hls, ↓reduceIte] at h
      obtain ⟨ps, hps, rfl⟩ := exists_of_map_ok h
      obtain ⟨d, hd, hx⟩ := List.mem_flatMap.mp hx
      obtain ⟨e, he, hed⟩ := exists_of_mem_mapM hps hd
      -- a directory is listed under its own name, a file under that of its info
      have hd : d.1 = d.2.name ∧ fs.archive.IsName d.1 := by
        unfold entryInfo at hed
        split at hed
        · cases hed
          exact ⟨rfl, hname e he⟩
        · obtain ⟨i, hi, rfl⟩ := exists_of_map_ok hed
          exact ⟨rfl, isName_of_info hi⟩
      rcases List.mem_pair.mp hx with hx | hx
      · exact hx ▸ hd.2
      · exact hx ▸ hd.1 ▸ hd.2

/-! ### What `find` makes of a spelling -/

/-- `find` only finds names of the archive when the path is compared in its
canonical form. -/
theorem eq_normalize_of_mem_findNames {path x : Str} {maxdepth : Option ℤ} {withdirs : Bool}
    (h : x ∈ fs.findNames path maxdepth withdirs) (hx : Canonical '/' x) :
    fs.stripProtocol path = normalize (fs.stripProtocol path) := by
  -- what stands before a separator of a canonical name is canonical
  have hstem : ∀ y, Canonical '/' y → stem '/' (fs.stripProtocol path) <+: y →
      fs.stripProtocol path = normalize (fs.stripProtocol path) := by
    intro y hy hpre
    by_cases hnil : fs.stripProtocol path = []
    · rw [hnil, normalize_nil]
    · rw [stem_of_ne_nil hnil] at hpre
      obtain ⟨t, rfl⟩ := hpre
      have hcut : Canonical '/' (fs.stripProtocol path ++ '/' :: t) := by simpa using hy
      exact (normalize_eq_self_iff.mpr (canonical_append_sep.mp hcut).1.1).symm
  rcases (mem_findNames.mp h).1 with ⟨-, hpre⟩ | ⟨-, rfl⟩ | ⟨-, -, hpre⟩
  · exact hstem x hx hpre
  · exact (normalize_eq_self_iff.mpr hx).symm
  · exact hstem x hx hpre

/-- A canonical path that exists, the root aside, has something to find. -/
theorem exists_mem_findNames {path : Str} (hne : fs.stripProtocol path ≠ [])
    (h : fs.archive.IsName (fs.stripProtocol path)) :
    ∃ x ∈ fs.findNames path none false, fs.archive.IsName x := by
  by_cases hdir : fs.stripProtocol path ∈ fs.dirs
  · obtain ⟨k, hk, hbelow⟩ := fs.wellFormed.mem_dirs.mp hdir
    refine ⟨k, mem_findNames.mpr ⟨Or.inl ⟨hk, ?_⟩, by simp [withinDepth]⟩,
      fs.wellFormed.isName_file hk⟩
    rwa [stem_of_ne_nil hne]
  · have hfile : fs.stripProtocol path ∈ fs.paths := (h.2.resolve_left hne).resolve_right hdir
    have hself : FindsItself fs (fs.stripProtocol path) := (findsItself_iff h.1).mpr ⟨hfile, hdir⟩
    exact ⟨fs.stripProtocol path, mem_findNames.mpr ⟨Or.inr (Or.inl ⟨hself, rfl⟩),
      by simp [withinDepth]⟩, h⟩

/-- Nothing is found below a path that does not exist, nor below a spelling of
a directory that is not its name. -/
theorem findNames_eq_nil {path : Str}
    (h : ¬fs.archive.IsName (normalize (fs.stripProtocol path)) ∨
      normalize (fs.stripProtocol path) ∈ fs.dirs ∧
        fs.stripProtocol path ≠ normalize (fs.stripProtocol path))
    (maxdepth : Option ℤ) (withdirs : Bool) : fs.findNames path maxdepth withdirs = [] := by
  rw [List.eq_nil_iff_forall_not_mem]
  intro x hx
  have hbelow : ∀ y, fs.archive.IsName y → x = y →
      ¬stem '/' (fs.stripProtocol path) <+: y := by
    rintro y hy rfl hpre
    -- with a name below it the path would be canonical and a directory
    have hself := eq_normalize_of_mem_findNames hx hy.1
    refine h.elim (fun hno => hno ?_) fun hdir => hdir.2 hself
    rw [← hself]
    by_cases hnil : fs.stripProtocol path = []
    · rw [hnil]
      exact ⟨canonical_nil, Or.inl rfl⟩
    · rw [stem_of_ne_nil hnil] at hpre
      rcases hy.2 with rfl | hfile | hdir
      · simp at hpre
      · exact fs.wellFormed.isName_dir (fs.wellFormed.mem_dirs.mpr ⟨_, hfile, hpre⟩)
      · exact fs.wellFormed.isName_dir (fs.wellFormed.mem_dirs_of_below_dir hdir hpre)
  rcases (mem_findNames.mp hx).1 with ⟨hfile, hpre⟩ | ⟨hself, -⟩ | ⟨-, hdir, hpre⟩
  · exact hbelow x (fs.wellFormed.isName_file hfile) rfl hpre
  · have hname := archiveExists_iff.mp hself.2.1
    refine h.elim (fun hno => hno hname) fun hdir => hself.2.2 ?_
    exact archiveIsDir_iff.mpr (Or.inr hdir.1)
  · exact hbelow x (fs.wellFormed.isName_dir hdir) rfl hpre

/-! ### Two spellings -/

/-- Whether `glob` takes a path without wildcards to exist: it strips the path,
and `exists` strips it again. -/
def GlobExists (fs : ParquetFileSystem) (path : Str) : Prop :=
  fs.archive.IsName (normalize (fs.stripProtocol (fs.stripProtocol path)))

/-- Without wildcards the answer comes from `exists` and `info`, unless a depth below
one was given. -/
theorem glob_eq_globPlain {path : Str}
    (hplain : containsAny (fs.stripProtocol path) globChars = false) (maxdepth : Option ℤ)
    (detail : Bool) :
    fs.glob path maxdepth detail = if ∀ d, maxdepth = some d → 1 ≤ d then
        fs.globPlain (fs.stripProtocol path) detail
      else .error (.value "maxdepth must be at least 1".toList) := by
  cases maxdepth with
  | none => simp [glob, hplain]
  | some d =>
    by_cases hd : 1 ≤ d
    · rw [if_pos (by simpa using hd)]
      exact fs.superGlob.plain fs.globMethods path d detail hd (by simpa [globMethods] using hplain)
    · rw [if_neg (by simpa using hd)]
      exact fs.superGlob.shallow fs.globMethods path d detail (not_le.mp hd)

theorem glob_none_eq_globPlain {path : Str}
    (hplain : containsAny (fs.stripProtocol path) globChars = false) (detail : Bool) :
    fs.glob path none detail = fs.globPlain (fs.stripProtocol path) detail := by
  rw [glob_eq_globPlain hplain, if_pos (by simp)]

theorem globPlain_of_exists {path : Str} (h : GlobExists fs path) :
    fs.globPlain (fs.stripProtocol path) false = .ok (.names [fs.stripProtocol path]) := by
  have hex : fs.exists_ (fs.stripProtocol path) = true := archiveExists_iff.mpr h
  simp [globPlain, hex]

theorem globPlain_of_not_exists {path : Str} (h : ¬GlobExists fs path) (detail : Bool) :
    fs.globPlain (fs.stripProtocol path) detail
      = .ok (if detail then .details [] else .names []) := by
  have hex : fs.exists_ (fs.stripProtocol path) = false := by
    rw [Bool.eq_false_iff]
    exact fun hex => h (archiveExists_iff.mp hex)
  simp [globPlain, hex]

theorem sameResults_of {p q : Str}
    (hn : normalize (fs.stripProtocol p) = normalize (fs.stripProtocol q))
    (hfind : ∀ maxdepth withdirs,
      fs.findNames p maxdepth withdirs = fs.findNames q maxdepth withdirs)
    (hp : containsAny (fs.stripProtocol p) globChars = false)
    (hq : containsAny (fs.stripProtocol q) globChars = false)
    (hglob : ∀ detail, fs.globPlain (fs.stripProtocol p) detail
      = fs.globPlain (fs.stripProtocol q) detail) : SameResults fs p q where
  ls detail := by simp only [ls, Index.ls, hn]
  info := by simp only [info, archiveInfo, hn]
  exists_ := by simp only [exists_, archiveExists, hn]
  catFile start stop := by simp only [catFile, directRead, hn]
  find maxdepth withdirs detail := by simp only [find, hfind]
  glob maxdepth detail := by rw [glob_eq_globPlain hp, glob_eq_globPlain hq, hglob]

theorem returnsNames_of {p : Str}
    (hfind : ∀ maxdepth withdirs, ∀ x ∈ fs.findNames p maxdepth withdirs, fs.archive.IsName x)
    (hp : containsAny (fs.stripProtocol p) globChars = false)
    (hglob : GlobExists fs p → fs.archive.IsName (fs.stripProtocol p)) : ReturnsNames fs p where
  ls _ _ h := isName_of_ls h
  info _ h := isName_of_info h
  find maxdepth withdirs _ _ h := isName_of_withDetail (hfind maxdepth withdirs) h
  glob maxdepth detail l h := by
    rw [glob_eq_globPlain hp] at h
    split at h
    case isFalse => cases h
    by_cases hex : GlobExists fs p
    · have hname := hglob hex
      cases detail with
      | false =>
        rw [globPlain_of_exists hex] at h
        cases h
        simpa [Listing.allNames] using hname
      | true =>
        have hex' : fs.exists_ (fs.stripProtocol p) = true := archiveExists_iff.mpr hex
        simp only [globPlain, hex', ↓reduceIte] at h
        obtain ⟨i, hi, rfl⟩ := exists_of_map_ok h
        simpa [Listing.allNames] using ⟨hname, isName_of_info hi⟩
    · rw [globPlain_of_not_exists hex] at h
      cases h
      cases detail <;> simp [Listing.allNames]

/-- What `glob` returns for a path that exists is the path as it was stripped. -/
theorem eq_of_globExists {p q : Str} (hsame : SameResults fs p q) (hnames : ReturnsNames fs p)
    (hp : containsAny (fs.stripProtocol p) globChars = false)
    (hq : containsAny (fs.stripProtocol q) globChars = false) (h : GlobExists fs p) :
    fs.archive.IsName (fs.stripProtocol p) ∧ fs.stripProtocol q = fs.stripProtocol p := by
  have hglob : fs.glob p none false = .ok (.names [fs.stripProtocol p]) := by
    rw [glob_none_eq_globPlain hp, globPlain_of_exists h]
  refine ⟨hnames.glob none false _ hglob _ (by simp [Listing.allNames]), ?_⟩
  have heq := hsame.glob none false
  rw [hglob, glob_none_eq_globPlain hq] at heq
  by_cases hex : GlobExists fs q
  · rw [globPlain_of_exists hex] at heq
    simpa [eq_comm] using heq
  · rw [globPlain_of_not_exists hex] at heq
    simp at heq

theorem containsAny_trimSeparators {s : Str} (h : containsAny s globChars = false) :
    containsAny (trimSeparators s) globChars = false := by
  have hsub : ∀ c ∈ trimSeparators s, c ∈ s := fun c hc =>
    (List.rdropWhile_prefix _ _).subset ((List.dropWhile_suffix _).subset hc)
  simp only [containsAny, List.any_eq_false] at h ⊢
  exact fun c hc => h c (hsub c hc)

theorem SameResults.symm {p q : Str} (h : SameResults fs p q) : SameResults fs q p :=
  ⟨fun d => (h.ls d).symm, h.info.symm, h.exists_.symm, fun a b => (h.catFile a b).symm,
    fun m w d => (h.find m w d).symm, fun m d => (h.glob m d).symm⟩

theorem SameResults.findNames {p q : Str} (h : SameResults fs p q) :
    fs.findNames p none false = fs.findNames q none false := by
  have hfind := h.find none false false
  rw [find_false, find_false] at hfind
  simpa using hfind

/-- A name of the archive, compared as it is, is answered with names. -/
theorem returnsNames_of_isName {p : Str} (h : fs.archive.IsName (fs.stripProtocol p))
    (hp : containsAny (fs.stripProtocol p) globChars = false) : ReturnsNames fs p := by
  refine returnsNames_of (fun maxdepth withdirs x hx => ?_) hp fun _ => h
  rcases (mem_findNames.mp hx).1 with ⟨hfile, -⟩ | ⟨-, rfl⟩ | ⟨-, hdir, -⟩
  · exact fs.wellFormed.isName_file hfile
  · exact h
  · exact fs.wellFormed.isName_dir hdir

/-- If one of two spellings that agree is canonical when compared, so is the other. -/
theorem canonical_of_agree {p q n : Str} (hsame : SameResults fs p q)
    (hq : normalize (fs.stripProtocol q) = n) (hp : fs.stripProtocol p = n) (hn : n ≠ [])
    (h : fs.archive.IsName n) : fs.stripProtocol q = n := by
  subst hp
  -- something is found for `p`, so for `q`, and that only if `q` is canonical
  obtain ⟨x, hx, hname⟩ := exists_mem_findNames hn h
  rw [hsame.findNames] at hx
  rw [eq_normalize_of_mem_findNames hx hname.1, hq]

/-- A spelling of a file that is no directory is found as it is, so it is canonical
when its results are names. -/
theorem mem_dirs_of_agree {p n : Str} (hnames : ReturnsNames fs p)
    (hp : normalize (fs.stripProtocol p) = n) (hne : fs.stripProtocol p ≠ n) (hn : n ≠ [])
    (h : fs.archive.IsName n) : n ∈ fs.dirs := by
  by_contra hdir
  -- were the name a file only, `find` would return the spelling itself
  have hself : FindsItself fs (fs.stripProtocol p) := by
    refine ⟨fun x hx hpre => ?_, archiveExists_iff.mpr (hp ▸ h), fun hd => ?_⟩
    · have hmem : x ∈ fs.findNames p none false :=
        mem_findNames.mpr ⟨Or.inl ⟨hx, hpre⟩, by simp [withinDepth]⟩
      have hcanon := (fs.wellFormed.isName_file hx).1
      exact hne ((eq_normalize_of_mem_findNames hmem hcanon).trans hp)
    · rcases archiveIsDir_iff.mp hd with hnil | hmem
      · exact hn (hp ▸ hnil)
      · exact hdir (hp ▸ hmem)
  have hmem : fs.stripProtocol p ∈ fs.findNames p none false :=
    mem_findNames.mpr ⟨Or.inr (Or.inl ⟨hself, rfl⟩), by simp [withinDepth]⟩
  have hname := hnames.find none false false _ (find_false p none false) _ hmem
  exact hne ((normalize_eq_self_iff.mpr hname.1).symm.trans hp)

/-- **When two spellings of a path are interchangeable.**  Either the path
exists and trimming separators makes both spellings canonical, or neither `find`
nor `glob` returns anything: the path does not exist, or it is a directory and
neither spelling is canonical after trimming; and what `glob` asks `exists` for
does not exist either. -/
theorem spellings_agree_iff (hsuper : StripsProtocol fs.superStripProtocol) {p q : Str}
    (hp : ProtocolFree p) (hq : ProtocolFree q) (hpglob : containsAny p globChars = false)
    (hqglob : containsAny q globChars = false) (hpq : normalize p = normalize q) :
    (SameResults fs p q ∧ ReturnsNames fs p ∧ ReturnsNames fs q) ↔
      (fs.archive.IsName (normalize p) ∧ trimSeparators p = normalize p ∧
        trimSeparators q = normalize p) ∨
      ((¬fs.archive.IsName (normalize p) ∨ normalize p ∈ fs.dirs ∧
          trimSeparators p ≠ normalize p ∧ trimSeparators q ≠ normalize p) ∧
        ¬GlobExists fs p ∧ ¬GlobExists fs q) := by
  have hsp : fs.stripProtocol p = trimSeparators p := stripProtocol_eq hsuper hp
  have hsq : fs.stripProtocol q = trimSeparators q := stripProtocol_eq hsuper hq
  have hnp : normalize (fs.stripProtocol p) = normalize p := by rw [hsp, normalize_trimSeparators]
  have hnq : normalize (fs.stripProtocol q) = normalize p := by
    rw [hsq, normalize_trimSeparators, hpq]
  have hgp : containsAny (fs.stripProtocol p) globChars = false := by
    rw [hsp]
    exact containsAny_trimSeparators hpglob
  have hgq : containsAny (fs.stripProtocol q) globChars = false := by
    rw [hsq]
    exact containsAny_trimSeparators hqglob
  rw [← hsp, ← hsq]
  constructor
  · rintro ⟨hsame, hnamesp, hnamesq⟩
    by_cases hboth : fs.stripProtocol p = normalize p ∧ fs.stripProtocol q = normalize p
    · -- compared in the canonical form: what `glob` takes to exist is a name
      obtain ⟨htp, htq⟩ := hboth
      by_cases hname : fs.archive.IsName (normalize p)
      · exact Or.inl ⟨hname, htp, htq⟩
      · refine Or.inr ⟨Or.inl hname, fun hex => hname ?_, fun hex => hname ?_⟩
        · rw [← htp]
          exact (eq_of_globExists hsame hnamesp hgp hgq hex).1
        · rw [← htq]
          exact (eq_of_globExists hsame.symm hnamesq hgq hgp hex).1
    · -- `glob` returns both paths as they are, so they would be one canonical path
      have hexp : ¬GlobExists fs p := by
        intro hex
        obtain ⟨hname, heq⟩ := eq_of_globExists hsame hnamesp hgp hgq hex
        have htp : fs.stripProtocol p = normalize p := by
          rw [← hnp, normalize_eq_self_iff.mpr hname.1]
        exact hboth ⟨htp, heq.trans htp⟩
      have hexq : ¬GlobExists fs q := by
        intro hex
        obtain ⟨hname, heq⟩ := eq_of_globExists hsame.symm hnamesq hgq hgp hex
        have htq : fs.stripProtocol q = normalize p := by
          rw [← hnq, normalize_eq_self_iff.mpr hname.1]
        exact hboth ⟨heq.trans htq, htq⟩
      refine Or.inr ⟨?_, hexp, hexq⟩
      by_cases hname : fs.archive.IsName (normalize p)
      · have hn : normalize p ≠ [] := by
          intro hnil
          apply hboth
          rw [hsp, hsq, hnil]
          exact ⟨trimSeparators_of_normalize_eq_nil hnil,
            trimSeparators_of_normalize_eq_nil (hpq ▸ hnil)⟩
        have htp : fs.stripProtocol p ≠ normalize p := fun htp =>
          hboth ⟨htp, canonical_of_agree hsame hnq htp hn hname⟩
        have htq : fs.stripProtocol q ≠ normalize p := fun htq =>
          hboth ⟨canonical_of_agree hsame.symm hnp htq hn hname, htq⟩
        exact Or.inr ⟨mem_dirs_of_agree hnamesp hnp htp hn hname, htp, htq⟩
      · exact Or.inl hname
  · rintro (⟨hname, htp, htq⟩ | ⟨hnone, hexp, hexq⟩)
    · refine ⟨?_, returnsNames_of_isName (htp ▸ hname) hgp,
        returnsNames_of_isName (htq ▸ hname) hgq⟩
      refine sameResults_of (hnp.trans hnq.symm) (fun maxdepth withdirs => ?_) hgp hgq
        fun detail => ?_
      · simp only [ParquetFileSystem.findNames, htp, htq]
      · rw [htp, htq]
    · have hfindp : ∀ maxdepth withdirs, fs.findNames p maxdepth withdirs = [] :=
        findNames_eq_nil (hnp.symm ▸ hnone.imp_right fun h => ⟨h.1, h.2.1⟩)
      have hfindq : ∀ maxdepth withdirs, fs.findNames q maxdepth withdirs = [] :=
        findNames_eq_nil (hnq.symm ▸ hnone.imp_right fun h => ⟨h.1, h.2.2⟩)
      refine ⟨?_, returnsNames_of (by simp [hfindp]) hgp fun hex => absurd hex hexp,
        returnsNames_of (by simp [hfindq]) hgq fun hex => absurd hex hexq⟩
      refine sameResults_of (hnp.trans hnq.symm) (by simp [hfindp, hfindq]) hgp hgq fun detail => ?_
      rw [globPlain_of_not_exists hexp, globPlain_of_not_exists hexq]

end ParquetFileSystem

/-! ### The small archive as a file system -/

/-- Whether a segment matches, `*` standing for any characters and `?` for one. -/
def matchSegment : Str → Str → Bool
  | [], s => s = []
  | '*' :: p, s => s.tails.any fun t => matchSegment p t
  | '?' :: p, s => s ≠ [] && matchSegment p s.tail
  | c :: p, s => s.head? = some c && matchSegment p s.tail

/-- Whether a name matches, segment by segment; a lone `*` matches no empty segment. -/
def matchSegments (pattern x : Str) : Bool :=
  let ps := pattern.splitOn '/'
  let ss := x.splitOn '/'
  ps.length = ss.length &&
    (ps.zip ss).all fun e => (e.1 ≠ ['*'] || e.2 ≠ []) && matchSegment e.1 e.2

/-- How deep fsspec's own `glob` searches for a pattern. -/
def searchDepth (path : Str) (maxdepth : ℤ) : ℤ :=
  if "**".toList <:+: path then maxdepth
  else (path.count '/' : ℤ) - (ParquetFileSystem.globRoot path).count '/' + 1

/-- The pattern fsspec's own `glob` translates: one that ended in a separator keeps it. -/
def keptPattern (path pattern : Str) : Str := if ['/'] <:+ pattern then path ++ ['/'] else path

/-- fsspec's own `glob`, where patterns match segment by segment. -/
def segmentGlob : SuperGlob where
  glob m pattern maxdepth detail :=
    let path := m.stripProtocol pattern
    if maxdepth < 1 then .error (.value "maxdepth must be at least 1".toList)
    else if ¬containsAny path globChars then
      if m.exists_ path then
        if detail then (m.info path).map fun i => .details [(path, i)] else .ok (.names [path])
      else .ok (if detail then .details [] else .names [])
    else
      let found := m.find (ParquetFileSystem.globRoot path) (some (searchDepth path maxdepth))
      let names := (found.filter fun e => matchSegments (keptPattern path pattern)
        (if (['/'] <:+ pattern ∨ "/**".toList <:+ path) ∧ e.2 then e.1 ++ ['/']
          else e.1)).map Prod.fst
      if detail then (names.mapM fun p => (m.info p).map fun i => (p, i)).map .details
      else .ok (.names names)
  shallow m pattern maxdepth detail h := by simp only [if_pos h]
  plain m pattern maxdepth detail h hplain := by
    simp only [if_neg (not_lt.mpr h), if_pos hplain]

/-- The small archive, in which `a` is a file and a directory. -/
def sampleFileSystem : ParquetFileSystem where
  archive := sampleIndex
  wellFormed := wellFormed_of_buildIndex
    (show buildIndex sampleAdapters sampleReader none none [[]] .first = .ok sampleIndex from rfl)
  decoder := sampleReader
  superStripProtocol s := (dropProtocol s).rdropWhile (· = '/')
  globTranslate pattern := some (matchSegments pattern)
  superGlob := segmentGlob

namespace ParquetFileSystem

theorem spellings_agree_sample :
    SameResults sampleFileSystem "/a".toList "a//".toList ∧
      ReturnsNames sampleFileSystem "/a".toList ∧ ReturnsNames sampleFileSystem "a//".toList := by
  have hsuper : StripsProtocol sampleFileSystem.superStripProtocol := fun _ => rfl
  refine (spellings_agree_iff hsuper (by decide) (by decide) (by decide) (by decide)
    (by decide)).mpr (Or.inl ⟨⟨by decide, Or.inr (Or.inl ?_)⟩, by decide, by decide⟩)
  decide

/-- A doubled separator inside a path: `find` and `glob` return the path as it
is spelled, which is no name of the archive. -/
theorem spellings_disagree_sample :
    normalize "a//d".toList = normalize "a/d".toList ∧
      ProtocolFree "a//d".toList ∧ ProtocolFree "a/d".toList ∧
      containsAny "a//d".toList globChars = false ∧ containsAny "a/d".toList globChars = false ∧
      sampleFileSystem.find "a//d".toList none false false = .ok (.names ["a//d".toList]) ∧
      sampleFileSystem.find "a/d".toList none false false = .ok (.names ["a/d".toList]) ∧
      ¬(SameResults sampleFileSystem "a//d".toList "a/d".toList ∧
        ReturnsNames sampleFileSystem "a//d".toList ∧
        ReturnsNames sampleFileSystem "a/d".toList) := by
  have hp : sampleFileSystem.find "a//d".toList none false false
      = .ok (.names ["a//d".toList]) := by
    have hnames : sampleFileSystem.findNames "a//d".toList none false = ["a//d".toList] := by decide
    rw [find_false, hnames]
  have hq : sampleFileSystem.find "a/d".toList none false false
      = .ok (.names ["a/d".toList]) := by
    have hnames : sampleFileSystem.findNames "a/d".toList none false = ["a/d".toList] := by decide
    rw [find_false, hnames]
  refine ⟨by decide, by decide, by decide, by decide, by decide, hp, hq, fun h => ?_⟩
  have hfind := h.1.find none false false
  rw [hp, hq] at hfind
  simp at hfind

end ParquetFileSystem

end ParquetFileFs
