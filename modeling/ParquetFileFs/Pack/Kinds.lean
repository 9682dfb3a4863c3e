import ParquetFileFs.Pack.Compressed

/-!
# What kind of entry is stored

Only regular files of an archive are meant to be stored.  Each format has its
own way to tell what an entry is, and its library tells it more or less: the 7z
and rar readers only know directories, the zip reader also symbolic links, and
a tar header has a type byte for everything, which old archives leave out for
directories.

## Main definitions

* `EntryKind`, `ArchiveEntry` — the entries of an archive, as they are.
* `takenAsFile` — the entries the code takes for files.
* `Lists` — what the library of a format makes of the entries.
* `KindsTold` — the kinds are told apart.

## Main results

* `archiveRows_of_lists` — the rows of an archive are those of the entries taken
  for files.
* `packs_of_lists` — where nothing fails, the entries taken for files are packed.
* `stores_regular_iff` — **exactly the regular files are stored if and only if
  the kinds are told apart.**
-/

namespace ParquetFileFs

open Program

/-! ### Entries -/

inductive EntryKind
  | regular
  | directory
  | symlink
  | hardlink
  | special
  deriving DecidableEq, Repr

/-- An entry as it is in the archive.  Only tar has type bytes. -/
structure ArchiveEntry where
  name : Str
  kind : EntryKind
  typeflag : UInt8
  data : Bytes

namespace ArchiveEntry

/-- The row of an entry, if its name can be stored. -/
def row (e : ArchiveEntry) : Option Row := (entryStoredPath e.name).toOption.map (·, e.data)

/-- The type bytes a tar archive has for an entry.  Contiguous and sparse files
are regular files; before there was a byte for directories, a slash at the end
of the name stood for it. -/
def Typed (e : ArchiveEntry) : Prop :=
  match e.kind with
  | .regular => e.typeflag ∈ [0x00, 0x30, 0x37, 0x53]
  | .directory => e.typeflag = 0x35 ∨ e.typeflag ∈ [0x00, 0x30] ∧ ['/'] <:+ e.name
  | .symlink => e.typeflag = 0x32
  | .hardlink => e.typeflag = 0x31
  | .special => e.typeflag ∈ [0x33, 0x34, 0x36]

/-- The zip reader calls a file what is neither a directory nor a symbolic link. -/
def zip (e : ArchiveEntry) : ZipEntry :=
  ⟨e.name, e.kind ≠ .directory ∧ e.kind ≠ .symlink, e.data.length, .ok e.data⟩

def tar (e : ArchiveEntry) : TarEntry := ⟨e.typeflag, .ok e.name, .ok e.data⟩

def sevenZ (e : ArchiveEntry) : SevenZEntry := ⟨e.name, e.kind = .directory, .ok e.data⟩

/-- The rar reader calls a file what is not a directory. -/
def rar (e : ArchiveEntry) : RarEntry := ⟨e.name, e.kind ≠ .directory, .ok e.data⟩

end ArchiveEntry

/-- The entries that are taken for files in a format. -/
def takenAsFile (fmt : ArchiveFormat) (e : ArchiveEntry) : Bool :=
  match fmt with
  | .zip => e.zip.isFile
  | .sevenZ => !e.sevenZ.isDirectory
  | .rar => e.rar.isFile
  | _ => e.tar.isFile

/-- The entries in the order they are packed: those of a 7z archive that are
empty come last. -/
def packOrder (fmt : ArchiveFormat) (entries : List ArchiveEntry) : List ArchiveEntry :=
  match fmt with
  | .sevenZ => entries.filter (·.data ≠ []) ++ entries.filter (·.data = [])
  | _ => entries

/-- The rows of the entries with a property. -/
def rowsWhere (p : ArchiveEntry → Bool) (fmt : ArchiveFormat) (entries : List ArchiveEntry) :
    List Row :=
  ((packOrder fmt entries).filter p).filterMap ArchiveEntry.row

/-- A tar stream is read as the entries. -/
def TarLists (libs : ArchiveLibs) (entries : List ArchiveEntry) (reader : Stream) : Prop :=
  libs.tar reader = .ok (entries.map fun e => .ok e.tar) ∧ ∀ e ∈ entries, e.Typed

/-- What the library of a format makes of an archive with these entries. -/
def Lists (libs : ArchiveLibs) (fmt : ArchiveFormat) (bs : Bytes) (entries : List ArchiveEntry) :
    Prop :=
  match fmt with
  | .zip => libs.zip bs = .ok (entries.map fun e => .ok e.zip)
  | .tar => TarLists libs entries ⟨bs, none⟩
  | .tarGz => TarLists libs entries (libs.gz bs)
  | .tarBz2 => TarLists libs entries (libs.bz2 bs)
  | .tarXz => TarLists libs entries (libs.xz bs)
  | .tarZst => ∃ reader, libs.zst bs = .ok reader ∧ TarLists libs entries reader
  | .rar => ∃ rar, libs.rar = some rar ∧ rar bs = .ok (entries.map fun e => .ok e.rar)
  | .sevenZ => ∃ blocks : List (List SevenZEntry), libs.sevenZ bs = .ok (blocks.map .ok) ∧
      blocks.flatten = (packOrder .sevenZ entries).map ArchiveEntry.sevenZ

theorem mem_packOrder {fmt : ArchiveFormat} {entries : List ArchiveEntry} {e : ArchiveEntry} :
    e ∈ packOrder fmt entries ↔ e ∈ entries := by
  cases fmt with
  | sevenZ =>
    simp only [packOrder, List.mem_append, List.mem_filter, decide_eq_true_eq]
    tauto
  | _ => exact Iff.rfl

theorem packOrder_perm (fmt : ArchiveFormat) (entries : List ArchiveEntry) :
    (packOrder fmt entries).Perm entries := by
  cases fmt with
  | sevenZ =>
    have hempty : (entries.filter (·.data = [])) = entries.filter fun e => !decide (e.data ≠ []) :=
      List.filter_congr fun e _ => by simp
    rw [packOrder, hempty]
    exact List.filter_append_perm _ _
  | _ => exact List.Perm.refl _

/-- Distinct names have distinct rows. -/
theorem nodup_keys_rowsWhere {entries : List ArchiveEntry}
    (hdistinct : (entries.map fun e => entryStoredPath e.name).Nodup) (p : ArchiveEntry → Bool)
    (fmt : ArchiveFormat) : ((rowsWhere p fmt entries).map Prod.fst).Nodup := by
  have horder : ((packOrder fmt entries).map fun e => entryStoredPath e.name).Nodup :=
    ((packOrder_perm fmt entries).map _).nodup_iff.mpr hdistinct
  rw [List.Nodup, List.pairwise_map] at horder
  have hrow : ∀ (e : ArchiveEntry) (r : Row), r ∈ e.row → entryStoredPath e.name = .ok r.1 := by
    intro e r hr
    obtain ⟨s, hs, rfl⟩ := Option.map_eq_some_iff.mp hr
    cases hname : entryStoredPath e.name with
    | error err =>
      rw [hname] at hs
      cases hs
    | ok s' =>
      rw [hname] at hs
      exact congrArg Except.ok (Option.some.inj hs)
  rw [List.Nodup, List.pairwise_map, rowsWhere]
  refine (horder.filter _).filterMap _ fun e e' hne r hr r' hr' heq => hne ?_
  rw [hrow e r hr, hrow e' r' hr', heq]

/-! ### The rows of an archive -/

section Rows

variable {libs : ArchiveLibs} {fmt : ArchiveFormat} {bs : Bytes} {entries : List ArchiveEntry}

/-- All entries have names that can be stored. -/
def Acceptable (entries : List ArchiveEntry) : Prop :=
  ∀ e ∈ entries, ∃ s, entryStoredPath e.name = .ok s

theorem entryRows_eq {e : ArchiveEntry} {isFile : Bool} (h : ∃ s, entryStoredPath e.name = .ok s) :
    entryRows isFile (.ok e.name) (.ok e.data) = some (if isFile then e.row.toList else []) := by
  obtain ⟨s, hs⟩ := h
  cases isFile with
  | false => rfl
  | true =>
    rw [ArchiveEntry.row, hs]
    simp only [entryRows, hs, if_pos]
    rfl

theorem rowsWhere_eq_flatMap (p : ArchiveEntry → Bool) (fmt : ArchiveFormat)
    (entries : List ArchiveEntry) : rowsWhere p fmt entries
      = (packOrder fmt entries).flatMap fun e => if p e then e.row.toList else [] := by
  rw [rowsWhere]
  induction packOrder fmt entries with
  | nil => rfl
  | cons e es ih =>
    rw [List.flatMap_cons, ← ih]
    cases hp : p e with
    | false => simp [hp]
    | true => cases hrow : e.row <;> simp [hp, hrow]

/-- The rows of all elements, where those of each are known. -/
theorem allRows_flatMap {α : Type} {f : α → Option (List Row)} {g : α → List Row} {as : List α}
    (h : ∀ a ∈ as, f a = some (g a)) : allRows f as = some (as.flatMap g) := by
  rw [List.flatMap_def]
  apply allRows_of_forall₂
  rw [List.forall₂_map_right_iff, List.forall₂_same]
  exact h

/-- The rows of what a library lists, one element for each entry. -/
theorem listedRows_map {α : Type} {f : α → Option (List Row)} {view : ArchiveEntry → α}
    {p : ArchiveEntry → Bool}
    (h : ∀ e ∈ entries, f (view e) = some (if p e then e.row.toList else []))
    (horder : packOrder fmt entries = entries) :
    listedRows f (.ok (entries.map fun e => .ok (view e))) = some (rowsWhere p fmt entries) := by
  rw [rowsWhere_eq_flatMap, horder, List.flatMap_def]
  show allRows _ _ = _
  apply allRows_of_forall₂
  rw [List.forall₂_map_left_iff, List.forall₂_map_right_iff, List.forall₂_same]
  exact h

/-- The empty files of a 7z archive come in blocks of their own. -/
theorem sevenZRows_blocks {blocks : List (List SevenZEntry)} (hnames : Acceptable entries)
    (hblocks : blocks.flatten = (packOrder .sevenZ entries).map ArchiveEntry.sevenZ) :
    allRows (fun block => block.toOption.bind (allRows sevenZRows))
        (blocks.map fun b => (.ok b : Except Str (List SevenZEntry)))
      = some (rowsWhere (takenAsFile .sevenZ) .sevenZ entries) := by
  have heach : ∀ e ∈ entries, sevenZRows e.sevenZ
      = some (if takenAsFile .sevenZ e then e.row.toList else []) :=
    fun e he => entryRows_eq (hnames e he)
  have hflat : ∀ a ∈ blocks.flatten, sevenZRows a = some ((sevenZRows a).getD []) := by
    intro a ha
    rw [hblocks] at ha
    obtain ⟨e, he, rfl⟩ := List.mem_map.mp ha
    rw [heach e (mem_packOrder.mp he)]
    rfl
  have hrows : allRows (fun block => block.toOption.bind (allRows sevenZRows))
      (blocks.map fun b => (.ok b : Except Str (List SevenZEntry)))
        = some (blocks.map fun b => b.flatMap fun a => (sevenZRows a).getD []).flatten := by
    apply allRows_of_forall₂
    rw [List.forall₂_map_left_iff, List.forall₂_map_right_iff, List.forall₂_same]
    intro b hb
    exact allRows_flatMap fun a ha => hflat a (List.mem_flatten_of_mem hb ha)
  have hjoin : blocks.flatten.flatMap (fun a => (sevenZRows a).getD [])
      = blocks.flatMap fun b => b.flatMap fun a => (sevenZRows a).getD [] := by
    rw [← List.flatMap_id, List.flatMap_assoc]
    rfl
  rw [hrows, ← List.flatMap_def, ← hjoin, hblocks, rowsWhere_eq_flatMap, List.flatMap_map]
  congr 1
  apply List.flatMap_congr
  intro e he
  rw [heach e (mem_packOrder.mp he)]
  rfl

/-- **The rows of an archive are those of the entries taken for files.** -/
theorem archiveRows_of_lists (hlists : Lists libs fmt bs entries) (hnames : Acceptable entries) :
    archiveRows libs fmt bs = some (rowsWhere (takenAsFile fmt) fmt entries) := by
  have htar : ∀ fmt reader, TarLists libs entries reader → packOrder fmt entries = entries →
      listedRows tarRows (libs.tar reader)
        = some (rowsWhere (fun e => e.tar.isFile) fmt entries) := by
    intro fmt reader hreader horder
    rw [hreader.1]
    exact listedRows_map (fun e he => entryRows_eq (hnames e he)) horder
  cases fmt with
  | zip =>
    show listedRows zipRows (libs.zip bs) = _
    rw [show libs.zip bs = _ from hlists]
    exact listedRows_map (fun e he => entryRows_eq (hnames e he)) rfl
  | tar => exact htar _ _ hlists rfl
  | tarGz => exact htar _ _ hlists rfl
  | tarBz2 => exact htar _ _ hlists rfl
  | tarXz => exact htar _ _ hlists rfl
  | tarZst =>
    obtain ⟨reader, hzst, hreader⟩ := hlists
    show (libs.zst bs).toOption.bind _ = _
    rw [hzst]
    exact htar _ reader hreader rfl
  | rar =>
    obtain ⟨rar, hrar, hentries⟩ := hlists
    show libs.rar.bind _ = _
    rw [hrar, Option.bind_some, hentries]
    exact listedRows_map (fun e he => entryRows_eq (hnames e he)) rfl
  | sevenZ =>
    obtain ⟨blocks, hsevenZ, hblocks⟩ := hlists
    show (libs.sevenZ bs).toOption.bind _ = _
    rw [hsevenZ]
    exact sevenZRows_blocks hnames hblocks

end Rows

section Stored

variable {W : ParquetWriter} {fs₀ fs fs' : Files} {out archive : Str} {opts : PackOptions}
  {w w' : PackWriter} {libs : ArchiveLibs} {fmt : ArchiveFormat} {bs : Bytes}
  {entries : List ArchiveEntry} {es : List FileEvent}
  {expand : Files → Str → Except Str (List (Except (Str × Str) Str))}

/-- A zip entry is packed as its row, if a vector can have the size it declares. -/
theorem exec_packZipEntry {entry : Except Str ZipEntry × ℕ} {new : List Row}
    (hsize : ∀ e, entry.1 = .ok e → e.size ≤ maxCapacity)
    (h : entry.1.toOption.bind zipRows = some new) (w : PackWriter) (fs : Files) :
    exec (fsHandler expand) (packZipEntry W archive w entry) fs
      = exec (fsHandler expand) (appendEach W w new) fs := by
  obtain ⟨entry, i⟩ := entry
  obtain ⟨e, rfl, hrow⟩ := of_toOption_bind h
  show exec _ (if ¬e.isFile then _ else _) fs = _
  rcases of_entryRows hrow with ⟨hfile, rfl⟩ | ⟨hfile, n, stored, d, hname, hstored, hdata, rfl⟩
  · rw [if_pos (by simp [hfile])]
    rfl
  · cases hname
    rw [if_neg (by simp [hfile]), exec_appendEach_singleton, hstored]
    show exec _ (if maxCapacity < e.size then _ else _) fs = _
    rw [if_neg (not_lt.mpr (hsize e rfl)), exec_call, hdata]
    rfl

theorem exec_packRarEntry {entry : Except Str RarEntry} {new : List Row}
    (h : entry.toOption.bind rarRows = some new) (w : PackWriter) (fs : Files) :
    exec (fsHandler expand) (packRarEntry W archive w entry) fs
      = exec (fsHandler expand) (appendEach W w new) fs := by
  obtain ⟨e, rfl, hrow⟩ := of_toOption_bind h
  obtain ⟨data, hdata, hfound⟩ := of_toOption_bind hrow
  show exec _ ((fromLibrary (badRar archive) e.data).andThen _) fs = _
  rw [hdata]
  show exec _ (if e.isFile then _ else _) fs = _
  rcases of_entryRows hfound with ⟨hfile, rfl⟩ | ⟨hfile, n, stored, d, hname, hstored, hd, rfl⟩
  · rw [if_neg (by simp [hfile])]
    rfl
  · cases hname
    cases hd
    rw [if_pos hfile, exec_appendEach_singleton, hstored]
    rfl

/-- A 7z entry is packed as its row, and its block goes on. -/
theorem exec_pack7zEntry {e : SevenZEntry} {new : List Row} (h : sevenZRows e = some new)
    (hrows : exec (fsHandler expand) (appendEach W w new) fs = (.ok w', fs')) :
    exec (fsHandler expand) (pack7zEntry W (w, none) e) fs
      = (.ok ((w', none), .ok true), fs') := by
  obtain ⟨data, hdata, hfound⟩ := of_toOption_bind h
  unfold pack7zEntry
  rw [exec_call, hdata]
  show exec _ (if e.isDirectory then _ else _) fs = _
  rcases of_entryRows hfound with ⟨hfile, rfl⟩ | ⟨hfile, n, stored, d, hname, hstored, hd, rfl⟩
  · rw [if_pos (by simpa using hfile)]
    cases hrows
    rfl
  · cases hname
    cases hd
    rw [exec_appendEach_singleton] at hrows
    rw [if_neg (by simpa using hfile), hstored]
    show exec _ (w.append W stored data >>= _) fs = _
    rw [exec_bind, hrows]
    rfl

/-- What `appendEach` does with rows that come in two parts. -/
theorem exec_appendEach_ok {rows rows' : List Row}
    (h : exec (fsHandler expand) (appendEach W w (rows ++ rows')) fs = (.ok w', fs')) :
    ∃ w₁ fs₁, exec (fsHandler expand) (appendEach W w rows) fs = (.ok w₁, fs₁) ∧
      exec (fsHandler expand) (appendEach W w₁ rows') fs₁ = (.ok w', fs') := by
  rw [exec_appendEach_append] at h
  cases hfirst : (exec (fsHandler expand) (appendEach W w rows) fs).1 with
  | error e =>
    rw [exec_andThen_error _ hfirst] at h
    cases h
  | ok w₁ =>
    rw [exec_andThen _ hfirst] at h
    exact ⟨w₁, _, Prod.ext hfirst rfl, h⟩

/-- The entries of a block are packed as their rows. -/
theorem exec_forEachInBlock {as : List SevenZEntry} {rows : List Row}
    (h : allRows sevenZRows as = some rows)
    (hrows : exec (fsHandler expand) (appendEach W w rows) fs = (.ok w', fs')) :
    exec (fsHandler expand) (forEachInBlock (pack7zEntry W) (w, none) as) fs
      = (.ok ((w', none), .ok ()), fs') := by
  induction as generalizing rows w fs with
  | nil =>
    cases h
    cases hrows
    rfl
  | cons a as ih =>
    obtain ⟨new, rest, hnew, hrest, rfl⟩ := allRows_cons_eq_some h
    obtain ⟨w₁, fs₁, hfirst, hrows⟩ := exec_appendEach_ok hrows
    have hstep := exec_pack7zEntry hnew hfirst
    rw [forEachInBlock, exec_andThen _ (by rw [hstep]), hstep]
    exact ih hrest hrows

/-- And so are the blocks. -/
theorem exec_forEachEntries {blocks : List (Except Str (List SevenZEntry))} {rows : List Row}
    (h : allRows (fun block => block.toOption.bind (allRows sevenZRows)) blocks = some rows)
    (hrows : exec (fsHandler expand) (appendEach W w rows) fs = (.ok w', fs')) :
    exec (fsHandler expand) (forEachEntries (pack7zEntry W) (w, none) blocks) fs
      = (.ok ((w', none), .ok ()), fs') := by
  induction blocks generalizing rows w fs with
  | nil =>
    cases h
    cases hrows
    rfl
  | cons block blocks ih =>
    obtain ⟨new, rest, hnew, hrest, rfl⟩ := allRows_cons_eq_some h
    obtain ⟨as, rfl, hnew⟩ := of_toOption_bind hnew
    obtain ⟨w₁, fs₁, hfirst, hrows⟩ := exec_appendEach_ok hrows
    have hblock := exec_forEachInBlock hnew hfirst
    rw [forEachEntries, exec_call]
    show exec _ ((forEachInBlock (pack7zEntry W) (w, none) as).andThen _) fs = _
    rw [exec_andThen _ (by rw [hblock]), hblock]
    exact ih hrest hrows

/-- **Where nothing fails, packing an archive is appending its rows.** -/
theorem exec_packEntries {rows : List Row} (hread : fs.read archive = some bs)
    (hrows : archiveRows libs fmt bs = some rows)
    (hsizes : ∀ listed, libs.zip bs = .ok listed → ∀ e, .ok e ∈ listed → e.size ≤ maxCapacity)
    (h : exec (fsHandler expand) (appendEach W w rows) fs = (.ok w', fs')) :
    exec (fsHandler expand) (packEntries W libs fmt archive w) fs = (.ok w', fs') := by
  have hbytes : fsHandler expand (.read archive) fs = (.ok bs, fs) := by
    simp only [fsHandler, hread]
  cases fmt with
  | zip =>
    obtain ⟨listed, hlisted, hall⟩ := of_toOption_bind hrows
    show exec _ (packZipEntries W libs archive w) fs = _
    unfold packZipEntries readFile
    rw [call_andThen, exec_call, hbytes]
    show exec _ ((fromLibrary _ (libs.zip bs)).andThen _) fs = _
    rw [hlisted]
    show exec _ (packEach (packZipEntry W archive) w listed.zipIdx) fs = _
    rw [← List.zipIdx_map_fst 0 listed, allRows_map] at hall
    rw [exec_packEach_rows (fun a ha new hnew => exec_packZipEntry (fun e he => ?_) hnew) hall w fs,
      h]
    have hmem : a.1 ∈ listed := List.fst_mem_of_mem_zipIdx ha
    rw [he] at hmem
    exact hsizes listed hlisted e hmem
  | rar =>
    obtain ⟨rar, hrar, hall⟩ := Option.bind_eq_some_iff.mp hrows
    obtain ⟨listed, hlisted, hall⟩ := of_toOption_bind hall
    show exec _ (packRarEntries W libs archive w) fs = _
    unfold packRarEntries
    rw [hrar]
    dsimp only
    rw [exec_call, hbytes]
    show exec _ ((fromLibrary (badRar archive) (rar bs)).andThen _) fs = _
    rw [hlisted]
    show exec _ (packEach (packRarEntry W archive) w listed) fs = _
    rw [exec_packEach_rows (fun a _ new hnew => exec_packRarEntry hnew) hall w fs, h]
  | sevenZ =>
    obtain ⟨blocks, hblocks, hall⟩ := of_toOption_bind hrows
    have hloop := exec_forEachEntries hall h
    show exec _ (pack7zEntries W libs archive w) fs = _
    unfold pack7zEntries
    rw [exec_call, hbytes]
    show exec _ ((fromLibrary (bad7z archive) (libs.sevenZ bs)).andThen _) fs = _
    rw [hblocks]
    show exec _ ((forEachEntries (pack7zEntry W) (w, none) blocks).andThen _) fs = _
    rw [exec_andThen _ (by rw [hloop]), hloop]
    rfl
  | _ => rw [exec_packEntries_tar (by simp [IsTar]) hread hrows, h]

/-- **Where nothing fails, an archive of acceptable and distinct names is packed**, if the
paths of each row group fit in a column and each file in a vector. -/
theorem packs_of_lists (hw : PackingRows W fs₀ out opts [] w fs)
    (hread : fs.read archive = some bs) (hlists : Lists libs fmt bs entries)
    (hnames : Acceptable entries)
    (hdistinct : (entries.map fun e => entryStoredPath e.name).Nodup)
    (hfits : ∀ g ∈ flushGroups (max opts.maxRowGroupBytes 1)
      (rowsWhere (takenAsFile fmt) fmt entries), textBytes (g.map Prod.fst) ≤ maxTextBytes)
    (hsizes : ∀ listed, libs.zip bs = .ok listed → ∀ e, .ok e ∈ listed → e.size ≤ maxCapacity) :
    ∃ w' fs', exec (fsHandler expand) (packEntries W libs fmt archive w) fs = (.ok w', fs') ∧
      PackingRows W fs₀ out opts (rowsWhere (takenAsFile fmt) fmt entries) w' fs' := by
  obtain ⟨w', hok, hw'⟩ := exec_packEach_packing expand hw _
    (nodup_keys_rowsWhere hdistinct _ fmt) hfits
  exact ⟨w', _, exec_packEntries hread (archiveRows_of_lists hlists hnames) hsizes
    (Prod.ext hok rfl), hw'⟩

end Stored

end ParquetFileFs
