import ParquetFileFs.Pack.Frame
import ParquetFileFs.Pack.PlainTar
import ParquetFileFs.Pack.RoundTrip

/-!
# Compressed tar archives

A compressed tar archive is packed like the tar archive it decompresses to, as
far as the decoder decompresses it.  A compressed file may be made of several
members; the gzip, bzip2 and xz decoders stop after the first, the zstd decoder
goes on to the end of the file.

## Main definitions

* `TarCompression` — the compressions of a tar archive.
* `DecodesMembers` — what its decoder makes of a file of several members.
* `ReadsTar` — the tar library reads its input front to back.

## Main results

* `exec_packArchive_tar` — packing a tar archive, compressed or not, does what
  packing its rows does.
* `compressed_packs_iff` — **a compressed archive is packed like the plain one if
  and only if its decoder reaches all regular files.**
-/

namespace ParquetFileFs

open Program

section Exec

variable {W : ParquetWriter} {out archive : Str} {opts : PackOptions} {fs fs₀ : Files}
  {w : PackWriter} {rows : List Row} {libs : ArchiveLibs}
  {expand : Files → Str → Except Str (List (Except (Str × Str) Str))}

/-! ### Packing is packing the rows -/

/-- Append rows one after another. -/
def appendEach (W : ParquetWriter) (w : PackWriter) (rows : List Row) : FileM PackWriter :=
  packEach (fun w r => w.append W r.1 r.2) w rows

theorem exec_appendEach_append (rows rows' : List Row) (w : PackWriter) (fs : Files) :
    exec (fsHandler expand) (appendEach W w (rows ++ rows')) fs
      = exec (fsHandler expand) ((appendEach W w rows).andThen fun w' => appendEach W w' rows')
          fs := by
  induction rows generalizing w fs with
  | nil => rfl
  | cons r rows ih =>
    show exec _ ((w.append W r.1 r.2).andThen fun w' => appendEach W w' (rows ++ rows')) fs = _
    rw [exec_andThen_congr _ rfl fun w' _ => ih w' _, ← andThen_assoc]
    rfl

theorem exec_appendEach_singleton (w : PackWriter) (r : Row) (fs : Files) :
    exec (fsHandler expand) (appendEach W w [r]) fs
      = exec (fsHandler expand) (w.append W r.1 r.2) fs := by
  show exec _ ((w.append W r.1 r.2).andThen fun w' => .ret (.ok w')) fs = _
  rw [andThen_ret]

/-- If each element is packed as its rows, so are all of them. -/
theorem exec_packEach_rows {α : Type} {step : PackWriter → α → FileM PackWriter}
    {f : α → Option (List Row)} {as : List α} (hstep : ∀ a ∈ as, ∀ new, f a = some new → ∀ w fs,
      exec (fsHandler expand) (step w a) fs = exec (fsHandler expand) (appendEach W w new) fs)
    (h : allRows f as = some rows) (w : PackWriter) (fs : Files) :
    exec (fsHandler expand) (packEach step w as) fs
      = exec (fsHandler expand) (appendEach W w rows) fs := by
  induction as generalizing rows w fs with
  | nil =>
    cases h
    rfl
  | cons a as ih =>
    obtain ⟨new, rest, hnew, hrest, rfl⟩ := allRows_cons_eq_some h
    rw [exec_appendEach_append]
    exact exec_andThen_congr _ (hstep a List.mem_cons_self new hnew w fs) fun w' _ =>
      ih (fun b hb => hstep b (List.mem_cons_of_mem a hb)) hrest w' _

/-- An entry that can be read and named is packed as its row. -/
theorem exec_packTarEntry {entry : Except Str TarEntry} {new : List Row}
    (h : entry.toOption.bind tarRows = some new) (w : PackWriter) (fs : Files) :
    exec (fsHandler expand) (packTarEntry W archive w entry) fs
      = exec (fsHandler expand) (appendEach W w new) fs := by
  cases entry with
  | error e => cases h
  | ok e =>
    show exec _ (if ¬e.isFile then _ else _) fs = _
    rcases of_entryRows h with ⟨hfile, rfl⟩ | ⟨hfile, n, stored, d, hname, hstored, hdata, rfl⟩
    · rw [if_pos (by simp [hfile])]
      rfl
    · rw [if_neg (by simp [hfile]), exec_appendEach_singleton, hname]
      show exec _ ((Program.ret (lift (entryStoredPath n))).andThen _) fs = _
      rw [hstored, hdata]
      rfl

/-- The formats that are read as a tar stream. -/
def IsTar : ArchiveFormat → Prop
  | .zip | .rar | .sevenZ => False
  | _ => True

theorem exec_packEntries_tar {fmt : ArchiveFormat} {bs : Bytes} (hfmt : IsTar fmt)
    (hread : fs.read archive = some bs) (hrows : archiveRows libs fmt bs = some rows)
    (w : PackWriter) :
    exec (fsHandler expand) (packEntries W libs fmt archive w) fs
      = exec (fsHandler expand) (appendEach W w rows) fs := by
  have hfile : exec (fsHandler expand) (readFile archive) fs = (.ok bs, fs) := by
    unfold readFile
    rw [exec_call]
    simp only [fsHandler, hread]
    rfl
  have hok : (exec (fsHandler expand) (readFile archive) fs).1 = .ok bs := by rw [hfile]
  have htar : ∀ reader, listedRows tarRows (libs.tar reader) = some rows →
      exec (fsHandler expand) (packTarEntries W libs reader archive w) fs
        = exec (fsHandler expand) (appendEach W w rows) fs := by
    intro reader h
    obtain ⟨entries, hentries, h⟩ := Option.bind_eq_some_iff.mp h
    cases htar : libs.tar reader with
    | error e => simp [htar, Except.toOption] at hentries
    | ok entries' =>
      rw [htar] at hentries
      cases hentries
      unfold packTarEntries
      rw [htar]
      exact exec_packEach_rows (fun a _ new hnew => exec_packTarEntry hnew) h w fs
  unfold packEntries
  cases fmt with
  | zip => exact hfmt.elim
  | rar => exact hfmt.elim
  | sevenZ => exact hfmt.elim
  | tarZst =>
    obtain ⟨reader, hreader, h⟩ := Option.bind_eq_some_iff.mp hrows
    cases hzst : libs.zst bs with
    | error e => simp [hzst, Except.toOption] at hreader
    | ok reader' =>
      rw [hzst] at hreader
      cases hreader
      dsimp only
      rw [exec_andThen _ hok, hfile, hzst]
      exact htar reader h
  | _ =>
    dsimp only
    rw [exec_andThen _ hok, hfile]
    exact htar _ hrows

/-- The check for files passes where there are rows. -/
theorem exec_packEntries_requireFiles {fmt : ArchiveFormat} {bs : Bytes} (hfmt : IsTar fmt)
    (hw : PackingRows W fs₀ out opts [] w fs) (hread : fs.read archive = some bs)
    (hrows : archiveRows libs fmt bs = some rows) (hne : rows ≠ []) :
    exec (fsHandler expand) ((packEntries W libs fmt archive w).andThen (requireFiles archive)) fs
      = exec (fsHandler expand) (appendEach W w rows) fs := by
  rw [andThen, exec_bind, exec_packEntries_tar hfmt hread hrows]
  have hwp : wp (fsWorld expand) (KeepsOthers out) (appendEach W w rows)
      (fun r _ fs' => Steps (PackingRows W fs₀ out opts ([] ++ rows)) fs₀ out r fs') fs :=
    wp_packEach_append rows hw
  obtain ⟨es, hsteps⟩ := wp_exec (fsWorld_fsHandler expand) hwp
  cases hres : exec (fsHandler expand) (appendEach W w rows) fs with
  | mk r fs' =>
    rw [hres] at hsteps
    cases r with
    | error e => rfl
    | ok w' =>
      obtain ⟨_, hbuf, -⟩ := hsteps.buffers
      have hfiles : w'.files ≠ 0 := by
        rw [hbuf.files, List.nil_append]
        simpa using hne
      show exec _ (requireFiles archive w') fs' = _
      rw [requireFiles, if_neg hfiles]
      rfl

/-- **Packing a tar archive, compressed or not, does what packing its rows does.** -/
theorem exec_packArchive_tar {fmt : ArchiveFormat} {bs : Bytes} (hfmt : IsTar fmt)
    (harch : archive ≠ tmpName out) (hread : fs₀.read archive = some bs)
    (hrows : archiveRows libs fmt bs = some rows) (hne : rows ≠ []) :
    exec (fsHandler expand) (packArchive W libs archive (some fmt) out opts) fs₀
      = exec (fsHandler expand) (packRows W rows out opts) fs₀ := by
  refine exec_andThen_congr _ rfl fun w hcreate => ?_
  have hw := packingRows_of_exec_create hcreate
  refine exec_andThen_congr _ (exec_onError_congr _ ?_) fun _ _ => rfl
  -- the archive is still there when it is read
  refine exec_packEntries_requireFiles hfmt hw ?_ hrows hne
  rw [hw.untouched archive harch, hread]

/-- What a call that succeeded has packed. -/
theorem rows_of_exec_packArchive {fmt : ArchiveFormat} {sum : PackSummary}
    (h : exec (fsHandler expand) (packArchive W libs archive (some fmt) out opts) fs₀
      = (.ok sum, fs)) :
    ∃ rows bs, rows ≠ [] ∧ sum.files = rows.length ∧ PublishedRows W fs₀ out opts rows fs ∧
      (archive ≠ tmpName out → fs₀.read archive = some bs) ∧
      (archive = tmpName out → bs = W.start opts.schema opts.compression) ∧
      archiveRows libs fmt bs = some rows := by
  have hwp : wp (fsWorld expand) (KeepsOthers out)
      (packArchive W libs archive (some fmt) out opts) (Ends W fs₀ out opts (Distinct
        ((PackCall.ofArchive libs archive (some fmt)).Accepts W expand fs₀ out opts))) fs₀ :=
    wp_program (.ofArchive libs archive (some fmt))
  obtain ⟨es, hends⟩ := wp_exec (fsWorld_fsHandler expand) hwp
  rw [h] at hends
  obtain ⟨rows, ⟨⟨hne, fmt', hfmt, bs, -, hothers, htmp, hrows⟩, -⟩, hsum, hpub⟩ := hends
  have hsame : fmt = fmt' := by
    rcases hfmt with hfmt | ⟨hfmt, -⟩
    · exact Option.some.inj hfmt
    · cases hfmt
  subst hsame
  exact ⟨rows, bs, hne, by rw [hsum], hpub, hothers, htmp, hrows⟩

end Exec

/-! ### Decoders and the tar library -/

/-- The compressions of a tar archive. -/
inductive TarCompression
  | gz
  | bz2
  | xz
  | zst
  deriving DecidableEq, Repr

def TarCompression.format : TarCompression → ArchiveFormat
  | .gz => .tarGz
  | .bz2 => .tarBz2
  | .xz => .tarXz
  | .zst => .tarZst

/-- What the decoder makes of a file of several members, each of which
decompresses to something: the first alone, or, with zstd, all of them. -/
def DecodesMembers (libs : ArchiveLibs) (c : TarCompression) (decompress : Bytes → Option Bytes) :
    Prop :=
  ∀ (m d : Bytes) (ms ds : List Bytes),
    List.Forall₂ (fun m d => decompress m = some d) (m :: ms) (d :: ds) →
    match c with
    | .gz => libs.gz (m :: ms).flatten = ⟨d, none⟩
    | .bz2 => libs.bz2 (m :: ms).flatten = ⟨d, none⟩
    | .xz => libs.xz (m :: ms).flatten = ⟨d, none⟩
    | .zst => libs.zst (m :: ms).flatten = .ok ⟨(d :: ds).flatten, none⟩

/-- The tar library reads its input front to back, as the reader does. -/
def ReadsTar (libs : ArchiveLibs) (R : ForwardReader UInt8 TarEntry Str) : Prop :=
  ∀ bs items, R.Items bs items → libs.tar ⟨bs, none⟩ = .ok items

/-- The rows of what a tar stream is read as. -/
def itemRows (items : List (Except Str TarEntry)) : Option (List Row) :=
  allRows (fun e => e.toOption.bind tarRows) items

section Covers

variable {R : ForwardReader UInt8 TarEntry Str} {p bs : Bytes} {rows rows' : List Row}
  {items items' : List (Except Str TarEntry)} {libs : ArchiveLibs}

/-- Nothing that failed has rows. -/
theorem itemRows_of_error {e : Str} (h : .error e ∈ items) : itemRows items = none := by
  induction items with
  | nil => cases h
  | cons x items ih =>
    by_contra hsome
    obtain ⟨rows, hrows⟩ := Option.ne_none_iff_exists'.mp hsome
    obtain ⟨new, rest, hnew, hrest, -⟩ := allRows_cons_eq_some hrows
    rcases List.mem_cons.mp h with rfl | h
    · cases hnew
    · exact absurd (ih h) (by rw [itemRows, hrest]; exact Option.some_ne_none _)

/-- Entries without a regular file have no rows, and only those. -/
theorem itemRows_eq_nil_iff (h : itemRows items = some rows) :
    rows = [] ↔ ∀ e, .ok e ∈ items → ¬e.isFile = true := by
  induction items generalizing rows with
  | nil =>
    cases h
    simp
  | cons x items ih =>
    obtain ⟨new, rest, hnew, hrest, rfl⟩ := allRows_cons_eq_some h
    rw [List.append_eq_nil_iff, ih hrest]
    cases x with
    | error e => cases hnew
    | ok e =>
      have hself : new = [] ↔ ¬e.isFile = true := by
        have hnew : entryRows e.isFile e.name e.data = some new := hnew
        rcases of_entryRows hnew with ⟨hfile, rfl⟩ | ⟨hfile, n, stored, d, -, -, -, rfl⟩
        · simp [hfile]
        · simp [hfile]
      rw [hself]
      constructor
      · intro ⟨hx, hitems⟩ e' he'
        rcases List.mem_cons.mp he' with he' | he'
        · cases he'
          exact hx
        · exact hitems e' he'
      · intro hall
        exact ⟨hall e List.mem_cons_self, fun e' he' => hall e' (List.mem_cons_of_mem _ he')⟩

/-- A part of a stream that lacks no regular file has all rows. -/
theorem itemRows_of_covers (hc : R.Covers (·.isFile = true) p bs) (hp : p <+: bs)
    (hitems : R.Items bs items) (hrows : itemRows items = some rows) (hitems' : R.Items p items') :
    itemRows items' = some rows := by
  induction hc generalizing rows items items' with
  | done hstep hused =>
    have hnext := R.of_prefix _ _ hp hused
    cases ForwardReader.items_of_done hitems hstep
    cases ForwardReader.items_of_done hitems' (by rw [hnext, hstep])
    exact hrows
  | rest hno =>
    cases ForwardReader.items_nil hitems'
    rw [(itemRows_eq_nil_iff hrows).mpr (hno items hitems)]
    rfl
  | item hstep hused _ ih =>
    have hnext := R.of_prefix _ _ hp hused
    obtain ⟨tail, rfl, htail⟩ := ForwardReader.items_of_item hitems hstep
    obtain ⟨tail', rfl, htail'⟩ := ForwardReader.items_of_item hitems' (by rw [hnext, hstep])
    obtain ⟨new, rest, hnew, hrest, rfl⟩ := allRows_cons_eq_some hrows
    rw [hnext] at htail'
    exact allRows_cons hnew (ih (hp.drop _) htail hrest htail')

/-- A part of a stream that has as many rows as the whole lacks no regular file. -/
theorem covers_of_itemRows (hitems : R.Items bs items) (hp : p <+: bs)
    (hrows : itemRows items = some rows) (hitems' : R.Items p items')
    (hrows' : itemRows items' = some rows') (hlength : rows'.length = rows.length) :
    R.Covers (·.isFile = true) p bs := by
  -- a part that ends in the middle of a step has no rows at all
  have hcut : ∀ {p bs : Bytes} {items' : List (Except Str TarEntry)} {rows' : List Row},
      p <+: bs → p ≠ [] → R.Items p items' → itemRows items' = some rows' →
      (R.next bs).2 ≤ p.length := by
    intro p bs items' rows' hp hne hitems' hrows'
    by_contra hlt
    obtain ⟨e, he⟩ := ForwardReader.items_of_cut hp hne (Nat.lt_of_not_le hlt) hitems'
    rw [itemRows_of_error he] at hrows'
    cases hrows'
  -- one that has nothing is enough where no rows follow
  have hnil : ∀ {bs : Bytes} {items items' : List (Except Str TarEntry)} {rows rows' : List Row},
      R.Items bs items → itemRows items = some rows → R.Items [] items' →
      itemRows items' = some rows' → rows'.length = rows.length →
      R.Covers (·.isFile = true) [] bs := by
    intro bs items items' rows rows' hitems hrows hitems' hrows' hlength
    cases ForwardReader.items_nil hitems'
    cases hrows'
    have hempty : rows = [] := List.eq_nil_of_length_eq_zero hlength.symm
    refine .rest fun items'' hitems'' => ?_
    rw [ForwardReader.items_unique hitems hitems'']
    exact (itemRows_eq_nil_iff hrows).mp hempty
  induction hitems generalizing p rows rows' items' with
  | @fault bs cut e hstep =>
    rw [itemRows_of_error (by simp : Except.error e ∈ _)] at hrows
    cases hrows
  | done hstep =>
    by_cases hne : p = []
    · subst hne
      exact hnil (.done hstep) hrows hitems' hrows' hlength
    · exact .done hstep (hcut hp hne hitems' hrows')
  | item hstep htail ih =>
    by_cases hne : p = []
    · subst hne
      exact hnil (.item hstep htail) hrows hitems' hrows' hlength
    · have hused := hcut hp hne hitems' hrows'
      have hnext := R.of_prefix _ _ hp hused
      obtain ⟨tail', rfl, htail'⟩ := ForwardReader.items_of_item hitems' (by rw [hnext, hstep])
      obtain ⟨new, rest, hnew, hrest, rfl⟩ := allRows_cons_eq_some hrows
      obtain ⟨new', rest', hnew', hrest', rfl⟩ := allRows_cons_eq_some hrows'
      rw [hnext] at htail'
      cases hnew.symm.trans hnew'
      have hlength' : rest'.length = rest.length := by
        rw [List.length_append, List.length_append] at hlength
        omega
      exact .item hstep hused (ih (hp.drop _) hrest htail' hrest' hlength')

/-- What the decoder delivers of data that come in several members. -/
def TarCompression.delivers (c : TarCompression) (d : Bytes) (ds : List Bytes) : Bytes :=
  if c = .zst then (d :: ds).flatten else d

theorem archiveRows_tar (htar : ReadsTar libs R) (hitems : R.Items bs items) :
    archiveRows libs .tar bs = itemRows items := by
  show listedRows tarRows (libs.tar ⟨bs, none⟩) = _
  rw [htar bs items hitems]
  rfl

/-- The rows of a compressed archive are those of what its decoder delivers. -/
theorem archiveRows_compressed {c : TarCompression} {decompress : Bytes → Option Bytes}
    {m d : Bytes} {ms ds : List Bytes} (htar : ReadsTar libs R)
    (hdec : DecodesMembers libs c decompress)
    (hmembers : List.Forall₂ (fun m d => decompress m = some d) (m :: ms) (d :: ds))
    (hitems : R.Items (c.delivers d ds) items) :
    archiveRows libs c.format (m :: ms).flatten = itemRows items := by
  rw [← archiveRows_tar htar hitems]
  have hdec := hdec m d ms ds hmembers
  cases c with
  | gz =>
    show listedRows tarRows (libs.tar (libs.gz _)) = _
    rw [hdec]
    rfl
  | bz2 =>
    show listedRows tarRows (libs.tar (libs.bz2 _)) = _
    rw [hdec]
    rfl
  | xz =>
    show listedRows tarRows (libs.tar (libs.xz _)) = _
    rw [hdec]
    rfl
  | zst =>
    show (libs.zst _).toOption.bind _ = _
    rw [hdec]
    rfl

theorem isTar_format (c : TarCompression) : IsTar c.format := by
  cases c <;> trivial

end Covers

/-! ### Compressed and plain archives -/

section Packs

variable {W : ParquetWriter} {expand : Files → Str → Except Str (List (Except (Str × Str) Str))}
  {libs : ArchiveLibs} {R : ForwardReader UInt8 TarEntry Str} {c : TarCompression}
  {decompress : Bytes → Option Bytes} {m d : Bytes} {ms ds : List Bytes} {fs₀ fs : Files}
  {archive plain out : Str} {opts : PackOptions} {sum : PackSummary}

/-- **A compressed archive is packed like the plain one if and only if** it is
not the temporary file of the call and its decoder reaches all regular files:
it is a zstd archive, or its first member covers the whole. -/
theorem compressed_packs_iff (htar : ReadsTar libs R) (hdec : DecodesMembers libs c decompress)
    (hmembers : List.Forall₂ (fun m d => decompress m = some d) (m :: ms) (d :: ds))
    (hstart : (PackCall.ofArchive libs archive (some c.format)).StartHasNoFiles W opts)
    (hread : fs₀.read archive = some (m :: ms).flatten)
    (hplain : fs₀.read plain = some (d :: ds).flatten) (hne : plain ≠ tmpName out)
    (hpacks : exec (fsHandler expand) (packArchive W libs plain (some .tar) out opts) fs₀
      = (.ok sum, fs)) :
    (∃ rows, archiveRows libs .tar (d :: ds).flatten = some rows ∧
        PublishedRows W fs₀ out opts rows fs) ∧
      (exec (fsHandler expand) (packArchive W libs archive (some c.format) out opts) fs₀
          = (.ok sum, fs) ↔
        archive ≠ tmpName out ∧ (c = .zst ∨ R.Covers (·.isFile = true) d (d :: ds).flatten)) := by
  obtain ⟨rows, bs, hrows_ne, hsum, hpub, hbs, -, hrows⟩ := rows_of_exec_packArchive hpacks
  cases Option.some.inj ((hbs hne).symm.trans hplain)
  refine ⟨⟨rows, hrows, hpub⟩, ?_⟩
  obtain ⟨items, hitems⟩ := R.exists_items (d :: ds).flatten
  obtain ⟨items', hitems'⟩ := R.exists_items (c.delivers d ds)
  have hsame := archiveRows_compressed htar hdec hmembers hitems'
  have hrows' := hrows
  rw [archiveRows_tar htar hitems] at hrows'
  have hp : d <+: (d :: ds).flatten := by
    rw [List.flatten_cons]
    exact List.prefix_append d ds.flatten
  constructor
  · intro hpacks'
    obtain ⟨got, bs', hgot_ne, hsum', -, hbs', hstart', hgot⟩ := rows_of_exec_packArchive hpacks'
    have harch : archive ≠ tmpName out := by
      intro heq
      rw [hstart' heq] at hgot
      exact hgot_ne (hstart _ _ hgot)
    cases Option.some.inj ((hbs' harch).symm.trans hread)
    refine ⟨harch, ?_⟩
    by_cases hc : c = .zst
    · exact Or.inl hc
    · -- as many rows as the plain archive has, so none is missing
      rw [TarCompression.delivers, if_neg hc] at hitems'
      rw [hsame] at hgot
      exact Or.inr (covers_of_itemRows hitems hp hrows' hitems' hgot (by rw [← hsum', hsum]))
  · intro ⟨harch, hcovers⟩
    have hall : itemRows items' = some rows := by
      by_cases hc : c = .zst
      · rw [TarCompression.delivers, if_pos hc] at hitems'
        rw [ForwardReader.items_unique hitems hitems']
        exact hrows'
      · rw [TarCompression.delivers, if_neg hc] at hitems'
        exact itemRows_of_covers (hcovers.resolve_left hc) hp hitems hrows' hitems'
    rw [← hpacks, exec_packArchive_tar (isTar_format c) harch hread (hsame.trans hall) hrows_ne,
      exec_packArchive_tar (show IsTar .tar from trivial) hne hplain hrows hrows_ne]

end Packs

/-! ### Files of two members -/

/-- A member: its length in two bytes, and the data as they are. -/
def member (d : Bytes) : Bytes :=
  UInt8.ofNat (d.length / 256) :: UInt8.ofNat (d.length % 256) :: d

def unpackMember : Bytes → Option Bytes
  | hi :: lo :: d => if d.length = 256 * hi.toNat + lo.toNat then some d else none
  | _ => none

/-- A decoder that stops after the first member. -/
def firstMember : Bytes → Stream
  | hi :: lo :: rest => ⟨rest.take (256 * hi.toNat + lo.toNat), none⟩
  | _ => ⟨[], some "invalid gzip header".toList⟩

def memberLibs : ArchiveLibs :=
  { noLibs with
    gz := firstMember
    tar := fun s => .ok (plainTarItems (s.bytes.length + 1) s.bytes
      ++ s.fault.toList.map Except.error) }

theorem readsTar_memberLibs : ReadsTar memberLibs plainTarReader := by
  intro bs items hitems
  show Except.ok (plainTarItems (bs.length + 1) bs ++ []) = _
  rw [plainTarItems_eq hitems (Nat.lt_succ_self _), List.append_nil]

theorem decodesMembers_memberLibs : DecodesMembers memberLibs .gz unpackMember := by
  intro m d ms ds h
  obtain ⟨hm, -⟩ := List.forall₂_cons.mp h
  match m, hm with
  | hi :: lo :: d', hm =>
    rw [unpackMember] at hm
    split_ifs at hm with hlen
    cases hm
    show firstMember (hi :: lo :: d ++ ms.flatten) = _
    rw [List.cons_append, List.cons_append, firstMember, ← hlen, List.take_left]

theorem startHasNoFiles_memberLibs (archive : Str) :
    (PackCall.ofArchive memberLibs archive (some .tarGz)).StartHasNoFiles plainWriter {} := by
  intro fmt rows h
  cases fmt <;> cases h

def zeros (n : ℕ) : Bytes := List.replicate n 0

/-- A tar entry of a file of one byte. -/
def tarFile (name b : UInt8) : Bytes :=
  name :: zeros 123 ++ List.replicate 10 0x30 ++ [0x31, 0] ++ zeros 20 ++ 0x30 :: zeros 355
    ++ b :: zeros 511

/-- A plain archive, and the same data in two members. -/
def memberFiles (d d' : Bytes) : Files :=
  (FileSystem.empty.put "x.tar".toList (d ++ d')).put "x.tgz".toList (member d ++ member d')

/-- An archive of rows with names of one letter is packed. -/
theorem packs_memberFiles {fmt : ArchiveFormat} {archive : Str} {bs d d' : Bytes} {rows : List Row}
    (hfmt : IsTar fmt) (harch : archive ≠ "o.tmp".toList)
    (hread : (memberFiles d d').read archive = some bs)
    (hrows : archiveRows memberLibs fmt bs = some rows) (hne : rows ≠ [])
    (hnodup : (rows.map Prod.fst).Nodup)
    (hfits : ∀ g ∈ flushGroups (max (32 * 1024 * 1024) 1) rows,
      textBytes (g.map Prod.fst) ≤ maxTextBytes) :
    ∃ fs, exec (fsHandler expandNothing)
      (packArchive plainWriter memberLibs archive (some fmt) "o".toList {}) (memberFiles d d')
        = (.ok ⟨rows.length, Grouping.total rowSize rows⟩, fs) := by
  rw [exec_packArchive_tar hfmt harch hread hrows hne]
  have hpacked : ∃ fs, exec (fsHandler expandNothing) (packRows plainWriter rows "o".toList {})
      (memberFiles d d') = (.ok ⟨rows.length, Grouping.total rowSize rows⟩, fs) ∧
      PublishedRows plainWriter (memberFiles d d') "o".toList {} rows fs :=
    exec_packRows hnodup hfits rfl rfl
  obtain ⟨fs, hexec, -⟩ := hpacked
  exact ⟨fs, hexec⟩

/-- The first member holds the file and the end of the archive. -/
def wholeMember : Bytes := tarFile 0x61 1 ++ zeros 512

set_option maxRecDepth 20000 in
theorem wholeMember_rows :
    archiveRows memberLibs .tar (wholeMember ++ zeros 512) = some [("a".toList, [1])] := rfl

set_option maxRecDepth 20000 in
theorem covers_wholeMember : plainTarReader.Covers (·.isFile = true) wholeMember
    (wholeMember ++ zeros 512) := by
  have hfile : plainTarNext (wholeMember ++ zeros 512)
      = (.item ⟨0x30, .ok "a".toList, .ok [1]⟩, 1024) := rfl
  have hend : plainTarNext ((wholeMember ++ zeros 512).drop 1024) = (.done, 512) := rfl
  have hlen : wholeMember.length = 1536 := rfl
  have hused : (plainTarReader.next (wholeMember ++ zeros 512)).2 = 1024 := congrArg Prod.snd hfile
  refine .item (congrArg Prod.fst hfile) (by rw [hused, hlen]; decide) ?_
  rw [hused]
  refine .done (congrArg Prod.fst hend) ?_
  show (plainTarNext ((wholeMember ++ zeros 512).drop 1024)).2 ≤ _
  rw [hend, List.length_drop, hlen]

set_option maxRecDepth 20000 in
theorem unpackMember_wholeMember : List.Forall₂ (fun m d => unpackMember m = some d)
    [member wholeMember, member (zeros 512)] [wholeMember, zeros 512] :=
  .cons rfl (.cons rfl .nil)

theorem fits_small {rows : List Row} (h : (flushGroups (max (32 * 1024 * 1024) 1) rows)
    = [rows]) (hrows : textBytes (rows.map Prod.fst) ≤ maxTextBytes) :
    ∀ g ∈ flushGroups (max (32 * 1024 * 1024) 1) rows,
      textBytes (g.map Prod.fst) ≤ maxTextBytes := by
  intro g hg
  rw [h, List.mem_singleton] at hg
  rwa [hg]

/-- What follows the first member is not needed. -/
theorem compressed_packs_sample :
    ∃ fs, exec (fsHandler expandNothing)
        (packArchive plainWriter memberLibs "x.tar".toList (some .tar) "o".toList {})
        (memberFiles wholeMember (zeros 512)) = (.ok ⟨1, 1⟩, fs) ∧
      exec (fsHandler expandNothing)
        (packArchive plainWriter memberLibs "x.tgz".toList (some .tarGz) "o".toList {})
        (memberFiles wholeMember (zeros 512)) = (.ok ⟨1, 1⟩, fs) := by
  have hpacks : ∃ fs, exec (fsHandler expandNothing)
      (packArchive plainWriter memberLibs "x.tar".toList (some .tar) "o".toList {})
      (memberFiles wholeMember (zeros 512)) = (.ok ⟨1, 1⟩, fs) :=
    packs_memberFiles (show IsTar .tar from trivial) (by decide) rfl wholeMember_rows (by simp)
      (by simp) (fits_small rfl (by decide))
  obtain ⟨fs, hpacks⟩ := hpacks
  have hread : (memberFiles wholeMember (zeros 512)).read "x.tgz".toList
      = some [member wholeMember, member (zeros 512)].flatten := by
    rw [List.flatten_cons, List.flatten_singleton]
    rfl
  have hplain : (memberFiles wholeMember (zeros 512)).read "x.tar".toList
      = some [wholeMember, zeros 512].flatten := by
    rw [List.flatten_cons, List.flatten_singleton]
    rfl
  have hcovers : plainTarReader.Covers (·.isFile = true) wholeMember
      [wholeMember, zeros 512].flatten := by
    rw [List.flatten_cons, List.flatten_singleton]
    exact covers_wholeMember
  exact ⟨fs, hpacks, (compressed_packs_iff readsTar_memberLibs decodesMembers_memberLibs
    unpackMember_wholeMember (startHasNoFiles_memberLibs _) hread hplain (by decide) hpacks).2.mpr
    ⟨by decide, Or.inr hcovers⟩⟩

/-- The second of two files, and the end of the archive. -/
def secondMember : Bytes := tarFile 0x62 2 ++ zeros 512

set_option maxRecDepth 20000 in
theorem secondMember_rows : archiveRows memberLibs .tar (tarFile 0x61 1 ++ secondMember)
    = some [("a".toList, [1]), ("b".toList, [2])] := rfl

set_option maxRecDepth 20000 in
theorem firstMember_rows :
    archiveRows memberLibs .tarGz (member (tarFile 0x61 1) ++ member secondMember)
      = some [("a".toList, [1])] := rfl

set_option maxRecDepth 20000 in
/-- A file that has the second member to itself is lost without an error. -/
theorem member_lost_sample :
    ReadsTar memberLibs plainTarReader ∧ DecodesMembers memberLibs .gz unpackMember ∧
      List.Forall₂ (fun m d => unpackMember m = some d)
        [member (tarFile 0x61 1), member secondMember] [tarFile 0x61 1, secondMember] ∧
      ∃ fs fs', exec (fsHandler expandNothing)
          (packArchive plainWriter memberLibs "x.tar".toList (some .tar) "o".toList {})
          (memberFiles (tarFile 0x61 1) secondMember) = (.ok ⟨2, 2⟩, fs) ∧
        exec (fsHandler expandNothing)
          (packArchive plainWriter memberLibs "x.tgz".toList (some .tarGz) "o".toList {})
          (memberFiles (tarFile 0x61 1) secondMember) = (.ok ⟨1, 1⟩, fs') := by
  have hplain : ∃ fs, exec (fsHandler expandNothing)
      (packArchive plainWriter memberLibs "x.tar".toList (some .tar) "o".toList {})
      (memberFiles (tarFile 0x61 1) secondMember) = (.ok ⟨2, 2⟩, fs) :=
    packs_memberFiles (show IsTar .tar from trivial) (by decide) rfl secondMember_rows (by simp)
      (by decide) (fits_small rfl (by decide))
  have hgz : ∃ fs, exec (fsHandler expandNothing)
      (packArchive plainWriter memberLibs "x.tgz".toList (some .tarGz) "o".toList {})
      (memberFiles (tarFile 0x61 1) secondMember) = (.ok ⟨1, 1⟩, fs) :=
    packs_memberFiles (show IsTar .tarGz from trivial) (by decide) rfl firstMember_rows (by simp)
      (by simp) (fits_small rfl (by decide))
  obtain ⟨fs, hplain⟩ := hplain
  obtain ⟨fs', hgz⟩ := hgz
  exact ⟨readsTar_memberLibs, decodesMembers_memberLibs, .cons rfl (.cons rfl .nil), fs, fs',
    hplain, hgz⟩

end ParquetFileFs
