import ParquetFileFs.Pack.Files

/-!
# Packing archives

The regular files of a zip, tar, 7z or rar archive are packed under the paths
their names give.  The libraries that read the formats are parameters: they make
entries of the bytes of an archive, and may fail anywhere, also because reading
further from the open file fails.

## Main definitions

* `ArchiveFormat`, `sniffFormat` — the formats, and which one a file has.
* `ArchiveLibs` — what the libraries make of an archive.
* `packZipEntries`, `packTarEntries`, `pack7zEntries`, `packRarEntries` — the
  entries of each format.
* `packArchive` — pack an archive.
-/

namespace ParquetFileFs

/-! ### Formats -/

inductive ArchiveFormat
  | zip
  | tar
  | tarGz
  | tarBz2
  | tarXz
  | tarZst
  | rar
  | sevenZ
  deriving DecidableEq, Repr

def ArchiveFormat.parse (s : Str) : Except FsError ArchiveFormat :=
  if s = "zip".toList then .ok .zip
  else if s = "tar".toList then .ok .tar
  else if s = "tar.gz".toList ∨ s = "tgz".toList then .ok .tarGz
  else if s = "tar.bz2".toList ∨ s = "tbz2".toList then .ok .tarBz2
  else if s = "tar.xz".toList ∨ s = "txz".toList then .ok .tarXz
  else if s = "tar.zst".toList ∨ s = "tzst".toList then .ok .tarZst
  else if s = "rar".toList then .ok .rar
  else if s = "7z".toList then .ok .sevenZ
  else .error (.pack ("unknown archive format '".toList ++ s
    ++ "'; expected zip, tar, tar.gz, tar.bz2, tar.xz, tar.zst, rar or 7z".toList))

/-- The first bytes of a file, and the format they belong to. -/
def magics : List (Bytes × ArchiveFormat) :=
  [([0x50, 0x4B, 0x03, 0x04], .zip), ([0x50, 0x4B, 0x05, 0x06], .zip),
   ([0x1F, 0x8B], .tarGz), ([0x42, 0x5A, 0x68], .tarBz2),
   ([0xFD, 0x37, 0x7A, 0x58, 0x5A, 0x00], .tarXz), ([0x28, 0xB5, 0x2F, 0xFD], .tarZst),
   ([0x52, 0x61, 0x72, 0x21, 0x1A, 0x07], .rar), ([0x37, 0x7A, 0xBC, 0xAF, 0x27, 0x1C], .sevenZ)]

/-- The file extensions, and the format each stands for. -/
def extensions : List (Str × ArchiveFormat) :=
  [(".zip".toList, .zip), (".tar.gz".toList, .tarGz), (".tgz".toList, .tarGz),
   (".tar.bz2".toList, .tarBz2), (".tbz2".toList, .tarBz2), (".tar.xz".toList, .tarXz),
   (".txz".toList, .tarXz), (".tar.zst".toList, .tarZst), (".tzst".toList, .tarZst),
   (".tar".toList, .tar), (".rar".toList, .rar), (".7z".toList, .sevenZ)]

/-- The last component of a path, if it is a name. -/
def fileName (p : Str) : Option Str := (components p).getLast?.bind Component.name?

/-- The format of a file by its first 262 bytes, or else by its name.  Only ASCII
letters lower to those of the extensions. -/
def sniffHead (head : Bytes) (archive : Str) : Except FsError ArchiveFormat :=
  match magics.find? fun m => m.1 <+: head with
  | some m => .ok m.2
  | none =>
      if 262 ≤ head.length ∧ (head.drop 257).take 5 = [0x75, 0x73, 0x74, 0x61, 0x72] then .ok .tar
      else
        let name := ((fileName archive).getD []).map Char.toLower
        match extensions.find? fun e => e.1 <:+ name with
        | some e => .ok e.2
        | none => .error (.pack ("could not detect archive format of '".toList ++ archive
            ++ "'; pass the format explicitly".toList))

def sniffFormat (archive : Str) : FileM ArchiveFormat :=
  (readFile archive).andThen fun bs => .ret (lift (sniffHead (bs.take 262) archive))

/-! ### What the libraries give -/

/-- What a reader delivers: bytes, and then its end or an error. -/
structure Stream where
  bytes : Bytes
  fault : Option Str

structure ZipEntry where
  name : Str
  isFile : Bool
  /-- The size the entry declares. -/
  size : ℕ
  data : Except Str Bytes

structure TarEntry where
  typeflag : UInt8
  name : Except Str Str
  data : Except Str Bytes

structure SevenZEntry where
  name : Str
  isDirectory : Bool
  data : Except Str Bytes

structure RarEntry where
  name : Str
  isFile : Bool
  data : Except Str Bytes

/-- What the libraries make of the bytes of an archive. -/
structure ArchiveLibs where
  zip : Bytes → Except Str (List (Except Str ZipEntry))
  gz : Bytes → Stream
  bz2 : Bytes → Stream
  xz : Bytes → Stream
  zst : Bytes → Except Str Stream
  tar : Stream → Except Str (List (Except Str TarEntry))
  /-- The entries in blocks, the empty files in blocks at the end. -/
  sevenZ : Bytes → Except Str (List (Except Str (List SevenZEntry)))
  /-- Reading rar is a feature, and may not be compiled in. -/
  rar : Option (Bytes → Except Str (List (Except Str RarEntry)))

/-- What a library makes of an open source.  Reading from the source may fail. -/
def fromLibrary {α : Type} (bad : Str → FsError) (x : Except Str α) : FileM α :=
  .call .poll fun
    | .ok _ => .ret (lift (x.mapError bad))
    | .error e => .ret (.error (.err (bad e)))

section Pack

variable (W : ParquetWriter)

/-! ### Zip -/

/-- The largest capacity a vector accepts. -/
def maxCapacity : ℕ := 2 ^ 63 - 1

def badZipEntry (archive : Str) (i : ℕ) (e : Str) : FsError :=
  .pack ("failed to read zip entry ".toList ++ natStr i ++ " in '".toList ++ archive
    ++ "': ".toList ++ e)

def packZipEntry (archive : Str) (w : PackWriter) (entry : Except Str ZipEntry × ℕ) :
    FileM PackWriter :=
  (fromLibrary (badZipEntry archive entry.2) entry.1).andThen fun e =>
    if ¬e.isFile then .ret (.ok w)
    else
      (Program.ret (lift (entryStoredPath e.name))).andThen fun stored =>
        if maxCapacity < e.size then .ret (.error .panic)
        else
          .call (.alloc e.size) fun _ =>
            (fromLibrary (.io archive) e.data).andThen fun data => w.append W stored data

def packZipEntries (libs : ArchiveLibs) (archive : Str) (w : PackWriter) : FileM PackWriter :=
  (readFile archive).andThen fun bs =>
    (fromLibrary (fun e => .pack ("failed to open zip '".toList ++ archive ++ "': ".toList ++ e))
      (libs.zip bs)).andThen fun entries => packEach (packZipEntry W archive) w entries.zipIdx

/-! ### Tar -/

def badTar (archive e : Str) : FsError :=
  .pack ("failed to read tar stream from '".toList ++ archive ++ "': ".toList ++ e
    ++ "; is this a (compressed) tar archive?".toList)

/-- Whether an entry is of the regular type, old or new. -/
def TarEntry.isFile (e : TarEntry) : Bool := e.typeflag = 0x00 ∨ e.typeflag = 0x30

def packTarEntry (archive : Str) (w : PackWriter) (entry : Except Str TarEntry) :
    FileM PackWriter :=
  (fromLibrary (badTar archive) entry).andThen fun e =>
    -- directories, symlinks, hardlinks and devices are skipped
    if ¬e.isFile then .ret (.ok w)
    else
      (Program.ret (lift (e.name.mapError (badTar archive)))).andThen fun raw =>
        (Program.ret (lift (entryStoredPath raw))).andThen fun stored =>
          (fromLibrary (badTar archive) e.data).andThen fun data => w.append W stored data

def packTarEntries (libs : ArchiveLibs) (reader : Stream) (archive : Str) (w : PackWriter) :
    FileM PackWriter :=
  (fromLibrary (badTar archive) (libs.tar reader)).andThen fun entries =>
    packEach (packTarEntry W archive) w entries

/-! ### 7z -/

def bad7z (archive e : Str) : FsError :=
  .pack ("failed to read 7z '".toList ++ archive ++ "': ".toList ++ e)

/-- The library's loop over one block: `false` ends the block, an error the whole. -/
def forEachInBlock {σ α : Type} (each : σ → α → FileM (σ × Except Str Bool)) :
    σ → List α → FileM (σ × Except Str Unit)
  | s, [] => .ret (.ok (s, .ok ()))
  | s, a :: as => (each s a).andThen fun
      | (s', .ok true) => forEachInBlock each s' as
      | (s', .ok false) => .ret (.ok (s', .ok ()))
      | (s', .error e) => .ret (.ok (s', .error e))

/-- The library's loop over all blocks, which only an error ends early. -/
def forEachEntries {σ α : Type} (each : σ → α → FileM (σ × Except Str Bool)) :
    σ → List (Except Str (List α)) → FileM (σ × Except Str Unit)
  | s, [] => .ret (.ok (s, .ok ()))
  | s, block :: blocks => .call .poll fun
      | .error e => .ret (.ok (s, .error e))
      | .ok _ =>
          match block with
          | .error e => .ret (.ok (s, .error e))
          | .ok as => (forEachInBlock each s as).andThen fun
              | (s', .ok _) => forEachEntries each s' blocks
              | (s', .error e) => .ret (.ok (s', .error e))

/-- What is called for each entry: the writer, and the first error of its own. -/
def pack7zEntry (st : PackWriter × Option FsError) (entry : SevenZEntry) :
    FileM ((PackWriter × Option FsError) × Except Str Bool) :=
  .call .poll fun
    | .error e => .ret (.ok (st, .error e))
    | .ok _ =>
        match entry.data with
        | .error e => .ret (.ok (st, .error e))
        | .ok data =>
            if entry.isDirectory then .ret (.ok (st, .ok true))
            else
              ((Program.ret (lift (entryStoredPath entry.name))).andThen fun stored =>
                st.1.append W stored data) >>= fun
                  | .ok w => .ret (.ok ((w, st.2), .ok true))
                  -- the library's error only carries the message that something failed
                  | .error (.err e) => .ret (.ok ((st.1, some e),
                      .error "stopping after entry error".toList))
                  | .error .panic => .ret (.error .panic)

def pack7zEntries (libs : ArchiveLibs) (archive : Str) (w : PackWriter) : FileM PackWriter :=
  .call (.read archive) fun
    | .error e => .ret (.error (.err (bad7z archive e)))
    | .ok bs =>
        (fromLibrary (bad7z archive) (libs.sevenZ bs)).andThen fun blocks =>
          (forEachEntries (pack7zEntry W) (w, none) blocks).andThen fun
            | ((_, some e), _) => .ret (.error (.err e))
            | ((_, none), .error e) => .ret (.error (.err (bad7z archive e)))
            | ((w', none), .ok _) => .ret (.ok w')

/-! ### Rar -/

def badRar (archive e : Str) : FsError :=
  .pack ("failed to read rar '".toList ++ archive ++ "': ".toList ++ e)

def packRarEntry (archive : Str) (w : PackWriter) (entry : Except Str RarEntry) :
    FileM PackWriter :=
  (fromLibrary (badRar archive) entry).andThen fun e =>
    (fromLibrary (badRar archive) e.data).andThen fun data =>
      if e.isFile then
        (Program.ret (lift (entryStoredPath e.name))).andThen fun stored => w.append W stored data
      else .ret (.ok w)

def packRarEntries (libs : ArchiveLibs) (archive : Str) (w : PackWriter) : FileM PackWriter :=
  match libs.rar with
  | none => .ret (.error (.err (.pack ("rar support not compiled in; rebuild with the 'rar' ".toList
      ++ "feature or install the CLI (cargo install --git ".toList
      ++ "https://github.com/4thel00z/parquet-file-fs parquet-file-fs-cli)".toList))))
  | some rar =>
      .call (.read archive) fun
        | .error e => .ret (.error (.err (badRar archive e)))
        | .ok bs => (fromLibrary (badRar archive) (rar bs)).andThen fun entries =>
            packEach (packRarEntry W archive) w entries

/-! ### Archives -/

/-- Append the entries of an archive of the given format. -/
def packEntries (libs : ArchiveLibs) (fmt : ArchiveFormat) (archive : Str) (w : PackWriter) :
    FileM PackWriter :=
  match fmt with
  | .zip => packZipEntries W libs archive w
  | .tar => (readFile archive).andThen fun bs => packTarEntries W libs ⟨bs, none⟩ archive w
  | .tarGz => (readFile archive).andThen fun bs => packTarEntries W libs (libs.gz bs) archive w
  | .tarBz2 => (readFile archive).andThen fun bs => packTarEntries W libs (libs.bz2 bs) archive w
  | .tarXz => (readFile archive).andThen fun bs => packTarEntries W libs (libs.xz bs) archive w
  | .tarZst => (readFile archive).andThen fun bs =>
      (fromLibrary (.io archive) (libs.zst bs)).andThen fun reader =>
        packTarEntries W libs reader archive w
  | .rar => packRarEntries W libs archive w
  | .sevenZ => pack7zEntries W libs archive w

/-- An archive without files fails before anything is renamed. -/
def requireFiles (archive : Str) (w : PackWriter) : FileM PackWriter :=
  if w.files = 0 then
    .ret (.error (.err (.pack ("archive '".toList ++ archive ++ "' contains no files".toList))))
  else .ret (.ok w)

/-- Write the entries of an archive of a known format into `out`. -/
def writeEntries (libs : ArchiveLibs) (fmt : ArchiveFormat) (archive out : Str)
    (opts : PackOptions) : FileM PackSummary :=
  (PackWriter.create W out opts).andThen fun w =>
    (((packEntries W libs fmt archive w).andThen (requireFiles archive)).onError
      (dropWriter w)).andThen (PackWriter.finish W)

def packArchive (libs : ArchiveLibs) (archive : Str) (format : Option ArchiveFormat) (out : Str)
    (opts : PackOptions) : FileM PackSummary :=
  match format with
  | some fmt => writeEntries W libs fmt archive out opts
  | none => (sniffFormat archive).andThen fun fmt => writeEntries W libs fmt archive out opts

end Pack

end ParquetFileFs
