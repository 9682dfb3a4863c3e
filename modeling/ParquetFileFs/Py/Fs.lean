import ParquetFileFs.Index.Ls
import ParquetFileFs.Archive.Caching

/-!
# The file system as Python sees it

`ParquetFileSystem` answers the fsspec operations from the archive.  Paths lose
their protocol and their outer separators first; `find` and `glob` then work on
the lists of files and directories as plain strings, the other operations ask
the archive, which normalizes.  Since caching is invisible, a call on the
archive is its direct computation.

## Main definitions

* `ParquetFileSystem` — an archive, with what fsspec contributes.
* `stripProtocol`, `ls`, `info`, `exists`, `catFile`, `find`, `glob` — the
  operations.
* `SuperGlob` — fsspec's own `glob`, which `glob` falls back to.
-/

namespace ParquetFileFs

/-! ### Errors and values -/

inductive PyErr
  | fileNotFound (msg : Str)
  | value (msg : Str)
  | io (msg : Str)
  | panic
  deriving DecidableEq, Repr

def toPy : FsError → PyErr
  | .notFound p => .fileNotFound (FsError.notFound p).display
  | .schema m => .value (FsError.schema m).display
  | .unknownScheme s u => .value (FsError.unknownScheme s u).display
  | .duplicate p a b => .value (FsError.duplicate p a b).display
  | .pack m => .value (FsError.pack m).display
  | .adapter u m => .io (FsError.adapter u m).display
  | .parquet u s => .io (FsError.parquet u s).display
  | .io u s => .io (FsError.io u s).display

/-- A result of the archive, as Python receives it. -/
def ofOutcome {α : Type} : Outcome α → Except PyErr α
  | .ok a => .ok a
  | .error (.err e) => .error (toPy e)
  | .error .panic => .error .panic

/-- Set an item of a dict: the value of an existing key is replaced in place. -/
def dictSet {V : Type} (d : List (Str × V)) (k : Str) (v : V) : List (Str × V) :=
  if k ∈ d.map Prod.fst then d.map fun e => if e.1 = k then (k, v) else e else d ++ [(k, v)]

/-- The dict that describes one file or directory. -/
structure PyInfo where
  name : Str
  size : ℕ
  isDir : Bool
  metadata : List (Str × MetaValue)

/-- A listing: names, or names with what is known of them. -/
inductive Listing
  | names (l : List Str)
  | details (l : List (Str × PyInfo))

/-- All names a listing returns, those inside the dicts among them. -/
def Listing.allNames : Listing → List Str
  | .names l => l
  | .details l => l.flatMap fun e => [e.1, e.2.name]

/-- Names in increasing order. -/
def sortStrs (l : List Str) : List Str := l.insertionSort (· ≤ ·)

/-! ### What fsspec contributes -/

/-- The methods of a file system that fsspec's own `glob` calls.  `find` lists the
names below a path to some depth, directories among them, and says which are
directories. -/
structure GlobMethods where
  stripProtocol : Str → Str
  exists_ : Str → Bool
  info : Str → Except PyErr PyInfo
  find : Str → Option ℤ → List (Str × Bool)

/-- fsspec's own `glob`, given the methods of the class.  A depth below one is an
error, and a path without wildcards matches itself, if it exists; what it does
with wildcards is no part of this. -/
structure SuperGlob where
  glob : GlobMethods → Str → ℤ → Bool → Except PyErr Listing
  shallow : ∀ (m : GlobMethods) (pattern : Str) (maxdepth : ℤ) (detail : Bool), maxdepth < 1 →
    glob m pattern maxdepth detail = .error (.value "maxdepth must be at least 1".toList)
  plain : ∀ (m : GlobMethods) (pattern : Str) (maxdepth : ℤ) (detail : Bool), 1 ≤ maxdepth →
    ¬containsAny (m.stripProtocol pattern) globChars →
    glob m pattern maxdepth detail =
      if m.exists_ (m.stripProtocol pattern) then
        if detail then (m.info (m.stripProtocol pattern)).map fun i =>
          .details [(m.stripProtocol pattern, i)]
        else .ok (.names [m.stripProtocol pattern])
      else .ok (if detail then .details [] else .names [])

/-! ### The file system -/

/-- An open file system.  What fsspec contributes are the removal of the
protocol and of trailing separators, the translation of a glob pattern into a
matcher of whole names, and its own `glob`. -/
structure ParquetFileSystem where
  archive : Index
  /-- Archives come from `buildIndex`, so their index is well formed. -/
  wellFormed : archive.WellFormed
  decoder : ParquetReader
  superStripProtocol : Str → Str
  globTranslate : Str → Option (Str → Bool)
  superGlob : SuperGlob

namespace ParquetFileSystem

variable (fs : ParquetFileSystem)

/-- The files of the archive, in order. -/
def paths : List Str := fs.archive.files.keys

/-- The directories of the archive, in order. -/
def dirs : List Str := fs.archive.dirs.keys

/-- Whether the archive has a file or directory of this name, however spelled. -/
def archiveExists (path : Str) : Bool :=
  fs.archive.files.contains (normalize path) || fs.archive.isDir (normalize path)

/-- Whether the archive has a directory of this name, however spelled. -/
def archiveIsDir (path : Str) : Bool := fs.archive.isDir (normalize path)

/-- What the archive knows of a name. -/
def archiveInfo (path : Str) : Except PyErr PyInfo :=
  (ofOutcome (directInfo fs.decoder fs.archive (normalize path))).map fun
    | .dir => ⟨normalize path, 0, true, []⟩
    | .file size metas =>
        ⟨normalize path, size, false, metas.foldl (fun d kv => dictSet d kv.1 kv.2) []⟩

def stripProtocol (path : Str) : Str := (fs.superStripProtocol path).dropWhile (· = '/')

def info (path : Str) : Except PyErr PyInfo := fs.archiveInfo (fs.stripProtocol path)

def exists_ (path : Str) : Bool := fs.archiveExists (fs.stripProtocol path)

/-- Names with what is known of them, or as they are. -/
def withDetail (detail : Bool) (names : List Str) : Except PyErr Listing :=
  if detail then (names.eraseDups.mapM fun p => (fs.info p).map fun i => (p, i)).map .details
  else .ok (.names names)

/-- What a listing says of one entry, under the name it says. -/
def entryInfo (e : DirEntry) : Except PyErr (Str × PyInfo) :=
  if e.isDir then .ok (e.name, ⟨e.name, 0, true, []⟩)
  else (fs.info e.name).map fun i => (i.name, i)

def ls (path : Str) (detail : Bool) : Except PyErr Listing :=
  match fs.archive.ls (fs.stripProtocol path) with
  | .error e => .error (toPy e)
  | .ok entries =>
      -- the names are distinct, so sorting the pairs is sorting by name
      let sorted := entries.insertionSort fun a b => a.name ≤ b.name
      if detail then (sorted.mapM fs.entryInfo).map .details
      else .ok (.names (sorted.map DirEntry.name))

/-- The prefix of the names below a path. -/
def findPrefix (path : Str) : Str := if path = [] then [] else path ++ ['/']

/-- The files below a path; a path that is only a file is found as itself. -/
def findFiles (path : Str) : List Str :=
  let names := fs.paths.filter (findPrefix path <+: ·)
  if names = [] ∧ fs.archiveExists path ∧ ¬fs.archiveIsDir path then [path] else names

/-- Whether a name is at most `maxdepth` levels below a path. -/
def withinDepth (path : Str) (maxdepth : Option ℤ) (p : Str) : Bool :=
  match maxdepth with
  | none => true
  | some d => (p.count '/' : ℤ) - (findPrefix path).count '/' < d

/-- The names `find` returns. -/
def findNames (path : Str) (maxdepth : Option ℤ) (withdirs : Bool) : List Str :=
  let path := fs.stripProtocol path
  let names := fs.findFiles path
  let names := if withdirs then names ++ fs.dirs.filter (findPrefix path <+: ·) else names
  sortStrs (names.filter (withinDepth path maxdepth))

def find (path : Str) (maxdepth : Option ℤ) (withdirs detail : Bool) : Except PyErr Listing :=
  fs.withDetail detail (fs.findNames path maxdepth withdirs)

/-! ### Patterns -/

/-- The wildcard-free directory prefix of a pattern, with its separator. -/
def globRoot (pattern : Str) : Str :=
  match Segments.beforeLast '/' (pattern.takeWhile fun c => !globChars.contains c) with
  | some r => r ++ ['/']
  | none => []

/-- A path without wildcards matches itself, if it exists. -/
def globPlain (path : Str) (detail : Bool) : Except PyErr Listing :=
  if fs.exists_ path then
    if detail then (fs.info path).map fun i => .details [(path, i)] else .ok (.names [path])
  else .ok (if detail then .details [] else .names [])

/-- Whether a listing says of a name that it is a directory. -/
def entryIsDir (p : Str) : Bool := fs.archive.dirs.contains p ∧ ¬fs.archive.files.contains p

/-- What fsspec's own `glob` calls. -/
def globMethods : GlobMethods where
  stripProtocol := fs.stripProtocol
  exists_ := fs.exists_
  info := fs.info
  find root maxdepth := (fs.findNames root maxdepth true).map fun p => (p, fs.entryIsDir p)

def glob (path : Str) (maxdepth : Option ℤ) (detail : Bool) : Except PyErr Listing :=
  match maxdepth with
  | some d => fs.superGlob.glob fs.globMethods path d detail
  | none =>
      let path := fs.stripProtocol path
      if ¬containsAny path globChars then fs.globPlain path detail
      else
        match fs.globTranslate path with
        | none => .error (.value "invalid pattern".toList)
        | some regex =>
            fs.withDetail detail (sortStrs ((fs.paths ++ fs.dirs).filter fun p => regex p))

/-! ### Contents -/

/-- The position a slice bound stands for in a sequence of `n` elements. -/
def sliceBound (n : ℕ) (i : ℤ) : ℕ := min n (if i < 0 then i + n else i).toNat

def catFile (path : Str) (start stop : Option ℤ) : Except PyErr Bytes :=
  (ofOutcome (directRead fs.decoder fs.archive (fs.stripProtocol path))).map fun data =>
    (data.take ((stop.map (sliceBound data.length)).getD data.length)).drop
      ((start.map (sliceBound data.length)).getD 0)

end ParquetFileSystem

/-- Opening a file system: the archive's index, or the error. -/
def openFileSystem (A : Adapters) (R : ParquetReader) (superStripProtocol : Str → Str)
    (globTranslate : Str → Option (Str → Bool)) (superGlob : SuperGlob) (sources : List Str)
    (pathColumn contentColumn : Option Str) (onDuplicate : Str) :
    Except PyErr ParquetFileSystem :=
  match DupPolicy.parse onDuplicate with
  | .error e => .error (toPy e)
  | .ok pol =>
      match h : buildIndex A R pathColumn contentColumn sources pol with
      | .error e => ofOutcome (.error e)
      | .ok ix => .ok ⟨ix, wellFormed_of_buildIndex h, R, superStripProtocol, globTranslate,
          superGlob⟩

end ParquetFileFs
