import ParquetFileFs.Lib.FileSystem
import Mathlib.Data.List.Sort
import Mathlib.Data.List.Lex
import Mathlib.Data.Char

/-!
# Adapters

Shards are fetched through range readers, which answer with the size of an
object and with ranges of its bytes, and which expand a pattern into concrete
URLs.  The scheme of a URL selects the reader: registered ones first, then the
local file system and the native client.

## Main definitions

* `FsError`, `Failure`, `Outcome` — the errors of the crate, and the results of
  functions that may also panic.
* `RangeReader`, `localAdapter` — the reader interface and the local reader.
* `Adapters`, `resolve` — the registry and the selection of a reader.
* `Serves` — a URL through which given bytes can be fetched.

## Main results

* `serves_localAdapter` — **a plain local path serves the bytes of its file.**
-/

/-- Text, as its characters. -/
abbrev Str := List Char

/-- A byte string. -/
abbrev Bytes := List UInt8

namespace ParquetFileFs

/-- Texts are compared as lists of characters. -/
instance : LawfulBEq Str := inferInstanceAs (LawfulBEq (List Char))

/-- The UTF-8 bytes of a text. -/
def utf8Bytes (s : Str) : Bytes := s.flatMap String.utf8EncodeChar

/-! ### Errors -/

/-- The errors of the crate. -/
inductive FsError
  | adapter (url msg : Str)
  | unknownScheme (scheme url : Str)
  | notFound (path : Str)
  | duplicate (path shardA shardB : Str)
  | schema (msg : Str)
  | parquet (url source : Str)
  | io (url source : Str)
  | pack (msg : Str)
  deriving DecidableEq, Repr

/-- The text an error is displayed with. -/
def FsError.display : FsError → Str
  | .adapter url msg => "adapter error for ".toList ++ url ++ ": ".toList ++ msg
  | .unknownScheme scheme url =>
      "unknown URL scheme '".toList ++ scheme ++ "' for ".toList ++ url
        ++ "; register one with parquet_file_fs.register_adapter('".toList ++ scheme
        ++ "', adapter)".toList
  | .notFound path => "path not found: ".toList ++ path
  | .duplicate path shardA shardB =>
      "duplicate path '".toList ++ path ++ "' in ".toList ++ shardA ++ " and ".toList ++ shardB
        ++ "; pass on_duplicate='first' or 'last' to resolve".toList
  | .schema msg => msg
  | .parquet url source => "parquet error for ".toList ++ url ++ ": ".toList ++ source
  | .io url source => "io error for ".toList ++ url ++ ": ".toList ++ source
  | .pack msg => msg

/-- How a function that may panic can fail to return `Ok`. -/
inductive Failure
  /-- The function returns `Err`. -/
  | err (e : FsError)
  /-- The function panics. -/
  | panic
  deriving DecidableEq, Repr

/-- The result of a function that may return `Err` or panic. -/
abbrev Outcome := Except Failure

/-- A result that cannot be a panic, seen where panics are possible. -/
def lift {α : Type} : Except FsError α → Outcome α
  | .ok a => .ok a
  | .error e => .error (.err e)

@[simp] theorem lift_ok {α : Type} (a : α) : lift (.ok a : Except FsError α) = .ok a := rfl

@[simp] theorem lift_error {α : Type} (e : FsError) :
    lift (.error e : Except FsError α) = .error (.err e) := rfl

/-! ### Range readers -/

/-- The interface shards are fetched through. -/
structure RangeReader where
  /-- The size of the object at a URL. -/
  size : Str → Except FsError ℕ
  /-- The bytes of the object at a URL, from an offset, of a given length. -/
  readRange : Str → ℕ → ℕ → Except FsError Bytes
  /-- The concrete URLs a pattern stands for. -/
  list : Str → Except FsError (List Str)

/-- What the operating system and the glob library contribute to local access. -/
structure Os where
  /-- The expansion of a glob pattern. -/
  glob : FileSystem Str UInt8 → Str → Except Str (List (Except (Str × Str) Str))
  /-- The length reported for a directory. -/
  dirLen : Str → ℕ
  /-- The text of the error for a path that cannot be opened or read far enough. -/
  ioError : Str → Str

/-- The characters that make a pattern of a path. -/
def globChars : List Char := ['*', '?', '[']

/-- Whether a character of `p` is one of the given ones. -/
def containsAny (p : Str) (cs : List Char) : Bool := p.any fun c => cs.contains c

def stripFileScheme (url : Str) : Str :=
  if "file://".toList <+: url then url.drop "file://".toList.length else url

/-- The reader of the local file system. -/
def localAdapter (os : Os) (fs : FileSystem Str UInt8) : RangeReader where
  size url :=
    match fs.read (stripFileScheme url) with
    | some bs => .ok bs.length
    | none =>
        if fs.isDir (stripFileScheme url) then .ok (os.dirLen (stripFileScheme url))
        else .error (.io url (os.ioError (stripFileScheme url)))
  readRange url offset length :=
    match fs.read (stripFileScheme url) with
    | some bs =>
        if ((bs.drop offset).take length).length = length then .ok ((bs.drop offset).take length)
        else .error (.io url (os.ioError (stripFileScheme url)))
    | none => .error (.io url (os.ioError (stripFileScheme url)))
  list pattern :=
    if containsAny (stripFileScheme pattern) globChars then
      match os.glob fs (stripFileScheme pattern) with
      | .error msg => .error (.adapter pattern msg)
      | .ok entries =>
          .ok ((entries.filterMap fun e => e.toOption).insertionSort (· ≤ ·))
    else .ok [stripFileScheme pattern]

/-! ### Selecting a reader -/

/-- Cut at the first occurrence of a separator text. -/
def splitOnceStr (sep : Str) : Str → Option (Str × Str)
  | [] => none
  | c :: cs =>
      if sep <+: c :: cs then some ([], (c :: cs).drop sep.length)
      else (splitOnceStr sep cs).map fun p => (c :: p.1, p.2)

/-- The readers at hand: those registered for a scheme, and the built-in ones. -/
structure Adapters where
  registry : Str → Option RangeReader
  localAdapter : RangeReader
  native : RangeReader

def schemeOf (url : Str) : Str :=
  match splitOnceStr "://".toList url with
  | some (s, _) => s
  | none => "file".toList

/-- The reader for a URL. -/
def resolve (A : Adapters) (url : Str) : Except FsError RangeReader :=
  match A.registry (schemeOf url) with
  | some a => .ok a
  | none =>
      if schemeOf url = "file".toList then .ok A.localAdapter
      else if schemeOf url ∈ ["s3".toList, "http".toList, "https".toList] then .ok A.native
      else .error (.unknownScheme (schemeOf url) url)

/-! ### Serving bytes -/

/-- The reader answers for `url` as an object holding exactly the bytes `bs`. -/
structure RangeReader.Holds (a : RangeReader) (url : Str) (bs : Bytes) : Prop where
  size : a.size url = .ok bs.length
  readRange : ∀ offset length, offset + length ≤ bs.length →
    a.readRange url offset length = .ok ((bs.drop offset).take length)

/-- The source `s` stands for the single URL `url`, whose reader holds `bs`. -/
def Serves (A : Adapters) (s url : Str) (bs : Bytes) : Prop :=
  (∃ a, resolve A s = .ok a ∧ a.list s = .ok [url]) ∧
    ∃ a, resolve A url = .ok a ∧ a.Holds url bs

theorem splitOnceStr_eq_none {sep url : Str} (h : ¬sep <:+: url) : splitOnceStr sep url = none := by
  induction url with
  | nil => rfl
  | cons c cs ih =>
    have hpre : ¬sep <+: c :: cs := fun hp => h hp.isInfix
    have htail : ¬sep <:+: cs := fun hi => h (hi.trans (List.suffix_cons c cs).isInfix)
    rw [splitOnceStr, if_neg hpre, ih htail, Option.map_none]

/-- **A plain local path serves the bytes of its file**: one without a scheme
and without glob characters. -/
theorem serves_localAdapter {A : Adapters} {os : Os} {fs : FileSystem Str UInt8} {p : Str}
    {bs : Bytes} (hlocal : A.localAdapter = localAdapter os fs)
    (hreg : A.registry "file".toList = none) (hscheme : ¬"://".toList <:+: p)
    (hglob : containsAny p globChars = false) (hread : fs.read p = some bs) :
    Serves A p p bs := by
  have hof : schemeOf p = "file".toList := by rw [schemeOf, splitOnceStr_eq_none hscheme]
  have hres : resolve A p = .ok (localAdapter os fs) := by
    rw [resolve, hof, hreg, ← hlocal]
    rfl
  have hstrip : stripFileScheme p = p := by
    rw [stripFileScheme, if_neg]
    rintro ⟨t, rfl⟩
    exact hscheme ⟨"file".toList, t, by simp⟩
  refine ⟨⟨_, hres, ?_⟩, _, hres, ?_, ?_⟩
  · simp only [localAdapter, hstrip, hglob]
    rfl
  · simp only [localAdapter, hstrip, hread]
  · intro offset length hle
    have hlen : ((bs.drop offset).take length).length = length := by
      rw [List.length_take, List.length_drop]
      omega
    simp only [localAdapter, hstrip, hread, hlen, if_pos]

end ParquetFileFs
