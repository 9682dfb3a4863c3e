import ParquetFileFs.Py.Fs

/-!
# Adapters written in Python

An object with the methods `size`, `read_range` and `glob` is registered for a scheme,
and shards with URLs of this scheme are fetched through it.  An fsspec file system is
wrapped into such an object first, and a parquet file system is one.

## Main definitions

* `AdapterObject`, `PyAdapter` — an object, and the range reader it is.
* `FsspecFs`, `FsspecAdapter` — an fsspec file system, and the object it is.
* `Adapters.register`, `registerAdapter` — the registry.
* `ParquetFileSystem.asFsspec` — a parquet file system for other code.
-/

namespace ParquetFileFs

/-! ### Objects -/

/-- An object with the adapter interface; errors are the texts of the exceptions. -/
structure AdapterObject where
  size : Str → Except Str ℤ
  readRange : Str → ℕ → ℕ → Except Str Bytes
  glob : Str → Except Str (List Str)

/-- A Python integer as one of 64 bits without sign. -/
def extractU64 (n : ℤ) : Except Str ℕ :=
  if n < 0 then .error "OverflowError: can't convert negative int to unsigned".toList
  else if n < 2 ^ 64 then .ok n.toNat
  else .error "OverflowError: int too big to convert".toList

/-- What a method raises becomes an adapter error for the URL. -/
def PyAdapter.err {α : Type} (url : Str) : Except Str α → Except FsError α
  | .ok a => .ok a
  | .error msg => .error (.adapter url msg)

/-- The range reader that asks the object. -/
def PyAdapter (obj : AdapterObject) : RangeReader where
  size url := PyAdapter.err url ((obj.size url).bind extractU64)
  readRange url offset length := PyAdapter.err url (obj.readRange url offset length)
  list pattern := PyAdapter.err pattern (obj.glob pattern)

/-! ### File systems -/

/-- What an adapter uses of an fsspec file system. -/
structure FsspecFs where
  info : Str → Except Str PyInfo
  catFile : Str → Option ℤ → Option ℤ → Except Str Bytes
  glob : Str → Except Str (List Str)
  unstripProtocol : Str → Str

/-- The object a file system is wrapped into. -/
def FsspecAdapter (fs : FsspecFs) : AdapterObject where
  size url := (fs.info url).map fun i => i.size
  readRange url offset length := fs.catFile url (some offset) (some (offset + length))
  glob pattern :=
    if ¬containsAny pattern globChars then .ok [pattern]
    else (fs.glob pattern).map fun l => l.map fs.unstripProtocol

/-! ### The registry -/

/-- A reader is registered for a scheme, in place of an earlier one. -/
def Adapters.register (A : Adapters) (scheme : Str) (adapter : RangeReader) : Adapters :=
  { A with registry := fun s => if s = scheme then some adapter else A.registry s }

/-- A file system is wrapped, any other object is registered as it is. -/
def registerAdapter (A : Adapters) (scheme : Str) : FsspecFs ⊕ AdapterObject → Adapters
  | .inl fs => A.register scheme (PyAdapter (FsspecAdapter fs))
  | .inr obj => A.register scheme (PyAdapter obj)

/-! ### Parquet file systems -/

/-- The text of an exception, with its class. -/
def PyErr.text : PyErr → Str
  | .fileNotFound msg => "FileNotFoundError: ".toList ++ msg
  | .value msg => "ValueError: ".toList ++ msg
  | .io msg => "OSError: ".toList ++ msg
  | .panic => "pyo3_runtime.PanicException".toList

/-- The names of a listing. -/
def Listing.toNames : Listing → List Str
  | .names l => l
  | .details l => l.map Prod.fst

/-- A parquet file system for code that uses fsspec ones. -/
def ParquetFileSystem.asFsspec (fs : ParquetFileSystem) : FsspecFs where
  info path := (fs.info path).mapError PyErr.text
  catFile path start stop := (fs.catFile path start stop).mapError PyErr.text
  glob pattern := ((fs.glob pattern none false).mapError PyErr.text).map Listing.toNames
  unstripProtocol name :=
    if "pfs://".toList <+: name then name else "pfs://".toList ++ name

end ParquetFileFs
