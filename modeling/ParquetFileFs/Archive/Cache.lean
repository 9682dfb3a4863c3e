import ParquetFileFs.Archive.Decode
import ParquetFileFs.Index.Ls
import ParquetFileFs.Lib.Lru
import ParquetFileFs.Lib.Pool

/-!
# Reading through the caches

An archive keeps the content columns of the last few row groups, and the sizes
and metadata of every row group it was asked about.  Each cache is behind a lock
that is held for one lookup or one insertion only, so between a lookup, the
decode after it and the insertion other calls may do anything.

## Main definitions

* `CacheOp`, `Caches`, `cacheWorld` — the operations on the caches and the
  decoder, and all their outcomes: a decode may fail.
* `loadContentChunk`, `loadDetail`, `Archive.read`, `Archive.info` — the calls.
* `serve`, `freshCall` — a call by its request, and what it gives on a freshly
  opened archive whose decodes all work.
-/

namespace ParquetFileFs

/-! ### Operations -/

inductive InfoResult
  | file (size : ℕ) (metas : List (Str × MetaValue))
  | dir

/-- The sizes and the metadata of the rows of one row group. -/
structure RgDetail where
  sizes : List ℕ
  metas : List (List (Str × MetaValue))

/-- The steps of a call that other calls cannot interrupt.  Row groups are named
by the shard and the group in it. -/
inductive CacheOp
  | chunksGet (key : ℕ × ℕ)
  | chunksPut (key : ℕ × ℕ) (col : Column)
  | detailsGet (key : ℕ × ℕ)
  | detailsInsert (key : ℕ × ℕ) (d : RgDetail)
  | decode (key : ℕ × ℕ) (cols : List ℕ)

/-- The responses to the steps of a call. -/
def CacheOp.Res : CacheOp → Type
  | .chunksGet _ => Option Column
  | .chunksPut _ _ => Unit
  | .detailsGet _ => Option RgDetail
  | .detailsInsert _ _ => Unit
  | .decode _ _ => Outcome (List Column)

/-- The number of content columns that are kept. -/
def chunkCapacity : ℕ := 4

structure Caches where
  chunks : Lru (ℕ × ℕ) Column chunkCapacity
  details : ℕ × ℕ → Option RgDetail

/-- The caches of an archive that was just opened. -/
def Caches.empty : Caches := ⟨Lru.empty, fun _ => none⟩

variable (R : ParquetReader) (ix : Index)

/-- All outcomes of the steps; where adapters may be `faulty`, a decode may also
fail, with any error. -/
def cacheWorld (faulty : Prop) : World CacheOp CacheOp.Res Caches
  | .chunksGet key, s, r, s' =>
      r = (s.chunks.get key).1 ∧ s' = { s with chunks := (s.chunks.get key).2 }
  | .chunksPut key col, s, _, s' => s' = { s with chunks := s.chunks.put key col }
  | .detailsGet key, s, r, s' => r = s.details key ∧ s' = s
  | .detailsInsert key d, s, _, s' =>
      s' = { s with details := Function.update s.details key (some d) }
  | .decode key cols, s, r, s' =>
      (r = readRgColumns R ix key.1 key.2 cols ∨ faulty ∧ ∃ e, r = .error (.err e)) ∧ s' = s

/-- The outcomes of the steps when every decode works. -/
def cacheHandler : (o : CacheOp) → Caches → CacheOp.Res o × Caches
  | .chunksGet key, s => ((s.chunks.get key).1, { s with chunks := (s.chunks.get key).2 })
  | .chunksPut key col, s => ((), { s with chunks := s.chunks.put key col })
  | .detailsGet key, s => (s.details key, s)
  | .detailsInsert key d, s =>
      ((), { s with details := Function.update s.details key (some d) })
  | .decode key cols, s => (readRgColumns R ix key.1 key.2 cols, s)

theorem cacheWorld_cacheHandler (faulty : Prop) (o : CacheOp) (s : Caches) :
    cacheWorld R ix faulty o s (cacheHandler R ix o s).1 (cacheHandler R ix o s).2 := by
  cases o with
  | chunksGet key => exact ⟨rfl, rfl⟩
  | chunksPut key col => exact rfl
  | detailsGet key => exact ⟨rfl, rfl⟩
  | detailsInsert key d => exact rfl
  | decode key cols => exact ⟨Or.inl rfl, rfl⟩

/-- A cached content column is dropped. -/
def evictStep (s s' : Caches) : Prop := ∃ key, s' = { s with chunks := s.chunks.evict key }

/-! ### Calls -/

/-- A part of a call on the archive. -/
abbrev ArchiveM (α : Type) := Program CacheOp CacheOp.Res (Outcome α)

/-- The first column of a decoded batch; taking it from none panics. -/
def firstColumn : List Column → Outcome Column
  | [] => .error .panic
  | col :: _ => .ok col

/-- Decode the given columns of a row group. -/
def decodeColumns (key : ℕ × ℕ) (cols : List ℕ) : ArchiveM (List Column) :=
  .call (.decode key cols) .ret

def loadContentChunk (key : ℕ × ℕ) : ArchiveM Column :=
  .call (.chunksGet key) fun
    | some col => .ret (.ok col)
    | none =>
        match ix.shards[key.1]? with
        | none => .ret (.error .panic)
        | some shard =>
            (decodeColumns key [shard.contentCol]).andThen fun cols =>
              (Program.ret (firstColumn cols)).andThen fun col =>
                .call (.chunksPut key col) fun _ => .ret (.ok col)

/-- The sizes of all rows of a content column. -/
def rgSizes (content : Column) : Outcome (List ℕ) :=
  (List.range content.length).mapM fun i => (binaryValue content i).map List.length

/-- The metadata of the first `n` rows, from the columns with the given names. -/
def rgMetas (names : List Str) (cols : List Column) (n : ℕ) :
    Outcome (List (List (Str × MetaValue))) :=
  (List.range n).mapM fun i => (names.zip cols).mapM fun p => (metaValue p.2 i).map (p.1, ·)

/-- Record the details of a row group, and return them. -/
def insertDetail (key : ℕ × ℕ) (d : RgDetail) : ArchiveM RgDetail :=
  .call (.detailsInsert key d) fun _ => .ret (.ok d)

/-- The details of a row group whose content column is at hand. -/
def buildDetail (key : ℕ × ℕ) (content : Column) : ArchiveM RgDetail :=
  (Program.ret (rgSizes content)).andThen fun sizes =>
    match ix.shards[key.1]? with
    | none => .ret (.error .panic)
    | some shard =>
        if shard.extraCols = [] then insertDetail key ⟨sizes, List.replicate content.length []⟩
        else
          (decodeColumns key shard.extraCols).andThen fun cols =>
            (Program.ret (rgMetas shard.extraNames cols content.length)).andThen fun metas =>
              insertDetail key ⟨sizes, metas⟩

def loadDetail (key : ℕ × ℕ) : ArchiveM RgDetail :=
  .call (.detailsGet key) fun
    | some d => .ret (.ok d)
    | none => (loadContentChunk ix key).andThen (buildDetail ix key)

def Archive.read (path : Str) : ArchiveM Bytes :=
  match ix.files.find? (normalize path) with
  | none => .ret (.error (.err (.notFound (normalize path))))
  | some entry => (loadContentChunk ix (entry.loc.shard, entry.loc.rowGroup)).andThen
      fun col => .ret (binaryValue col entry.loc.row)

/-- The details of one row; indexing past the end panics. -/
def rowInfo (d : RgDetail) (row : ℕ) : Outcome InfoResult :=
  match d.sizes[row]?, d.metas[row]? with
  | some size, some metas => .ok (.file size metas)
  | _, _ => .error .panic

def Archive.info (path : Str) : ArchiveM InfoResult :=
  match ix.files.find? (normalize path) with
  | some entry => (loadDetail ix (entry.loc.shard, entry.loc.rowGroup)).andThen
      fun d => .ret (rowInfo d entry.loc.row)
  | none =>
      if ix.isDir (normalize path) then .ret (.ok .dir)
      else .ret (.error (.err (.notFound (normalize path))))

/-! ### Calls by their request -/

inductive Request
  | read (path : Str)
  | info (path : Str)

inductive Response
  | bytes (bs : Bytes)
  | info (i : InfoResult)

/-- The call a request makes. -/
def serve : Request → ArchiveM Response
  | .read path => (Archive.read ix path).andThen fun bs => .ret (.ok (.bytes bs))
  | .info path => (Archive.info ix path).andThen fun i => .ret (.ok (.info i))

/-- What a request gives on a freshly opened archive whose decodes all work. -/
def freshCall (q : Request) : Outcome Response :=
  ((serve ix q).exec (cacheHandler R ix) Caches.empty).1

end ParquetFileFs
