import ParquetFileFs.Lib.SortedMap
import ParquetFileFs.Lib.Cumulative
import ParquetFileFs.Index.Columns
import ParquetFileFs.Index.Normalize

/-!
# Building the index

The index maps the canonical path of every row to the shard, row group and row
that hold it, and records the directories above all paths.  It is built shard
by shard, and within a shard batch by batch, since the decoder hands out the
path column in batches that need not follow the row groups.

## Main definitions

* `Index` — the shards, the files and the directories.
* `locate` — the row group and the row in it of a row of the shard.
* `buildIndex` — the index of the given sources.
-/

namespace ParquetFileFs

open Segments Cumulative

/-! ### Data -/

inductive DupPolicy
  | error
  | first
  | last
  deriving DecidableEq, Repr

def DupPolicy.parse (s : Str) : Except FsError DupPolicy :=
  if s = "error".toList then .ok .error
  else if s = "first".toList then .ok .first
  else if s = "last".toList then .ok .last
  else .error (.schema
    ("on_duplicate must be 'error', 'first' or 'last', got '".toList ++ s ++ "'".toList))

structure RowLoc where
  shard : ℕ
  rowGroup : ℕ
  row : ℕ
  deriving DecidableEq, Repr

structure FileEntry where
  loc : RowLoc
  deriving DecidableEq, Repr

structure Shard where
  url : Str
  reader : AdapterChunkReader
  contentCol : ℕ
  extraCols : List ℕ
  extraNames : List Str
  rowGroupOffsets : List ℕ

structure DirEntry where
  name : Str
  isDir : Bool
  deriving DecidableEq, Repr

structure Index where
  shards : List Shard
  files : SortedMap Str FileEntry
  dirs : SortedMap Str Unit

/-- The index before any shard is added. -/
def Index.empty : Index := ⟨[], SortedMap.empty, SortedMap.empty⟩

/-! ### Rows -/

/-- The row group and the row in it of row `global` of the shard, from the
cumulative offsets; there is none when the offset search underflows. -/
def locate (offsets : List ℕ) (global : ℕ) : Option (ℕ × ℕ) :=
  match partitionPoint (· ≤ global) offsets with
  | 0 => none
  | rg + 1 => some (rg, global - offsets.getD rg 0)

/-- Record an entry under its canonical path, as the policy says when the path
has one already. -/
def addEntry (onDuplicate : DupPolicy) (shards : List Shard) (url : Str)
    (files : SortedMap Str FileEntry) (norm : Str) (entry : FileEntry) :
    Outcome (SortedMap Str FileEntry) :=
  match files.find? norm with
  | none => .ok (files.insert norm entry)
  | some old =>
      match onDuplicate with
      | .error =>
          match shards[old.loc.shard]? with
          | some s => .error (.err (.duplicate norm s.url url))
          | none => .error .panic
      | .first => .ok files
      | .last => .ok (files.insert norm entry)

/-- One row of the path column.  The state is the number of rows of the shard
seen so far, and the files. -/
def addRow (onDuplicate : DupPolicy) (shards : List Shard) (url : Str) (shardId : ℕ)
    (offsets : List ℕ) (st : ℕ × SortedMap Str FileEntry) (raw : Str) :
    Outcome (ℕ × SortedMap Str FileEntry) :=
  match locate offsets st.1 with
  | none => .error .panic
  | some (rowGroup, row) =>
      if normalize raw = [] then
        .error (.err (.schema ("row ".toList ++ natStr st.1 ++ " of ".toList ++ url
          ++ " has an empty path ('".toList ++ raw ++ "'); every row must name a file".toList)))
      else
        (addEntry onDuplicate shards url st.2 (normalize raw) ⟨⟨shardId, rowGroup, row⟩⟩).map
          fun files => (st.1 + 1, files)

/-- One batch of the path column. -/
def addBatch (onDuplicate : DupPolicy) (shards : List Shard) (url : Str) (shardId : ℕ)
    (offsets : List ℕ) (st : ℕ × SortedMap Str FileEntry) (batch : Except Str (List Column)) :
    Outcome (ℕ × SortedMap Str FileEntry) :=
  match batch with
  | .error e => .error (.err (.parquet url e))
  | .ok [] => .error .panic
  | .ok (col :: _) =>
      match pathStrings col url with
      | .error e => .error (.err e)
      | .ok raws => raws.foldlM (addRow onDuplicate shards url shardId offsets) st

/-! ### Shards -/

section Open

variable (A : Adapters) (R : ParquetReader) (pathColumn contentColumn : Option Str)

/-- Open a shard: its entry in the index, and the batches of its path column. -/
def openShard (url : Str) : Except FsError (Shard × List (Except Str (List Column))) := do
  let adapter ← resolve A url
  let size ← adapter.size url
  let reader : AdapterChunkReader := ⟨adapter, url, size⟩
  let md ← (R.tryNew reader).mapError (.parquet url)
  let pathIdx ← detectColumn md.fields pathNames pathColumn "path".toList url
  let contentIdx ← detectColumn md.fields contentNames contentColumn "content".toList url
  if pathIdx = contentIdx then
    .error (.schema ("path and content columns are the same ('".toList
      ++ md.fields.getD pathIdx [] ++ "') in ".toList ++ url))
  else
    let extraCols := (List.range md.fields.length).filter fun i => i ≠ pathIdx ∧ i ≠ contentIdx
    let batches ← (R.build reader [pathIdx] none none).mapError (.parquet url)
    .ok (⟨url, reader, contentIdx, extraCols, extraCols.map fun i => md.fields.getD i [],
      offsets 0 md.rowGroups⟩, batches)

/-- Add all rows of one more shard. -/
def addShard (onDuplicate : DupPolicy) (ix : Index) (url : Str) : Outcome Index := do
  let (shard, batches) ← lift (openShard A R pathColumn contentColumn url)
  let shards := ix.shards ++ [shard]
  let (_, files) ← batches.foldlM
    (addBatch onDuplicate shards url ix.shards.length shard.rowGroupOffsets) (0, ix.files)
  .ok { ix with shards := shards, files := files }

/-- The URLs all sources stand for. -/
def expandSources (sources : List Str) : Except FsError (List Str) :=
  sources.foldlM (fun urls s => do
    let adapter ← resolve A s
    let expanded ← adapter.list s
    if expanded = [] then
      .error (.schema ("no shards matched '".toList ++ s ++ "'".toList))
    else .ok (urls ++ expanded)) []

/-! ### Directories -/

/-- Climb from `p` to the root, recording every ancestor, until one is recorded
already.  `fuel` bounds the number of cuts; the length of `p` is enough. -/
def addAncestors : ℕ → SortedMap Str Unit → Str → SortedMap Str Unit
  | 0, dirs, _ => dirs
  | fuel + 1, dirs, p =>
      match beforeLast '/' p with
      | none => dirs
      | some q => if dirs.contains q then dirs else addAncestors fuel (dirs.insert q ()) q

/-- The directories above the given keys. -/
def collectDirs (keys : List Str) : SortedMap Str Unit :=
  keys.foldl (fun dirs k => addAncestors k.length dirs k) SortedMap.empty

/-- The index of the given sources. -/
def buildIndex (sources : List Str) (onDuplicate : DupPolicy) : Outcome Index := do
  let urls ← lift (expandSources A sources)
  let ix ← urls.foldlM (addShard A R pathColumn contentColumn onDuplicate)
    Index.empty
  .ok { ix with dirs := collectDirs ix.files.keys }

end Open

/-! ### What opening a shard asks and records -/

section Opened

variable {A : Adapters} {R : ParquetReader} {pathColumn contentColumn : Option Str} {url : Str}
  {shard : Shard} {batches : List (Except Str (List Column))}

variable (A) in
/-- The shard is read through the adapter of its URL, up to the size that it gives. -/
def ReadsFrom (url : Str) (shard : Shard) : Prop :=
  ∃ adapter size, resolve A url = .ok adapter ∧ adapter.size url = .ok size ∧
    shard.url = url ∧ shard.reader = ⟨adapter, url, size⟩

variable (R pathColumn contentColumn) in
/-- What opening a shard records: which of its columns hold the paths and the
contents, and that the others are the extra ones. -/
structure ShardOpens (shard : Shard) (md : ParquetMetaData) (pathIdx : ℕ)
    (batches : List (Except Str (List Column))) : Prop where
  tryNew : R.tryNew shard.reader = .ok md
  pathCol : detectColumn md.fields pathNames pathColumn "path".toList shard.url = .ok pathIdx
  contentCol : detectColumn md.fields contentNames contentColumn "content".toList shard.url
    = .ok shard.contentCol
  distinct : pathIdx ≠ shard.contentCol
  extraCols : shard.extraCols
    = (List.range md.fields.length).filter fun i => i ≠ pathIdx ∧ i ≠ shard.contentCol
  extraNames : shard.extraNames = shard.extraCols.map fun i => md.fields.getD i []
  rowGroupOffsets : shard.rowGroupOffsets = offsets 0 md.rowGroups
  build : R.build shard.reader [pathIdx] none none = .ok batches

theorem exists_of_bind_ok {ε α β : Type} {x : Except ε α} {f : α → Except ε β} {b : β}
    (h : x >>= f = .ok b) : ∃ a, x = .ok a ∧ f a = .ok b := by
  cases x with
  | error e => cases h
  | ok a => exact ⟨a, rfl, h⟩

theorem mapError_eq_ok {ε ε' α : Type} {f : ε → ε'} {x : Except ε α} {a : α}
    (h : x.mapError f = .ok a) : x = .ok a := by
  cases x with
  | error e => cases h
  | ok b =>
    cases h
    rfl

/-- **A shard opens exactly if the adapter and the library answer**, and records what
they answer. -/
theorem openShard_eq_ok_iff :
    openShard A R pathColumn contentColumn url = .ok (shard, batches) ↔
      ReadsFrom A url shard ∧
        ∃ md pathIdx, ShardOpens R pathColumn contentColumn shard md pathIdx batches := by
  constructor
  · intro h
    unfold openShard at h
    obtain ⟨adapter, hadapter, h⟩ := exists_of_bind_ok h
    obtain ⟨size, hsize, h⟩ := exists_of_bind_ok h
    obtain ⟨md, hmd, h⟩ := exists_of_bind_ok h
    obtain ⟨pathIdx, hpath, h⟩ := exists_of_bind_ok h
    obtain ⟨contentIdx, hcontent, h⟩ := exists_of_bind_ok h
    split at h
    · cases h
    · next hne =>
      obtain ⟨batches', hbuild, h⟩ := exists_of_bind_ok h
      cases h
      exact ⟨⟨adapter, size, hadapter, hsize, rfl, rfl⟩, md, pathIdx, mapError_eq_ok hmd, hpath,
        hcontent, hne, rfl, rfl, rfl, mapError_eq_ok hbuild⟩
  · rintro ⟨⟨adapter, size, hadapter, hsize, rfl, hreader⟩, md, pathIdx, h⟩
    have hshard : shard = ⟨shard.url, shard.reader, shard.contentCol, shard.extraCols,
      shard.extraNames, shard.rowGroupOffsets⟩ := rfl
    have htry := h.tryNew
    have hbuild := h.build
    rw [hreader] at htry hbuild
    rw [hshard, h.extraNames, h.extraCols, h.rowGroupOffsets, hreader]
    simp only [openShard, hadapter, hsize, htry, h.pathCol, h.contentCol, if_neg h.distinct, hbuild,
      bind, Except.bind, Except.mapError]

/-- **Opening a shard records its columns.** -/
theorem shardOpens_of_openShard
    (h : openShard A R pathColumn contentColumn url = .ok (shard, batches)) :
    ∃ md pathIdx, ShardOpens R pathColumn contentColumn shard md pathIdx batches :=
  (openShard_eq_ok_iff.mp h).2

end Opened

/-! ### Two small shards

The first has an empty row group, and batches across its row groups.  A path
occurs twice in it, and is a directory in the second. -/

/-- A reader of empty objects, with every pattern standing for two of them. -/
def sampleRangeReader : RangeReader where
  size _ := .ok 0
  readRange _ _ _ := .ok []
  list _ := .ok ["u".toList, "v".toList]

def sampleAdapters : Adapters :=
  ⟨fun _ => some sampleRangeReader, sampleRangeReader, sampleRangeReader⟩

def sampleReader : ParquetReader where
  tryNew r := .ok ⟨["path".toList, "content".toList],
    if r.url = "u".toList then [1, 0, 2] else [1]⟩
  build r cols sel _ := .ok (
    if cols = [0] then
      if r.url = "u".toList
      then [.ok [utf8Column ["/a".toList, "b//c".toList]], .ok [utf8Column ["a/".toList]]]
      else [.ok [utf8Column ["a/d/".toList]]]
    else if r.url ≠ "u".toList then [.ok [largeBinaryColumn [[4]]]]
    else if sel = some [0] then [.ok [largeBinaryColumn [[1]]]]
    else [.ok [largeBinaryColumn [[2], [3]]]])

/-- The index of the two shards, the first row of a path winning. -/
def sampleIndex : Index :=
  match buildIndex sampleAdapters sampleReader none none [[]] .first with
  | .ok ix => ix
  | .error _ => Index.empty

end ParquetFileFs
