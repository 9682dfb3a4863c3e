import ParquetFileFs.ChunkReader

/-!
# Columns, and the parquet library

The parquet and arrow libraries are parameters.  A reader gives the metadata of
a shard and decodes chosen columns of chosen row groups into record batches; a
writer turns record batches into bytes.  What the crate relies on between the
two is `ReadsBack`: a written file reads back the same rows in the same order,
in row groups of which each flush ends one.

## Main definitions

* `DataType`, `Column` — the column types the crate tells apart, and columns.
* `ParquetReader`, `ParquetMetaData` — decoding.
* `ParquetWriter`, `fileBytes` — encoding, and the bytes of a whole file.
* `ReadsBack` — what reading a written file gives.
* `plainWriter`, `plainReader` — a format, without compression or encodings.

## Main results

* `readsBack_plain` — **the plain format reads back what was written.**
-/

namespace ParquetFileFs

/-! ### Columns -/

/-- The column types.  Any other type is known by its name and by whether its
values can be rendered as text. -/
inductive DataType
  | utf8
  | largeUtf8
  | utf8View
  | binary
  | largeBinary
  | binaryView
  | boolean
  | int8
  | int16
  | int32
  | int64
  | uint8
  | uint16
  | uint32
  | uint64
  | float32
  | float64
  | other (name : Str) (displayable : Bool)
  deriving DecidableEq, Repr

/-- The values of a column type; those of an unlisted type are their rendering. -/
def DataType.Value : DataType → Type
  | .utf8 => Str
  | .largeUtf8 => Str
  | .utf8View => Str
  | .binary => Bytes
  | .largeBinary => Bytes
  | .binaryView => Bytes
  | .boolean => Bool
  | .int8 => Int8
  | .int16 => Int16
  | .int32 => Int32
  | .int64 => Int64
  | .uint8 => UInt8
  | .uint16 => UInt16
  | .uint32 => UInt32
  | .uint64 => UInt64
  | .float32 => Float32
  | .float64 => Float
  | .other _ _ => Str

/-- The name a type is displayed with. -/
def DataType.display : DataType → Str
  | .utf8 => "Utf8".toList
  | .largeUtf8 => "LargeUtf8".toList
  | .utf8View => "Utf8View".toList
  | .binary => "Binary".toList
  | .largeBinary => "LargeBinary".toList
  | .binaryView => "BinaryView".toList
  | .boolean => "Boolean".toList
  | .int8 => "Int8".toList
  | .int16 => "Int16".toList
  | .int32 => "Int32".toList
  | .int64 => "Int64".toList
  | .uint8 => "UInt8".toList
  | .uint16 => "UInt16".toList
  | .uint32 => "UInt32".toList
  | .uint64 => "UInt64".toList
  | .float32 => "Float32".toList
  | .float64 => "Float64".toList
  | .other name _ => name

/-- One cell of a column; a null cell still has some value behind it. -/
structure Cell (V : Type) where
  isNull : Bool
  value : V

/-- A cell that is not null. -/
def Cell.valid {V : Type} (v : V) : Cell V := ⟨false, v⟩

/-- A column of values of one type. -/
structure Column where
  type : DataType
  cells : List (Cell type.Value)

/-- The number of rows of a column. -/
def Column.length (c : Column) : ℕ := c.cells.length

/-- The non-null text column with the given values. -/
def utf8Column (vs : List Str) : Column := ⟨.utf8, vs.map Cell.valid⟩

/-- The non-null binary column with the given values. -/
def largeBinaryColumn (vs : List Bytes) : Column := ⟨.largeBinary, vs.map Cell.valid⟩

/-! ### Reading -/

/-- The metadata of a shard: the names of its columns, and the number of rows
of each row group. -/
structure ParquetMetaData where
  fields : List Str
  rowGroups : List ℕ

/-- The decoder of the parquet library.  Errors are given by their text. -/
structure ParquetReader where
  /-- Open a shard and read its metadata. -/
  tryNew : AdapterChunkReader → Except Str ParquetMetaData
  /-- Decode the given columns, of the given row groups (or all), in batches of
  at most the given number of rows (or a default). -/
  build : AdapterChunkReader → List ℕ → Option (List ℕ) → Option ℕ →
    Except Str (List (Except Str (List Column)))

/-! ### Writing -/

/-- A row of an archive: the stored path and the content. -/
abbrev Row := Str × Bytes

/-- The names of the two columns of a written archive. -/
structure Schema where
  pathColumn : Str
  contentColumn : Str
  deriving DecidableEq, Repr

inductive PackCompression
  | zstd
  | snappy
  | none
  deriving DecidableEq, Repr

/-- The encoder of the parquet library: the bytes it writes at each call, given
the batches that were written and flushed before. -/
structure ParquetWriter where
  start : Schema → PackCompression → Bytes
  write : Schema → PackCompression → List (List Row) → List Row → Bytes
  flush : Schema → PackCompression → List (List Row) → List Row → Bytes
  close : Schema → PackCompression → List (List Row) → Bytes

namespace ParquetWriter

/-- The bytes of the batches `rest`, each written and flushed, after `done`. -/
def groupsBytes (W : ParquetWriter) (sch : Schema) (c : PackCompression) :
    List (List Row) → List (List Row) → Bytes
  | _, [] => []
  | done, b :: rest =>
      W.write sch c done b ++ W.flush sch c done b ++ W.groupsBytes sch c (done ++ [b]) rest

/-- The bytes of the file with the given batches, each flushed on its own. -/
def fileBytes (W : ParquetWriter) (sch : Schema) (c : PackCompression)
    (groups : List (List Row)) : Bytes :=
  W.start sch c ++ W.groupsBytes sch c [] groups ++ W.close sch c groups

theorem groupsBytes_append (W : ParquetWriter) (sch : Schema) (c : PackCompression)
    (done gs gs' : List (List Row)) :
    W.groupsBytes sch c done (gs ++ gs')
      = W.groupsBytes sch c done gs ++ W.groupsBytes sch c (done ++ gs) gs' := by
  induction gs generalizing done with
  | nil => simp [groupsBytes]
  | cons g gs ih => simp [groupsBytes, ih]

end ParquetWriter

/-! ### Reading what was written -/

/-- Two-column batches: the columns with the given indices, in column order. -/
def project (cols : List ℕ) (rows : List Row) : List Column :=
  (if 0 ∈ cols then [utf8Column (rows.map Prod.fst)] else [])
    ++ if 1 ∈ cols then [largeBinaryColumn (rows.map Prod.snd)] else []

/-- The batches `batches` hold the columns `cols` of exactly the rows `rows`; no
batch is empty, and rows that fit into one batch come in one. -/
def Batched (cols : List ℕ) (batchSize : Option ℕ) (rows : List Row)
    (batches : List (Except Str (List Column))) : Prop :=
  ∃ chunks : List (List Row), chunks.flatten = rows ∧ (∀ b ∈ chunks, b ≠ []) ∧
    (∀ n, batchSize = some n → rows.length ≤ n → chunks.length ≤ 1) ∧
    batches = chunks.map fun b => .ok (project cols b)

/-- The rows selected by a list of row groups, or all. -/
def selectRows (rgs : List (List Row)) : Option (List ℕ) → List Row
  | none => rgs.flatten
  | some is => (is.map fun i => rgs.getD i []).flatten

/-- A request for existing columns of existing row groups. -/
structure ValidRequest (rgs : List (List Row)) (cols : List ℕ) (sel : Option (List ℕ))
    (batchSize : Option ℕ) : Prop where
  cols_ne_nil : cols ≠ []
  cols_lt : ∀ i ∈ cols, i < 2
  sel_lt : ∀ is, sel = some is → ∀ i ∈ is, i < rgs.length
  batchSize_ne_zero : batchSize ≠ some 0

/-- **What reading a written file gives**: the same rows in the same order, in
row groups of which each flush ends one. -/
def ReadsBack (R : ParquetReader) (W : ParquetWriter) (sch : Schema) (c : PackCompression)
    (groups : List (List Row)) : Prop :=
  ∀ r : AdapterChunkReader, r.Over (W.fileBytes sch c groups) →
    ∃ rgs : List (List Row),
      (∃ parts : List (List (List Row)), parts.map List.flatten = groups ∧ parts.flatten = rgs) ∧
      R.tryNew r = .ok ⟨[sch.pathColumn, sch.contentColumn], rgs.map List.length⟩ ∧
      ∀ cols sel batchSize, ValidRequest rgs cols sel batchSize →
        ∃ batches, R.build r cols sel batchSize = .ok batches ∧
          Batched cols batchSize (selectRows rgs sel) batches

/-! ### A plain format

A format in which every byte is tagged with what it belongs to: a path, a
content, the end of a row or of a group. -/

def plainRow (r : Row) : Bytes :=
  (r.1.flatMap fun c => [1, UInt8.ofNat c.toNat]) ++ (r.2.flatMap fun b => [2, b]) ++ [3, 0]

def plainMagic : Bytes := [0x50, 0x41, 0x52, 0x31]

def plainWriter : ParquetWriter where
  start _ _ := plainMagic
  write _ _ _ batch := batch.flatMap plainRow
  flush _ _ _ _ := [4, 0]
  close _ _ _ := plainMagic

/-- Change what comes first, if anything does. -/
def onHead {α : Type} (f : α → α) : List α → List α
  | [] => []
  | a :: as => f a :: as

/-- The row groups of tagged bytes. -/
def plainGroups : Bytes → List (List Row)
  | 1 :: b :: rest => onHead (onHead fun r => (Char.ofNat b.toNat :: r.1, r.2)) (plainGroups rest)
  | 2 :: b :: rest => onHead (onHead fun r => (r.1, b :: r.2)) (plainGroups rest)
  | 3 :: _ :: rest => onHead (([], []) :: ·) (plainGroups rest)
  | 4 :: _ :: rest => [] :: plainGroups rest
  | _ => []

def plainReader : ParquetReader where
  tryNew r := (r.getBytes 0 r.size).map fun bs =>
    ⟨["path".toList, "content".toList], (plainGroups (bs.drop 4)).map List.length⟩
  build r cols sel _ := (r.getBytes 0 r.size).map fun bs =>
    if selectRows (plainGroups (bs.drop 4)) sel = [] then []
    else [.ok (project cols (selectRows (plainGroups (bs.drop 4)) sel))]

theorem plainGroups_content (bs : Bytes) (rest : Bytes) :
    plainGroups ((bs.flatMap fun b => [2, b]) ++ [3, 0] ++ rest)
      = onHead (([], bs) :: ·) (plainGroups rest) := by
  induction bs with
  | nil => rfl
  | cons b bs ih =>
    have hstep : plainGroups (((b :: bs).flatMap fun b => [2, b]) ++ [3, 0] ++ rest)
        = onHead (onHead fun r => (r.1, b :: r.2))
            (plainGroups ((bs.flatMap fun b => [2, b]) ++ [3, 0] ++ rest)) := rfl
    rw [hstep, ih]
    cases plainGroups rest <;> rfl

theorem plainGroups_row (r : Row) (hr : ∀ c ∈ r.1, c.toNat < 256) (rest : Bytes) :
    plainGroups (plainRow r ++ rest) = onHead (r :: ·) (plainGroups rest) := by
  obtain ⟨path, bs⟩ := r
  induction path with
  | nil => exact plainGroups_content bs rest
  | cons c cs ih =>
    have hchar : Char.ofNat (UInt8.ofNat c.toNat).toNat = c := by
      rw [UInt8.toNat_ofNat_of_lt' (hr c List.mem_cons_self), Char.ofNat_toNat]
    have hstep : plainGroups (plainRow (c :: cs, bs) ++ rest)
        = onHead (onHead fun r => (Char.ofNat (UInt8.ofNat c.toNat).toNat :: r.1, r.2))
            (plainGroups (plainRow (cs, bs) ++ rest)) := rfl
    rw [hstep, hchar, ih fun d hd => hr d (List.mem_cons_of_mem c hd)]
    cases plainGroups rest <;> rfl

/-- Reading the bytes of the groups gives the groups. -/
theorem plainGroups_groupsBytes (sch : Schema) (c : PackCompression) (groups : List (List Row))
    (hchars : ∀ g ∈ groups, ∀ r ∈ g, ∀ ch ∈ r.1, ch.toNat < 256) (done : List (List Row)) :
    plainGroups (plainWriter.groupsBytes sch c done groups ++ plainMagic) = groups := by
  induction groups generalizing done with
  | nil => rfl
  | cons g gs ih =>
    have hrest := ih (fun g' hg' => hchars g' (List.mem_cons_of_mem g hg')) (done ++ [g])
    have hrows : ∀ rows : List Row, (∀ r ∈ rows, ∀ ch ∈ r.1, ch.toNat < 256) →
        plainGroups (rows.flatMap plainRow ++ [4, 0]
          ++ plainWriter.groupsBytes sch c (done ++ [g]) gs ++ plainMagic) = rows :: gs := by
      intro rows hrows
      induction rows with
      | nil =>
        exact congrArg ([] :: ·) hrest
      | cons r rows ihr =>
        rw [List.flatMap_cons, List.append_assoc, List.append_assoc, List.append_assoc,
          plainGroups_row r (hrows r List.mem_cons_self)]
        rw [List.append_assoc, List.append_assoc] at ihr
        rw [ihr fun r' hr' => hrows r' (List.mem_cons_of_mem r hr')]
        rfl
    exact hrows g (hchars g List.mem_cons_self)

/-- **What the plain writer wrote, the plain reader reads back.** -/
theorem readsBack_plain (c : PackCompression) {groups : List (List Row)}
    (hchars : ∀ g ∈ groups, ∀ r ∈ g, ∀ ch ∈ r.1, ch.toNat < 256) :
    ReadsBack plainReader plainWriter ⟨"path".toList, "content".toList⟩ c groups := by
  intro r hr
  have hdrop : plainGroups ((plainWriter.fileBytes ⟨"path".toList, "content".toList⟩ c
      groups).drop 4) = groups := by
    rw [ParquetWriter.fileBytes, List.append_assoc]
    exact plainGroups_groupsBytes _ c groups hchars []
  refine ⟨groups, ⟨groups.map fun g => [g], by simp [Function.comp_def],
    by rw [← List.flatMap_def, List.flatMap_singleton']⟩, ?_, fun cols sel n _ => ?_⟩
  · simp only [plainReader, hr.getBytes_all, Except.map, hdrop]
  · refine ⟨if selectRows groups sel = [] then [] else [.ok (project cols (selectRows groups sel))],
      by simp only [plainReader, hr.getBytes_all, Except.map, hdrop], ?_⟩
    by_cases hnil : selectRows groups sel = []
    · rw [if_pos hnil]
      exact ⟨[], by simp [hnil], by simp, by simp, rfl⟩
    · rw [if_neg hnil]
      exact ⟨[selectRows groups sel], by simp, by simpa using hnil, by simp, rfl⟩

end ParquetFileFs
