import ParquetFileFs.Index.Basic

/-!
# Decoding row groups and cells

An archive decodes one row group of a shard at a time, and takes from its
columns the content bytes of a row and the values that become metadata.  Taking
a cell that is not there panics, as the arrow accessors do.

## Main definitions

* `binaryValue`, `metaValue` — one cell as content, and as metadata.
* `readRgColumns` — the chosen columns of one row group.
-/

namespace ParquetFileFs

inductive MetaValue
  | null
  | bool (b : Bool)
  | int (i : Int64)
  | float (f : Float)
  | str (s : Str)
  | bytes (bs : Bytes)

/-- A cell that must be there. -/
def cellAt {V : Type} (cells : List (Cell V)) (i : ℕ) : Outcome (Cell V) :=
  match cells[i]? with
  | some c => .ok c
  | none => .error .panic

/-- The cells of a column of one of the binary or text types, as bytes. -/
def Column.binaryCells : Column → Option (List (Cell Bytes))
  | ⟨.binary, cells⟩ => some cells
  | ⟨.largeBinary, cells⟩ => some cells
  | ⟨.binaryView, cells⟩ => some cells
  | ⟨.utf8, cells⟩ => some (cells.map fun c : Cell Str => ⟨c.isNull, utf8Bytes c.value⟩)
  | ⟨.largeUtf8, cells⟩ => some (cells.map fun c : Cell Str => ⟨c.isNull, utf8Bytes c.value⟩)
  | ⟨.utf8View, cells⟩ => some (cells.map fun c : Cell Str => ⟨c.isNull, utf8Bytes c.value⟩)
  | _ => none

def binaryValue (col : Column) (i : ℕ) : Outcome Bytes :=
  match col.binaryCells with
  | some cells => (cellAt cells i).map Cell.value
  | none => .error (.err (.schema
      ("content column must be binary or string, got ".toList ++ col.type.display)))

/-- The metadata value of a cell that is not null. -/
def DataType.metaValue : (t : DataType) → t.Value → MetaValue
  | .boolean, v => .bool v
  | .int8, v => .int (Int8.toInt64 v)
  | .int16, v => .int (Int16.toInt64 v)
  | .int32, v => .int (Int32.toInt64 v)
  | .int64, v => .int v
  | .uint8, v => .int (UInt8.toUInt64 v).toInt64
  | .uint16, v => .int (UInt16.toUInt64 v).toInt64
  | .uint32, v => .int (UInt32.toUInt64 v).toInt64
  | .uint64, v => .int (UInt64.toInt64 v)
  | .float32, v => .float (Float32.toFloat v)
  | .float64, v => .float v
  | .utf8, v => .str v
  | .largeUtf8, v => .str v
  | .utf8View, v => .str v
  | .binary, v => .bytes v
  | .largeBinary, v => .bytes v
  | .binaryView, v => .bytes v
  | .other _ displayable, v => if displayable then .str v else .null

def metaValue (col : Column) (i : ℕ) : Outcome MetaValue :=
  (cellAt col.cells i).map fun c => if c.isNull then .null else col.type.metaValue c.value

/-- Decode the given columns for a single row group. -/
def readRgColumns (R : ParquetReader) (ix : Index) (shardId rg : ℕ) (cols : List ℕ) :
    Outcome (List Column) :=
  match ix.shards[shardId]? with
  | none => .error .panic
  | some shard =>
      match R.tryNew shard.reader with
      | .error e => .error (.err (.parquet shard.url e))
      | .ok md =>
          match md.rowGroups[rg]? with
          | none => .error .panic
          | some rows =>
              match R.build shard.reader cols (some [rg]) (some (max rows 1)) with
              | .error e => .error (.err (.parquet shard.url e))
              | .ok [] => .error (.err (.schema
                  ("empty row group ".toList ++ natStr rg ++ " in ".toList ++ shard.url)))
              | .ok (.error e :: _) => .error (.err (.parquet shard.url e))
              | .ok (.ok batch :: _) => .ok batch

end ParquetFileFs
