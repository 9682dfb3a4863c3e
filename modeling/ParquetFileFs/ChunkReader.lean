import ParquetFileFs.Adapter
import ParquetFileFs.Lib.Program

/-!
# Reading a shard through its adapter

The parquet library reads a shard in byte ranges.  `AdapterChunkReader` fetches
them from the adapter of the shard, with the size recorded when it was opened.
It hands out single ranges, and streams that are read buffer by buffer.

## Main definitions

* `AdapterChunkReader`, `getBytes` — the reader handed to the parquet library.
* `AdapterChunkReader.Over` — the reader over an object holding given bytes.
* `RangeM`, `RangeReader.answer` — computations that ask an adapter for ranges,
  and the answers of an adapter.
* `AdapterRead`, `read`, `reads` — a stream, and one and several reads from it.
* `askBytes` — `getBytes` as such a computation.
-/

namespace ParquetFileFs

/-- A number in decimal. -/
def natStr (n : ℕ) : Str := Nat.toDigits 10 n

/-- An object behind an adapter, with its size. -/
structure AdapterChunkReader where
  adapter : RangeReader
  url : Str
  size : ℕ

namespace AdapterChunkReader

/-- The bytes of one range; an adapter that answers with another number of
bytes is an error.  Errors are given by their text. -/
def getBytes (r : AdapterChunkReader) (start length : ℕ) : Except Str Bytes :=
  match r.adapter.readRange r.url start length with
  | .error e => .error ("External: ".toList ++ e.display)
  | .ok data =>
      if data.length = length then .ok data
      else .error ("Parquet error: adapter returned ".toList ++ natStr data.length
        ++ " bytes for ".toList ++ r.url ++ ", expected ".toList ++ natStr length)

/-- The reader of an object that holds exactly the bytes `bs`. -/
structure Over (r : AdapterChunkReader) (bs : Bytes) : Prop where
  holds : r.adapter.Holds r.url bs
  size : r.size = bs.length

theorem Over.getBytes {r : AdapterChunkReader} {bs : Bytes} (h : r.Over bs) {start length : ℕ}
    (hle : start + length ≤ bs.length) :
    r.getBytes start length = .ok ((bs.drop start).take length) := by
  have hlen : ((bs.drop start).take length).length = length := by
    rw [List.length_take, List.length_drop]
    omega
  rw [AdapterChunkReader.getBytes, h.holds.readRange start length hle]
  simp only [hlen, if_pos]

theorem Over.getBytes_all {r : AdapterChunkReader} {bs : Bytes}
    (h : r.Over bs) : r.getBytes 0 r.size = .ok bs := by
  rw [h.size, h.getBytes (by omega), List.drop_zero, List.take_length]

end AdapterChunkReader

/-! ### Asking for ranges -/

/-- A range asked of an adapter. -/
structure RangeRequest where
  url : Str
  offset : ℕ
  length : ℕ
  deriving DecidableEq, Repr

/-- A computation that asks an adapter for ranges. -/
abbrev RangeM (α : Type) : Type := Program RangeRequest (fun _ => Except FsError Bytes) α

/-- The answers of an adapter. -/
def RangeReader.answer (a : RangeReader) (q : RangeRequest) (s : Unit) :
    Except FsError Bytes × Unit := (a.readRange q.url q.offset q.length, s)

/-- A stream of the bytes of an object, and where it stands. -/
structure AdapterRead where
  inner : AdapterChunkReader
  pos : ℕ

namespace AdapterRead

/-- Read into a buffer of the given length: the bytes that were read, or the text
of the error. -/
def read (s : AdapterRead) (bufLen : ℕ) : RangeM (AdapterRead × Except Str Bytes) :=
  if min bufLen (s.inner.size - s.pos) = 0 then .ret (s, .ok [])
  else .call ⟨s.inner.url, s.pos, min bufLen (s.inner.size - s.pos)⟩ fun
    | .error e => .ret (s, .error e.display)
    | .ok data =>
        -- the position is a 64-bit number, which an adapter that answers with
        -- too many bytes can push over its end
        .ret ({ s with pos := (s.pos + min data.length bufLen) % 2 ^ 64 },
          .ok (data.take (min data.length bufLen)))

/-- Read into one buffer after the other. -/
def reads (s : AdapterRead) : List ℕ → RangeM (AdapterRead × List (Except Str Bytes))
  | [] => .ret (s, [])
  | bufLen :: bufs => do
      let (s, res) ← s.read bufLen
      let (s, results) ← s.reads bufs
      .ret (s, res :: results)

end AdapterRead

namespace AdapterChunkReader

/-- A stream of the bytes from an offset on. -/
def getRead (r : AdapterChunkReader) (start : ℕ) : AdapterRead := ⟨r, start⟩

/-- `getBytes`, with the range asked for in the open. -/
def askBytes (r : AdapterChunkReader) (start length : ℕ) : RangeM (Except Str Bytes) :=
  .call ⟨r.url, start, length⟩ fun
    | .error e => .ret (.error ("External: ".toList ++ e.display))
    | .ok data =>
        if data.length = length then .ret (.ok data)
        else .ret (.error ("Parquet error: adapter returned ".toList ++ natStr data.length
          ++ " bytes for ".toList ++ r.url ++ ", expected ".toList ++ natStr length))

/-- Served by the adapter of the reader, the two agree. -/
theorem exec_askBytes (r : AdapterChunkReader) (start length : ℕ) :
    (r.askBytes start length).exec r.adapter.answer () = (r.getBytes start length, ()) := by
  rw [askBytes, Program.exec_call, getBytes]
  simp only [RangeReader.answer]
  cases r.adapter.readRange r.url start length with
  | error e => rfl
  | ok data =>
    by_cases hlen : data.length = length
    · simp only [if_pos hlen, Program.exec_ret]
    · simp only [if_neg hlen, Program.exec_ret]

end AdapterChunkReader

end ParquetFileFs
