import ParquetFileFs.Parquet
import ParquetFileFs.Lib.Grouping

/-!
# Writing a shard

A writer collects rows in two column builders and writes them as a row group
once their contents are large enough.  It writes to a temporary file next to
the output, which finishing renames onto the output; however a writer ends, its
file is closed, which may still write to it, and then its temporary file is removed.

## Main definitions

* `PackOptions`, `PackSummary`, `PackWriter` — options, results, and writers.
* `PackWriter.create`, `append`, `flushRowGroup`, `finish` — the operations.
* `flushRowGroupMut`, `appendMut` — the operations as they change a writer in
  place, also where they fail.
* `PackWriter.closeFile`, `dropWriter` — what dropping a writer does.
* `flushGroups` — the row groups in which rows are written.
* `PackWriter.Buffers` — what a writer has written and what it holds.
-/

namespace ParquetFileFs

/-! ### Options and results -/

def PackCompression.parse (s : Str) : Except FsError PackCompression :=
  if s = "zstd".toList then .ok .zstd
  else if s = "snappy".toList then .ok .snappy
  else if s = "none".toList then .ok .none
  else .error (.pack ("compression must be 'zstd', 'snappy' or 'none', got '".toList ++ s
    ++ "'".toList))

structure PackOptions where
  pathColumn : Str := "path".toList
  contentColumn : Str := "content".toList
  compression : PackCompression := .zstd
  /-- A row group is flushed once its contents reach this many bytes. -/
  maxRowGroupBytes : ℕ := 32 * 1024 * 1024

/-- The columns of the shard. -/
def PackOptions.schema (opts : PackOptions) : Schema := ⟨opts.pathColumn, opts.contentColumn⟩

structure PackSummary where
  files : ℕ
  bytes : ℕ
  deriving DecidableEq, Repr

/-! ### Computations on the file system -/

/-- The files of the machine. -/
abbrev Files := FileSystem Str UInt8

/-- A computation on the file system that may fail. -/
abbrev FileM (α : Type) := Program (FsOp Str UInt8) (FsOp.Res Str) (Outcome α)

/-- Write through an open handle, for the output `out`. -/
def writeBytes (out : Str) (h : ℕ) (bs : Bytes) : FileM Unit :=
  .call (.write h bs) fun
    | .ok _ => .ret (.ok ())
    | .error e => .ret (.error (.err (.parquet out e)))

/-- Remove the temporary file, if it is still there. -/
def removeTemp (tmp : Str) : Program (FsOp Str UInt8) (FsOp.Res Str) Unit :=
  .call (.remove tmp) fun _ => .ret ()

/-- Drop an encoder: its file is closed. -/
def dropEncoder (h : ℕ) : Program (FsOp Str UInt8) (FsOp.Res Str) Unit :=
  .call (.close h) fun _ => .ret ()

/-! ### The writer -/

/-- The encoder at work: the open file, and the batches it has written. -/
structure ArrowWriter where
  handle : ℕ
  written : List (List Row)

structure PackWriter where
  out : Str
  tmp : Str
  writer : Option ArrowWriter
  schema : Schema
  compression : PackCompression
  paths : List Str
  contents : List Bytes
  pending : ℕ
  maxPending : ℕ
  seen : List Str
  files : ℕ
  bytes : ℕ

/-- The temporary file next to an output. -/
def tmpName (out : Str) : Str := out ++ ".tmp".toList

/-- The bytes a column of text can hold: its offsets have 32 bits. -/
def maxTextBytes : ℕ := 2 ^ 31 - 1

/-- The bytes of the text in a column. -/
def textBytes (vs : List Str) : ℕ := (vs.map fun s => (utf8Bytes s).length).sum

namespace PackWriter

variable (W : ParquetWriter)

def create (out : Str) (opts : PackOptions) : FileM PackWriter :=
  .call (.create (tmpName out)) fun
    | .error e => .ret (.error (.err (.io (tmpName out) e)))
    | .ok h =>
        -- an encoder that does not start is dropped before the file is removed
        (((writeBytes out h (W.start opts.schema opts.compression)).onError
          (dropEncoder h)).onError (removeTemp (tmpName out))).andThen fun _ => .ret (.ok
            { out := out, tmp := tmpName out, writer := some ⟨h, []⟩, schema := opts.schema
              compression := opts.compression, paths := [], contents := [], pending := 0
              maxPending := max opts.maxRowGroupBytes 1, seen := [], files := 0, bytes := 0 })

/-- Write the buffered rows as a row group.  The two columns have one length and
no nulls, so they always form a batch. -/
def flushRowGroup (w : PackWriter) : FileM PackWriter :=
  if w.paths.length = 0 then .ret (.ok w)
  else
    match w.writer with
    | none => .ret (.error (.err (.pack "writer already closed".toList)))
    | some aw =>
        let batch := w.paths.zip w.contents
        (writeBytes w.out aw.handle (W.write w.schema w.compression aw.written batch)).andThen
          fun _ =>
            (writeBytes w.out aw.handle (W.flush w.schema w.compression aw.written batch)).andThen
              fun _ => .ret (.ok
                { w with writer := some { aw with written := aw.written ++ [batch] }
                         paths := [], contents := [], pending := 0 })

/-- The writer with one more row in its buffers. -/
def push (w : PackWriter) (stored : Str) (content : Bytes) : PackWriter :=
  { w with seen := stored :: w.seen
           paths := w.paths ++ [stored]
           contents := w.contents ++ [content]
           pending := w.pending + content.length
           files := w.files + 1
           bytes := w.bytes + content.length }

/-- A pushed row is seen. -/
theorem mem_seen_push {w : PackWriter} {rows : List Row}
    (h : ∀ s, s ∈ w.seen ↔ s ∈ rows.map Prod.fst) (r : Row) (s : Str) :
    s ∈ (w.push r.1 r.2).seen ↔ s ∈ (rows ++ [r]).map Prod.fst := by
  simp only [push, List.mem_cons, h, List.map_append, List.map_cons, List.map_nil,
    List.mem_append, List.not_mem_nil, or_false]
  exact or_comm

def append (w : PackWriter) (stored : Str) (content : Bytes) : FileM PackWriter :=
  if stored ∈ w.seen then
    .ret (.error (.err (.pack ("duplicate path '".toList ++ stored ++ "' in input".toList))))
  else if maxTextBytes < textBytes (w.paths ++ [stored]) then
    -- the builder panics when an offset does not fit
    .ret (.error .panic)
  else if w.maxPending ≤ (w.push stored content).pending then
    flushRowGroup W (w.push stored content)
  else .ret (.ok (w.push stored content))

/-- Drop the encoder, if there is one. -/
def closeFile (w : PackWriter) : Program (FsOp Str UInt8) (FsOp.Res Str) Unit :=
  match w.writer with
  | none => .ret ()
  | some aw => dropEncoder aw.handle

/-- Close the shard.  An encoder that closed it has nothing left in its buffer. -/
def close (w : PackWriter) : FileM PackWriter :=
  match w.writer with
  | none => .ret (.error (.err (.pack "writer already closed".toList)))
  | some aw =>
      (writeBytes w.out aw.handle (W.close w.schema w.compression aw.written)).andThen fun _ =>
        .ret (.ok { w with writer := none })

/-- Rename the shard onto the output. -/
def publish (w : PackWriter) : FileM PackSummary :=
  .call (.rename w.tmp w.out) fun
    | .ok _ => .ret (.ok ⟨w.files, w.bytes⟩)
    | .error e => .ret (.error (.err (.io w.out e)))

/-- Finishing consumes the writer, which is dropped at the end in any case: the
encoder where it was not closed, and the temporary file. -/
def finish (w : PackWriter) : FileM PackSummary :=
  ((((flushRowGroup W w).andThen (close W)).onError w.closeFile).andThen publish).andFinally
    (removeTemp w.tmp)

end PackWriter

/-- Drop a writer: the encoder first, and then the temporary file. -/
def dropWriter (w : PackWriter) : Program (FsOp Str UInt8) (FsOp.Res Str) Unit :=
  w.closeFile >>= fun _ => removeTemp w.tmp

/-! ### A writer that is changed in place

A method that fails returns, and leaves a writer behind.  Only a panic leaves
nothing to look at. -/

/-- What an operation leaves of a writer, and its result. -/
abbrev WriterM : Type := FileM (PackWriter × Except FsError Unit)

/-- Go on from a result; a failure becomes a value, a panic goes on. -/
def attempt {α β : Type} (p : FileM α) (fail : FsError → β) (next : α → FileM β) : FileM β :=
  p.bind fun
    | .ok a => next a
    | .error (.err e) => .ret (.ok (fail e))
    | .error .panic => .ret (.error .panic)

/-- The writer, if the operation succeeded. -/
def taken : PackWriter × Except FsError Unit → FileM PackWriter
  | (w, .ok _) => .ret (.ok w)
  | (_, .error e) => .ret (.error (.err e))

theorem attempt_andThen {α β γ : Type} {f : β → FileM γ} (p : FileM α) (fail : FsError → β)
    (next : α → FileM β) (hfail : ∀ e, f (fail e) = .ret (.error (.err e))) :
    (attempt p fail next).andThen f = p.andThen fun a => (next a).andThen f := by
  induction p with
  | ret r =>
    rcases r with (e | _) | a
    · exact hfail e
    · rfl
    · rfl
  | call o k ih => exact congrArg (Program.call o) (funext ih)

namespace PackWriter

variable (W : ParquetWriter)

/-- The builders are emptied whatever becomes of the batch; the encoder of a
batch that failed stays as it was. -/
def flushRowGroupMut (w : PackWriter) : WriterM :=
  if w.paths.length = 0 then .ret (.ok (w, .ok ()))
  else
    let emptied := { w with paths := [], contents := [] }
    match w.writer with
    | none => .ret (.ok (emptied, .error (.pack "writer already closed".toList)))
    | some aw =>
        let batch := w.paths.zip w.contents
        attempt (writeBytes w.out aw.handle (W.write w.schema w.compression aw.written batch))
          (fun e => (emptied, .error e)) fun _ =>
            attempt (writeBytes w.out aw.handle (W.flush w.schema w.compression aw.written batch))
              (fun e => (emptied, .error e)) fun _ => .ret (.ok
                ({ w with writer := some { aw with written := aw.written ++ [batch] }
                          paths := [], contents := [], pending := 0 }, .ok ()))

def appendMut (w : PackWriter) (stored : Str) (content : Bytes) : WriterM :=
  if stored ∈ w.seen then
    -- a set that has the path already does not change
    .ret (.ok (w, .error (.pack ("duplicate path '".toList ++ stored ++ "' in input".toList))))
  else if maxTextBytes < textBytes (w.paths ++ [stored]) then .ret (.error .panic)
  else if w.maxPending ≤ (w.push stored content).pending then
    flushRowGroupMut W (w.push stored content)
  else .ret (.ok (w.push stored content, .ok ()))

/-- Where a flush succeeds, it leaves the writer that it returns. -/
theorem flushRowGroup_eq (w : PackWriter) :
    flushRowGroup W w = (flushRowGroupMut W w).andThen taken := by
  rw [flushRowGroup, flushRowGroupMut]
  split
  · rfl
  · cases w.writer with
    | none => rfl
    | some aw =>
      simp only
      rw [attempt_andThen (f := taken) _ _ _ fun e => rfl]
      refine congrArg _ (funext fun _ => ?_)
      rw [attempt_andThen (f := taken) _ _ _ fun e => rfl]
      rfl

/-- Where an append succeeds, it leaves the writer that it returns. -/
theorem append_eq (w : PackWriter) (stored : Str) (content : Bytes) :
    append W w stored content = (appendMut W w stored content).andThen taken := by
  rw [append, appendMut]
  split
  · rfl
  split
  · rfl
  split
  · exact flushRowGroup_eq W _
  · rfl

end PackWriter

/-! ### The rows a writer stands for -/

/-- The weight of a row is the size of its content. -/
def rowSize (r : Row) : ℕ := r.2.length

/-- The row groups in which rows are written. -/
def flushGroups (maxPending : ℕ) (rows : List Row) : List (List Row) :=
  Grouping.groups rowSize maxPending rows

/-- The writer, with the file open as `h`, has written the groups `closed` of the
rows appended to it and holds the rest in its buffers. -/
structure PackWriter.Buffers (w : PackWriter) (h : ℕ) (closed : List (List Row)) (buf : List Row)
    (rows : List Row) : Prop where
  writer : w.writer = some ⟨h, closed⟩
  paths : w.paths = buf.map Prod.fst
  contents : w.contents = buf.map Prod.snd
  pending : w.pending = Grouping.total rowSize buf
  mem_seen : ∀ s, s ∈ w.seen ↔ s ∈ rows.map Prod.fst
  nodup : (rows.map Prod.fst).Nodup
  files : w.files = rows.length
  bytes : w.bytes = Grouping.total rowSize rows

namespace PackWriter.Buffers

variable {w : PackWriter} {h : ℕ} {closed : List (List Row)} {buf rows : List Row}

/-- The buffers hold the rows that are not written. -/
theorem zip_eq (hw : w.Buffers h closed buf rows) : w.paths.zip w.contents = buf := by
  rw [hw.paths, hw.contents, List.zip_map']
  simp

theorem length_eq (hw : w.Buffers h closed buf rows) : w.paths.length = buf.length := by
  rw [hw.paths, List.length_map]

/-- A new path joins the buffers. -/
theorem push (hw : w.Buffers h closed buf rows) {stored : Str} (content : Bytes)
    (hnew : stored ∉ w.seen) :
    (w.push stored content).Buffers h closed (buf ++ [(stored, content)])
      (rows ++ [(stored, content)]) where
  writer := hw.writer
  paths := by simp [PackWriter.push, hw.paths]
  contents := by simp [PackWriter.push, hw.contents]
  pending := by
    rw [Grouping.total_append_singleton, ← hw.pending]
    rfl
  mem_seen := PackWriter.mem_seen_push hw.mem_seen (stored, content)
  nodup := by
    have hno : stored ∉ rows.map Prod.fst := fun hmem => hnew ((hw.mem_seen stored).mpr hmem)
    rw [List.map_append, List.map_singleton]
    exact hw.nodup.append (List.nodup_singleton _) (by simpa using hno)
  files := by simp [PackWriter.push, hw.files]
  bytes := by
    rw [Grouping.total_append_singleton, ← hw.bytes]
    rfl

/-- Writing a batch empties the buffers. -/
theorem flush (hw : w.Buffers h closed buf rows) (closed' : List (List Row)) :
    ({ w with writer := some ⟨h, closed'⟩, paths := [], contents := [], pending := 0 }).Buffers h
      closed' [] rows :=
  ⟨rfl, rfl, rfl, rfl, hw.mem_seen, hw.nodup, hw.files, hw.bytes⟩

end PackWriter.Buffers

end ParquetFileFs
