import ParquetFileFs.ChunkReader
import Mathlib.Data.List.SplitLengths

/-!
# Streaming a shard, and what an adapter is asked

Over an object that holds given bytes, the reads from a stream cut the rest of
these bytes at the lengths of the buffers.  A stream asks for what is left at
most.  A single range is asked for as it comes, whether the object reaches that
far or not.

## Main definitions

* `tenBytes` — a reader over ten bytes.
* `ReaderCall`, `session` — calls to a reader and its streams, in any order.
* `NeverPastEnd` — no request of a session goes past the end of the object, and
  a call that would need one gets less or an error.

## Main results

* `exec_reads` — reads from a stream as one cut of the bytes.
* `reads_stream` — **streaming reproduces the object.**
* `exec_session` — every call of a session gets the bytes at its place.
* `neverPastEnd_iff` — **no request goes past the end exactly when no single
  range does.**
-/

namespace List

variable {α : Type*}

/-- Dropping what was taken drops as much as was to be taken. -/
theorem drop_length_take (n : ℕ) (l : List α) : l.drop (l.take n).length = l.drop n := by
  rw [length_take]
  rcases Nat.le_total n l.length with hle | hle
  · rw [Nat.min_eq_left hle]
  · rw [Nat.min_eq_right hle, drop_length, drop_eq_nil_of_le hle]

/-- What is cut off at given lengths, taken together. -/
theorem flatten_splitLengths_eq_take (sz : List ℕ) (l : List α) :
    (sz.splitLengths l).flatten = l.take sz.sum := by
  induction sz generalizing l with
  | nil => simp
  | cons n sz ih => rw [splitLengths_cons, flatten_cons, ih, sum_cons, take_add]

/-- The piece at a position starts where the ones before it end. -/
theorem getElem?_splitLengths (sz : List ℕ) (l : List α) (i : ℕ) :
    (sz.splitLengths l)[i]? =
      sz[i]?.map fun n => (l.drop ((sz.splitLengths l).take i).flatten.length).take n := by
  induction sz generalizing l i with
  | nil => simp
  | cons n sz ih =>
    rw [splitLengths_cons]
    cases i with
    | zero => simp
    | succ i =>
      simp only [getElem?_cons_succ, ih, take_succ_cons, flatten_cons, length_append,
        ← drop_drop, drop_length_take]

end List

namespace ParquetFileFs

open Program

/-- A reader over ten bytes. -/
def tenBytes : AdapterChunkReader where
  adapter :=
    { size := fun _ => .ok 10
      readRange := fun url offset length =>
        if offset + length ≤ 10 then .ok (((utf8Bytes "0123456789".toList).drop offset).take length)
        else .error (.io url "failed to fill whole buffer".toList)
      list := fun p => .ok [p] }
  url := "f.bin".toList
  size := 10

theorem over_tenBytes : tenBytes.Over (utf8Bytes "0123456789".toList) where
  holds :=
    { size := by decide
      readRange := fun offset length hle => if_pos hle }
  size := by decide

/-! ### Streaming -/

variable {r : AdapterChunkReader} {bs : Bytes}

/-- One read returns what the buffer and the rest of the object have room for. -/
theorem exec_read (h : r.Over bs) (hsize : bs.length < 2 ^ 64) (pos bufLen : ℕ) :
    (AdapterRead.read ⟨r, pos⟩ bufLen).exec r.adapter.answer () =
      ((⟨r, pos + ((bs.drop pos).take bufLen).length⟩, .ok ((bs.drop pos).take bufLen)), ()) := by
  have hlen : ((bs.drop pos).take bufLen).length = min bufLen (bs.length - pos) := by
    rw [List.length_take, List.length_drop]
  rw [AdapterRead.read, h.size]
  by_cases hzero : min bufLen (bs.length - pos) = 0
  · rw [if_pos hzero, exec_ret, hlen, hzero, List.eq_nil_of_length_eq_zero (hlen.trans hzero)]
    rfl
  · have hread : r.adapter.readRange r.url pos (min bufLen (bs.length - pos)) =
        .ok ((bs.drop pos).take bufLen) := by
      rw [h.holds.readRange _ _ (by omega), ← List.length_drop, ← List.take_eq_take_min]
    rw [if_neg hzero, exec_call]
    simp only [RangeReader.answer, hread, exec_ret, hlen]
    rw [Nat.mod_eq_of_lt (by omega), List.take_of_length_le (by omega)]
    congr 4
    omega

/-- Reads into buffers cut the rest of the object at the lengths of the buffers. -/
theorem exec_reads (h : r.Over bs) (hsize : bs.length < 2 ^ 64) (pos : ℕ) (bufs : List ℕ) :
    ((AdapterRead.reads ⟨r, pos⟩ bufs).exec r.adapter.answer ()).1.2 =
      (bufs.splitLengths (bs.drop pos)).map .ok := by
  induction bufs generalizing pos with
  | nil => rfl
  | cons bufLen bufs ih =>
    rw [AdapterRead.reads, exec_bind, exec_read h hsize]
    simp only
    rw [exec_bind]
    simp only [exec_ret]
    rw [ih, List.splitLengths_cons, List.map_cons, ← List.drop_drop, List.drop_length_take]

/-- **Streaming reproduces the object**: the reads from a stream return
consecutive chunks of its bytes from the offset on, each as long as its buffer
and what remains allow, together all of them once the buffers offer the room; and
a single range is what is streamed first. -/
theorem reads_stream (h : r.Over bs) (hsize : bs.length < 2 ^ 64) (start : ℕ) (bufs : List ℕ) :
    ∃ chunks : List Bytes,
      (((r.getRead start).reads bufs).exec r.adapter.answer ()).1.2 = chunks.map .ok ∧
      chunks.length = bufs.length ∧
      (∀ i n chunk, bufs[i]? = some n → chunks[i]? = some chunk →
        chunk = ((bs.drop start).drop (chunks.take i).flatten.length).take n ∧
        chunk.length = min n (bs.length - start - (chunks.take i).flatten.length) ∧
        (chunk.length = 0 ↔ n = 0 ∨ bs.length - start - (chunks.take i).flatten.length = 0)) ∧
      chunks.flatten = (bs.drop start).take bufs.sum ∧
      (bs.length - start ≤ bufs.sum → chunks.flatten = bs.drop start) ∧
      ∀ length, start + length ≤ bs.length → length ≤ bufs.sum →
        r.getBytes start length = .ok (chunks.flatten.take length) := by
  have hflat := List.flatten_splitLengths_eq_take bufs (bs.drop start)
  refine ⟨bufs.splitLengths (bs.drop start), exec_reads h hsize start bufs,
    List.length_splitLengths _ _, ?_, hflat, fun hroom => ?_, fun length hle hroom => ?_⟩
  · intro i n chunk hn hchunk
    rw [List.getElem?_splitLengths, hn, Option.map_some, Option.some.injEq] at hchunk
    have hlen := congrArg List.length hchunk
    rw [List.length_take, List.length_drop, List.length_drop] at hlen
    refine ⟨hchunk.symm, hlen.symm, ?_⟩
    omega
  · rw [hflat, List.take_of_length_le (by rwa [List.length_drop])]
  · rw [h.getBytes hle, hflat, List.take_take, Nat.min_eq_left hroom]

theorem reads_stream_tenBytes : ∃ chunks : List Bytes,
    (((tenBytes.getRead 7).reads [2, 0, 4]).exec tenBytes.adapter.answer ()).1.2 =
      chunks.map .ok ∧ chunks.flatten = utf8Bytes "789".toList := by
  obtain ⟨chunks, hreads, -, -, -, hall, -⟩ :=
    reads_stream over_tenBytes (by decide) 7 [2, 0, 4]
  exact ⟨chunks, hreads, hall (by decide)⟩

/-! ### What an adapter is asked -/

/-- A call to a reader, or to the `i`-th stream it has opened. -/
inductive ReaderCall
  | getRead (start : ℕ)
  | read (i bufLen : ℕ)
  | getBytes (start length : ℕ)
  deriving DecidableEq, Repr

/-- The range that a call would need in full, and what came of it. -/
structure Answer where
  offset : ℕ
  length : ℕ
  result : Except Str Bytes

/-- Calls to a reader, in order, with the streams that are open. -/
def session (r : AdapterChunkReader) : List AdapterRead → List ReaderCall → RangeM (List Answer)
  | _, [] => .ret []
  | streams, .getRead start :: calls => session r (streams ++ [r.getRead start]) calls
  | streams, .read i bufLen :: calls =>
      match streams[i]? with
      | none => session r streams calls
      | some s => s.read bufLen >>= fun res =>
          session r (streams.set i res.1) calls >>= fun answers =>
            .ret (⟨s.pos, bufLen, res.2⟩ :: answers)
  | streams, .getBytes start length :: calls =>
      r.askBytes start length >>= fun res =>
        session r streams calls >>= fun answers => .ret (⟨start, length, res⟩ :: answers)

/-- The world in which an adapter may answer anything. -/
def AnyAdapter : World RangeRequest (fun _ => Except FsError Bytes) Unit := fun _ _ _ _ => True

/-- The request lies in an object of the given size, and its end is a 64-bit number. -/
def RangeRequest.Fits (size : ℕ) (q : RangeRequest) : Prop :=
  q.offset + q.length ≤ size ∧ q.offset + q.length < 2 ^ 64

/-- The adapter answers with exactly as many bytes as it was asked for, or fails. -/
def Exact (e : Event RangeRequest fun _ => Except FsError Bytes) : Prop :=
  ∀ data, e.2 = .ok data → data.length = e.1.length

/-- Where less is left than was wanted, an answer gives what is left at most. -/
def Answer.Short (size : ℕ) (a : Answer) : Prop :=
  size < a.offset + a.length → ∀ data, a.result = .ok data → data.length ≤ size - a.offset

/-- Whatever the adapter answers, no request goes past the end; and where it
answers exactly, a call that would need more gets less or an error. -/
def NeverPastEnd (r : AdapterChunkReader) (calls : List ReaderCall) : Prop :=
  ∀ es p, Run AnyAdapter () (session r [] calls) es () p →
    (∀ e ∈ es, e.1.Fits r.size) ∧
      ∀ answers, p = .ret answers → (∀ e ∈ es, Exact e) → ∀ a ∈ answers, a.Short r.size

/-- Every single range that is asked for lies in the object. -/
def RangesFit (size : ℕ) (calls : List ReaderCall) : Prop :=
  ∀ start length, .getBytes start length ∈ calls → start + length ≤ size

/-- The guarantee on each request. -/
def FitsIn (size : ℕ) : World RangeRequest (fun _ => Except FsError Bytes) Unit :=
  fun q _ _ _ => q.Fits size

/-- **A read asks for what is left at most**, and where more was wanted returns
less or an error. -/
theorem wp_read {s : AdapterRead} (hsize : s.inner.size < 2 ^ 64) (bufLen : ℕ) :
    wp AnyAdapter (FitsIn s.inner.size) (s.read bufLen) (fun res es _ =>
      res.1.inner = s.inner ∧
        ((∀ e ∈ es, Exact e) → Answer.Short s.inner.size ⟨s.pos, bufLen, res.2⟩)) () := by
  rw [AdapterRead.read]
  by_cases hzero : min bufLen (s.inner.size - s.pos) = 0
  · rw [if_pos hzero, wp_ret]
    refine ⟨rfl, fun _ _ data hdata => ?_⟩
    cases hdata
    exact Nat.zero_le _
  · rw [if_neg hzero]
    intro res u _
    refine ⟨⟨by simp only; omega, by simp only; omega⟩, ?_⟩
    cases res with
    | error e => exact ⟨rfl, fun _ _ data hdata => by cases hdata⟩
    | ok data =>
      refine ⟨rfl, fun hexact _ data' hdata' => ?_⟩
      cases hdata'
      have hlen := hexact _ (List.mem_singleton.mpr rfl) data rfl
      simp only at hlen ⊢
      rw [List.length_take]
      omega

/-- A single range is asked for as it comes. -/
theorem wp_askBytes {r : AdapterChunkReader} {size start length : ℕ} (hsize : size < 2 ^ 64)
    (hfit : start + length ≤ size) :
    wp AnyAdapter (FitsIn size) (r.askBytes start length) (fun _ _ _ => True) () := by
  intro res u _
  refine ⟨⟨hfit, by simp only; omega⟩, ?_⟩
  cases res with
  | error e => trivial
  | ok data =>
    simp only
    split <;> trivial

/-- A stream that is opened belongs to the reader, as the others do. -/
theorem inner_of_getRead {r : AdapterChunkReader} {streams : List AdapterRead}
    (hinner : ∀ s ∈ streams, s.inner = r) (start : ℕ) :
    ∀ s ∈ streams ++ [r.getRead start], s.inner = r :=
  List.forall_mem_append.mpr ⟨hinner, List.forall_mem_singleton.mpr rfl⟩

/-- A stream that is read from belongs to the reader as before. -/
theorem inner_of_read {r : AdapterChunkReader} {streams : List AdapterRead} {s : AdapterRead}
    (hinner : ∀ s ∈ streams, s.inner = r) (hs : s.inner = r) (i : ℕ) :
    ∀ s' ∈ streams.set i s, s'.inner = r := by
  intro s' hs'
  rcases List.mem_or_eq_of_mem_set hs' with hs' | rfl
  · exact hinner s' hs'
  · exact hs

/-- **When every single range fits, so does every request**, and no answer is
longer than what fits. -/
theorem wp_session {r : AdapterChunkReader} (hsize : r.size < 2 ^ 64) {calls : List ReaderCall}
    (hfit : RangesFit r.size calls) {streams : List AdapterRead}
    (hinner : ∀ s ∈ streams, s.inner = r) :
    wp AnyAdapter (FitsIn r.size) (session r streams calls) (fun answers es _ =>
      (∀ e ∈ es, Exact e) → ∀ a ∈ answers, a.Short r.size) () := by
  induction calls generalizing streams with
  | nil => simp [session]
  | cons call calls ih =>
    have hrest : RangesFit r.size calls := fun start length h =>
      hfit start length (List.mem_cons_of_mem _ h)
    cases call with
    | getRead start =>
      exact ih hrest (inner_of_getRead hinner start)
    | read i bufLen =>
      rw [session]
      cases hget : streams[i]? with
      | none => exact ih hrest hinner
      | some s =>
        have hs : s.inner = r := hinner s (List.mem_of_getElem? hget)
        have hread := wp_read (s := s) (by rwa [hs]) bufLen
        rw [hs] at hread
        refine wp_bind (wp_mono (fun res es _ hres => ?_) hread)
        refine wp_bind (wp_mono (fun answers es' _ hans => ?_)
          (ih hrest fun s' hs' => ?_))
        · intro hexact a ha
          simp only [List.append_nil, List.forall_mem_append] at hexact
          rcases List.mem_cons.mp ha with rfl | ha
          · exact hres.2 hexact.1
          · exact hans hexact.2 a ha
        · exact inner_of_read hinner hres.1 i s' hs'
    | getBytes start length =>
      have hle : start + length ≤ r.size := hfit start length List.mem_cons_self
      refine wp_bind (wp_mono (fun res es _ _ => ?_) (wp_askBytes hsize hle))
      refine wp_bind (wp_mono (fun answers es' _ hans => ?_) (ih hrest hinner))
      intro hexact a ha
      simp only [List.append_nil, List.forall_mem_append] at hexact
      rcases List.mem_cons.mp ha with rfl | ha
      · intro hbig
        simp only at hbig
        omega
      · exact hans hexact.2 a ha

/-- **Every call of a session gets the bytes at its place**, whatever else is read in
between, from the reader and from other streams. -/
theorem exec_session (h : r.Over bs) (hsize : bs.length < 2 ^ 64) {calls : List ReaderCall}
    (hfit : RangesFit r.size calls) {streams : List AdapterRead}
    (hinner : ∀ s ∈ streams, s.inner = r) :
    ∀ a ∈ ((session r streams calls).exec r.adapter.answer ()).1,
      a.result = .ok ((bs.drop a.offset).take a.length) := by
  induction calls generalizing streams with
  | nil => simp [session]
  | cons call calls ih =>
    have hrest : RangesFit r.size calls := fun start length hmem =>
      hfit start length (List.mem_cons_of_mem _ hmem)
    cases call with
    | getRead start =>
      exact ih hrest (inner_of_getRead hinner start)
    | read i bufLen =>
      rw [session]
      cases hget : streams[i]? with
      | none => exact ih hrest hinner
      | some s =>
        obtain ⟨inner, pos⟩ := s
        obtain rfl : inner = r := hinner _ (List.mem_of_getElem? hget)
        simp only [exec_bind, exec_read h hsize, exec_ret, List.forall_mem_cons, true_and]
        exact ih hrest (inner_of_read hinner rfl i)
    | getBytes start length =>
      have hle : start + length ≤ bs.length := by
        rw [← h.size]
        exact hfit start length List.mem_cons_self
      simp only [session, exec_bind, AdapterChunkReader.exec_askBytes, h.getBytes hle, exec_ret,
        List.forall_mem_cons, true_and]
      exact ih hrest hinner

/-- Any adapter takes part in anything. -/
theorem wp_anyAdapter {α : Type} (p : RangeM α) :
    wp AnyAdapter AnyAdapter p (fun _ _ _ => True) () := by
  induction p with
  | ret a => trivial
  | call q k ih => exact fun res _ _ => ⟨trivial, ih res⟩

/-- A finished session has asked for each of its single ranges. -/
theorem wp_session_asks (r : AdapterChunkReader) (calls : List ReaderCall)
    (streams : List AdapterRead) :
    wp AnyAdapter AnyAdapter (session r streams calls) (fun _ es _ =>
      ∀ start length, .getBytes start length ∈ calls →
        ∃ e ∈ es, e.1 = ⟨r.url, start, length⟩) () := by
  induction calls generalizing streams with
  | nil => simp [session]
  | cons call calls ih =>
    cases call with
    | getRead start =>
      refine wp_mono (fun _ es _ hes start' length hmem => ?_) (ih _)
      exact hes start' length (by simpa using hmem)
    | read i bufLen =>
      rw [session]
      cases hget : streams[i]? with
      | none =>
        refine wp_mono (fun _ es _ hes start length hmem => ?_) (ih _)
        exact hes start length (by simpa using hmem)
      | some s =>
        refine wp_bind (wp_mono (fun res es _ _ => ?_) (wp_anyAdapter _))
        refine wp_bind (wp_mono (fun answers es' _ hes start length hmem => ?_) (ih _))
        obtain ⟨e, he, heq⟩ := hes start length (by simpa using hmem)
        exact ⟨e, by simp [he], heq⟩
    | getBytes start length =>
      refine wp_bind ?_
      -- the request comes first, whatever is made of its answer
      intro res u _
      refine ⟨trivial, ?_⟩
      refine wp_mono (fun _ es _ _ => ?_) (wp_anyAdapter _)
      refine wp_bind (wp_mono (fun answers es' _ hes start' length' hmem => ?_) (ih _))
      rcases List.mem_cons.mp hmem with heq | hmem
      · cases heq
        exact ⟨_, List.mem_cons_self, rfl⟩
      · obtain ⟨e, he, heq⟩ := hes start' length' hmem
        exact ⟨e, by simp [he], heq⟩

/-- **No request goes past the end of the object exactly when no single range
that is asked for does.** -/
theorem neverPastEnd_iff (r : AdapterChunkReader) (hsize : r.size < 2 ^ 64)
    (calls : List ReaderCall) :
    NeverPastEnd r calls ↔ ∀ start length, .getBytes start length ∈ calls →
      start + length ≤ r.size := by
  constructor
  · intro h start length hmem
    -- every session can be finished
    obtain ⟨es, hrun⟩ := run_exec (W := AnyAdapter) (h := r.adapter.answer) (fun _ _ => trivial)
      (session r [] calls) ()
    obtain ⟨e, he, heq⟩ := wp_sound (wp_session_asks r calls []) hrun start length hmem
    have hfits := (h es _ hrun).1 e he
    rw [heq] at hfits
    exact hfits.1
  · intro hfit es p hrun
    have hwp := wp_session hsize hfit (fun s (hs : s ∈ []) => absurd hs List.not_mem_nil)
    refine ⟨?_, fun answers hp hexact => ?_⟩
    · exact (chain_of_run hwp hrun).forall_mem fun _ _ _ _ hG => hG
    · rw [hp] at hrun
      exact wp_sound hwp hrun hexact

/-- A range that starts in the object and ends behind it is asked for. -/
theorem asks_past_end : ¬NeverPastEnd tenBytes [.getRead 0, .read 0 4, .getBytes 8 5] := by
  intro h
  obtain ⟨es, hrun⟩ := run_exec (W := AnyAdapter) (h := tenBytes.adapter.answer)
    (fun _ _ => trivial) (session tenBytes [] [.getRead 0, .read 0 4, .getBytes 8 5]) ()
  obtain ⟨e, he, heq⟩ := wp_sound (wp_session_asks tenBytes _ []) hrun 8 5 (by simp)
  have hfits := ((h es _ hrun).1 e he).1
  rw [heq] at hfits
  exact absurd hfits (by decide)

theorem neverPastEnd_tenBytes :
    NeverPastEnd tenBytes [.getRead 7, .read 0 4, .read 0 4, .getBytes 2 3] ↔
      ∀ start length,
        .getBytes start length ∈
          ([.getRead 7, .read 0 4, .read 0 4, .getBytes 2 3] : List ReaderCall) →
        start + length ≤ tenBytes.size :=
  neverPastEnd_iff tenBytes (by decide) _

end ParquetFileFs
