import ParquetFileFs.Pack.Calls

/-!
# How a writer splits its rows into row groups

What a writer has written and what it holds are, after any number of appends,
the rows it has accepted: full row groups, each of them full with its last row
only, and a rest that does not make one.

## Main definitions

* `Appends` — calls of `append` one after the other, none of which fails to write.
* `accepted` — the rows of the calls that succeeded.
* `Partition` — how a writer stands for its rows.
* `AppendStep` — what a call of `append` can do.

## Main results

* `partition_of_packing` — a writer at work splits its rows so.
* `appendStep_of_run` — a call does nothing else.
* `appends_partition` — **every writer splits the rows it has accepted so**; a
  path that is there already changes nothing, and finishing writes the rest.
-/

namespace ParquetFileFs

open Program

/-! ### Calls of append -/

/-- No write failed. -/
def WritesOk (es : List FileEvent) : Prop :=
  ∀ h bs e, (⟨.write h bs, .error e⟩ : FileEvent) ∉ es

/-- Calls of `append` one after the other that return, each with the row it was
given and its result.  No write fails. -/
inductive Appends (W : ParquetWriter)
    (expand : Files → Str → Except Str (List (Except (Str × Str) Str))) :
    PackWriter → Files → List (Row × Except FsError Unit) → PackWriter → Files → Prop
  | nil (w : PackWriter) (fs : Files) : Appends W expand w fs [] w fs
  | snoc {w w' w'' : PackWriter} {fs fs' fs'' : Files}
      {calls : List (Row × Except FsError Unit)} {row : Row} {es : List FileEvent}
      {r : Except FsError Unit} : Appends W expand w fs calls w' fs' →
      Run (fsWorld expand) fs' (w'.appendMut W row.1 row.2) es fs'' (.ret (.ok (w'', r))) →
      WritesOk es → Appends W expand w fs (calls ++ [(row, r)]) w'' fs''

/-- The rows of the calls that succeeded. -/
def accepted (calls : List (Row × Except FsError Unit)) : List Row :=
  (calls.filter fun c => c.2.isOk).map Prod.fst

theorem accepted_snoc_ok (calls : List (Row × Except FsError Unit)) (row : Row) :
    accepted (calls ++ [(row, .ok ())]) = accepted calls ++ [row] := by
  simp [accepted, Except.isOk, Except.toBool]

theorem accepted_snoc_error (calls : List (Row × Except FsError Unit)) (row : Row) (e : FsError) :
    accepted (calls ++ [(row, .error e)]) = accepted calls := by
  simp [accepted, Except.isOk, Except.toBool]

/-! ### The partition -/

/-- The writer has written the batches `written` and holds the rest of `rows`. -/
structure Partition (limit : ℕ) (rows : List Row) (written : List (List Row)) (w : PackWriter) :
    Prop where
  writer : ∃ h, w.writer = some ⟨h, written⟩
  length_eq : w.paths.length = w.contents.length
  rows_eq : written.flatten ++ w.paths.zip w.contents = rows
  mem_seen : ∀ s, s ∈ w.seen ↔ s ∈ rows.map Prod.fst
  nodup : (rows.map Prod.fst).Nodup
  files : w.files = rows.length
  bytes : w.bytes = (rows.map fun r => r.2.length).sum
  pending : w.pending = (w.contents.map List.length).sum
  pending_lt : w.pending < limit
  /-- A batch is full, and was not before its last row. -/
  batch : ∀ b ∈ written, b ≠ [] ∧ limit ≤ Grouping.total rowSize b ∧
    Grouping.total rowSize b.dropLast < limit

section Runs

variable {W : ParquetWriter} {out : Str} {opts : PackOptions} {fs fs' fs₀ : Files} {w : PackWriter}
  {rows : List Row} {es : List FileEvent}
  {expand : Files → Str → Except Str (List (Except (Str × Str) Str))}

theorem partition_of_packing (hw : PackingRows W fs₀ out opts rows w fs) :
    Partition (max opts.maxRowGroupBytes 1) rows
      (Grouping.cut rowSize (max opts.maxRowGroupBytes 1) rows).1 w := by
  obtain ⟨h, hbuf, -⟩ := hw.buffers
  have hlimit : 0 < max opts.maxRowGroupBytes 1 := by omega
  refine ⟨⟨h, hbuf.writer⟩, ?_, ?_, hbuf.mem_seen, hbuf.nodup, hbuf.files, hbuf.bytes, ?_, ?_,
    fun b hb => Grouping.of_mem_cut rowSize _ hlimit hb⟩
  · rw [hbuf.paths, hbuf.contents, List.length_map, List.length_map]
  · rw [hbuf.zip_eq]
    exact Grouping.flatten_cut rowSize _ rows
  · rw [hbuf.pending, hbuf.contents, List.map_map]
    rfl
  · rw [hbuf.pending]
    exact Grouping.total_cut_lt rowSize _ hlimit rows

/-! ### One call -/

/-- A path that is there already changes nothing. -/
theorem run_appendMut_of_mem {row : Row} {r : Outcome (PackWriter × Except FsError Unit)}
    (hmem : row.1 ∈ w.seen)
    (hrun : Run (fsWorld expand) fs (w.appendMut W row.1 row.2) es fs' (.ret r)) :
    r = .ok (w, .error (.pack ("duplicate path '".toList ++ row.1 ++ "' in input".toList))) ∧
      es = [] ∧ fs' = fs := by
  rw [PackWriter.appendMut, if_pos hmem] at hrun
  obtain ⟨hes, hfs, hret⟩ := hrun.of_ret
  exact ⟨(Program.ret.inj hret), hes, hfs⟩

variable (expand) in
/-- Every program has a run in which no write fails. -/
theorem exists_run_writesOk {α : Type} (p : FileM α) (fs : Files) :
    ∃ es fs' r, Run (fsWorld expand) fs p es fs' (.ret r) ∧ WritesOk es ∧
      r = (exec (fsHandler expand) p fs).1 := by
  obtain ⟨es, hrun, hok⟩ := run_exec_forall
    (P := fun e => ∀ h bs e', e ≠ (⟨.write h bs, .error e'⟩ : FileEvent))
    (fsWorld_fsHandler expand) (fun o s h bs e' heq => by cases o <;> cases heq) p fs
  exact ⟨es, _, _, hrun, fun h bs e hmem => hok _ hmem h bs e rfl, rfl⟩

/-- The guarantee that says nothing. -/
def AnyCall : World (FsOp Str UInt8) (FsOp.Res Str) Files := fun _ _ _ _ => True

/-- What a flush of the writer leaves: empty builders, and contents that are
counted anew unless a write failed. -/
structure Flushed (w : PackWriter) (es : List FileEvent) (w' : PackWriter)
    (r : Except FsError Unit) : Prop where
  writer : ∃ aw, w'.writer = some aw
  paths : w'.paths = []
  seen : w'.seen = w.seen
  maxPending : w'.maxPending = w.maxPending
  outcome : (r = .ok () ∧ w'.pending = 0) ∨
    ((∃ e, r = .error e) ∧ ¬WritesOk es ∧ w'.pending = w.pending)

theorem wp_flushRowGroupMut {aw : ArrowWriter} (hw : w.writer = some aw) (hne : w.paths ≠ []) :
    wp (fsWorld expand) AnyCall (w.flushRowGroupMut W)
      (fun res es _ => ∃ w' r, res = .ok (w', r) ∧ Flushed w es w' r) fs := by
  rw [PackWriter.flushRowGroupMut, if_neg (mt List.length_eq_zero_iff.mp hne), hw]
  intro r fs₁ _
  refine ⟨trivial, ?_⟩
  cases r with
  | error e =>
    refine ⟨_, _, rfl, ⟨aw, rfl⟩, rfl, rfl, rfl, Or.inr ⟨⟨_, rfl⟩, fun hok => ?_, rfl⟩⟩
    exact hok _ _ e (List.mem_singleton.mpr rfl)
  | ok u =>
    intro r fs₂ _
    refine ⟨trivial, ?_⟩
    cases r with
    | error e =>
      refine ⟨_, _, rfl, ⟨aw, rfl⟩, rfl, rfl, rfl, Or.inr ⟨⟨_, rfl⟩, fun hok => ?_, rfl⟩⟩
      exact hok _ _ e (List.mem_cons_of_mem _ (List.mem_singleton.mpr rfl))
    | ok u => exact ⟨_, _, rfl, ⟨_, rfl⟩, rfl, rfl, rfl, Or.inl ⟨rfl, rfl⟩⟩

/-- What a call of `append` can do. -/
inductive AppendStep (w : PackWriter) (row : Row) (es : List FileEvent) :
    Outcome (PackWriter × Except FsError Unit) → Prop
  | duplicate : row.1 ∈ w.seen → AppendStep w row es (.ok (w, .error (.pack
      ("duplicate path '".toList ++ row.1 ++ "' in input".toList))))
  | overflow : row.1 ∉ w.seen → maxTextBytes < textBytes (w.paths ++ [row.1]) →
      AppendStep w row es (.error .panic)
  | held : row.1 ∉ w.seen → textBytes (w.paths ++ [row.1]) ≤ maxTextBytes →
      w.pending + row.2.length < w.maxPending →
      AppendStep w row es (.ok (w.push row.1 row.2, .ok ()))
  | flushed {w' : PackWriter} {r : Except FsError Unit} : row.1 ∉ w.seen →
      textBytes (w.paths ++ [row.1]) ≤ maxTextBytes →
      w.maxPending ≤ w.pending + row.2.length → Flushed (w.push row.1 row.2) es w' r →
      AppendStep w row es (.ok (w', r))

theorem appendStep_of_run {row : Row} {aw : ArrowWriter}
    {r : Outcome (PackWriter × Except FsError Unit)} (hw : w.writer = some aw)
    (hrun : Run (fsWorld expand) fs (w.appendMut W row.1 row.2) es fs' (.ret r)) :
    AppendStep w row es r := by
  rw [PackWriter.appendMut] at hrun
  split at hrun
  · next hmem =>
    obtain rfl := Program.ret.inj hrun.of_ret.2.2
    exact .duplicate hmem
  next hnew =>
  split at hrun
  · next htext =>
    obtain rfl := Program.ret.inj hrun.of_ret.2.2
    exact .overflow hnew htext
  next htext =>
  split at hrun
  · next hfull =>
    have hpush : (w.push row.1 row.2).writer = some aw := hw
    obtain ⟨w', r', rfl, hflush⟩ := wp_sound (wp_flushRowGroupMut hpush (by simp [PackWriter.push]))
      hrun
    exact .flushed hnew (not_lt.mp htext) hfull hflush
  · next hopen =>
    obtain rfl := Program.ret.inj hrun.of_ret.2.2
    exact .held hnew (not_lt.mp htext) (not_le.mp hopen)

/-- A new path is accepted by a call that returns, where its writes succeed. -/
theorem run_appendMut_of_notMem {row : Row} {aw : ArrowWriter} {w' : PackWriter}
    {r : Except FsError Unit} (hw : w.writer = some aw) (hnew : row.1 ∉ w.seen)
    (hrun : Run (fsWorld expand) fs (w.appendMut W row.1 row.2) es fs' (.ret (.ok (w', r))))
    (hok : WritesOk es) : r = .ok () := by
  cases appendStep_of_run hw hrun with
  | duplicate hmem => exact absurd hmem hnew
  | held => rfl
  | flushed _ _ _ hflush =>
    rcases hflush.outcome with ⟨hr, -⟩ | ⟨-, hbad, -⟩
    · exact hr
    · exact absurd hok hbad

/-- A call that succeeds leaves a writer at work with one more row. -/
theorem packingRows_of_appendMut {row : Row} {w' : PackWriter}
    (hw : PackingRows W fs₀ out opts rows w fs)
    (hrun : Run (fsWorld expand) fs (w.appendMut W row.1 row.2) es fs' (.ret (.ok (w', .ok ())))) :
    PackingRows W fs₀ out opts (rows ++ [row]) w' fs' := by
  have happend : Run (fsWorld expand) fs (w.append W row.1 row.2) (es ++ []) fs'
      (.ret (.ok w')) := by
    rw [PackWriter.append_eq]
    exact hrun.andThen (.refl fs' _)
  exact wp_sound (wp_append hw row.1 row.2) happend

/-- After any calls the writer is at work on the rows that were accepted. -/
theorem packingRows_of_appends {w₀ : PackWriter} {fs₁ : Files}
    {calls : List (Row × Except FsError Unit)} (hw : PackingRows W fs₀ out opts [] w₀ fs₁)
    (hcalls : Appends W expand w₀ fs₁ calls w fs) :
    PackingRows W fs₀ out opts (accepted calls) w fs := by
  induction hcalls with
  | nil => exact hw
  | @snoc w' w'' fs fs' fs'' calls row es r _ hrun hok ih =>
    have hat := ih hw
    obtain ⟨h, hbuf, -⟩ := hat.buffers
    by_cases hmem : row.1 ∈ w'.seen
    · obtain ⟨hres, -, hfs⟩ := run_appendMut_of_mem hmem hrun
      cases hres
      rw [accepted_snoc_error, hfs]
      exact hat
    · have hr := run_appendMut_of_notMem hbuf.writer hmem hrun hok
      subst hr
      rw [accepted_snoc_ok]
      exact packingRows_of_appendMut hat hrun

/-- **Every writer splits the rows it has accepted into full row groups and a
rest**: a path that is there already changes nothing, any other is accepted, and
finishing writes the rest as one more row group, if there is a rest. -/
theorem appends_partition {w₀ : PackWriter} {fs₁ : Files} {es₀ : List FileEvent}
    {calls : List (Row × Except FsError Unit)}
    (hcreate : Run (fsWorld expand) fs₀ (PackWriter.create W out opts) es₀ fs₁ (.ret (.ok w₀)))
    (hcalls : Appends W expand w₀ fs₁ calls w fs) :
    ∃ written, Partition (max opts.maxRowGroupBytes 1) (accepted calls) written w ∧
      (∀ (row : Row) es fs' r,
        Run (fsWorld expand) fs (w.appendMut W row.1 row.2) es fs' (.ret r) →
        row.1 ∈ (accepted calls).map Prod.fst →
        r = .ok (w, .error (.pack ("duplicate path '".toList ++ row.1 ++ "' in input".toList))) ∧
          es = [] ∧ fs' = fs) ∧
      (∀ (row : Row) es fs' w' r,
        Run (fsWorld expand) fs (w.appendMut W row.1 row.2) es fs' (.ret (.ok (w', r))) →
        WritesOk es → row.1 ∉ (accepted calls).map Prod.fst → r = .ok ()) ∧
      ∀ es fs' sum, Run (fsWorld expand) fs (w.finish W) es fs' (.ret (.ok sum)) →
        sum = ⟨w.files, w.bytes⟩ ∧
          fs'.read out = some (W.fileBytes opts.schema opts.compression
            (written ++ if w.paths = [] then [] else [w.paths.zip w.contents])) := by
  have hw₀ : PackingRows W fs₀ out opts [] w₀ fs₁ := (wp_sound wp_create hcreate).2
  have hw := packingRows_of_appends hw₀ hcalls
  obtain ⟨h, hbuf, -⟩ := hw.buffers
  refine ⟨_, partition_of_packing hw, fun row es fs' r hrun hmem => ?_,
    fun row es fs' w' r hrun hok hno => ?_, fun es fs' sum hrun => ?_⟩
  · exact run_appendMut_of_mem ((hbuf.mem_seen _).mpr hmem) hrun
  · exact run_appendMut_of_notMem hbuf.writer (fun hmem => hno ((hbuf.mem_seen _).mp hmem)) hrun hok
  · obtain ⟨hsum, hout, -⟩ := wp_sound (wp_finish hw) hrun
    refine ⟨by rw [hsum, hbuf.files, hbuf.bytes], hout.trans ?_⟩
    have hrest : w.paths = [] ↔ (Grouping.cut rowSize (max opts.maxRowGroupBytes 1)
        (accepted calls)).2.isEmpty = true := by
      rw [hbuf.paths, List.map_eq_nil_iff, List.isEmpty_iff]
    rw [flushGroups, Grouping.groups, Grouping.close, hbuf.zip_eq]
    simp only [hrest]

end Runs

/-- Options with small row groups. -/
def smallGroups : PackOptions := { maxRowGroupBytes := 2 }

/-- What creating a writer with them gives. -/
def smallWriter : PackWriter where
  out := "o".toList
  tmp := "o.tmp".toList
  writer := some ⟨2, []⟩
  schema := smallGroups.schema
  compression := .zstd
  paths := []
  contents := []
  pending := 0
  maxPending := 2
  seen := []
  files := 0
  bytes := 0

/-- The calls that the handler answers do not fail to write. -/
theorem appends_snoc_exec {W : ParquetWriter} {w w' w'' : PackWriter} {fs fs' : Files}
    {calls : List (Row × Except FsError Unit)} {r : Except FsError Unit}
    (h : Appends W expandNothing w fs calls w' fs') (row : Row)
    (hres : (exec (fsHandler expandNothing) (w'.appendMut W row.1 row.2) fs').1 = .ok (w'', r)) :
    ∃ fs'', Appends W expandNothing w fs (calls ++ [(row, r)]) w'' fs'' := by
  obtain ⟨es, fs'', res, hrun, hok, hexec⟩ := exists_run_writesOk expandNothing
    (w'.appendMut W row.1 row.2) fs'
  rw [← hexec] at hres
  subst hres
  exact ⟨_, h.snoc hrun hok⟩

theorem appends_partition_sample : ∃ calls written w,
    accepted calls = [("a".toList, [1]), ("b".toList, [2, 3]), ("c".toList, [4])] ∧
      calls.length = 4 ∧ Partition 2 (accepted calls) written w ∧ w.paths = ["c".toList] := by
  obtain ⟨es₀, hcreate⟩ := run_exec (fsWorld_fsHandler expandNothing)
    (PackWriter.create plainWriter "o".toList smallGroups) sampleFiles
  have hres : (exec (fsHandler expandNothing)
      (PackWriter.create plainWriter "o".toList smallGroups) sampleFiles).1
        = .ok smallWriter := rfl
  rw [hres] at hcreate
  obtain ⟨fs₁, h₁⟩ := appends_snoc_exec (W := plainWriter) (.nil smallWriter _)
    ("a".toList, [1]) rfl
  obtain ⟨fs₂, h₂⟩ := appends_snoc_exec h₁ ("a".toList, [5]) rfl
  obtain ⟨fs₃, h₃⟩ := appends_snoc_exec h₂ ("b".toList, [2, 3]) rfl
  obtain ⟨fs₄, h₄⟩ := appends_snoc_exec h₃ ("c".toList, [4]) rfl
  obtain ⟨written, hpart, -⟩ := appends_partition hcreate h₄
  exact ⟨_, written, _, rfl, rfl, hpart, rfl⟩

end ParquetFileFs
