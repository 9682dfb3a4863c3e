import ParquetFileFs.Pack.Rows

/-!
# The protocol of a call

A call looks at files, creates its temporary file, writes rows to it while it
looks at more, renames it onto the output, and drops it.  What the call does with
the rows does not depend on the world it runs in, as long as the world tells in
which of these stages the call is.

## Main definitions

* `Stages` — the stages of a call in a world, and what leads from one to the next.
* `Stages.Packing`, `Stages.PackingRows` — a writer is at work.
* `Stages.Ends` — how a call ends.

## Main results

* `Stages.wp_append`, `Stages.wp_packEach`, `Stages.wp_finish` — the operations of
  the writer.
* `Stages.wp_createWith` — **a writer taken through any steps** publishes what they
  accepted, or leaves nothing behind.
-/

namespace ParquetFileFs

open Program

/-! ### Stages -/

/-- The calls that change nothing. -/
def IsLook : FsOp Str UInt8 → Prop
  | .read _ | .poll | .alloc _ | .stat _ | .expand _ => True
  | _ => False

/-- The stages of a call in a world: the call has not created its temporary file,
the file is open and holds some bytes, it is still open but the call has failed, it
is closed and only removing it is left, it has been renamed with these bytes, and it
has been removed without or after that.  `T` says what is known of an answer, given
what the file holds. -/
structure Stages {σ : Type} (V G : World (FsOp Str UInt8) (FsOp.Res Str) σ) (out : Str)
    (T : Option Bytes → FileEvent → Prop) where
  Idle : σ → Prop
  Writing : ℕ → Bytes → σ → Prop
  Failed : ℕ → σ → Prop
  Closed : σ → Prop
  Published : Bytes → σ → Prop
  Dropped : σ → Prop
  Done : Bytes → σ → Prop
  look_idle : ∀ {o s r s'}, IsLook o → Idle s → V o s r s' →
    G o s r s' ∧ Idle s' ∧ T none ⟨o, r⟩
  look_writing : ∀ {o h bs s r s'}, IsLook o → Writing h bs s → V o s r s' →
    G o s r s' ∧ Writing h bs s' ∧ T (some bs) ⟨o, r⟩
  create_ok : ∀ {h s s'}, Idle s → V (.create (tmpName out)) s (.ok h) s' →
    G (.create (tmpName out)) s (.ok h) s' ∧ Writing h [] s'
  create_error : ∀ {e s s'}, Idle s → V (.create (tmpName out)) s (.error e) s' →
    G (.create (tmpName out)) s (.error e) s' ∧ Idle s'
  write_ok : ∀ {h bs new s s'}, Writing h bs s → V (.write h new) s (.ok ()) s' →
    G (.write h new) s (.ok ()) s' ∧ Writing h (bs ++ new) s'
  write_error : ∀ {h bs new e s s'}, Writing h bs s → V (.write h new) s (.error e) s' →
    G (.write h new) s (.error e) s' ∧ Failed h s'
  failed_of_writing : ∀ {h bs s}, Writing h bs s → Failed h s
  close : ∀ {h s s'}, Failed h s → V (.close h) s () s' → G (.close h) s () s' ∧ Closed s'
  rename_ok : ∀ {h bs s s'}, Writing h bs s → V (.rename (tmpName out) out) s (.ok ()) s' →
    G (.rename (tmpName out) out) s (.ok ()) s' ∧ Published bs s'
  rename_error : ∀ {h bs e s s'}, Writing h bs s →
    V (.rename (tmpName out) out) s (.error e) s' →
    G (.rename (tmpName out) out) s (.error e) s' ∧ Closed s'
  remove_closed : ∀ {s s'}, Closed s → V (.remove (tmpName out)) s () s' →
    G (.remove (tmpName out)) s () s' ∧ Dropped s'
  remove_published : ∀ {bs s s'}, Published bs s → V (.remove (tmpName out)) s () s' →
    G (.remove (tmpName out)) s () s' ∧ Done bs s'

namespace Stages

variable {σ : Type} {V G : World (FsOp Str UInt8) (FsOp.Res Str) σ} {out : Str}
  {T : Option Bytes → FileEvent → Prop} (S : Stages V G out T)

/-- A writer is at work: its file is open as `h` and holds the groups written so far. -/
structure Packing (W : ParquetWriter) (opts : PackOptions) (h : ℕ) (closed : List (List Row))
    (buf rows : List Row) (w : PackWriter) (s : σ) : Prop where
  out_eq : w.out = out
  tmp_eq : w.tmp = tmpName out
  schema_eq : w.schema = opts.schema
  compression_eq : w.compression = opts.compression
  maxPending_eq : w.maxPending = max opts.maxRowGroupBytes 1
  buffers : w.Buffers h closed buf rows
  writing : S.Writing h (W.start opts.schema opts.compression
    ++ W.groupsBytes opts.schema opts.compression [] closed) s

/-- The writer is at work and stands for the rows. -/
def PackingRows (W : ParquetWriter) (opts : PackOptions) (h : ℕ) (rows : List Row)
    (w : PackWriter) (s : σ) : Prop :=
  S.Packing W opts h (Grouping.cut rowSize (max opts.maxRowGroupBytes 1) rows).1
    (Grouping.cut rowSize (max opts.maxRowGroupBytes 1) rows).2 rows w s

/-- A step took the writer on, or failed. -/
def Steps (h : ℕ) (P : PackWriter → σ → Prop) : Outcome PackWriter → σ → Prop
  | .ok w, s => P w s
  | .error _, s => S.Failed h s

/-- A step that also says which rows it appended. -/
def StepsBy (W : ParquetWriter) (opts : PackOptions) (h : ℕ) (rows : List Row)
    (Accepts : List Row → List FileEvent → Prop) : Outcome PackWriter → List FileEvent → σ → Prop
  | .ok w, es, s => ∃ new, Accepts new es ∧ S.PackingRows W opts h (rows ++ new) w s
  | .error _, _, s => S.Failed h s

variable {S} {W : ParquetWriter} {opts : PackOptions} {h : ℕ} {closed : List (List Row)}
  {buf rows : List Row} {w : PackWriter} {s : σ}

theorem Packing.failed (hw : S.Packing W opts h closed buf rows w s) : S.Failed h s :=
  S.failed_of_writing hw.writing

/-! ### The writer -/

theorem wp_look {α : Type} {o : FsOp Str UInt8} {k : FsOp.Res Str o → FileM α}
    {Q : Outcome α → List FileEvent → σ → Prop} (ho : IsLook o)
    (hw : S.Packing W opts h closed buf rows w s)
    (hk : ∀ r s', S.Packing W opts h closed buf rows w s' →
      T (some (W.start opts.schema opts.compression
        ++ W.groupsBytes opts.schema opts.compression [] closed)) ⟨o, r⟩ →
      wp V G (k r) (fun a es s'' => Q a (⟨o, r⟩ :: es) s'') s') :
    wp V G (.call o k) Q s := by
  intro r s' hV
  obtain ⟨hG, hwriting', hT⟩ := S.look_writing ho hw.writing hV
  have hw' : S.Packing W opts h closed buf rows w s' :=
    ⟨hw.out_eq, hw.tmp_eq, hw.schema_eq, hw.compression_eq, hw.maxPending_eq, hw.buffers, hwriting'⟩
  exact ⟨hG, hk r s' hw' hT⟩

theorem wp_writeBytes {url : Str} {bs new : Bytes}
    {Q : Outcome Unit → List FileEvent → σ → Prop} (hwriting : S.Writing h bs s)
    (hok : ∀ es s', S.Writing h (bs ++ new) s' → Q (.ok ()) es s')
    (herr : ∀ e es s', S.Failed h s' → Q (.error e) es s') :
    wp V G (writeBytes url h new) Q s := by
  intro r s' hV
  cases r with
  | ok u =>
    obtain ⟨hG, hwriting'⟩ := S.write_ok hwriting hV
    exact ⟨hG, hok _ s' hwriting'⟩
  | error e =>
    obtain ⟨hG, hfailed⟩ := S.write_error hwriting hV
    exact ⟨hG, herr _ _ s' hfailed⟩

/-- Closing the file of a writer that has failed. -/
theorem wp_dropEncoder {Q : Unit → List FileEvent → σ → Prop} (hs : S.Failed h s)
    (hQ : ∀ s', S.Closed s' → Q () [⟨.close h, ()⟩] s') : wp V G (dropEncoder h) Q s := by
  intro r s' hV
  obtain ⟨hG, hclosed⟩ := S.close hs hV
  exact ⟨hG, hQ s' hclosed⟩

/-- Removing the temporary file of a writer that has failed. -/
theorem wp_removeTemp {Q : Unit → List FileEvent → σ → Prop} (hs : S.Closed s)
    (hQ : ∀ s', S.Dropped s' → Q () [⟨.remove (tmpName out), ()⟩] s') :
    wp V G (removeTemp (tmpName out)) Q s := by
  intro r s' hV
  obtain ⟨hG, hdropped⟩ := S.remove_closed hs hV
  exact ⟨hG, hQ s' hdropped⟩

/-- Dropping a writer that has failed. -/
theorem wp_dropWriter {aw : ArrowWriter} {Q : Unit → List FileEvent → σ → Prop}
    (htmp : w.tmp = tmpName out) (hwriter : w.writer = some aw) (hs : S.Failed aw.handle s)
    (hQ : ∀ es s', S.Dropped s' → Q () es s') : wp V G (dropWriter w) Q s := by
  rw [dropWriter, PackWriter.closeFile, hwriter, htmp]
  apply wp_bind
  exact wp_dropEncoder hs fun s' hclosed => wp_removeTemp hclosed fun s'' => hQ _ s''

theorem wp_flushRowGroup (hw : S.Packing W opts h closed buf rows w s) :
    wp V G (PackWriter.flushRowGroup W w)
      (fun r _ s' => S.Steps h (S.Packing W opts h (Grouping.close closed buf) [] rows) r s')
      s := by
  have hbuf := hw.buffers
  unfold PackWriter.flushRowGroup
  rw [hbuf.length_eq]
  -- without rows nothing is written, and no group is added
  by_cases hnil : buf = []
  · subst hnil
    rw [if_pos List.length_nil, wp_ret, Steps, Grouping.close_nil]
    exact hw
  · rw [if_neg (by simpa using hnil), hbuf.writer]
    simp only [hbuf.zip_eq]
    apply wp_andThen
    apply wp_writeBytes hw.writing
    · intro es s' hwrite
      apply wp_andThen
      apply wp_writeBytes hwrite
      · intro es' s'' hflush
        rw [wp_ret, Steps, Grouping.close_of_ne_nil _ hnil]
        refine ⟨hw.out_eq, hw.tmp_eq, hw.schema_eq, hw.compression_eq, hw.maxPending_eq,
          hbuf.flush _, ?_⟩
        -- the bytes of the batch follow those of the groups before it
        rw [hw.schema_eq, hw.compression_eq] at hflush
        rw [ParquetWriter.groupsBytes_append]
        simpa [ParquetWriter.groupsBytes] using hflush
      · exact fun e es' s'' hfailed => hfailed
    · exact fun e es s' hfailed => hfailed

theorem wp_append (hw : S.PackingRows W opts h rows w s) (stored : Str) (content : Bytes) :
    wp V G (w.append W stored content)
      (fun r _ s' => S.Steps h (S.PackingRows W opts h (rows ++ [(stored, content)])) r s') s := by
  unfold PackWriter.append
  split
  · exact hw.failed
  · next hnew =>
    split
    · exact hw.failed
    · -- the row joins the buffers, and the buffers are a full group or not
      have hpush := hw.buffers.push content hnew
      have hw' : S.Packing W opts h
          (Grouping.cut rowSize (max opts.maxRowGroupBytes 1) rows).1
          ((Grouping.cut rowSize (max opts.maxRowGroupBytes 1) rows).2 ++ [(stored, content)])
          (rows ++ [(stored, content)]) (w.push stored content) s :=
        ⟨hw.out_eq, hw.tmp_eq, hw.schema_eq, hw.compression_eq, hw.maxPending_eq, hpush,
          hw.writing⟩
      have hcut := Grouping.cut_append_singleton rowSize (max opts.maxRowGroupBytes 1) rows
        (stored, content)
      rw [hpush.pending, hw.maxPending_eq]
      by_cases hfull : max opts.maxRowGroupBytes 1 ≤ Grouping.total rowSize
          ((Grouping.cut rowSize (max opts.maxRowGroupBytes 1) rows).2 ++ [(stored, content)])
      · rw [if_pos hfull]
        rw [Grouping.push, if_pos hfull] at hcut
        refine wp_mono (fun r es s' hr => ?_) (wp_flushRowGroup hw')
        cases r with
        | error e => exact hr
        | ok w' =>
          rw [Steps, PackingRows, hcut]
          rwa [Steps, Grouping.close_of_ne_nil _ (by simp)] at hr
      · rw [if_neg hfull]
        rw [Grouping.push, if_neg hfull] at hcut
        rw [wp_ret, Steps, PackingRows, hcut]
        exact hw'

/-- Appending one row; `before` adds the calls made before. -/
theorem wp_append_by (hw : S.PackingRows W opts h rows w s) {stored : Str} {content : Bytes}
    {Accepts : List Row → List FileEvent → Prop} {before : List FileEvent → List FileEvent}
    (haccepts : ∀ es, Accepts [(stored, content)] (before es)) :
    wp V G (w.append W stored content)
      (fun r es s' => S.StepsBy W opts h rows Accepts r (before es) s') s := by
  refine wp_mono (fun r es s' hr => ?_) (wp_append hw stored content)
  cases r with
  | ok w' => exact ⟨_, haccepts es, hr⟩
  | error e => exact hr

/-- **Taking a writer through a list appends what each element is accepted as.** -/
theorem wp_packEach {α : Type} {step : PackWriter → α → FileM PackWriter} {as : List α}
    {Accepts : α → List Row → List FileEvent → Prop}
    (hmono : ∀ a new es es', es ⊆ es' → Accepts a new es → Accepts a new es')
    (hstep : ∀ a ∈ as, ∀ w rows s, S.PackingRows W opts h rows w s →
      wp V G (step w a) (S.StepsBy W opts h rows (Accepts a)) s)
    (hw : S.PackingRows W opts h rows w s) :
    wp V G (packEach step w as)
      (S.StepsBy W opts h rows fun new es =>
        ∃ news, List.Forall₂ (fun a n => Accepts a n es) as news ∧ new = news.flatten) s := by
  induction as generalizing w rows s with
  | nil => exact ⟨[], ⟨[], .nil, rfl⟩, by rwa [List.append_nil]⟩
  | cons a as ih =>
    rw [packEach]
    apply wp_andThen
    refine wp_mono (fun r es s' hr => ?_) (hstep a List.mem_cons_self w rows s hw)
    cases r with
    | error e => exact hr
    | ok w' =>
      obtain ⟨n, hn, hw'⟩ := hr
      refine wp_mono (fun r' es' s'' hr' => ?_)
        (ih (fun b hb => hstep b (List.mem_cons_of_mem a hb)) hw')
      cases r' with
      | error e => exact hr'
      | ok w'' =>
        obtain ⟨_, ⟨news, hnews, rfl⟩, hw''⟩ := hr'
        refine ⟨n ++ news.flatten, ⟨n :: news, .cons ?_ ?_, rfl⟩, by rwa [← List.append_assoc]⟩
        · exact hmono a n es (es ++ es') (List.subset_append_left es es') hn
        · exact hnews.imp fun b m hm =>
            hmono b m es' (es ++ es') (List.subset_append_right es es') hm

/-! ### Beginning and ending -/

/-- The shard of the rows is complete, and is to be renamed. -/
structure Complete (S : Stages V G out T) (W : ParquetWriter) (opts : PackOptions) (h : ℕ)
    (rows : List Row) (w : PackWriter) (s : σ) : Prop where
  out_eq : w.out = out
  tmp_eq : w.tmp = tmpName out
  files : w.files = rows.length
  bytes : w.bytes = Grouping.total rowSize rows
  writing : S.Writing h (W.fileBytes opts.schema opts.compression
    (flushGroups (max opts.maxRowGroupBytes 1) rows)) s

theorem wp_close (hw : S.Packing W opts h (flushGroups (max opts.maxRowGroupBytes 1) rows) [] rows w
    s) : wp V G (w.close W) (fun r _ s' => S.Steps h (S.Complete W opts h rows) r s') s := by
  have hbuf := hw.buffers
  unfold PackWriter.close
  rw [hbuf.writer]
  apply wp_andThen
  apply wp_writeBytes hw.writing
  · intro es s' hclosed
    rw [hw.schema_eq, hw.compression_eq] at hclosed
    exact ⟨hw.out_eq, hw.tmp_eq, hbuf.files, hbuf.bytes, hclosed⟩
  · exact fun e es s' hfailed => hfailed

/-- The rows are published, though the temporary file is not removed yet. -/
def ClosedRows (S : Stages V G out T) (W : ParquetWriter) (opts : PackOptions) (rows : List Row) :
    Outcome PackSummary → σ → Prop
  | .ok sum, s => sum = ⟨rows.length, Grouping.total rowSize rows⟩ ∧
      S.Published (W.fileBytes opts.schema opts.compression
        (flushGroups (max opts.maxRowGroupBytes 1) rows)) s
  | .error _, s => S.Closed s

theorem wp_publish (hw : S.Complete W opts h rows w s) :
    wp V G w.publish (fun r _ s' => S.ClosedRows W opts rows r s') s := by
  unfold PackWriter.publish
  rw [hw.tmp_eq, hw.out_eq]
  intro r s' hV
  cases r with
  | error e =>
    obtain ⟨hG, hclosed⟩ := S.rename_error hw.writing hV
    exact ⟨hG, hclosed⟩
  | ok u =>
    obtain ⟨hG, hpublished⟩ := S.rename_ok hw.writing hV
    refine ⟨hG, ?_, hpublished⟩
    rw [hw.files, hw.bytes]

/-- How a call ends that has a writer. -/
def Finishes (S : Stages V G out T) (W : ParquetWriter) (opts : PackOptions) (rows : List Row) :
    Outcome PackSummary → σ → Prop
  | .ok sum, s => sum = ⟨rows.length, Grouping.total rowSize rows⟩ ∧
      S.Done (W.fileBytes opts.schema opts.compression
        (flushGroups (max opts.maxRowGroupBytes 1) rows)) s
  | .error _, s => S.Dropped s

theorem wp_finish (hw : S.PackingRows W opts h rows w s) :
    wp V G (w.finish W) (fun r _ s' => S.Finishes W opts rows r s') s := by
  unfold PackWriter.finish
  rw [PackWriter.closeFile, hw.buffers.writer, hw.tmp_eq]
  apply wp_andFinally
  apply wp_andThen
  apply wp_onError
  apply wp_andThen
  refine wp_mono (fun r es s' hr => ?_) (wp_flushRowGroup hw)
  cases r with
  | error e =>
    exact wp_dropEncoder hr fun s'' hclosed => wp_removeTemp hclosed fun s''' hdropped => hdropped
  | ok w' =>
    refine wp_mono (fun r' es' s'' hr' => ?_) (wp_close hr)
    cases r' with
    | error e =>
      exact wp_dropEncoder hr' fun s₃ hclosed => wp_removeTemp hclosed fun s₄ hdropped => hdropped
    | ok w'' =>
      refine wp_mono (fun r'' es'' s₃ hr'' => ?_) (wp_publish hr')
      cases r'' with
      | error e => exact wp_removeTemp hr'' fun s₄ hdropped => hdropped
      | ok sum =>
        -- what was renamed has moved away, so nothing is removed
        obtain ⟨hsum, hpublished⟩ := hr''
        intro r s₄ hV
        obtain ⟨hG, hdone⟩ := S.remove_published hpublished hV
        exact ⟨hG, hsum, hdone⟩

/-- How a call ends: the rows it accepted are published, or nothing is left behind. -/
def Ends (S : Stages V G out T) (W : ParquetWriter) (opts : PackOptions)
    (Accepts : List Row → List FileEvent → Prop) :
    Outcome PackSummary → List FileEvent → σ → Prop
  | .ok sum, es, s => ∃ rows, (Accepts rows es ∧ (rows.map Prod.fst).Nodup) ∧
      S.Finishes W opts rows (.ok sum) s
  | .error _, es, s => (Creates out es ∧ S.Dropped s) ∨ (¬Creates out es ∧ S.Idle s)

/-- How a new writer is created. -/
def Begins (S : Stages V G out T) (W : ParquetWriter) (opts : PackOptions) :
    Outcome PackWriter → List FileEvent → σ → Prop
  | .ok w, es, s => Creates out es ∧ ∃ h, S.PackingRows W opts h [] w s
  | .error _, es, s => (Creates out es ∧ S.Dropped s) ∨ (¬Creates out es ∧ S.Idle s)

theorem wp_create (hs : S.Idle s) :
    wp V G (PackWriter.create W out opts) (S.Begins W opts) s := by
  intro r s' hV
  cases r with
  | error e =>
    obtain ⟨hG, hidle⟩ := S.create_error hs hV
    refine ⟨hG, Or.inr ⟨?_, hidle⟩⟩
    -- the one call made has failed, so it created nothing
    intro ⟨h, hmem⟩
    cases List.mem_singleton.mp hmem
  | ok h =>
    obtain ⟨hG, hwriting⟩ := S.create_ok hs hV
    have hcreates : ∀ es : List FileEvent,
        Creates out (⟨.create (tmpName out), .ok h⟩ :: es) := fun es => ⟨h, List.mem_cons_self⟩
    refine ⟨hG, ?_⟩
    apply wp_andThen
    apply wp_onError
    apply wp_onError
    apply wp_writeBytes hwriting
    · intro es s'' hstart
      refine ⟨hcreates _, h, rfl, rfl, rfl, rfl, rfl,
        ⟨rfl, rfl, rfl, rfl, by simp, by simp, rfl, rfl⟩, ?_⟩
      simpa [ParquetWriter.groupsBytes] using hstart
    · exact fun e es s'' hfailed => wp_dropEncoder hfailed fun s''' hclosed =>
        wp_removeTemp hclosed fun s₄ hdropped => Or.inl ⟨hcreates _, hdropped⟩

/-- **A call that takes a new writer through some steps and finishes it.** -/
theorem wp_createWith {steps : PackWriter → FileM PackWriter}
    {Accepts : List Row → List FileEvent → Prop}
    (hmono : ∀ rows es es', es ⊆ es' → Accepts rows es → Accepts rows es')
    (hsteps : ∀ h w s, S.PackingRows W opts h [] w s →
      wp V G (steps w) (S.StepsBy W opts h [] Accepts) s) (hs : S.Idle s) :
    wp V G ((PackWriter.create W out opts).andThen fun w =>
        ((steps w).onError (dropWriter w)).andThen (PackWriter.finish W))
      (S.Ends W opts Accepts) s := by
  apply wp_andThen
  refine wp_mono (fun r es s' hr => ?_) (wp_create hs)
  cases r with
  | error e => exact hr
  | ok w =>
    obtain ⟨hcreates, h, hw⟩ := hr
    -- from here on the temporary file is one this call created
    have hcreates' : ∀ es', Creates out (es ++ es') := fun es' =>
      creates_append.mpr (Or.inl hcreates)
    dsimp only
    apply wp_andThen
    apply wp_onError
    refine wp_mono (fun r' es' s'' hr' => ?_) (hsteps h w s' hw)
    cases r' with
    | error e =>
      exact wp_dropWriter hw.tmp_eq hw.buffers.writer hr' fun es'' s''' hdropped =>
        Or.inl ⟨hcreates' _, hdropped⟩
    | ok w' =>
      obtain ⟨new, hnew, hw'⟩ := hr'
      have hnodup : (new.map Prod.fst).Nodup := hw'.buffers.nodup
      refine wp_mono (fun r'' es'' s''' hr'' => ?_) (wp_finish hw')
      cases r'' with
      | error e => exact Or.inl ⟨hcreates' _, hr''⟩
      | ok sum =>
        refine ⟨new, ⟨hmono new es' _ ?_ hnew, hnodup⟩, hr''⟩
        intro e he
        simp [he]

/-! ### Entries of each format -/

variable {archive : Str} {libs : ArchiveLibs}

theorem wp_fromLibrary {α : Type} {bad : Str → FsError} {x : Except Str α}
    {Q : Outcome α → List FileEvent → σ → Prop} (hw : S.Packing W opts h closed buf rows w s)
    (hok : ∀ a es s', x = .ok a → S.Packing W opts h closed buf rows w s' → Q (.ok a) es s')
    (herr : ∀ e es s', S.Failed h s' → Q (.error e) es s') :
    wp V G (fromLibrary bad x) Q s := by
  apply wp_look (o := .poll) trivial hw
  intro r s' hw' _
  cases r with
  | error e => exact herr _ _ _ hw'.failed
  | ok u =>
    cases x with
    | error e => exact herr _ _ _ hw'.failed
    | ok a => exact hok a _ _ rfl hw'

theorem wp_lift {α β : Type} {x : Except FsError α} {f : α → FileM β}
    {Q : Outcome β → List FileEvent → σ → Prop}
    (hok : ∀ a, x = .ok a → wp V G (f a) Q s) (herr : ∀ e, Q (.error (.err e)) [] s) :
    wp V G ((Program.ret (lift x)).andThen f) Q s := by
  cases x with
  | error e => exact herr _
  | ok a => exact hok a rfl

theorem wp_packZipEntry (entry : Except Str ZipEntry × ℕ) (hw : S.PackingRows W opts h rows w s) :
    wp V G (packZipEntry W archive w entry)
      (S.StepsBy W opts h rows fun new _ => entry.1.toOption.bind zipRows = some new) s := by
  apply wp_andThen
  apply wp_fromLibrary hw
  · intro e es s₁ he hw
    have hrows : entry.1.toOption.bind zipRows = zipRows e := by rw [he]; rfl
    rw [hrows, zipRows]
    dsimp only
    by_cases hfile : e.isFile = true
    · rw [if_neg (by simpa using hfile)]
      apply wp_lift
      · intro stored hstored
        split
        · exact hw.failed
        · apply wp_look (o := .alloc e.size) trivial hw
          intro _ s₂ hw _
          apply wp_andThen
          apply wp_fromLibrary hw
          · intro data es' s₃ hdata hw
            dsimp only
            exact wp_append_by hw fun _ => by simp [entryRows, hfile, hstored, hdata]
          · exact fun _ _ _ hfailed => hfailed
      · exact fun _ => hw.failed
    · rw [if_pos hfile]
      exact ⟨[], by simp [entryRows, hfile], by rw [List.append_nil]; exact hw⟩
  · exact fun _ _ _ hfailed => hfailed

theorem wp_packTarEntry (entry : Except Str TarEntry) (hw : S.PackingRows W opts h rows w s) :
    wp V G (packTarEntry W archive w entry)
      (S.StepsBy W opts h rows fun new _ => entry.toOption.bind tarRows = some new) s := by
  apply wp_andThen
  apply wp_fromLibrary hw
  · intro e es s₁ he hw
    have hrows : entry.toOption.bind tarRows = tarRows e := by rw [he]; rfl
    rw [hrows, tarRows]
    dsimp only
    by_cases hfile : e.isFile = true
    · rw [if_neg (by simpa using hfile)]
      apply wp_lift
      · intro raw hraw
        -- the name is decoded before it is checked
        have hname : e.name = .ok raw := by
          cases hn : e.name with
          | error err => simp [hn, Except.mapError] at hraw
          | ok n => simpa [hn, Except.mapError] using hraw
        apply wp_lift
        · intro stored hstored
          apply wp_andThen
          apply wp_fromLibrary hw
          · intro data es' s₂ hdata hw
            dsimp only
            exact wp_append_by hw fun _ => by simp [entryRows, hfile, hname, hstored, hdata]
          · exact fun _ _ _ hfailed => hfailed
        · exact fun _ => hw.failed
      · exact fun _ => hw.failed
    · rw [if_pos hfile]
      exact ⟨[], by simp [entryRows, hfile], by rw [List.append_nil]; exact hw⟩
  · exact fun _ _ _ hfailed => hfailed

theorem wp_packRarEntry (entry : Except Str RarEntry) (hw : S.PackingRows W opts h rows w s) :
    wp V G (packRarEntry W archive w entry)
      (S.StepsBy W opts h rows fun new _ => entry.toOption.bind rarRows = some new) s := by
  apply wp_andThen
  apply wp_fromLibrary hw
  · intro e es s₁ he hw
    have hrows : entry.toOption.bind rarRows = rarRows e := by rw [he]; rfl
    rw [hrows, rarRows]
    dsimp only
    apply wp_andThen
    apply wp_fromLibrary hw
    · intro data es' s₂ hdata hw
      have hread : e.data.toOption = some data := by rw [hdata]; rfl
      rw [hread, Option.bind_some]
      dsimp only
      -- the data of a directory are read too, and passed over
      by_cases hfile : e.isFile = true
      · rw [if_pos hfile]
        apply wp_lift
        · intro stored hstored
          exact wp_append_by hw fun _ => by simp [entryRows, hfile, hstored]
        · exact fun _ => hw.failed
      · rw [if_neg hfile]
        exact ⟨[], by simp [entryRows, hfile], by rw [List.append_nil]; exact hw⟩
    · exact fun _ _ _ hfailed => hfailed
  · exact fun _ _ _ hfailed => hfailed

/-! ### The blocks of a 7z archive -/

/-- After an entry: the writer went on and no error is recorded, or nothing else
was touched and the library is told to stop. -/
def EntryDone (S : Stages V G out T) (W : ParquetWriter) (opts : PackOptions) (h : ℕ)
    (rows : List Row) (Accepts : List Row → Prop) :
    Outcome ((PackWriter × Option FsError) × Except Str Bool) → σ → Prop
  | .ok (st, .ok more), s => more = true ∧ st.2 = none ∧
      ∃ new, Accepts new ∧ S.PackingRows W opts h (rows ++ new) st.1 s
  | .ok (_, .error _), s => S.Failed h s
  | .error _, s => S.Failed h s

/-- After some entries: the writer went on and no error is recorded, or nothing
else was touched. -/
def EntriesDone (S : Stages V G out T) (W : ParquetWriter) (opts : PackOptions) (h : ℕ)
    (rows : List Row) (Accepts : List Row → Prop) :
    Outcome ((PackWriter × Option FsError) × Except Str Unit) → σ → Prop
  | .ok (st, .ok _), s => st.2 = none ∧
      ∃ new, Accepts new ∧ S.PackingRows W opts h (rows ++ new) st.1 s
  | .ok (_, .error _), s => S.Failed h s
  | .error _, s => S.Failed h s

theorem wp_pack7zEntry (entry : SevenZEntry) (hw : S.PackingRows W opts h rows w s) :
    wp V G (pack7zEntry W (w, none) entry)
      (fun r _ s' => S.EntryDone W opts h rows (fun new => sevenZRows entry = some new) r s')
      s := by
  apply wp_look (o := .poll) trivial hw
  intro r s₁ hw _
  cases r with
  | error e => exact hw.failed
  | ok u =>
    dsimp only
    cases hdata : entry.data with
    | error e => exact hw.failed
    | ok data =>
      have hread : entry.data.toOption = some data := by rw [hdata]; rfl
      dsimp only
      by_cases hdir : entry.isDirectory = true
      · rw [if_pos hdir]
        exact ⟨rfl, rfl, [], by simp [sevenZRows, hread, entryRows, hdir],
          by rw [List.append_nil]; exact hw⟩
      · rw [if_neg hdir]
        apply wp_bind
        apply wp_lift
        · intro stored hstored
          refine wp_mono (fun r es s' hr => ?_) (wp_append hw stored data)
          cases r with
          | ok w' =>
            exact ⟨rfl, rfl, [(stored, data)],
              by simp [sevenZRows, hread, entryRows, hdir, hstored], hr⟩
          -- an error of the writer is recorded; a panic ends the loop at once
          | error f => cases f <;> exact hr
        · exact fun _ => hw.failed

/-- What the rest of the entries appends comes after what was appended before. -/
theorem EntriesDone.prepend {A B : List Row → Prop} {n : List Row}
    {r : Outcome ((PackWriter × Option FsError) × Except Str Unit)}
    (hAB : ∀ new, A new → B (n ++ new)) (hr : S.EntriesDone W opts h (rows ++ n) A r s) :
    S.EntriesDone W opts h rows B r s := by
  match r, hr with
  | .error _, hr => exact hr
  | .ok (_, .error _), hr => exact hr
  | .ok (_, .ok _), ⟨hnone, new, hnew, hw⟩ =>
    exact ⟨hnone, n ++ new, hAB new hnew, by rwa [← List.append_assoc]⟩

theorem wp_forEachInBlock (as : List SevenZEntry) (hw : S.PackingRows W opts h rows w s) :
    wp V G (forEachInBlock (pack7zEntry W) (w, none) as)
      (fun r _ s' => S.EntriesDone W opts h rows
        (fun new => allRows sevenZRows as = some new) r s') s := by
  induction as generalizing w rows s with
  | nil => exact ⟨rfl, [], rfl, by rwa [List.append_nil]⟩
  | cons a as ih =>
    rw [forEachInBlock]
    apply wp_andThen
    refine wp_mono (fun r es s' hr => ?_) (wp_pack7zEntry a hw)
    -- the loop goes on only after an entry that told it to
    match r, hr with
    | .error _, hr => exact hr
    | .ok (_, .error _), hr => exact hr
    | .ok ((w', _), .ok _), ⟨rfl, rfl, n, hn, hw'⟩ =>
      refine wp_mono (fun r' es' s'' hr' => ?_) (ih hw')
      exact EntriesDone.prepend (fun new hnew => allRows_cons hn hnew) hr'

theorem wp_forEachEntries (blocks : List (Except Str (List SevenZEntry)))
    (hw : S.PackingRows W opts h rows w s) :
    wp V G (forEachEntries (pack7zEntry W) (w, none) blocks)
      (fun r _ s' => S.EntriesDone W opts h rows
        (fun new => allRows (fun block => block.toOption.bind (allRows sevenZRows)) blocks
          = some new) r s') s := by
  induction blocks generalizing w rows s with
  | nil => exact ⟨rfl, [], rfl, by rwa [List.append_nil]⟩
  | cons block blocks ih =>
    apply wp_look (o := .poll) trivial hw
    intro r s₁ hw _
    cases r with
    | error e => exact hw.failed
    | ok u =>
      cases block with
      | error e => exact hw.failed
      | ok as =>
        apply wp_andThen
        refine wp_mono (fun r es s' hr => ?_) (wp_forEachInBlock as hw)
        match r, hr with
        | .error _, hr => exact hr
        | .ok (_, .error _), hr => exact hr
        | .ok ((w', _), .ok _), ⟨rfl, n, hn, hw'⟩ =>
          refine wp_mono (fun r' es' s'' hr' => ?_) (ih hw')
          exact EntriesDone.prepend (fun new hnew => allRows_cons hn hnew) hr'

/-! ### Whole archives -/

/-- Taking a writer through what a library lists; `number` may add to each entry
what `view` takes away again. -/
theorem wp_packListed {α β : Type} {bad : Str → FsError}
    {listed : Except Str (List (Except Str α))} {number : List (Except Str α) → List β}
    {view : β → Except Str α} {step : PackWriter → β → FileM PackWriter}
    {rowsOf : α → Option (List Row)} (hview : ∀ l, (number l).map view = l)
    (hstep : ∀ b w rows s, S.PackingRows W opts h rows w s →
      wp V G (step w b)
        (S.StepsBy W opts h rows fun new _ => (view b).toOption.bind rowsOf = some new) s)
    (hw : S.PackingRows W opts h rows w s) :
    wp V G
      ((fromLibrary bad listed).andThen fun entries => packEach step w (number entries))
      (S.StepsBy W opts h rows fun new _ => listedRows rowsOf listed = some new) s := by
  apply wp_andThen
  apply wp_fromLibrary hw
  · intro entries es s₁ hentries hw
    refine wp_mono (fun r es' s' hr => ?_)
      (wp_packEach (fun _ _ _ _ _ h => h) (fun b _ w rows s hw => hstep b w rows s hw) hw)
    cases r with
    | error e => exact hr
    | ok w' =>
      obtain ⟨_, ⟨news, hnews, rfl⟩, hw'⟩ := hr
      refine ⟨news.flatten, ?_, hw'⟩
      have hmap : List.Forall₂ (fun e n => e.toOption.bind rowsOf = some n)
          ((number entries).map view) news := List.forall₂_map_left_iff.mpr hnews
      rw [hview] at hmap
      rw [listedRows, hentries]
      exact allRows_of_forall₂ hmap
  · exact fun _ _ _ hfailed => hfailed

theorem wp_packTarEntries (reader : Stream) (hw : S.PackingRows W opts h rows w s) :
    wp V G (packTarEntries W libs reader archive w)
      (S.StepsBy W opts h rows fun new _ => listedRows tarRows (libs.tar reader) = some new) s :=
  wp_packListed List.map_id (fun b _ _ _ hw => wp_packTarEntry b hw) hw

theorem wp_pack7zListed (bs : Bytes) (hw : S.PackingRows W opts h rows w s) :
    wp V G
      ((fromLibrary (bad7z archive) (libs.sevenZ bs)).andThen fun blocks =>
        (forEachEntries (pack7zEntry W) (w, none) blocks).andThen fun
          | ((_, some e), _) => .ret (.error (.err e))
          | ((_, none), .error e) => .ret (.error (.err (bad7z archive e)))
          | ((w', none), .ok _) => .ret (.ok w'))
      (S.StepsBy W opts h rows fun new _ => archiveRows libs .sevenZ bs = some new) s := by
  apply wp_andThen
  apply wp_fromLibrary hw
  · intro blocks es s₁ hblocks hw
    apply wp_andThen
    refine wp_mono (fun r es' s' hr => ?_) (wp_forEachEntries blocks hw)
    match r, hr with
    | .error _, hr => exact hr
    | .ok ((_, some _), .error _), hr => exact hr
    | .ok ((_, none), .error _), hr => exact hr
    | .ok ((w', _), .ok _), ⟨rfl, new, hnew, hw'⟩ =>
      refine ⟨new, ?_, hw'⟩
      rw [archiveRows, hblocks]
      exact hnew
  · exact fun _ _ _ hfailed => hfailed

end Stages

end ParquetFileFs
