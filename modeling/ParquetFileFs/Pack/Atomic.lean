import ParquetFileFs.Pack.Answers

/-!
# A writer changes its temporary file only

In the file system that no other program changes, whatever fails, only the
temporary file changes until it is renamed onto the output, and however a writer
ends its temporary file is gone.  When it finishes, the output is the complete
shard of the rows it was given.

## Main definitions

* `KeepsOthers` — what every step of a call leaves alone.
* `fileStages` — the stages of a call, told by the files.
* `Packing`, `PackingRows` — a writer is at work on the temporary file.
* `Ends` — how a call ends that has a writer.

## Main results

* `wp_create`, `wp_append`, `wp_finish` — the operations of the writer.
-/

namespace ParquetFileFs

open Program

/-- The temporary file is renamed onto the output. -/
def Publishes (out : Str) : FileEvent → Prop
  | ⟨.rename a b, .ok _⟩ => a = tmpName out ∧ b = out
  | _ => False

/-- Every step leaves all but the temporary file alone, and the output as well
unless it publishes. -/
def KeepsOthers (out : Str) : World (FsOp Str UInt8) (FsOp.Res Str) Files :=
  fun o fs r fs' =>
    (∀ q, q ≠ tmpName out → q ≠ out → fs'.read q = fs.read q) ∧
      (¬Publishes out ⟨o, r⟩ → fs'.read out = fs.read out)

/-- All but the temporary file is as at the start. -/
def Untouched (fs₀ : Files) (out : Str) (fs : Files) : Prop :=
  ∀ q, q ≠ tmpName out → fs.read q = fs₀.read q

/-- The temporary file is gone, and nothing else has changed. -/
def Dropped (fs₀ : Files) (out : Str) (fs : Files) : Prop :=
  Untouched fs₀ out fs ∧ fs.read (tmpName out) = none

/-- A call that failed has left nothing behind: if it created its temporary
file, that is gone, and everything else is as before. -/
structure FailedClean (fs₀ : Files) (out : Str) (es : List FileEvent) (fs : Files) : Prop where
  dropped : Creates out es → Dropped fs₀ out fs
  unchanged : ¬Creates out es → ∀ q, fs.read q = fs₀.read q

/-- The output is the shard of the rows, the temporary file is gone, and nothing
else has changed. -/
structure PublishedRows (W : ParquetWriter) (fs₀ : Files) (out : Str) (opts : PackOptions)
    (rows : List Row) (fs : Files) : Prop where
  output : fs.read out = some (W.fileBytes opts.schema opts.compression
    (flushGroups (max opts.maxRowGroupBytes 1) rows))
  dropped : fs.read (tmpName out) = none
  others : ∀ q, q ≠ tmpName out → q ≠ out → fs.read q = fs₀.read q

/-! ### Single calls -/

section Rules

variable {out : Str} {fs fs₀ fs' : Files}
  {expand : Files → Str → Except Str (List (Except (Str × Str) Str))}

theorem keepsOthers_of_untouched {o : FsOp Str UInt8} {r : FsOp.Res Str o}
    (h : ∀ q, q ≠ tmpName out → fs'.read q = fs.read q) : KeepsOthers out o fs r fs' :=
  ⟨fun q hq _ => h q hq, fun _ => h out (ne_tmpName out)⟩

theorem keepsOthers_self (o : FsOp Str UInt8) (r : FsOp.Res Str o) : KeepsOthers out o fs r fs :=
  keepsOthers_of_untouched fun _ _ => rfl

/-- Whether it failed before or after it created its file, nothing else has changed. -/
theorem FailedClean.untouched {es : List FileEvent} (h : FailedClean fs₀ out es fs) :
    Untouched fs₀ out fs := by
  intro q hq
  by_cases hc : Creates out es
  · exact (h.dropped hc).1 q hq
  · exact h.unchanged hc q

theorem FailedClean.gone {es : List FileEvent} (h : FailedClean fs₀ out es fs)
    (hc : Creates out es) : fs.read (tmpName out) = none :=
  (h.dropped hc).2

theorem fsWorld_look {o : FsOp Str UInt8} {r : FsOp.Res Str o} (ho : IsLook o)
    (hW : fsWorld expand o fs r fs') : fs' = fs := by
  cases o with
  | read p =>
    cases r with
    | ok bs => exact hW.2
    | error e => exact hW
  | poll => exact hW
  | alloc n => exact hW
  | stat p =>
    cases r with
    | ok k => exact hW.2
    | error e => exact hW
  | expand pattern => exact hW.2
  | _ => exact absurd ho id

theorem untouched_append (h : Untouched fs₀ out fs) {i : ℕ} (hi : fs.names (tmpName out) = some i)
    (bs : Bytes) : Untouched fs₀ out (fs.append i bs) := by
  intro q hq
  rw [FileSystem.read_append hi, if_neg hq]
  exact h q hq

theorem dropped_remove (h : Untouched fs₀ out fs) : Dropped fs₀ out (fs.remove (tmpName out)) := by
  constructor
  · intro q hq
    rw [FileSystem.read_remove, if_neg hq]
    exact h q hq
  · rw [FileSystem.read_remove, if_pos rfl]

/-- Writing through the handle of the temporary file. -/
theorem keepsOthers_append {o : FsOp Str UInt8} {r : FsOp.Res Str o} {i : ℕ}
    (hi : fs.names (tmpName out) = some i) (bs : Bytes) :
    KeepsOthers out o fs r (fs.append i bs) := by
  refine keepsOthers_of_untouched fun q hq => ?_
  rw [FileSystem.read_append hi, if_neg hq]

end Rules

/-! ### The stages of a call -/

/-- What an answer tells of the files at the start.  Once its temporary file is
created, a call may read what it has written to it. -/
def Told (expand : Files → Str → Except Str (List (Except (Str × Str) Str))) (fs₀ : Files)
    (out : Str) : Option Bytes → FileEvent → Prop
  | none, ⟨.stat p, .ok kind⟩ => fs₀.kind p = some kind
  | none, ⟨.read p, .ok bs⟩ => fs₀.read p = some bs
  | none, ⟨.expand p, r⟩ => r = expand fs₀ p
  | some held, ⟨.read p, .ok bs⟩ =>
      (p ≠ tmpName out → fs₀.read p = some bs) ∧ (p = tmpName out → bs = held)
  | _, _ => True

section Stages

variable (expand : Files → Str → Except Str (List (Except (Str × Str) Str))) (fs₀ : Files)
  (out : Str)

theorem told_idle {o : FsOp Str UInt8} {r : FsOp.Res Str o} {fs : Files} (ho : IsLook o)
    (hW : fsWorld expand o fs₀ r fs) : Told expand fs₀ out none ⟨o, r⟩ := by
  cases o with
  | read p =>
    cases r with
    | ok bs => exact hW.1
    | error e => trivial
  | poll => trivial
  | alloc n => trivial
  | stat p =>
    cases r with
    | ok k => exact hW.1
    | error e => trivial
  | expand pattern => exact hW.1
  | _ => exact absurd ho id

theorem told_writing {o : FsOp Str UInt8} {r : FsOp.Res Str o} {bs : Bytes} {fs fs' : Files}
    (hread : fs.read (tmpName out) = some bs) (huntouched : Untouched fs₀ out fs)
    (hW : fsWorld expand o fs r fs') : Told expand fs₀ out (some bs) ⟨o, r⟩ := by
  cases o with
  | read p =>
    cases r with
    | ok data =>
      refine ⟨fun hp => ?_, fun hp => ?_⟩
      · rw [← huntouched p hp]
        exact hW.1
      · subst hp
        exact Option.some.inj (hW.1.symm.trans hread)
    | error e => trivial
  | _ => trivial

/-- The stages of a call that is alone, told by the files. -/
def fileStages : Stages (fsWorld expand) (KeepsOthers out) out (Told expand fs₀ out) where
  Idle fs := fs = fs₀
  Writing h bs fs := fs.names (tmpName out) = some h ∧ fs.read (tmpName out) = some bs ∧
    Untouched fs₀ out fs
  Failed h fs := fs.names (tmpName out) = some h ∧ Untouched fs₀ out fs
  Closed fs := Untouched fs₀ out fs
  Published bs fs := fs.read out = some bs ∧ fs.read (tmpName out) = none ∧
    ∀ q, q ≠ tmpName out → q ≠ out → fs.read q = fs₀.read q
  Dropped fs := Dropped fs₀ out fs
  Done bs fs := fs.read out = some bs ∧ fs.read (tmpName out) = none ∧
    ∀ q, q ≠ tmpName out → q ≠ out → fs.read q = fs₀.read q
  look_idle := by
    intro o fs r fs' ho hfs hW
    subst hfs
    have htold := told_idle expand fs out ho hW
    rw [fsWorld_look ho hW]
    exact ⟨keepsOthers_self _ _, rfl, htold⟩
  look_writing := by
    intro o h bs fs r fs' ho ⟨hnames, hread, huntouched⟩ hW
    have htold := told_writing expand fs₀ out hread huntouched hW
    rw [fsWorld_look ho hW]
    exact ⟨keepsOthers_self _ _, ⟨hnames, hread, huntouched⟩, htold⟩
  create_ok := by
    intro h fs fs' hfs hW
    subst hfs
    have huntouched : Untouched fs out fs' := by
      intro q hq
      rw [FileSystem.read_create hW, if_neg hq]
    refine ⟨keepsOthers_of_untouched huntouched, ?_, ?_, huntouched⟩
    · rw [FileSystem.names_create hW, Function.update_self]
    · rw [FileSystem.read_create hW, if_pos rfl]
  create_error := by
    intro e fs fs' hfs hW
    rw [show fs' = fs from hW]
    exact ⟨keepsOthers_self _ _, hfs⟩
  write_ok := by
    intro h bs new fs fs' ⟨hnames, hread, huntouched⟩ hW
    rw [show fs' = fs.append h new from hW]
    refine ⟨keepsOthers_append hnames new, ?_, ?_, untouched_append huntouched hnames new⟩
    · rw [FileSystem.names_append, hnames]
    · rw [FileSystem.read_append hnames, if_pos rfl, hread]
      rfl
  write_error := by
    -- a failed write may have written a part, through the same handle
    intro h bs new e fs fs' ⟨hnames, hread, huntouched⟩ ⟨part, _, hW⟩
    rw [hW]
    exact ⟨keepsOthers_append hnames part, hnames, untouched_append huntouched hnames part⟩
  failed_of_writing hwriting := ⟨hwriting.1, hwriting.2.2⟩
  close := by
    intro h fs fs' ⟨hnames, huntouched⟩ ⟨rest, hW⟩
    rw [hW]
    exact ⟨keepsOthers_append hnames rest, untouched_append huntouched hnames rest⟩
  rename_ok := by
    intro h bs fs fs' ⟨hnames, hread, huntouched⟩ hW
    have hrename := FileSystem.read_rename hW
    have hothers : ∀ q, q ≠ tmpName out → q ≠ out → fs'.read q = fs.read q := by
      intro q hq hqo
      rw [hrename, if_neg hqo, if_neg hq]
    refine ⟨⟨hothers, fun hno => absurd ⟨rfl, rfl⟩ hno⟩, ?_, ?_, fun q hq hqo => ?_⟩
    · rw [hrename, if_pos rfl, hread]
    · rw [hrename, if_neg (ne_tmpName out).symm, if_pos rfl]
    · rw [hothers q hq hqo]
      exact huntouched q hq
  rename_error := by
    intro h bs e fs fs' ⟨_, _, huntouched⟩ hW
    rw [show fs' = fs from hW]
    exact ⟨keepsOthers_self _ _, huntouched⟩
  remove_closed := by
    intro fs fs' huntouched hW
    rw [show fs' = fs.remove (tmpName out) from hW]
    refine ⟨keepsOthers_of_untouched fun q hq => ?_, dropped_remove huntouched⟩
    rw [FileSystem.read_remove, if_neg hq]
  remove_published := by
    -- the file has moved away, so nothing is removed
    intro bs fs fs' ⟨hout, _, hothers⟩ hW
    rw [show fs' = fs.remove (tmpName out) from hW]
    refine ⟨keepsOthers_of_untouched fun q hq => ?_, ?_, ?_, fun q hq hqo => ?_⟩
    · rw [FileSystem.read_remove, if_neg hq]
    · rw [FileSystem.read_remove, if_neg (ne_tmpName out), hout]
    · rw [FileSystem.read_remove, if_pos rfl]
    · rw [FileSystem.read_remove, if_neg hq]
      exact hothers q hq hqo

end Stages

/-! ### The writer -/

section Writer

variable {W : ParquetWriter} {out : Str} {opts : PackOptions} {fs fs₀ : Files} {w : PackWriter}
  {closed : List (List Row)} {buf rows : List Row}
  {expand : Files → Str → Except Str (List (Except (Str × Str) Str))}

/-- A writer is at work on the temporary file, which holds the groups written so
far; nothing else has changed. -/
structure Packing (W : ParquetWriter) (fs₀ : Files) (out : Str) (opts : PackOptions)
    (closed : List (List Row)) (buf rows : List Row) (w : PackWriter) (fs : Files) : Prop where
  out_eq : w.out = out
  tmp_eq : w.tmp = tmpName out
  schema_eq : w.schema = opts.schema
  compression_eq : w.compression = opts.compression
  maxPending_eq : w.maxPending = max opts.maxRowGroupBytes 1
  buffers : ∃ h, w.Buffers h closed buf rows ∧ fs.names (tmpName out) = some h
  contents : fs.read (tmpName out) = some (W.start opts.schema opts.compression
    ++ W.groupsBytes opts.schema opts.compression [] closed)
  untouched : Untouched fs₀ out fs

/-- The writer is at work and stands for the rows: it has written the groups
that are full, and holds the rest. -/
def PackingRows (W : ParquetWriter) (fs₀ : Files) (out : Str) (opts : PackOptions)
    (rows : List Row) (w : PackWriter) (fs : Files) : Prop :=
  Packing W fs₀ out opts (Grouping.cut rowSize (max opts.maxRowGroupBytes 1) rows).1
    (Grouping.cut rowSize (max opts.maxRowGroupBytes 1) rows).2 rows w fs

/-- A step took the writer on, or failed and touched nothing else. -/
def Steps (P : PackWriter → Files → Prop) (fs₀ : Files) (out : Str) :
    Outcome PackWriter → Files → Prop
  | .ok w, fs => P w fs
  | .error _, fs => Untouched fs₀ out fs

/-- A step that also says which rows it appended. -/
def StepsBy (W : ParquetWriter) (fs₀ : Files) (out : Str) (opts : PackOptions) (rows : List Row)
    (Accepts : List Row → List FileEvent → Prop) :
    Outcome PackWriter → List FileEvent → Files → Prop
  | .ok w, es, fs => ∃ new, Accepts new es ∧ PackingRows W fs₀ out opts (rows ++ new) w fs
  | .error _, _, fs => Untouched fs₀ out fs

variable (expand) in
/-- A writer at work is in the stage of writing what it has written. -/
theorem packing_iff : Packing W fs₀ out opts closed buf rows w fs ↔
    ∃ h, (fileStages expand fs₀ out).Packing W opts h closed buf rows w fs := by
  constructor
  · intro hw
    obtain ⟨h, hbuf, hnames⟩ := hw.buffers
    exact ⟨h, hw.out_eq, hw.tmp_eq, hw.schema_eq, hw.compression_eq, hw.maxPending_eq, hbuf,
      hnames, hw.contents, hw.untouched⟩
  · intro ⟨h, hw⟩
    obtain ⟨hnames, hcontents, huntouched⟩ := hw.writing
    exact ⟨hw.out_eq, hw.tmp_eq, hw.schema_eq, hw.compression_eq, hw.maxPending_eq,
      ⟨h, hw.buffers, hnames⟩, hcontents, huntouched⟩

theorem stepsBy_of_stages {A B : List Row → List FileEvent → Prop} {r : Outcome PackWriter}
    {es : List FileEvent} {h : ℕ} (hA : ∀ new, A new es → B new es)
    (hr : (fileStages expand fs₀ out).StepsBy W opts h rows A r es fs) :
    StepsBy W fs₀ out opts rows B r es fs := by
  cases r with
  | ok w' =>
    obtain ⟨new, hnew, hw'⟩ := hr
    exact ⟨new, hA new hnew, (packing_iff expand).mpr ⟨h, hw'⟩⟩
  | error e => exact hr.2

theorem wp_flushRowGroup (hw : Packing W fs₀ out opts closed buf rows w fs) :
    wp (fsWorld expand) (KeepsOthers out) (PackWriter.flushRowGroup W w)
      (fun r _ fs' =>
        Steps (Packing W fs₀ out opts (Grouping.close closed buf) [] rows) fs₀ out r fs')
      fs := by
  obtain ⟨h, hw⟩ := (packing_iff expand).mp hw
  refine wp_mono (fun r es fs' hr => ?_) (Stages.wp_flushRowGroup hw)
  cases r with
  | ok w' => exact (packing_iff expand).mpr ⟨h, hr⟩
  | error e => exact hr.2

theorem wp_append (hw : PackingRows W fs₀ out opts rows w fs) (stored : Str) (content : Bytes) :
    wp (fsWorld expand) (KeepsOthers out) (w.append W stored content)
      (fun r _ fs' =>
        Steps (PackingRows W fs₀ out opts (rows ++ [(stored, content)])) fs₀ out r fs')
      fs := by
  obtain ⟨h, hw⟩ := (packing_iff expand).mp hw
  refine wp_mono (fun r es fs' hr => ?_) (Stages.wp_append hw stored content)
  cases r with
  | ok w' => exact (packing_iff expand).mpr ⟨h, hr⟩
  | error e => exact hr.2

/-- Taking a writer through rows appends the rows. -/
theorem wp_packEach_append (new : List Row) (hw : PackingRows W fs₀ out opts rows w fs) :
    wp (fsWorld expand) (KeepsOthers out) (packEach (fun w r => w.append W r.1 r.2) w new)
      (fun r _ fs' => Steps (PackingRows W fs₀ out opts (rows ++ new)) fs₀ out r fs') fs := by
  induction new generalizing w rows fs with
  | nil =>
    rw [List.append_nil]
    exact hw
  | cons r new ih =>
    rw [packEach]
    apply wp_andThen
    refine wp_mono (fun res es fs' hres => ?_) (wp_append hw r.1 r.2)
    cases res with
    | error e => exact hres
    | ok w' =>
      have happend : rows ++ r :: new = rows ++ [r] ++ new := by simp
      rw [happend]
      exact ih hres

/-! ### Beginning and ending -/

/-- How a call ends that has a writer: the rows are published, or its temporary
file is gone and nothing else has changed. -/
def Finishes (W : ParquetWriter) (fs₀ : Files) (out : Str) (opts : PackOptions)
    (rows : List Row) : Outcome PackSummary → Files → Prop
  | .ok sum, fs => sum = ⟨rows.length, Grouping.total rowSize rows⟩ ∧
      PublishedRows W fs₀ out opts rows fs
  | .error _, fs => Dropped fs₀ out fs

theorem wp_finish (hw : PackingRows W fs₀ out opts rows w fs) :
    wp (fsWorld expand) (KeepsOthers out) (w.finish W)
      (fun r _ fs' => Finishes W fs₀ out opts rows r fs') fs := by
  obtain ⟨h, hw⟩ := (packing_iff expand).mp hw
  refine wp_mono (fun r es fs' hr => ?_) (Stages.wp_finish hw)
  cases r with
  | ok sum =>
    obtain ⟨hsum, hout, htmp, hothers⟩ := hr
    exact ⟨hsum, hout, htmp, hothers⟩
  | error e => exact hr

/-- A call that failed has dropped its temporary file, or has not created one. -/
theorem failedClean_of_stages {es : List FileEvent}
    (h : (Creates out es ∧ Dropped fs₀ out fs) ∨ (¬Creates out es ∧ fs = fs₀)) :
    FailedClean fs₀ out es fs := by
  rcases h with ⟨hc, hdropped⟩ | ⟨hc, hfs⟩
  · exact ⟨fun _ => hdropped, fun hno => absurd hc hno⟩
  · exact ⟨fun hc' => absurd hc' hc, fun _ q => by rw [hfs]⟩

/-- How a new writer is created: it stands for no rows, or nothing is left behind. -/
def Begins (W : ParquetWriter) (fs₀ : Files) (out : Str) (opts : PackOptions) :
    Outcome PackWriter → List FileEvent → Files → Prop
  | .ok w, es, fs => Creates out es ∧ PackingRows W fs₀ out opts [] w fs
  | .error _, es, fs => FailedClean fs₀ out es fs

theorem wp_create : wp (fsWorld expand) (KeepsOthers out) (PackWriter.create W out opts)
    (Begins W fs₀ out opts) fs₀ := by
  have hwp : wp (fsWorld expand) (KeepsOthers out) (PackWriter.create W out opts)
      ((fileStages expand fs₀ out).Begins W opts) fs₀ := Stages.wp_create rfl
  refine wp_mono (fun r es fs hr => ?_) hwp
  cases r with
  | ok w =>
    obtain ⟨hc, h, hw⟩ := hr
    exact ⟨hc, (packing_iff expand).mpr ⟨h, hw⟩⟩
  | error e => exact failedClean_of_stages hr

/-- How a whole call ends: the rows it accepted are published, or nothing is
left behind. -/
def Ends (W : ParquetWriter) (fs₀ : Files) (out : Str) (opts : PackOptions)
    (Accepts : List Row → List FileEvent → Prop) :
    Outcome PackSummary → List FileEvent → Files → Prop
  | .ok sum, es, fs => ∃ rows, Accepts rows es ∧
      sum = ⟨rows.length, Grouping.total rowSize rows⟩ ∧ PublishedRows W fs₀ out opts rows fs
  | .error _, es, fs => FailedClean fs₀ out es fs

/-- Rows that are accepted, with distinct paths. -/
def Distinct (Accepts : List Row → List FileEvent → Prop) (rows : List Row)
    (es : List FileEvent) : Prop :=
  Accepts rows es ∧ (rows.map Prod.fst).Nodup

theorem ends_of_stages {A B : List Row → List FileEvent → Prop} {r : Outcome PackSummary}
    {es : List FileEvent} (hA : ∀ rows, A rows es → B rows es)
    (h : (fileStages expand fs₀ out).Ends W opts A r es fs) :
    Ends W fs₀ out opts (Distinct B) r es fs := by
  cases r with
  | ok sum =>
    obtain ⟨rows, ⟨hrows, hnodup⟩, hsum, hout, htmp, hothers⟩ := h
    exact ⟨rows, ⟨hA rows hrows, hnodup⟩, hsum, hout, htmp, hothers⟩
  | error e => exact failedClean_of_stages h

end Writer

end ParquetFileFs
