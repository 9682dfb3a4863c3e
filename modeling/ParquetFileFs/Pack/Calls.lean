import ParquetFileFs.Pack.Atomic

/-!
# Packing is all or nothing

Each call accepts some rows: the files of a list, what a pattern finds, or the
regular files of an archive.  Whatever fails along the way, a call either
publishes the shard of all rows it accepted or leaves everything but its
temporary file as it was.

## Main definitions

* `PackCall.Accepts` — the rows a call accepted.

## Main results

* `accepts_of_sees` — what the answers showed is what the files were.
* `pack_atomic` — **packing is all or nothing on the output**, over all runs.
-/

namespace ParquetFileFs

open Program

/-! ### What a call accepts -/

section Accepts

variable (W : ParquetWriter) (expand : Files → Str → Except Str (List (Except (Str × Str) Str)))
  (fs₀ : Files) (out : Str) (opts : PackOptions)

/-- The row of a source: the stored path, and the bytes the source was read as.
They are those it had at the start, unless it is the temporary file. -/
def ReadsSource (es : List FileEvent) (pair : Str × Str) (row : Row) : Prop :=
  row.1 = pair.1 ∧ (⟨.read pair.2, .ok row.2⟩ : FileEvent) ∈ es ∧
    (pair.2 ≠ tmpName out → fs₀.read pair.2 = some row.2)

/-- The rows of pairs of a stored path and a source, in the order of packing. -/
def ReadsPairs (pairs : List (Str × Str)) (rows : List Row) (es : List FileEvent) : Prop :=
  List.Forall₂ (ReadsSource fs₀ out es) (sortPairs pairs) rows

/-- A regular file below the root, and where it is stored. -/
def FileBelow (root p : Str) (pair : Str × Str) : Prop :=
  pair.2 = p ∧ storedPath p root = .ok pair.1 ∧ fs₀.kind p = some .file

/-- What is found for a pattern is a regular file below the root, or was not
seen to be a regular file. -/
def GlobFinds (root : Str) (es : List FileEvent) :
    Except (Str × Str) Str → Option (Str × Str) → Prop
  | .ok p, some pair => FileBelow fs₀ root p pair
  | .ok p, none => ∃ r : Except Str FileSystem.Kind, r ≠ .ok .file ∧
      (⟨.stat p, r⟩ : FileEvent) ∈ es
  | .error _, _ => False

/-- The pattern that is expanded, and the root. -/
def GlobTarget (pattern : Str) (root : Option Str) (pattern' root' : Str) : Prop :=
  (fs₀.kind pattern = some .dir ∧ pattern' = pattern.rdropWhile (· = '/') ++ "/**/*".toList ∧
    root' = root.getD (pattern.rdropWhile (· = '/'))) ∨
  (pattern' = pattern ∧ root' = root.getD (globFixedPrefix pattern))

/-- The format of an archive: the one given, or the one its first bytes show. -/
def FormatOf (archive : Str) (format : Option ArchiveFormat) (fmt : ArchiveFormat) : Prop :=
  format = some fmt ∨ format = none ∧
    ∃ bs, fs₀.read archive = some bs ∧ sniffHead (bs.take 262) archive = .ok fmt

/-- The archive as it was read, and the rows of it.  It was read as it was at the
start, unless it is the temporary file, which by then is the start of a shard. -/
def ReadsArchive (W : ParquetWriter) (fs₀ : Files) (out : Str) (opts : PackOptions)
    (libs : ArchiveLibs) (archive : Str) (fmt : ArchiveFormat) (rows : List Row)
    (es : List FileEvent) : Prop :=
  ∃ bs, (⟨.read archive, .ok bs⟩ : FileEvent) ∈ es ∧
    (archive ≠ tmpName out → fs₀.read archive = some bs) ∧
    (archive = tmpName out → bs = W.start opts.schema opts.compression) ∧
    archiveRows libs fmt bs = some rows

/-- The rows a call accepted, having made the calls `es`. -/
def PackCall.Accepts : PackCall → List Row → List FileEvent → Prop
  | .ofPairs pairs, rows, es => ReadsPairs fs₀ out pairs rows es
  | .ofFiles paths root, rows, es => ∃ pairs, List.Forall₂ (FileBelow fs₀ root) paths pairs ∧
      ReadsPairs fs₀ out pairs rows es
  | .ofGlob pattern root, rows, es => ∃ pattern' root' entries found,
      GlobTarget fs₀ pattern root pattern' root' ∧ expand fs₀ pattern' = .ok entries ∧
      List.Forall₂ (GlobFinds fs₀ root' es) entries found ∧
      ReadsPairs fs₀ out (found.filterMap id) rows es
  | .ofArchive libs archive format, rows, es => rows ≠ [] ∧
      ∃ fmt, FormatOf fs₀ archive format fmt ∧ ReadsArchive W fs₀ out opts libs archive fmt rows es

end Accepts

section Calls

variable {W : ParquetWriter} {out : Str} {opts : PackOptions} {fs fs₀ : Files} {w : PackWriter}
  {rows : List Row} {expand : Files → Str → Except Str (List (Except (Str × Str) Str))}
  {es : List FileEvent}

/-! ### What the answers show -/

theorem readsPairs_of_sees {pairs : List (Str × Str)}
    (h : List.Forall₂ (SeesSource (Told expand fs₀ out) es) (sortPairs pairs) rows) :
    ReadsPairs fs₀ out pairs rows es :=
  h.imp fun _ _ ⟨hrow, _, hmem, htold⟩ => ⟨hrow, hmem, htold.1⟩

theorem fileBelow_of_sees {root p : Str} {pair : Str × Str}
    (h : SeesFile (Told expand fs₀ out) root es p pair) : FileBelow fs₀ root p pair :=
  ⟨h.1, h.2.1, h.2.2.2⟩

theorem globFinds_of_sees {root : Str} {entry : Except (Str × Str) Str}
    {found : Option (Str × Str)} (h : SeesEntry (Told expand fs₀ out) root es entry found) :
    GlobFinds fs₀ root es entry found := by
  match entry, found, h with
  | .ok p, some pair, h => exact fileBelow_of_sees h
  | .ok p, none, ⟨r, hr, hmem, _⟩ => exact ⟨r, hr, hmem⟩

theorem globTarget_of_sees {pattern pattern' root' : Str} {root : Option Str}
    (h : SeesTarget (Told expand fs₀ out) es pattern root pattern' root') :
    GlobTarget fs₀ pattern root pattern' root' := by
  rcases h with ⟨⟨_, hdir⟩, htarget⟩ | ⟨_, htarget⟩
  · exact Or.inl ⟨hdir, htarget⟩
  · exact Or.inr htarget

theorem formatOf_of_sees {archive : Str} {format : Option ArchiveFormat} {fmt : ArchiveFormat}
    (h : SeesFormat (Told expand fs₀ out) es archive format fmt) :
    FormatOf fs₀ archive format fmt := by
  rcases h with hgiven | ⟨hnone, bs, ⟨_, hread⟩, hhead⟩
  · exact Or.inl hgiven
  · exact Or.inr ⟨hnone, bs, hread, hhead⟩

theorem readsArchive_of_sees {libs : ArchiveLibs} {archive : Str} {fmt : ArchiveFormat}
    (h : SeesArchive W opts (Told expand fs₀ out) libs archive fmt rows es) :
    ReadsArchive W fs₀ out opts libs archive fmt rows es := by
  obtain ⟨bs, ⟨hmem, hothers, htmp⟩, hrows⟩ := h
  exact ⟨bs, hmem, hothers, htmp, hrows⟩

/-- **What the answers showed is what the files were.** -/
theorem accepts_of_sees {c : PackCall} (h : c.Sees W opts (Told expand fs₀ out) rows es) :
    c.Accepts W expand fs₀ out opts rows es := by
  match c, h with
  | .ofPairs pairs, h => exact readsPairs_of_sees h
  | .ofFiles paths root, ⟨pairs, hpairs, hrows⟩ =>
    exact ⟨pairs, hpairs.imp fun _ _ h => fileBelow_of_sees h, readsPairs_of_sees hrows⟩
  | .ofGlob pattern root, ⟨pattern', root', entries, found, htarget, ⟨_, hexpand⟩, hfound, hrows⟩ =>
    exact ⟨pattern', root', entries, found, globTarget_of_sees htarget, hexpand.symm,
      hfound.imp fun _ _ h => globFinds_of_sees h, readsPairs_of_sees hrows⟩
  | .ofArchive libs archive format, ⟨hne, fmt, hfmt, hread⟩ =>
    exact ⟨hne, fmt, formatOf_of_sees hfmt, readsArchive_of_sees hread⟩

/-! ### The calls -/

theorem wp_packEntries {libs : ArchiveLibs} {archive : Str} (fmt : ArchiveFormat)
    (hw : PackingRows W fs₀ out opts [] w fs) :
    wp (fsWorld expand) (KeepsOthers out) (packEntries W libs fmt archive w)
      (StepsBy W fs₀ out opts [] (ReadsArchive W fs₀ out opts libs archive fmt)) fs := by
  obtain ⟨h, hw⟩ := (packing_iff expand).mp hw
  exact wp_mono (fun _ _ _ hr => stepsBy_of_stages (fun _ h => readsArchive_of_sees h) hr)
    (Stages.wp_packEntries fmt hw)

/-- **How each call ends, and what each of its steps leaves alone.** -/
theorem wp_program (c : PackCall) :
    wp (fsWorld expand) (KeepsOthers out) (c.program W out opts)
      (Ends W fs₀ out opts (Distinct (c.Accepts W expand fs₀ out opts))) fs₀ := by
  have hwp : wp (fsWorld expand) (KeepsOthers out) (c.program W out opts)
      ((fileStages expand fs₀ out).Ends W opts (c.Sees W opts (Told expand fs₀ out))) fs₀ :=
    Stages.wp_program c rfl
  exact wp_mono (fun _ _ _ hr => ends_of_stages (fun _ h => accepts_of_sees h) hr) hwp

/-- **Packing is all or nothing.**  Until the temporary file is renamed onto the
output, the output is as it was at the start.  If the call fails it still is,
and the temporary file the call created is gone.  If the call succeeds, the
output is the shard of all rows that were accepted, and the temporary file is
gone. -/
theorem pack_atomic (c : PackCall) {p : FileM PackSummary} {es : List FileEvent}
    (hrun : Run (fsWorld expand) fs₀ (c.program W out opts) es fs p) :
    ((∀ e ∈ es, ¬Publishes out e) → fs.read out = fs₀.read out) ∧
    (∀ e, p = .ret (.error e) →
      fs.read out = fs₀.read out ∧ (Creates out es → fs.read (tmpName out) = none)) ∧
    (∀ sum, p = .ret (.ok sum) → ∃ rows, c.Accepts W expand fs₀ out opts rows es ∧
      sum = ⟨rows.length, Grouping.total rowSize rows⟩ ∧
      fs.read out = some (W.fileBytes opts.schema opts.compression
        (flushGroups (max opts.maxRowGroupBytes 1) rows)) ∧
      fs.read (tmpName out) = none) := by
  have hwp : wp (fsWorld expand) (KeepsOthers out) (c.program W out opts)
      (Ends W fs₀ out opts (Distinct (c.Accepts W expand fs₀ out opts))) fs₀ := wp_program c
  refine ⟨fun hno => ?_, fun e hp => ?_, fun sum hp => ?_⟩
  · -- every step before the renaming keeps the output
    have hstep : ∀ (o : FsOp Str UInt8) (s : Files) (r : FsOp.Res Str o) (s' : Files),
        KeepsOthers out o s r s' → ¬Publishes out ⟨o, r⟩ → s.read out = fs₀.read out →
        s'.read out = fs₀.read out := by
      intro o s r s' hkeeps he hs
      rw [hkeeps.2 he, hs]
    exact (chain_of_run hwp hrun).preserves (P := fun s => s.read out = fs₀.read out) hstep hno rfl
  · subst hp
    have hend := wp_sound hwp hrun
    exact ⟨FailedClean.untouched hend out (ne_tmpName out), FailedClean.gone hend⟩
  · subst hp
    obtain ⟨rows, ⟨hrows, -⟩, hsum, hpub⟩ := wp_sound hwp hrun
    exact ⟨rows, hrows, hsum, hpub.output, hpub.dropped⟩

end Calls

/-- A file to pack, and an output that is already there. -/
def sampleFiles : Files :=
  (FileSystem.empty.put "a".toList [1, 2]).put "o".toList [9]

/-- Patterns that find nothing. -/
def expandNothing (_ : Files) (_ : Str) : Except Str (List (Except (Str × Str) Str)) := .ok []

/-- The one row of the file to pack. -/
theorem rows_of_sampleFiles {opts : PackOptions} {rows : List Row} {es : List FileEvent}
    (h : (PackCall.ofFiles ["a".toList] []).Accepts plainWriter expandNothing sampleFiles
      "o".toList opts rows es) : rows = [("a".toList, [1, 2])] := by
  obtain ⟨pairs, hpairs, hrows⟩ := h
  match pairs, hpairs with
  | [(s, p)], .cons ⟨hp, hs, _⟩ .nil =>
    match rows, hrows with
    | [(s', bs)], .cons ⟨hs', _, hbs⟩ .nil =>
      cases hp
      cases hs
      cases hs'
      cases hbs (by decide)
      rfl

theorem pack_atomic_sample :
    ∃ es fs, Run (fsWorld expandNothing) sampleFiles
        ((PackCall.ofFiles ["a".toList] []).program plainWriter "o".toList {}) es fs
        (.ret (.ok ⟨1, 2⟩)) ∧
      fs.read "o".toList = some (plainWriter.fileBytes ⟨"path".toList, "content".toList⟩ .zstd
        [[("a".toList, [1, 2])]]) ∧
      fs.read "o.tmp".toList = none := by
  obtain ⟨es, hrun⟩ := run_exec (fsWorld_fsHandler expandNothing)
    ((PackCall.ofFiles ["a".toList] []).program plainWriter "o".toList {}) sampleFiles
  have hres : (exec (fsHandler expandNothing)
      ((PackCall.ofFiles ["a".toList] []).program plainWriter "o".toList {}) sampleFiles).1
        = .ok ⟨1, 2⟩ := rfl
  rw [hres] at hrun
  obtain ⟨rows, hrows, -, hout, htmp⟩ := (pack_atomic _ hrun).2.2 _ rfl
  cases rows_of_sampleFiles hrows
  exact ⟨es, _, hrun, hout, htmp⟩

end ParquetFileFs
