import ParquetFileFs.Pack.Calls

/-!
# What packing touches

The temporary file next to the output has a fixed name.  A file that already has
this name is emptied and lost as soon as a writer is created, and if it is among
the sources its row does not hold what it held; everything else is as it was.

## Main definitions

* `PackCall.Stores` — every row holds what its source held at the start.
* `PackCall.TouchesOnlyOut` — the output alone changes, and holds the sources.
* `PackCall.ReachesWriter` — some run comes to create its writer.

## Main results

* `touchesOnlyOut_iff` — **a call touches the output only if and only if no file
  has the name of the temporary file, or no run creates a writer.**
-/

namespace ParquetFileFs

open Program

section Frame

variable (W : ParquetWriter) (expand : Files → Str → Except Str (List (Except (Str × Str) Str)))
  (fs₀ : Files) (out : Str) (opts : PackOptions)

/-- The row of a source holds what the source held at the start. -/
def StoresSource (pair : Str × Str) (row : Row) : Prop :=
  row.1 = pair.1 ∧ fs₀.read pair.2 = some row.2

/-- Every row holds what its source, or the archive it is from, held at the start. -/
def PackCall.Stores : PackCall → List Row → Prop
  | .ofPairs pairs, rows => List.Forall₂ (StoresSource fs₀) (sortPairs pairs) rows
  | .ofFiles paths root, rows => ∃ pairs, List.Forall₂ (FileBelow fs₀ root) paths pairs ∧
      List.Forall₂ (StoresSource fs₀) (sortPairs pairs) rows
  | .ofGlob pattern root, rows => ∃ pattern' root' entries pairs,
      GlobTarget fs₀ pattern root pattern' root' ∧ expand fs₀ pattern' = .ok entries ∧
      (∀ pair ∈ pairs, .ok pair.2 ∈ entries ∧ FileBelow fs₀ root' pair.2 pair) ∧
      List.Forall₂ (StoresSource fs₀) (sortPairs pairs) rows
  | .ofArchive libs archive format, rows => ∃ fmt bs, FormatOf fs₀ archive format fmt ∧
      fs₀.read archive = some bs ∧ archiveRows libs fmt bs = some rows

/-- However the call runs and ends, only the output changes; and if it succeeds,
the rows hold what the sources held at the start. -/
def PackCall.TouchesOnlyOut (c : PackCall) : Prop :=
  ∀ es fs r, Run (fsWorld expand) fs₀ (c.program W out opts) es fs (.ret r) →
    (∀ q, q ≠ out → fs.read q = fs₀.read q) ∧
    ∀ sum, r = .ok sum → ∃ rows, c.Stores expand fs₀ rows ∧
      fs.read out = some (W.fileBytes opts.schema opts.compression
        (flushGroups (max opts.maxRowGroupBytes 1) rows))

/-- The sources are such that some run comes to create its writer: the files
given are regular and below the root, a pattern finds one that is, or the format
of the archive is known. -/
def PackCall.ReachesWriter : PackCall → Prop
  | .ofPairs _ => True
  | .ofFiles paths root => paths ≠ [] ∧ ∀ p ∈ paths, ∃ s, FileBelow fs₀ root p (s, p)
  | .ofGlob pattern root => ∃ pattern' root' entries,
      GlobTarget fs₀ pattern root pattern' root' ∧ expand fs₀ pattern' = .ok entries ∧
      (∀ e ∈ entries, ∃ p, e = .ok p) ∧ ∃ p s, .ok p ∈ entries ∧ FileBelow fs₀ root' p (s, p)
  | .ofArchive _ archive format => ∃ fmt, FormatOf fs₀ archive format fmt

/-- The start of a shard is no archive with files in it. -/
def PackCall.StartHasNoFiles : PackCall → Prop
  | .ofArchive libs _ _ => ∀ fmt rows,
      archiveRows libs fmt (W.start opts.schema opts.compression) = some rows → rows = []
  | _ => True

end Frame

section Touches

variable {W : ParquetWriter} {expand : Files → Str → Except Str (List (Except (Str × Str) Str))}
  {fs fs₀ : Files} {out : Str} {opts : PackOptions} {rows : List Row} {es : List FileEvent}

/-! ### Where no file has the name of the temporary file -/

/-- A regular file is not the temporary file, so its row holds what it held. -/
theorem storesSource_of_reads {pairs : List (Str × Str)} (htmp : fs₀.read (tmpName out) = none)
    (hfiles : ∀ pair ∈ pairs, fs₀.kind pair.2 = some .file)
    (h : ReadsPairs fs₀ out pairs rows es) :
    List.Forall₂ (StoresSource fs₀) (sortPairs pairs) rows := by
  have hsorted : ∀ pair ∈ sortPairs pairs, fs₀.kind pair.2 = some .file := fun pair hpair =>
    hfiles pair ((List.perm_insertionSort _ pairs).mem_iff.mp hpair)
  refine ((List.forall₂_and_left _ _).mpr ⟨hsorted, h⟩).imp fun pair row ⟨hfile, hrow⟩ => ?_
  -- there is no temporary file, so no source is that file
  refine ⟨hrow.1, hrow.2.2 fun heq => ?_⟩
  rw [heq] at hfile
  exact FileSystem.kind_eq_file_iff.mp hfile htmp

/-- What a pattern found and was packed is a regular file below the root. -/
theorem fileBelow_of_globFinds {root : Str} {entries : List (Except (Str × Str) Str)}
    {found : List (Option (Str × Str))}
    (h : List.Forall₂ (fun e found => GlobFinds fs₀ root es e found) entries found)
    {pair : Str × Str} (hpair : pair ∈ found.filterMap id) :
    .ok pair.2 ∈ entries ∧ FileBelow fs₀ root pair.2 pair := by
  obtain ⟨o, ho, hid⟩ := List.mem_filterMap.mp hpair
  cases hid
  obtain ⟨e, he, hfinds⟩ := exists_of_forall₂ h ho
  cases e with
  | error pe => cases hfinds
  | ok p =>
    obtain ⟨rfl, hrest⟩ := hfinds
    exact ⟨he, rfl, hrest⟩

theorem stores_of_accepts {c : PackCall} (hc : ∀ pairs, c ≠ .ofPairs pairs)
    (hstart : c.StartHasNoFiles W opts) (htmp : fs₀.read (tmpName out) = none)
    (h : c.Accepts W expand fs₀ out opts rows es) : c.Stores expand fs₀ rows := by
  match c, h with
  | .ofPairs pairs, _ => exact absurd rfl (hc pairs)
  | .ofFiles paths root, ⟨pairs, hpairs, hrows⟩ =>
    refine ⟨pairs, hpairs, storesSource_of_reads htmp (fun pair hmem => ?_) hrows⟩
    obtain ⟨p, -, hp, -, hfile⟩ := exists_of_forall₂ hpairs hmem
    rwa [hp]
  | .ofGlob pattern root, ⟨pattern', root', entries, found, htarget, hexpand, hfound, hrows⟩ =>
    refine ⟨pattern', root', entries, found.filterMap id, htarget, hexpand,
      fun pair hpair => fileBelow_of_globFinds hfound hpair,
      storesSource_of_reads htmp (fun pair hpair => ?_) hrows⟩
    exact (fileBelow_of_globFinds hfound hpair).2.2.2
  | .ofArchive libs archive format, ⟨hne, fmt, hfmt, bs, _, hread, hbegun, hrows⟩ =>
    by_cases heq : archive = tmpName out
    · -- the archive is the temporary file: it was created by the call itself
      rw [hbegun heq] at hrows
      exact absurd (hstart fmt rows hrows) hne
    · exact ⟨fmt, bs, hfmt, hread heq, hrows⟩

/-! ### Where no writer is created -/

/-- The call creates no writer, and so does not succeed. -/
def Stops (out : Str) (r : Outcome PackSummary) (es : List FileEvent) : Prop :=
  ¬Creates out es ∧ ∀ sum, r ≠ .ok sum

/-- Looking at files first: what is found lets the call come to its writer, or
the call stops. -/
theorem wp_lookThen_stops {β : Type} {p : FileM β} {f : β → FileM PackSummary}
    {R : β → List FileEvent → Prop} {N : β → Prop} {M : Prop}
    (hp : wp (fsWorld expand) (KeepsOthers out) p ((fileStages expand fs₀ out).Looks R) fs₀)
    (hf : ∀ b, wp (fsWorld expand) (KeepsOthers out) (f b)
      (fun r es _ => N b ∨ Stops out r es) fs₀)
    (hM : ∀ b es, R b es → N b → M) :
    wp (fsWorld expand) (KeepsOthers out) (p.andThen f)
      (fun r es _ => M ∨ Stops out r es) fs₀ := by
  apply wp_andThen
  refine wp_mono (fun r es fs hr => ?_) hp
  obtain ⟨rfl, hes, hR⟩ := hr
  cases r with
  | error e => exact Or.inr ⟨hes, fun _ h => by cases h⟩
  | ok b =>
    refine wp_mono (fun r' es' fs' hr' => ?_) (hf b)
    rcases hr' with hN | ⟨hes', hr'⟩
    · exact Or.inl (hM b es (hR b rfl) hN)
    · exact Or.inr ⟨not_creates_append hes hes', hr'⟩

/-- Where the call may come to its writer, nothing is to be said of writing. -/
theorem wp_writePairs_of_reaches (pairs : List (Str × Str)) {M : Prop} (hM : M) :
    wp (fsWorld expand) (KeepsOthers out) (writePairs W pairs out opts)
      (fun r es _ => M ∨ Stops out r es) fs₀ :=
  wp_mono (fun _ _ _ _ => Or.inl hM)
    (Stages.wp_writePairs (S := fileStages expand fs₀ out) pairs rfl)

theorem wp_writeEntries_of_reaches (libs : ArchiveLibs) (fmt : ArchiveFormat) (archive : Str)
    {M : Prop} (hM : M) :
    wp (fsWorld expand) (KeepsOthers out) (writeEntries W libs fmt archive out opts)
      (fun r es _ => M ∨ Stops out r es) fs₀ :=
  wp_mono (fun _ _ _ _ => Or.inl hM)
    (Stages.wp_writeEntries (S := fileStages expand fs₀ out) libs fmt archive rfl)

theorem wp_packExpanded_stops {pattern root pattern' : Str} {root' : Option Str}
    (htarget : GlobTarget fs₀ pattern root' pattern' root) :
    wp (fsWorld expand) (KeepsOthers out) (packExpanded W pattern' root out opts)
      (fun r es _ => (PackCall.ofGlob pattern root').ReachesWriter expand fs₀ ∨ Stops out r es)
      fs₀ := by
  apply Stages.wp_lookFirst (S := fileStages expand fs₀ out) (o := .expand pattern') trivial rfl
  intro r fs hfs hexpand hes
  obtain rfl : fs = fs₀ := hfs
  cases r with
  | error e => exact Or.inr ⟨hes, fun _ h => by cases h⟩
  | ok entries =>
    have hreaches : ∀ (found : List (Option (Str × Str))) es,
        List.Forall₂ (SeesEntry (Told expand fs out) root es) entries found →
        found.filterMap id ≠ [] → (PackCall.ofGlob pattern root').ReachesWriter expand fs := by
      intro found es hsees hne
      have hfound : List.Forall₂ (GlobFinds fs root es) entries found :=
        hsees.imp fun _ _ h => globFinds_of_sees h
      refine ⟨pattern', root, entries, htarget, hexpand.symm, fun e he => ?_, ?_⟩
      · obtain ⟨o, -, hfinds⟩ := exists_of_forall₂ hfound.flip he
        cases e with
        | error pe => cases hfinds
        | ok p => exact ⟨p, rfl⟩
      · -- what is packed is a regular file that the pattern gave
        obtain ⟨pair, hpair⟩ := List.exists_mem_of_ne_nil _ hne
        obtain ⟨hmem, hbelow⟩ := fileBelow_of_globFinds hfound hpair
        exact ⟨pair.2, pair.1, hmem, hbelow⟩
    refine wp_mono (fun r es fs hr => ?_)
      (wp_lookThen_stops (Stages.wp_mapEach (R := fun e found es => SeesEntry _ root es e found)
        (fun _ _ _ _ hes h => h.mono (looks_of_subset hes))
        (fun e _ _ hs => Stages.wp_globEntry root e hs) rfl) ?_ hreaches)
    · exact hr.imp id fun h => ⟨not_creates_append hes h.1, h.2⟩
    · intro found
      dsimp only
      split
      · exact Or.inr ⟨not_creates_nil, fun _ h => by cases h⟩
      · next hne => exact wp_writePairs_of_reaches _ hne

theorem wp_packGlob_stops (pattern : Str) (root : Option Str) :
    wp (fsWorld expand) (KeepsOthers out) (packGlob W pattern root out opts)
      (fun r es _ => (PackCall.ofGlob pattern root).ReachesWriter expand fs₀ ∨ Stops out r es)
      fs₀ := by
  apply Stages.wp_lookFirst (S := fileStages expand fs₀ out) (o := .stat pattern) trivial rfl
  intro k fs hfs hkind hes
  obtain rfl : fs = fs₀ := hfs
  have hlast : ∀ (r : Outcome PackSummary) es (fs' : Files),
      (PackCall.ofGlob pattern root).ReachesWriter expand fs ∨ Stops out r es →
      (PackCall.ofGlob pattern root).ReachesWriter expand fs ∨
        Stops out r (⟨.stat pattern, k⟩ :: es) := by
    intro r es fs' hr
    exact hr.imp id fun h => ⟨not_creates_append hes h.1, h.2⟩
  match k, hkind with
  | .ok .dir, hkind => exact wp_mono hlast (wp_packExpanded_stops (Or.inl ⟨hkind, rfl, rfl⟩))
  | .ok .file, _ => exact wp_mono hlast (wp_packExpanded_stops (Or.inr ⟨rfl, rfl⟩))
  | .error e, _ => exact wp_mono hlast (wp_packExpanded_stops (Or.inr ⟨rfl, rfl⟩))

theorem wp_program_stops (c : PackCall) :
    wp (fsWorld expand) (KeepsOthers out) (c.program W out opts)
      (fun r es _ => c.ReachesWriter expand fs₀ ∨ Stops out r es) fs₀ := by
  cases c with
  | ofPairs pairs => exact wp_writePairs_of_reaches pairs trivial
  | ofFiles paths root =>
    unfold PackCall.program packFiles
    dsimp only
    split
    · exact Or.inr ⟨not_creates_nil, fun _ h => by cases h⟩
    · next hne =>
      refine wp_lookThen_stops (N := fun _ => True)
        (Stages.wp_mapEach (R := fun p pair es => SeesFile _ root es p pair)
          (fun _ _ _ _ hes h => h.mono (looks_of_subset hes))
          (fun p _ _ hs => Stages.wp_checkFile root p hs) rfl)
        (fun pairs => wp_writePairs_of_reaches pairs trivial)
        fun pairs es hpairs _ => ⟨hne, fun p hp => ?_⟩
      obtain ⟨pair, -, hsees⟩ := exists_of_forall₂ hpairs.flip hp
      obtain ⟨rfl, hbelow⟩ := fileBelow_of_sees hsees
      exact ⟨pair.1, rfl, hbelow⟩
  | ofGlob pattern root => exact wp_packGlob_stops pattern root
  | ofArchive libs archive format =>
    cases format with
    | some fmt => exact wp_writeEntries_of_reaches libs fmt archive ⟨fmt, Or.inl rfl⟩
    | none =>
      exact wp_lookThen_stops (N := fun _ => True) (Stages.wp_sniffFormat archive rfl)
        (fun fmt => wp_writeEntries_of_reaches libs fmt archive trivial)
        fun fmt es hfmt _ => ⟨fmt, formatOf_of_sees hfmt⟩

/-! ### Where a file has the name of the temporary file -/

/-- Some run from the start comes to create the writer. -/
def SomeRunCreates (expand : Files → Str → Except Str (List (Except (Str × Str) Str)))
    (fs₀ : Files) (out : Str) (p : FileM PackSummary) : Prop :=
  ∃ es fs r, Run (fsWorld expand) fs₀ p es fs (.ret r) ∧ Creates out es

theorem SomeRunCreates.step {o : FsOp Str UInt8} {r : FsOp.Res Str o}
    {k : FsOp.Res Str o → FileM PackSummary} (hW : fsWorld expand o fs₀ r fs₀)
    (h : SomeRunCreates expand fs₀ out (k r)) : SomeRunCreates expand fs₀ out (.call o k) := by
  obtain ⟨es, fs, r', hrun, i, hmem⟩ := h
  exact ⟨_, fs, r', .step hW hrun, i, List.mem_cons_of_mem _ hmem⟩

theorem SomeRunCreates.andThen {β : Type} {p : FileM β} {b : β} {f : β → FileM PackSummary}
    {es : List FileEvent} (hp : Run (fsWorld expand) fs₀ p es fs₀ (.ret (.ok b)))
    (h : SomeRunCreates expand fs₀ out (f b)) : SomeRunCreates expand fs₀ out (p.andThen f) := by
  obtain ⟨es', fs, r, hrun, i, hmem⟩ := h
  exact ⟨_, fs, r, hp.andThen hrun, i, List.mem_append_right es hmem⟩

/-- A file that is there can be created anew, whatever the call then does. -/
theorem someRunCreates_create {f : PackWriter → FileM PackSummary}
    (htmp : fs₀.read (tmpName out) ≠ none) :
    SomeRunCreates expand fs₀ out ((PackWriter.create W out opts).andThen f) := by
  obtain ⟨i, fs, hcreate⟩ := FileSystem.exists_create (FileSystem.isDir_of_read htmp)
  have hW : fsWorld expand (.create (tmpName out)) fs₀ (.ok i) fs := hcreate
  obtain ⟨es, hrun⟩ := run_exec (fsWorld_fsHandler expand) _ fs
  exact ⟨_, _, _, .step hW hrun, i, List.mem_cons_self⟩

/-- Each of the results can be had one after another. -/
theorem run_mapEach {α β : Type} {f : α → FileM β} {R : α → β → Prop} {as : List α}
    (h : ∀ a ∈ as, ∃ es b, Run (fsWorld expand) fs₀ (f a) es fs₀ (.ret (.ok b)) ∧ R a b) :
    ∃ es bs, Run (fsWorld expand) fs₀ (mapEach f as) es fs₀ (.ret (.ok bs)) ∧
      List.Forall₂ R as bs := by
  induction as with
  | nil => exact ⟨[], [], .refl _ _, .nil⟩
  | cons a as ih =>
    obtain ⟨es, b, hrun, hb⟩ := h a List.mem_cons_self
    obtain ⟨es', bs, hrun', hbs⟩ := ih fun x hx => h x (List.mem_cons_of_mem a hx)
    exact ⟨_, b :: bs, hrun.andThen (hrun'.andThen (.refl _ _)), .cons hb hbs⟩

theorem run_globEntry (root p : Str) :
    ∃ es found, Run (fsWorld expand) fs₀ (globEntry root (.ok p)) es fs₀ (.ret (.ok found)) ∧
      ∀ s, FileBelow fs₀ root p (s, p) → found = some (s, p) := by
  by_cases h : ∃ s, FileBelow fs₀ root p (s, p)
  · obtain ⟨s, -, hs, hfile⟩ := h
    have hW : fsWorld expand (.stat p) fs₀ (.ok .file) fs₀ := ⟨hfile, rfl⟩
    have hret : lift ((storedPath p root).map fun s => some (s, p)) = .ok (some (s, p)) := by
      rw [hs]
      rfl
    refine ⟨[⟨.stat p, .ok .file⟩], some (s, p), .step hW ?_, fun s' hs' => ?_⟩
    · dsimp only
      rw [hret]
      exact .refl _ _
    · have heq : s = s' := Except.ok.inj (hs.symm.trans hs'.2.1)
      rw [heq]
  · -- what is not below the root is passed over if asking what it is fails
    have hW : fsWorld expand (.stat p) fs₀ (.error []) fs₀ := rfl
    exact ⟨_, none, .step hW (.refl _ _), fun s hs => absurd ⟨s, hs⟩ h⟩

theorem someRunCreates_packExpanded {root pattern' : Str}
    {entries : List (Except (Str × Str) Str)} (htmp : fs₀.read (tmpName out) ≠ none)
    (hexpand : expand fs₀ pattern' = .ok entries) (hok : ∀ e ∈ entries, ∃ p, e = .ok p)
    (hfile : ∃ p s, .ok p ∈ entries ∧ FileBelow fs₀ root p (s, p)) :
    SomeRunCreates expand fs₀ out (packExpanded W pattern' root out opts) := by
  obtain ⟨p, s, hmem, hbelow⟩ := hfile
  have hW : fsWorld expand (.expand pattern') fs₀ (.ok entries) fs₀ := ⟨hexpand.symm, rfl⟩
  apply SomeRunCreates.step hW
  have heach : ∀ e ∈ entries, ∃ es found,
      Run (fsWorld expand) fs₀ (globEntry root e) es fs₀ (.ret (.ok found)) ∧
        ∀ s, e = .ok p → FileBelow fs₀ root p (s, p) → found = some (s, p) := by
    intro e he
    obtain ⟨q, rfl⟩ := hok e he
    obtain ⟨es, found, hrun, hfound⟩ := run_globEntry root q
    refine ⟨es, found, hrun, fun s hq => ?_⟩
    cases hq
    exact hfound s
  obtain ⟨es, found, hrun, hfound⟩ := run_mapEach heach
  apply SomeRunCreates.andThen hrun
  obtain ⟨o, ho, hpair⟩ := exists_of_forall₂ hfound.flip hmem
  have hne : found.filterMap id ≠ [] := by
    intro hnil
    have hin : (s, p) ∈ found.filterMap id :=
      List.mem_filterMap.mpr ⟨o, ho, hpair s rfl hbelow⟩
    rw [hnil] at hin
    cases hin
  dsimp only
  rw [if_neg hne]
  exact someRunCreates_create htmp

theorem someRunCreates_program {c : PackCall} (h : c.ReachesWriter expand fs₀)
    (htmp : fs₀.read (tmpName out) ≠ none) :
    SomeRunCreates expand fs₀ out (c.program W out opts) := by
  match c, h with
  | .ofPairs pairs, _ => exact someRunCreates_create htmp
  | .ofFiles paths root, ⟨hne, hbelow⟩ =>
    unfold PackCall.program packFiles
    dsimp only
    rw [if_neg hne]
    have heach : ∀ p ∈ paths, ∃ es pair,
        Run (fsWorld expand) fs₀ (checkFile root p) es fs₀ (.ret (.ok pair)) ∧ True := by
      intro p hp
      obtain ⟨s, -, hs, hfile⟩ := hbelow p hp
      have hW : fsWorld expand (.stat p) fs₀ (.ok .file) fs₀ := ⟨hfile, rfl⟩
      have hret : lift ((storedPath p root).map fun s => (s, p)) = .ok (s, p) := by
        rw [hs]
        rfl
      refine ⟨[⟨.stat p, .ok .file⟩], (s, p), .step hW ?_, trivial⟩
      dsimp only
      rw [hret]
      exact .refl _ _
    obtain ⟨es, pairs, hrun, -⟩ := run_mapEach heach
    exact .andThen hrun (someRunCreates_create htmp)
  | .ofGlob pattern root, ⟨pattern', root', entries, htarget, hexpand, hok, hfile⟩ =>
    rcases htarget with ⟨hdir, rfl, rfl⟩ | ⟨rfl, rfl⟩
    · have hW : fsWorld expand (.stat pattern) fs₀ (.ok .dir) fs₀ := ⟨hdir, rfl⟩
      exact .step hW (someRunCreates_packExpanded htmp hexpand hok hfile)
    · have hW : fsWorld expand (.stat pattern') fs₀ (.error []) fs₀ := rfl
      exact .step hW (someRunCreates_packExpanded htmp hexpand hok hfile)
  | .ofArchive libs archive (some fmt'), _ => exact someRunCreates_create htmp
  | .ofArchive libs archive none, ⟨fmt, hfmt⟩ =>
    rcases hfmt with hfmt | ⟨-, bs, hread, hsniff⟩
    · cases hfmt
    · have hW : fsWorld expand (.read archive) fs₀ (.ok bs) fs₀ := ⟨hread, rfl⟩
      have hret : lift (sniffHead (bs.take 262) archive) = .ok fmt := by
        rw [hsniff]
        rfl
      have hrun : Run (fsWorld expand) fs₀ (sniffFormat archive) [⟨.read archive, .ok bs⟩] fs₀
          (.ret (.ok fmt)) := by
        refine .step hW ?_
        change Run _ _ (.ret (lift (sniffHead (bs.take 262) archive))) _ _ _
        rw [hret]
        exact .refl _ _
      exact .andThen hrun (someRunCreates_create htmp)

/-- **A call touches the output only, and stores what the sources held, if and
only if** no file has the name of the temporary file, or no run of the call
comes to create its writer. -/
theorem touchesOnlyOut_iff {c : PackCall} (hc : ∀ pairs, c ≠ .ofPairs pairs)
    (hstart : c.StartHasNoFiles W opts) :
    c.TouchesOnlyOut W expand fs₀ out opts ↔
      fs₀.read (tmpName out) = none ∨ ¬c.ReachesWriter expand fs₀ := by
  constructor
  · intro h
    by_contra hno
    rw [not_or, not_not] at hno
    obtain ⟨htmp, hreaches⟩ := hno
    -- in the run that creates the writer the file is gone at the end
    obtain ⟨es, fs, r, hrun, hcreates⟩ : SomeRunCreates expand fs₀ out (c.program W out opts) :=
      someRunCreates_program hreaches htmp
    have hgone : fs.read (tmpName out) = none := by
      have hend := wp_sound (wp_program c) hrun
      cases r with
      | error e => exact FailedClean.gone hend hcreates
      | ok sum =>
        obtain ⟨rows, -, -, hpub⟩ := hend
        exact hpub.dropped
    have hsame := (h es fs r hrun).1 (tmpName out) (ne_tmpName out).symm
    rw [hgone] at hsame
    exact htmp hsame.symm
  · intro h es fs r hrun
    have hend := wp_sound (wp_program c) hrun
    have hstops := wp_sound (wp_program_stops c) hrun
    rcases h with htmp | hnever
    · cases r with
      | error e =>
        have hend : FailedClean fs₀ out es fs := hend
        refine ⟨fun q hq => ?_, fun _ h => by cases h⟩
        by_cases hcreates : Creates out es
        · by_cases hqt : q = tmpName out
          · rw [hqt, hend.gone hcreates, htmp]
          · exact hend.untouched q hqt
        · exact hend.unchanged hcreates q
      | ok sum =>
        obtain ⟨rows, hrows, -, hpub⟩ := hend
        refine ⟨fun q hq => ?_,
          fun _ _ => ⟨rows, stores_of_accepts hc hstart htmp hrows.1, hpub.output⟩⟩
        by_cases hqt : q = tmpName out
        · rw [hqt, hpub.dropped, htmp]
        · exact hpub.others q hqt hq
    · obtain ⟨hno, hfails⟩ := hstops.resolve_left hnever
      cases r with
      | error e => exact ⟨fun q _ => hend.unchanged hno q, fun _ h => by cases h⟩
      | ok sum => exact absurd rfl (hfails sum)

end Touches

/-! ### A file with the name of the temporary file -/

/-- Libraries that find no archive in what they are given. -/
def noLibs : ArchiveLibs where
  zip _ := .error "invalid Zip archive".toList
  gz _ := ⟨[], some "invalid gzip header".toList⟩
  bz2 _ := ⟨[], some "bz2 header missing".toList⟩
  xz _ := ⟨[], some "format error".toList⟩
  zst _ := .error "unknown frame descriptor".toList
  tar _ := .ok [.error "failed to read entire block".toList]
  sevenZ _ := .error "bad signature".toList
  rar := none

theorem touchesOnlyOut_sample :
    (PackCall.ofFiles ["a".toList] []).TouchesOnlyOut plainWriter expandNothing sampleFiles
        "o".toList {} ∧
      (PackCall.ofArchive noLibs "o.tmp".toList (some .tar)).TouchesOnlyOut plainWriter
        expandNothing sampleFiles "o".toList {} := by
  have hfiles : (PackCall.ofFiles ["a".toList] []).StartHasNoFiles plainWriter {} := trivial
  have hstart : (PackCall.ofArchive noLibs "o.tmp".toList (some .tar)).StartHasNoFiles
      plainWriter {} := by
    intro fmt rows h
    cases fmt <;> cases h
  exact ⟨(touchesOnlyOut_iff (by simp) hfiles).mpr (Or.inl rfl),
    (touchesOnlyOut_iff (by simp) hstart).mpr (Or.inl rfl)⟩

/-- What a run that was cut off may have left behind. -/
def leftoverFiles : Files := sampleFiles.put "o.tmp".toList [7]

/-- A writer that keeps the start of a file in its buffer until there are rows. -/
def bufferedWriter : ParquetWriter where
  start _ _ := []
  write sch c done batch :=
    (if done = [] then plainMagic else []) ++ plainWriter.write sch c done batch
  flush := plainWriter.flush
  close sch c done :=
    (if done = [] then plainMagic else []) ++ plainWriter.close sch c done

/-- The left over file is packed: it is lost, and its row is empty. -/
theorem leftover_lost_sample :
    (∃ fs, exec (fsHandler expandNothing)
        ((PackCall.ofFiles ["o.tmp".toList] []).program bufferedWriter "o".toList {}) leftoverFiles
          = (.ok ⟨1, 0⟩, fs) ∧
      leftoverFiles.read "o.tmp".toList = some [7] ∧ fs.read "o.tmp".toList = none ∧
      fs.read "o".toList = some (bufferedWriter.fileBytes ⟨"path".toList, "content".toList⟩ .zstd
        [[("o.tmp".toList, [])]])) ∧
      ¬(PackCall.ofFiles ["o.tmp".toList] []).TouchesOnlyOut bufferedWriter expandNothing
        leftoverFiles "o".toList {} := by
  refine ⟨⟨_, rfl, rfl, rfl, rfl⟩, fun h => ?_⟩
  obtain ⟨es, hrun⟩ := run_exec (fsWorld_fsHandler expandNothing)
    ((PackCall.ofFiles ["o.tmp".toList] []).program bufferedWriter "o".toList {}) leftoverFiles
  have hsame := (h es _ _ hrun).1 "o.tmp".toList (by decide)
  have hgone : (exec (fsHandler expandNothing)
      ((PackCall.ofFiles ["o.tmp".toList] []).program bufferedWriter "o".toList {})
      leftoverFiles).2.read "o.tmp".toList = none := rfl
  rw [hgone] at hsame
  cases hsame

end ParquetFileFs
