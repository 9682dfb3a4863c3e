import ParquetFileFs.Pack.Isolated

/-!
# Calls after interrupted ones

A call that is interrupted may leave its temporary file behind, and one that has
published leaves its output.  Neither makes a difference to a later call with the same
output that does not look at the two files: it can do exactly what it could have done
if there had been no earlier calls.

## Main definitions

* `Attempts` — calls with one output that are made one after another, each of them
  interrupted anywhere.
* `Overlooks` — a call on the files does not look at the output or the temporary file.
* `Leaves`, `Twin` — what a run leaves of its own files, and two runs that end alike.

## Main results

* `Leftover.of_attempts` — what interrupted calls leave behind.
* `retry_iff` — **after interrupted calls, a call runs as it would have without them.**
-/

namespace ParquetFileFs

open Program FileSystem

/-! ### What is left behind -/

/-- Calls with one output, one after another, each interrupted anywhere. -/
inductive Attempts (W : ParquetWriter)
    (expand : Files → Str → Except Str (List (Except (Str × Str) Str))) (out : Str) (fs₀ : Files) :
    Files → Prop
  | none : Attempts W expand out fs₀ fs₀
  | call {fs₁ fs₂ : Files} {es : List FileEvent} {p : FileM PackSummary} (job : Job) :
      Attempts W expand out fs₀ fs₁ → Run (fsWorld expand) fs₁ (job.program W out) es fs₂ p →
      Attempts W expand out fs₀ fs₂

/-- The other files are as they were, and the temporary file that is opened next is a
new one. -/
structure Leftover (out : Str) (fs₀ fs : Files) : Prop where
  agree : AgreeOff (Mine out) fs₀ fs
  next : fs₀.next ≤ fs.next
  handle : fs₀.next ≤ fs.handle (tmpName out)

section Leftover

variable {W : ParquetWriter} {expand : Files → Str → Except Str (List (Except (Str × Str) Str))}
  {fs₀ fs₁ fs fs' ft : Files} {out : Str} {job : Job} {p p' : FileM PackSummary}
  {es : List FileEvent} {o : FsOp Str UInt8} {r : FsOp.Res Str o} {ph : Phase}
  {Q : Outcome PackSummary → List FileEvent → Phase → Prop}

theorem leftover_start (htmp : fs₀.read (tmpName out) = none) : Leftover out fs₀ fs₀ := by
  have hnames : fs₀.names (tmpName out) = none := Option.map_eq_none_iff.mp htmp
  refine ⟨.refl, le_rfl, ?_⟩
  rw [FileSystem.handle, hnames]
  exact le_rfl

/-- **What one step leaves behind.** -/
theorem Leftover.step (h : Leftover out fs₀ fs) (hfile : HasFile out ph fs)
    (hallows : ph.Allows out o) (hW : fsWorld expand o fs r fs') : Leftover out fs₀ fs' := by
  have hnext : fs₀.next ≤ fs'.next := h.next.trans (next_le_of_fsWorld hW)
  refine ⟨h.agree.trans (agreeOff_of_fsWorld hW fun q => mine_of_changes hallows hfile), hnext, ?_⟩
  -- a temporary file that is there is the one that was there, or was opened in its place
  have hkept : fs'.names (tmpName out) = fs.names (tmpName out) →
      fs₀.next ≤ fs'.handle (tmpName out) := by
    intro hnames
    have hhandle := h.handle
    rw [FileSystem.handle] at hhandle ⊢
    rw [hnames]
    cases hi : fs.names (tmpName out) with
    | none => exact hnext
    | some i =>
      rw [hi] at hhandle
      exact hhandle
  have hgone : fs'.names (tmpName out) = none → fs₀.next ≤ fs'.handle (tmpName out) := by
    intro hnames
    rw [FileSystem.handle, hnames]
    exact hnext
  rcases Phase.allows_cases hallows with ⟨rfl, rfl⟩ | ⟨i, bs, new, rfl, rfl⟩ | ⟨i, bs, rfl, rfl⟩ |
    ⟨i, -, rfl⟩ | ⟨-, rfl⟩ | hlook
  · cases r with
    | ok i =>
      rw [FileSystem.handle, names_create hW, Function.update_self, Option.getD_some,
        handle_of_create hW]
      exact h.handle
    | error e => exact hkept (by rw [show fs' = fs from hW])
  · cases r with
    | ok u => exact hkept (by rw [show fs' = fs.append i new from hW, names_append])
    | error e =>
      obtain ⟨new', -, rfl⟩ := hW
      exact hkept rfl
  · cases r with
    | ok u =>
      refine hgone ?_
      rw [names_rename hW, if_neg (ne_tmpName out).symm, if_pos rfl]
    | error e => exact hkept (by rw [show fs' = fs from hW])
  · obtain ⟨rest, rfl⟩ := hW
    exact hkept rfl
  · refine hgone ?_
    rw [show fs' = fs.remove (tmpName out) from hW]
    exact Function.update_self ..
  · exact hkept (by rw [fsWorld_look hlook hW])

/-- **What an interrupted call leaves behind.** -/
theorem Leftover.of_run (hwp : wp (answers (Phase.next out)) (fun o ph _ _ => ph.Allows out o) p Q
    ph) (hrun : Run (fsWorld expand) fs p es fs' p') (h : Leftover out fs₀ fs)
    (hfile : HasFile out ph fs) : Leftover out fs₀ fs' := by
  induction hrun generalizing ph Q with
  | refl fs p => exact h
  | step hW _ ih =>
    obtain ⟨hallows, hrest⟩ := hwp _ _ rfl
    exact ih hrest (h.step hfile hallows hW) (hfile.step hallows hW)

theorem hasFile_idle : HasFile out .idle fs := fun _ hno => absurd hno Phase.not_opens_idle

theorem Leftover.of_attempts (htmp : fs₀.read (tmpName out) = none)
    (h : Attempts W expand out fs₀ fs) : Leftover out fs₀ fs := by
  induction h with
  | none => exact leftover_start htmp
  | call job _ hrun ih => exact ih.of_run (wp_phase job) hrun hasFile_idle

/-! ### Running again -/

/-- The call does not look at the output or the temporary file. -/
def Overlooks (expand : Files → Str → Except Str (List (Except (Str × Str) Str))) (out : Str)
    (o : FsOp Str UInt8) : Prop :=
  IsLook o → ∀ fs, o.Avoids (Mine out) expand fs

/-- The names that an earlier call may still show at. -/
def Phase.Left (out : Str) : Phase → Str → Prop
  | .idle => Mine out
  | .writing _ _ => (· = out)
  | .failed _ => (· = out)
  | .closed => (· = out)
  | .published _ => fun _ => False
  | .dropped none => (· = out)
  | .dropped (some _) => fun _ => False

theorem Phase.mine_of_left {q : Str} (h : ph.Left out q) : Mine out q := by
  cases ph with
  | idle => exact h
  | writing h' bs => exact Or.inl h
  | failed h' => exact Or.inl h
  | closed => exact Or.inl h
  | published bs => exact absurd h id
  | dropped o? =>
    cases o? with
    | none => exact Or.inl h
    | some bs => exact absurd h id

theorem Phase.tmpName_not_left (hph : ph ≠ .idle) : ¬ph.Left out (tmpName out) := by
  intro hleft
  cases ph with
  | idle => exact hph rfl
  | published bs => exact hleft
  | dropped o? =>
    cases o? with
    | none => exact ne_tmpName out hleft.symm
    | some bs => exact hleft
  | _ => exact ne_tmpName out hleft.symm

/-- What a step sets is no longer left. -/
theorem Phase.left_next (hallows : ph.Allows out o) {q : Str} (hq : ph.Left out q)
    (hsets : ¬o.Sets r q) : (ph.next out ⟨o, r⟩).Left out q := by
  rcases Phase.allows_cases hallows with ⟨rfl, rfl⟩ | ⟨i, bs, new, rfl, rfl⟩ | ⟨i, bs, rfl, rfl⟩ |
    ⟨i, hopens, rfl⟩ | ⟨hclosed, rfl⟩ | hlook
  · cases r with
    | ok i =>
      have hnext : Phase.next out .idle ⟨.create (tmpName out), .ok i⟩ = .writing i [] := if_pos rfl
      rw [hnext]
      exact hq.resolve_right hsets
    | error e => exact hq
  · cases r <;> exact hq
  · cases r with
    | ok u => exact absurd hq hsets
    | error e => exact hq
  · rw [Phase.next_close hopens]
    rcases hopens with ⟨bs, rfl⟩ | rfl <;> exact hq
  · rcases hclosed with rfl | ⟨bs, rfl⟩ <;> exact hq
  · rw [Phase.next_look hlook]
    exact hq

/-- A call asks for what is not left. -/
theorem avoids_left (hallows : ph.Allows out o) (hlook : Overlooks expand out o) (fs : Files) :
    o.Avoids (ph.Left out) expand fs := by
  rcases Phase.allows_cases hallows with ⟨rfl, rfl⟩ | ⟨i, bs, new, rfl, rfl⟩ | ⟨i, bs, rfl, rfl⟩ |
    ⟨i, -, rfl⟩ | ⟨-, rfl⟩ | ho
  · trivial
  · trivial
  · exact (ne_tmpName out).symm
  · trivial
  · trivial
  · have havoids := hlook ho fs
    cases o with
    | read p => exact fun hp => havoids (Phase.mine_of_left hp)
    | stat p => exact fun hp => havoids (Phase.mine_of_left hp)
    | poll => trivial
    | alloc n => trivial
    | expand pattern =>
      exact fun ft hagree => havoids ft (hagree.mono fun q => Phase.mine_of_left)
    | _ => exact absurd ho id

/-- **A run has a twin** from files that agree with it but for what is left. -/
theorem exists_twin
    (hwp : wp (answers (Phase.next out)) (fun o ph _ _ => ph.Allows out o) p Q ph)
    (hrun : Run (fsWorld expand) fs p es fs' p') (hlook : ∀ e ∈ es, Overlooks expand out e.1)
    (hagree : AgreeOff (ph.Left out) fs ft)
    (hhandle : ph = .idle → ft.handle (tmpName out) = fs.handle (tmpName out)) :
    ∃ ft', Run (fsWorld expand) ft p es ft' p' ∧
      AgreeOff ((es.foldl (Phase.next out) ph).Left out) fs' ft' := by
  induction hrun generalizing ph Q ft with
  | refl fs p => exact ⟨ft, .refl _ _, hagree⟩
  | @step o k fs fs₁ fs' r es p' hW _ ih =>
    obtain ⟨hallows, hrest⟩ := hwp r _ rfl
    obtain ⟨hfirst, hlater⟩ := List.forall_mem_cons.mp hlook
    have hcreate : ∀ p h, (⟨o, r⟩ : FileEvent) = ⟨.create p, .ok h⟩ →
        ft.handle p = fs.handle p := by
      intro p h heq
      obtain rfl : o = .create p := congrArg Sigma.fst heq
      obtain ⟨hph, rfl⟩ := Phase.idle_of_create hallows
      exact hhandle hph
    obtain ⟨ft₁, hW', hagree'⟩ := hagree.answers hW (avoids_left hallows hfirst fs) hcreate
    have hleft : AgreeOff ((ph.next out ⟨o, r⟩).Left out) fs₁ ft₁ :=
      hagree'.mono fun q hq => Phase.left_next hallows hq.1 hq.2
    obtain ⟨ft', hrun', hend⟩ := ih hrest hlater hleft fun hidle => by
      obtain ⟨hph, hquiet | ⟨e, he⟩⟩ := Phase.idle_of_next hallows hidle
      · rw [fsWorld_look hquiet hW, fsWorld_look hquiet hW']
        exact hhandle hph
      · cases he
        rw [show fs₁ = fs from hW, show ft₁ = ft from hW']
        exact hhandle hph
    exact ⟨ft', .step hW' hrun', hend⟩

/-- Until it creates its temporary file, a call changes nothing. -/
theorem eq_of_idle
    (hwp : wp (answers (Phase.next out)) (fun o ph _ _ => ph.Allows out o) p Q ph)
    (hrun : Run (fsWorld expand) fs p es fs' p') (hidle : es.foldl (Phase.next out) ph = .idle) :
    ph = .idle ∧ fs' = fs ∧ ¬Creates out es := by
  induction hrun generalizing ph Q with
  | refl fs p => exact ⟨hidle, rfl, not_creates_nil⟩
  | @step o k fs fs₁ fs' r es p' hW _ ih =>
    obtain ⟨hallows, hrest⟩ := hwp _ _ rfl
    obtain ⟨hnext, rfl, hno⟩ := ih hrest hidle
    obtain ⟨hph, hquiet | ⟨e, he⟩⟩ := Phase.idle_of_next hallows hnext
    · have hfirst : ¬Creates out [⟨o, r⟩] := by
        rintro ⟨i, hmem⟩
        obtain rfl : o = .create (tmpName out) :=
          congrArg Sigma.fst (List.mem_singleton.mp hmem).symm
        exact hquiet
      exact ⟨hph, fsWorld_look hquiet hW, not_creates_append hfirst hno⟩
    · cases he
      have hfirst : ¬Creates out [⟨.create (tmpName out), .error e⟩] := by
        rintro ⟨i, hmem⟩
        cases List.mem_singleton.mp hmem
      exact ⟨hph, hW, not_creates_append hfirst hno⟩

/-- What a run of a call leaves of its own files. -/
structure Leaves (out : Str) (es : List FileEvent) (p : FileM PackSummary) (fs₀ fs : Files) :
    Prop where
  /-- Until it creates its temporary file, it changes nothing. -/
  idle : ¬Creates out es → ∀ q, fs.read q = fs₀.read q
  /-- If it fails, the output is as it was, and the temporary file it created is gone. -/
  failed : ∀ e, p = .ret (.error e) →
    fs.read out = fs₀.read out ∧ (Creates out es → fs.read (tmpName out) = none)

/-- Two runs with the same answers, from files `fs₁` to `fs` and from `ft₁` to `ft`, leave
the same behind. -/
structure Twin (out : Str) (es : List FileEvent) (p : FileM PackSummary) (fs₁ fs ft₁ ft : Files) :
    Prop where
  others : ∀ q, ¬Mine out q → fs.read q = ft.read q
  /-- Once it is created, the temporary file is the same. -/
  temp : Creates out es → fs.read (tmpName out) = ft.read (tmpName out)
  /-- If they succeed, all files are the same. -/
  ok : ∀ sum, p = .ret (.ok sum) → ∀ q, fs.read q = ft.read q
  left : Leaves out es p fs₁ fs
  left' : Leaves out es p ft₁ ft

theorem leaves_of_run (hrun : Run (fsWorld expand) fs (job.program W out) es fs' p) :
    Leaves out es p fs fs' := by
  constructor
  · intro hno q
    have hidle : phaseOf out es = .idle := by
      by_contra hph
      exact hno (creates_of_phaseOf hph)
    rw [(eq_of_idle (wp_phase job) hrun hidle).2.1]
  · rintro e rfl
    have hend := wp_sound (wp_program job.call) hrun
    exact ⟨FailedClean.untouched hend out (ne_tmpName out), FailedClean.gone hend⟩

theorem Twin.symm {ft₁ : Files} (h : Twin out es p fs₁ fs ft₁ ft) :
    Twin out es p ft₁ ft fs₁ fs where
  others q hq := (h.others q hq).symm
  temp hc := (h.temp hc).symm
  ok sum hp q := (h.ok sum hp q).symm
  left := h.left'
  left' := h.left

/-- A run in one world, seen where only its answers are kept. -/
theorem run_answers (hrun : Run (fsWorld expand) fs p es fs' p') (ph : Phase) :
    Run (answers (Phase.next out)) ph p es (es.foldl (Phase.next out) ph) p' := by
  induction hrun generalizing ph with
  | refl fs p => exact .refl _ _
  | step hW _ ih => exact .step rfl (ih _)

theorem twin_of_run (hrun : Run (fsWorld expand) fs (job.program W out) es fs' p)
    (hlook : ∀ e ∈ es, Overlooks expand out e.1) (hagree : AgreeOff (Mine out) fs ft)
    (hhandle : ft.handle (tmpName out) = fs.handle (tmpName out)) :
    ∃ ft', Run (fsWorld expand) ft (job.program W out) es ft' p ∧ Twin out es p fs fs' ft ft' := by
  obtain ⟨ft', hrun', hend⟩ := exists_twin (wp_phase job) hrun hlook hagree fun _ => hhandle
  refine ⟨ft', hrun', fun q hq => (hend.read fun hq' => hq (Phase.mine_of_left hq')).symm,
    fun hc => (hend.read fun hleft => ?_).symm, ?_, leaves_of_run hrun, leaves_of_run hrun'⟩
  · -- what is left once the file is created is the output at most
    refine Phase.tmpName_not_left (fun hidle => ?_) hleft
    exact (eq_of_idle (wp_phase job) hrun hidle).2.2 hc
  · rintro sum rfl q
    -- a call that has succeeded has published, so nothing is left
    obtain ⟨rows, -, hph⟩ := (wp_sound (wp_phase job) (run_answers hrun .idle)).eq_of_ok
    rw [hph] at hend
    exact (hend.read id).symm

/-- **After interrupted calls, a call runs as it would have without them.**  Each run of
it has a twin from the files before the interrupted calls, with the same answers and the
same end, and each run from those has a twin from the files after them. -/
theorem retry_iff (htmp : fs₀.read (tmpName out) = none)
    (hattempts : Attempts W expand out fs₀ fs₁) :
    ∃ fs₂, (∀ q, fs₂.read q = fs₀.read q) ∧ (∀ q, fs₂.kind q = fs₀.kind q) ∧
      ∀ (job : Job) es p, (∀ e ∈ es, Overlooks expand out e.1) →
        (∀ fs, Run (fsWorld expand) fs₁ (job.program W out) es fs p →
          ∃ ft, Run (fsWorld expand) fs₂ (job.program W out) es ft p ∧
            Twin out es p fs₁ fs fs₂ ft) ∧
        ∀ ft, Run (fsWorld expand) fs₂ (job.program W out) es ft p →
          ∃ fs, Run (fsWorld expand) fs₁ (job.program W out) es fs p ∧
            Twin out es p fs₁ fs fs₂ ft := by
  have hleft := Leftover.of_attempts htmp hattempts
  -- the run without them gets the handle that the one after them gets
  have hagree : AgreeOff (Mine out) fs₁ (fs₀.skip (fs₁.handle (tmpName out))) :=
    hleft.agree.symm.trans (agreeOff_skip _)
  have hhandle : (fs₀.skip (fs₁.handle (tmpName out))).handle (tmpName out)
      = fs₁.handle (tmpName out) := by
    have hnames : fs₀.names (tmpName out) = none := Option.map_eq_none_iff.mp htmp
    show ((fs₀.names (tmpName out)).getD (max fs₀.next (fs₁.handle (tmpName out)))) = _
    rw [hnames, Option.getD_none, Nat.max_eq_right hleft.handle]
  refine ⟨fs₀.skip (fs₁.handle (tmpName out)), fun _ => rfl, fun _ => rfl, fun job es p hlook =>
    ⟨fun fs hrun => twin_of_run hrun hlook hagree hhandle, fun ft hrun => ?_⟩⟩
  obtain ⟨fs, hrun', htwin⟩ := twin_of_run hrun hlook hagree.symm hhandle.symm
  exact ⟨fs, hrun', htwin.symm⟩

end Leftover

/-- A call looks at neither file, and expands no pattern. -/
def overlooks (out : Str) : FsOp Str UInt8 → Bool
  | .read p => p ≠ out ∧ p ≠ tmpName out
  | .stat p => p ≠ out ∧ p ≠ tmpName out
  | .expand _ => false
  | _ => true

theorem overlooks_sound {expand : Files → Str → Except Str (List (Except (Str × Str) Str))}
    {out : Str} {o : FsOp Str UInt8} (h : overlooks out o = true) : Overlooks expand out o := by
  intro hlook fs
  cases o with
  | read p =>
    obtain ⟨hout, htmp⟩ := of_decide_eq_true h
    exact fun hp => hp.elim hout htmp
  | stat p =>
    obtain ⟨hout, htmp⟩ := of_decide_eq_true h
    exact fun hp => hp.elim hout htmp
  | poll => trivial
  | alloc n => trivial
  | expand pattern => cases h
  | _ => exact absurd hlook id

/-- The files after a call that was interrupted when it had created its temporary file. -/
def interruptedFiles : Files :=
  match sampleFiles.create "o.tmp".toList with
  | some (_, fs) => fs
  | none => sampleFiles

theorem attempts_interruptedFiles :
    Attempts plainWriter expandNothing "o".toList sampleFiles interruptedFiles := by
  have hstat : fsWorld expandNothing (.stat "a".toList) sampleFiles
      (.ok .file : Except Str FileSystem.Kind) sampleFiles := ⟨rfl, rfl⟩
  have hcreate : fsWorld expandNothing (.create "o.tmp".toList) sampleFiles
      (.ok 2 : Except Str ℕ) interruptedFiles := rfl
  have hrun : Run (fsWorld expandNothing) sampleFiles (sampleJob.program plainWriter "o".toList)
      _ interruptedFiles _ := .step hstat (.step hcreate (.refl _ _))
  exact .call sampleJob .none hrun

/-- Repeated, the call succeeds as it would have at first. -/
theorem retry_iff_sample : ∃ fs₂ es fs ft,
    (∀ q, fs₂.read q = sampleFiles.read q) ∧
    Run (fsWorld expandNothing) interruptedFiles (sampleJob.program plainWriter "o".toList) es fs
      (.ret (.ok ⟨1, 2⟩)) ∧
    Run (fsWorld expandNothing) fs₂ (sampleJob.program plainWriter "o".toList) es ft
      (.ret (.ok ⟨1, 2⟩)) ∧
    ∀ q, fs.read q = ft.read q := by
  obtain ⟨fs₂, hread, -, hretry⟩ := retry_iff (by decide) attempts_interruptedFiles
  have hrun := run_trace (fsWorld_fsHandler expandNothing)
    (sampleJob.program plainWriter "o".toList) interruptedFiles
  have hres : (exec (fsHandler expandNothing) (sampleJob.program plainWriter "o".toList)
      interruptedFiles).1 = .ok ⟨1, 2⟩ := rfl
  have hlook : ∀ e ∈ trace (fsHandler expandNothing) (sampleJob.program plainWriter "o".toList)
      interruptedFiles, overlooks "o".toList e.1 = true := List.all_eq_true.mp (by decide)
  rw [hres] at hrun
  obtain ⟨ft, hrun', htwin⟩ := (hretry sampleJob _ _ fun e he =>
    overlooks_sound (hlook e he)).1 _ hrun
  exact ⟨fs₂, _, _, ft, hread, hrun, hrun', htwin.ok _ rfl⟩

end ParquetFileFs
