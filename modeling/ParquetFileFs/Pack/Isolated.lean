import ParquetFileFs.Lib.Footprint
import ParquetFileFs.Pack.Concurrent

/-!
# Calls with different outputs

Calls whose outputs and temporary files are all different do not notice each other,
in whichever order they make their steps: what each of them does is what it could
have done alone, from the files as they were before any of them began.

## Main definitions

* `Apart` — no call has an output or a temporary file of another one.
* `LooksAway` — a call does not look at what is another one's.
* `RunsAlone` — a run of the call alone that makes the same calls.

## Main results

* `runs_alone` — **in every interleaving, each call runs as if it were alone.**
* `isolated_calls` — **each call is all or nothing on its own output**, whatever the
  others do.
-/

namespace ParquetFileFs

open Program FileSystem

variable {ι : Type}

/-- The names of a call are its output and its temporary file. -/
def Mine (out p : Str) : Prop := p = out ∨ p = tmpName out

/-- The name is another call's. -/
def Foreign (outs : ι → Str) (i : ι) (p : Str) : Prop := ∃ j, j ≠ i ∧ Mine (outs j) p

/-- No two calls share a name. -/
def Apart (outs : ι → Str) : Prop := ∀ i j, i ≠ j → ∀ p, Mine (outs i) p → ¬Mine (outs j) p

/-- The next step of `i` has nothing to do with what is another call's. -/
def LooksAway (expand : Files → Str → Except Str (List (Except (Str × Str) Str)))
    (outs : ι → Str) (i : ι) (s : Calls ι) : Prop :=
  ∀ o k, (s.party i).todo = .call o k → IsLook o → o.Avoids (Foreign outs i) expand s.state

/-- A run of the call alone, from `fs₁`, that makes the same calls and ends with the
same files but for what is another call's. -/
def RunsAlone (W : ParquetWriter)
    (expand : Files → Str → Except Str (List (Except (Str × Str) Str))) (outs : ι → Str)
    (jobs : ι → Job) (i : ι) (s : Calls ι) (fs₁ : Files) : Prop :=
  ∃ fs, Run (fsWorld expand) fs₁ ((jobs i).program W (outs i)) (s.party i).events fs
      (s.party i).todo ∧
    AgreeOff (Foreign outs i) s.state fs ∧
    (phaseOf (outs i) (s.party i).events = .idle → fs = fs₁)

section Isolated

variable {W : ParquetWriter} {expand : Files → Str → Except Str (List (Except (Str × Str) Str))}
  {fs₀ fs fs' fs₁ : Files} {outs : ι → Str} {jobs : ι → Job} {s s' : Calls ι} {i j : ι} {out : Str}
  {o : FsOp Str UInt8} {r : FsOp.Res Str o} {k : FsOp.Res Str o → FileM PackSummary}
  {ph : Phase} {h : ℕ} {bs : Bytes}

theorem Apart.not_foreign (hapart : Apart outs) {p : Str} (hp : Mine (outs i) p) :
    ¬Foreign outs i p := by
  rintro ⟨j, hji, hj⟩
  exact hapart j i hji p hj hp

/-! ### One step -/

/-- What a call has open is its temporary file. -/
def HasFile (out : Str) (ph : Phase) (fs : Files) : Prop :=
  ∀ h, ph.Opens h → fs.names (tmpName out) = some h

/-- A call changes its own files only. -/
theorem mine_of_changes (hallows : ph.Allows out o) (hfile : HasFile out ph fs) {p : Str}
    (hp : o.Changes fs p) : Mine out p := by
  rcases Phase.allows_cases hallows with ⟨rfl, rfl⟩ | ⟨h, bs, new, rfl, rfl⟩ | ⟨h, bs, rfl, rfl⟩ |
    ⟨h, hopens, rfl⟩ | ⟨-, rfl⟩ | hlook
  · exact Or.inr hp
  · exact Or.inr (fs.names_inj hp (hfile h (Or.inl ⟨bs, rfl⟩)))
  · exact hp.symm
  · exact Or.inr (fs.names_inj hp (hfile h hopens))
  · exact Or.inr hp
  · cases o <;> first | exact absurd hp id | exact absurd hlook id

/-- A call asks for its own files, or looks at others. -/
theorem avoids_of_allows (hapart : Apart outs) (hallows : ph.Allows (outs i) o)
    (hlook : IsLook o → o.Avoids (Foreign outs i) expand fs) :
    o.Avoids (Foreign outs i) expand fs := by
  have htmp : ¬Foreign outs i (tmpName (outs i)) := hapart.not_foreign (Or.inr rfl)
  rcases Phase.allows_cases hallows with ⟨rfl, rfl⟩ | ⟨h, bs, new, rfl, rfl⟩ | ⟨h, bs, rfl, rfl⟩ |
    ⟨h, -, rfl⟩ | ⟨-, rfl⟩ | ho
  · trivial
  · trivial
  · exact htmp
  · trivial
  · trivial
  · exact hlook ho

/-- What a call has open after its step is its temporary file. -/
theorem HasFile.step (hfile : HasFile out ph fs) (hallows : ph.Allows out o)
    (hW : fsWorld expand o fs r fs') : HasFile out (ph.next out ⟨o, r⟩) fs' := by
  intro h hph
  rcases Phase.allows_cases hallows with ⟨rfl, rfl⟩ | ⟨h', bs', new, rfl, rfl⟩ |
    ⟨h', bs', rfl, rfl⟩ | ⟨h', hopens, rfl⟩ | ⟨hclosed, rfl⟩ | hlook
  · cases r with
    | ok i =>
      have hnext : Phase.next out .idle ⟨.create (tmpName out), .ok i⟩ = .writing i [] := if_pos rfl
      rw [hnext] at hph
      rw [Phase.opens_writing.mp hph, names_create hW, Function.update_self]
    | error e => exact absurd hph Phase.not_opens_idle
  · have hnames := hfile h' (Or.inl ⟨bs', rfl⟩)
    cases r with
    | ok u =>
      rw [Phase.opens_writing.mp hph, show fs' = fs.append h' new from hW]
      exact hnames
    | error e =>
      obtain ⟨new', -, rfl⟩ := hW
      rw [Phase.opens_failed.mp hph]
      exact hnames
  · cases r with
    | ok u => exact absurd hph Phase.not_opens_published
    | error e => exact absurd hph Phase.not_opens_closed
  · rw [Phase.next_close hopens] at hph
    exact absurd hph Phase.not_opens_closed
  · rcases hclosed with rfl | ⟨bs, rfl⟩ <;> exact absurd hph Phase.not_opens_dropped
  · rw [Phase.next_look hlook] at hph
    rw [fsWorld_look hlook hW]
    exact hfile h hph

/-- A step of another call is not noticed. -/
theorem HasFile.of_agree (hfile : HasFile out ph fs) {D : Str → Prop} (h : AgreeOff D fs fs')
    (hD : ¬D (tmpName out)) : HasFile out ph fs' :=
  fun i hph => (h.names _ hD).trans (hfile i hph)

/-- What the steps preserve. -/
structure Separate (W : ParquetWriter)
    (expand : Files → Str → Except Str (List (Except (Str × Str) Str))) (fs₀ : Files)
    (outs : ι → Str) (jobs : ι → Job) (s : Calls ι) : Prop where
  /-- What a call has open is its temporary file. -/
  file : ∀ i, HasFile (outs i) (phaseOf (outs i) (s.party i).events) s.state
  /-- What is no call's is as it was. -/
  others : AgreeOff (fun p => ∃ i, Mine (outs i) p) fs₀ s.state
  next : fs₀.next ≤ s.state.next
  /-- Each call runs as if it were alone, with one handle for its file. -/
  alone : ∀ i, ∃ n, RunsAlone W expand outs jobs i s (fs₀.skip n)
  /-- The handle is not settled before it creates its file. -/
  idle : ∀ i, phaseOf (outs i) (s.party i).events = .idle →
    ∀ n, RunsAlone W expand outs jobs i s (fs₀.skip n)

/-- Only what changes nothing leaves a call idle. -/
theorem Phase.idle_of_next (hallows : ph.Allows out o) (hph : ph.next out ⟨o, r⟩ = .idle) :
    ph = .idle ∧ (IsLook o ∨ ∃ e, (⟨o, r⟩ : FileEvent) = ⟨.create (tmpName out), .error e⟩) := by
  rcases Phase.allows_cases hallows with ⟨rfl, rfl⟩ | ⟨h, bs, new, rfl, rfl⟩ | ⟨h, bs, rfl, rfl⟩ |
    ⟨h, hopens, rfl⟩ | ⟨hclosed, rfl⟩ | hlook
  · cases r with
    | ok i =>
      have hnext : Phase.writing i [] = .idle := (if_pos rfl).symm.trans hph
      cases hnext
    | error e => exact ⟨rfl, Or.inr ⟨e, rfl⟩⟩
  · cases r <;> cases hph
  · cases r <;> cases hph
  · rw [Phase.next_close hopens] at hph
    cases hph
  · rcases hclosed with rfl | ⟨bs, rfl⟩ <;> cases hph
  · exact ⟨(Phase.next_look hlook).symm.trans hph, Or.inl hlook⟩

/-- A call that is idle creates its temporary file. -/
theorem Phase.idle_of_create {p : Str} (hallows : ph.Allows out (.create p)) :
    ph = .idle ∧ p = tmpName out := by
  cases ph <;> first | exact ⟨rfl, hallows⟩ | exact absurd hallows id

/-- A step of the call is a step of the run alone. -/
theorem RunsAlone.step (hruns : RunsAlone W expand outs jobs i s fs₁) (hapart : Apart outs)
    (hallows : (phaseOf (outs i) (s.party i).events).Allows (outs i) o)
    (hcond : LooksAway expand outs i s) (htodo : (s.party i).todo = .call o k)
    (hW : fsWorld expand o s.state r s'.state)
    (hself : s'.party i = (s.party i).after (k r) s.state ⟨o, r⟩ s'.state)
    (hnext : ∀ p h, (⟨o, r⟩ : FileEvent) = ⟨.create p, .ok h⟩ → fs₁.next = s.state.next) :
    RunsAlone W expand outs jobs i s' fs₁ := by
  obtain ⟨ft, hrun, hagree, hidle⟩ := hruns
  have hhandle : ∀ p h, (⟨o, r⟩ : FileEvent) = ⟨.create p, .ok h⟩ →
      ft.handle p = s.state.handle p := by
    intro p h hcreate
    obtain rfl : o = .create p := congrArg Sigma.fst hcreate
    obtain ⟨hph, rfl⟩ := Phase.idle_of_create hallows
    rw [handle, handle, hagree.names _ (hapart.not_foreign (Or.inr rfl)), hidle hph,
      hnext _ h hcreate]
  obtain ⟨ft', hW', hagree'⟩ := hagree.answers hW
    (avoids_of_allows hapart hallows (hcond o k htodo)) hhandle
  refine ⟨ft', ?_, hagree'.mono fun p hp => hp.1, fun hph => ?_⟩
  · rw [hself, Party.events_after]
    rw [htodo] at hrun
    exact hrun.snoc hW'
  · rw [hself, Party.events_after, phaseOf_append] at hph
    obtain ⟨hbefore, hlook | ⟨e, hcreate⟩⟩ := Phase.idle_of_next hallows hph
    · rw [fsWorld_look hlook hW', hidle hbefore]
    · cases hcreate
      exact (show ft' = ft from hW').trans (hidle hbefore)

/-- A step of another call is none of the run alone. -/
theorem RunsAlone.of_other (hruns : RunsAlone W expand outs jobs j s fs₁)
    (hparty : s'.party j = s.party j) (hagree : AgreeOff (Foreign outs j) s.state s'.state) :
    RunsAlone W expand outs jobs j s' fs₁ := by
  obtain ⟨ft, hrun, hft, hidle⟩ := hruns
  refine ⟨ft, ?_, hagree.symm.trans hft, ?_⟩
  · rwa [hparty]
  · rwa [hparty]

/-- **What the steps preserve.** -/
theorem Separate.step [DecidableEq ι] (hsep : Separate W expand fs₀ outs jobs s)
    (hapart : Apart outs)
    (hkeeps : ∀ i, (jobs i).Keeps W (outs i) (s.party i).todo (s.party i).events)
    (hcond : LooksAway expand outs i s) (hstep : Shared.Step (fsWorld expand) i s s') :
    Separate W expand fs₀ outs jobs s' := by
  obtain ⟨o, k, r, htodo, hW, hself, hother⟩ := hstep.cases
  have hi := hkeeps i
  rw [htodo] at hi
  have hallows := (hi.call r).1
  have hphase : phaseOf (outs i) (s'.party i).events
      = (phaseOf (outs i) (s.party i).events).next (outs i) ⟨o, r⟩ := by
    rw [hself, Party.events_after, phaseOf_append]
  have hagree : AgreeOff (Mine (outs i)) s.state s'.state :=
    agreeOff_of_fsWorld hW fun q hq => mine_of_changes hallows (hsep.file i) hq
  have hforeign : ∀ j, j ≠ i → AgreeOff (Foreign outs j) s.state s'.state :=
    fun j hji => hagree.mono fun p hp => ⟨i, Ne.symm hji, hp⟩
  constructor
  · intro j
    by_cases hji : j = i
    · subst hji
      rw [hphase]
      exact (hsep.file j).step hallows hW
    · rw [hother j hji]
      exact (hsep.file j).of_agree hagree (hapart j i hji _ (Or.inr rfl))
  · exact hsep.others.trans (hagree.mono fun p hp => ⟨i, hp⟩)
  · exact hsep.next.trans (next_le_of_fsWorld hW)
  · intro j
    by_cases hji : j = i
    · subst hji
      by_cases hcreate : ∃ p, o = .create p
      · -- the handle is the next unused body
        have hidle : phaseOf (outs j) (s.party j).events = .idle := by
          obtain ⟨p, rfl⟩ := hcreate
          exact (Phase.idle_of_create hallows).1
        exact ⟨s.state.next, (hsep.idle j hidle _).step hapart hallows hcond htodo hW hself
          fun _ _ _ => Nat.max_eq_right hsep.next⟩
      · obtain ⟨n, hn⟩ := hsep.alone j
        exact ⟨n, hn.step hapart hallows hcond htodo hW hself
          fun p _ hp => absurd ⟨p, congrArg Sigma.fst hp⟩ hcreate⟩
    · obtain ⟨n, hn⟩ := hsep.alone j
      exact ⟨n, hn.of_other (hother j hji) (hforeign j hji)⟩
  · intro j hph n
    by_cases hji : j = i
    · subst hji
      rw [hphase] at hph
      obtain ⟨hidle, hquiet⟩ := Phase.idle_of_next hallows hph
      refine (hsep.idle j hidle n).step hapart hallows hcond htodo hW hself fun p h hcreate => ?_
      rcases hquiet with hlook | ⟨e, he⟩
      · rw [show o = .create p from congrArg Sigma.fst hcreate] at hlook
        exact absurd hlook id
      · rw [he] at hcreate
        cases hcreate
    · rw [hother j hji] at hph
      exact (hsep.idle j hph n).of_other (hother j hji) (hforeign j hji)

theorem separate_start : Separate W expand fs₀ outs jobs
    (Shared.start fs₀ fun i => (jobs i).program W (outs i)) := by
  have hruns : ∀ i n, RunsAlone W expand outs jobs i
      (Shared.start fs₀ fun i => (jobs i).program W (outs i)) (fs₀.skip n) :=
    fun i n => ⟨fs₀.skip n, .refl _ _, agreeOff_skip n, fun _ => rfl⟩
  constructor
  · exact fun i h hph => absurd hph Phase.not_opens_idle
  · exact .refl
  · exact le_rfl
  · exact fun i => ⟨0, hruns i 0⟩
  · exact fun i _ n => hruns i n

theorem separate_of_reaches [DecidableEq ι] (hapart : Apart outs)
    (hreach : Shared.Reaches (fsWorld expand) (LooksAway expand outs)
      (Shared.start fs₀ fun i => (jobs i).program W (outs i)) s) :
    Separate W expand fs₀ outs jobs s := by
  induction hreach with
  | refl => exact separate_start
  | step i hreach hcond hstep ih =>
    exact ih.step hapart (fun j => hreach.wp_one (wp_phase (jobs j))) hcond hstep

/-- **Each call runs as if it were alone.**  What it has done is a run from the files at
the start, and apart from what is another call's, the files are those of that run. -/
theorem runs_alone [DecidableEq ι] (hapart : Apart outs)
    (hreach : Shared.Reaches (fsWorld expand) (LooksAway expand outs)
      (Shared.start fs₀ fun i => (jobs i).program W (outs i)) s) (i : ι) :
    ∃ fs₁ fs, (∀ p, fs₁.read p = fs₀.read p) ∧ (∀ p, fs₁.kind p = fs₀.kind p) ∧
      Run (fsWorld expand) fs₁ ((jobs i).program W (outs i)) (s.party i).events fs
        (s.party i).todo ∧
      ∀ p, ¬Foreign outs i p → s.state.read p = fs.read p := by
  obtain ⟨n, fs, hrun, hagree, -⟩ := (separate_of_reaches hapart hreach).alone i
  exact ⟨fs₀.skip n, fs, fun _ => rfl, fun _ => rfl, hrun, fun p hp => (hagree.read hp).symm⟩

/-- What a call accepts does not depend on the bodies that are unused. -/
theorem accepts_of_skip (hglob : ∀ fs fs' : Files, (∀ p, fs'.kind p = fs.kind p) →
    expand fs' = expand fs) {c : PackCall} {opts : PackOptions} {rows : List Row}
    {es : List FileEvent} {n : ℕ} (haccepts : c.Accepts W expand (fs₀.skip n) out opts rows es) :
    c.Accepts W expand fs₀ out opts rows es := by
  cases c with
  | ofPairs pairs => exact haccepts
  | ofFiles paths root => exact haccepts
  | ofGlob pattern root =>
    obtain ⟨pattern', root', entries, found, htarget, hexpand, hfound, hrows⟩ := haccepts
    rw [hglob fs₀ (fs₀.skip n) fun _ => rfl] at hexpand
    exact ⟨pattern', root', entries, found, htarget, hexpand, hfound, hrows⟩
  | ofArchive libs archive format => exact haccepts

/-- The run alone ends as calls that are alone do, and has the same files of the call. -/
theorem Separate.exists_run (hsep : Separate W expand fs₀ outs jobs s) (hapart : Apart outs)
    (i : ι) : ∃ n fs, Run (fsWorld expand) (fs₀.skip n) ((jobs i).program W (outs i))
      (s.party i).events fs (s.party i).todo ∧
    wp (fsWorld expand) (KeepsOthers (outs i)) ((jobs i).program W (outs i))
      (Ends W (fs₀.skip n) (outs i) (jobs i).opts
        (Distinct ((jobs i).call.Accepts W expand (fs₀.skip n) (outs i) (jobs i).opts)))
      (fs₀.skip n) ∧
    ∀ p, Mine (outs i) p → s.state.read p = fs.read p := by
  obtain ⟨n, fs, hrun, hagree, -⟩ := hsep.alone i
  exact ⟨n, fs, hrun, wp_program (jobs i).call,
    fun p hp => (hagree.read (hapart.not_foreign hp)).symm⟩

/-- A call that has succeeded leaves the shard of the rows it accepted. -/
theorem Separate.of_ok (hsep : Separate W expand fs₀ outs jobs s) (hapart : Apart outs)
    (hglob : ∀ fs fs' : Files, (∀ p, fs'.kind p = fs.kind p) → expand fs' = expand fs)
    {sum : PackSummary} (htodo : (s.party i).todo = .ret (.ok sum)) : ∃ rows,
      (jobs i).call.Accepts W expand fs₀ (outs i) (jobs i).opts rows (s.party i).events ∧
      (rows.map Prod.fst).Nodup ∧ sum = ⟨rows.length, Grouping.total rowSize rows⟩ ∧
      s.state.read (outs i) = some ((jobs i).shard W rows) ∧
      s.state.read (tmpName (outs i)) = none := by
  obtain ⟨n, fs, hrun, hwp, hmine⟩ := hsep.exists_run hapart i
  rw [htodo] at hrun
  obtain ⟨rows, ⟨hrows, hnodup⟩, hsum, hpub⟩ := wp_sound hwp hrun
  exact ⟨rows, accepts_of_skip hglob hrows, hnodup, hsum,
    (hmine _ (Or.inl rfl)).trans hpub.output, (hmine _ (Or.inr rfl)).trans hpub.dropped⟩

/-- A call that has failed leaves its output as it was. -/
theorem Separate.of_error (hsep : Separate W expand fs₀ outs jobs s) (hapart : Apart outs)
    {e : Failure} (htodo : (s.party i).todo = .ret (.error e)) :
    s.state.read (outs i) = fs₀.read (outs i) ∧
      (Creates (outs i) (s.party i).events → s.state.read (tmpName (outs i)) = none) := by
  obtain ⟨n, fs, hrun, hwp, hmine⟩ := hsep.exists_run hapart i
  rw [htodo] at hrun
  have hend := wp_sound hwp hrun
  exact ⟨(hmine _ (Or.inl rfl)).trans (FailedClean.untouched hend _ (ne_tmpName _)),
    fun hc => (hmine _ (Or.inr rfl)).trans (FailedClean.gone hend hc)⟩

/-- A call that has not published leaves its output as it was. -/
theorem Separate.of_not_published (hsep : Separate W expand fs₀ outs jobs s)
    (hapart : Apart outs) (hno : ∀ e ∈ (s.party i).events, ¬Publishes (outs i) e) :
    s.state.read (outs i) = fs₀.read (outs i) := by
  obtain ⟨n, fs, hrun, hwp, hmine⟩ := hsep.exists_run hapart i
  have hstep : ∀ (o : FsOp Str UInt8) (fs : Files) (r : FsOp.Res Str o) (fs' : Files),
      KeepsOthers (outs i) o fs r fs' → ¬Publishes (outs i) ⟨o, r⟩ →
      fs.read (outs i) = fs₀.read (outs i) → fs'.read (outs i) = fs₀.read (outs i) := by
    intro o fs r fs' hkeeps he hfs
    rw [hkeeps.2 he, hfs]
  exact (hmine _ (Or.inl rfl)).trans ((chain_of_run hwp hrun).preserves
    (P := fun fs => fs.read (outs i) = fs₀.read (outs i)) hstep hno rfl)

/-- **Each call is all or nothing on its own output**, whatever the others do: one that
has succeeded leaves the shard of the rows it accepted from the files at the start, one
that has failed or not yet published leaves its output as it was, and what is no call's
is as it was. -/
theorem isolated_calls [DecidableEq ι] (hapart : Apart outs)
    (hglob : ∀ fs fs' : Files, (∀ p, fs'.kind p = fs.kind p) → expand fs' = expand fs)
    (hreach : Shared.Reaches (fsWorld expand) (LooksAway expand outs)
      (Shared.start fs₀ fun i => (jobs i).program W (outs i)) s) :
    (∀ i sum, (s.party i).todo = .ret (.ok sum) → ∃ rows,
      (jobs i).call.Accepts W expand fs₀ (outs i) (jobs i).opts rows (s.party i).events ∧
      (rows.map Prod.fst).Nodup ∧ sum = ⟨rows.length, Grouping.total rowSize rows⟩ ∧
      s.state.read (outs i) = some ((jobs i).shard W rows) ∧
      s.state.read (tmpName (outs i)) = none) ∧
    (∀ i e, (s.party i).todo = .ret (.error e) → s.state.read (outs i) = fs₀.read (outs i) ∧
      (Creates (outs i) (s.party i).events → s.state.read (tmpName (outs i)) = none)) ∧
    (∀ i, (∀ e ∈ (s.party i).events, ¬Publishes (outs i) e) →
      s.state.read (outs i) = fs₀.read (outs i)) ∧
    ∀ p, (∀ i, ¬Mine (outs i) p) → s.state.read p = fs₀.read p := by
  have hsep := separate_of_reaches hapart hreach
  refine ⟨fun i sum htodo => ?_, fun i e htodo => ?_, fun i hno => ?_, fun p hp => ?_⟩
  · exact hsep.of_ok hapart hglob htodo
  · exact hsep.of_error hapart htodo
  · exact hsep.of_not_published hapart hno
  · exact hsep.others.read fun ⟨i, hi⟩ => hp i hi

end Isolated

/-- Two outputs. -/
def sampleOuts (i : Bool) : Str := if i then "o".toList else "u".toList

/-- Two calls with these outputs that have not started. -/
def apartStart : Calls Bool :=
  Shared.start sampleFiles fun i => sampleJob.program plainWriter (sampleOuts i)

/-- The next step looks at no name of the other call, and expands no pattern. -/
def sampleAway (i : Bool) (s : Calls Bool) : Bool :=
  match (s.party i).todo with
  | .call (.read p) _ => p ≠ sampleOuts (!i) ∧ p ≠ tmpName (sampleOuts (!i))
  | .call (.stat p) _ => p ≠ sampleOuts (!i) ∧ p ≠ tmpName (sampleOuts (!i))
  | .call (.expand _) _ => false
  | _ => true

theorem apart_sampleOuts : Apart sampleOuts := by
  intro i j hij p hi hj
  cases i <;> cases j
  · exact hij rfl
  · rcases hi with rfl | rfl <;> rcases hj with hj | hj <;> exact absurd hj (by decide)
  · rcases hi with rfl | rfl <;> rcases hj with hj | hj <;> exact absurd hj (by decide)
  · exact hij rfl

theorem not_foreign_sampleOuts {i : Bool} {p : Str} (h : p ≠ sampleOuts (!i))
    (htmp : p ≠ tmpName (sampleOuts (!i))) : ¬Foreign sampleOuts i p := by
  rintro ⟨j, hji, hj⟩
  obtain rfl : j = !i := by cases i <;> cases j <;> simp at hji ⊢
  rcases hj with rfl | rfl
  · exact h rfl
  · exact htmp rfl

theorem looksAway_of_sampleAway {i : Bool} {s : Calls Bool} (h : sampleAway i s = true) :
    LooksAway expandNothing sampleOuts i s := by
  intro o k htodo hlook
  rw [sampleAway, htodo] at h
  cases o with
  | read p =>
    obtain ⟨hout, htmp⟩ := of_decide_eq_true h
    exact not_foreign_sampleOuts hout htmp
  | stat p =>
    obtain ⟨hout, htmp⟩ := of_decide_eq_true h
    exact not_foreign_sampleOuts hout htmp
  | poll => trivial
  | alloc n => trivial
  | expand pattern => cases h
  | _ => exact absurd hlook id

/-- Two calls that take turns. -/
theorem exists_reaches_apart : ∃ s, Shared.Reaches (fsWorld expandNothing)
    (LooksAway expandNothing sampleOuts) apartStart s ∧
    (s.party true).todo = .ret (.ok ⟨1, 2⟩) ∧ (s.party false).todo = .ret (.ok ⟨1, 2⟩) := by
  have hsched : (Shared.schedule (fsHandler expandNothing) sampleAway
      (List.replicate 9 [true, false]).flatten apartStart).map
        (fun s => ((s.party true).result?, (s.party false).result?))
          = some (some (.ok ⟨1, 2⟩), some (.ok ⟨1, 2⟩)) := by decide
  obtain ⟨s, hs, hview⟩ := Shared.exists_reaches (fsWorld_fsHandler expandNothing)
    (fun _ _ => looksAway_of_sampleAway) hsched
  obtain ⟨htrue, hfalse⟩ := Prod.mk.inj hview
  exact ⟨s, hs, Party.todo_of_result? htrue, Party.todo_of_result? hfalse⟩

theorem runs_alone_sample : ∃ s fs₁ fs, Run (fsWorld expandNothing) fs₁
    (sampleJob.program plainWriter "o".toList) (s.party true).events fs (.ret (.ok ⟨1, 2⟩)) ∧
    (∀ p, fs₁.read p = sampleFiles.read p) ∧
    Shared.Reaches (fsWorld expandNothing) (LooksAway expandNothing sampleOuts) apartStart s ∧
    s.state.read "o".toList = fs.read "o".toList := by
  obtain ⟨s, hs, htrue, -⟩ := exists_reaches_apart
  obtain ⟨fs₁, fs, hread, -, hrun, hfs⟩ := runs_alone apart_sampleOuts hs true
  rw [htrue] at hrun
  exact ⟨s, fs₁, fs, hrun, hread, hs, hfs _ (apart_sampleOuts.not_foreign (Or.inl rfl))⟩

theorem isolated_calls_sample : ∃ s, Shared.Reaches (fsWorld expandNothing)
    (LooksAway expandNothing sampleOuts) apartStart s ∧
    s.state.read "o".toList = some (sampleJob.shard plainWriter [("a".toList, [1, 2])]) ∧
    s.state.read "u.tmp".toList = none ∧ s.state.read "a".toList = some [1, 2] := by
  obtain ⟨s, hs, htrue, hfalse⟩ := exists_reaches_apart
  obtain ⟨hok, -, -, hothers⟩ := isolated_calls apart_sampleOuts (fun _ _ _ => rfl) hs
  obtain ⟨rows, hrows, -, -, hout, -⟩ := hok true _ htrue
  obtain ⟨-, -, -, -, -, htmp⟩ := hok false _ hfalse
  obtain rfl := rows_of_sampleFiles hrows
  refine ⟨s, hs, hout, htmp, (hothers _ fun i hi => ?_).trans rfl⟩
  cases i <;> rcases hi with hi | hi <;> exact absurd hi (by decide)

end ParquetFileFs
