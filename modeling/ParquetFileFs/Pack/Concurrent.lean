import ParquetFileFs.Lib.Interleaving
import ParquetFileFs.Pack.Calls

/-!
# Calls with one output

Calls with the same output have the same temporary file.  As long as none creates
it while another one writes it, the output is whole at every moment, in whichever
order the calls make their steps; else the one empties what the other publishes.

## Main definitions

* `Phase`, `phaseStages` — how far a call is, by the answers it got.
* `Job`, `Undisturbed` — the calls, and the condition on their steps.
* `OutputSound` — the output is whole, and calls that fail have not changed it.

## Main results

* `wp_phase` — every call keeps to the phases, whatever the answers.
* `outputSound_of_undisturbed` — **the output is sound in every interleaving in
  which no temporary file is created while another call writes it.**
-/

namespace ParquetFileFs

open Program

/-! ### Phases -/

/-- How far a call is: what its temporary file holds while it is written, whether it
is still open after a failure, and what it was renamed with. -/
inductive Phase
  | idle
  | writing (h : ℕ) (bs : Bytes)
  | failed (h : ℕ)
  | closed
  | published (bs : Bytes)
  | dropped (bs : Option Bytes)

namespace Phase

variable (out : Str)

/-- What an answer leads to. -/
def next : Phase → FileEvent → Phase
  | .idle, ⟨.create p, .ok h⟩ => if p = tmpName out then .writing h [] else .idle
  | .writing h bs, ⟨.write _ new, .ok _⟩ => .writing h (bs ++ new)
  | .writing h _, ⟨.write _ _, .error _⟩ => .failed h
  | .writing _ bs, ⟨.rename _ _, .ok _⟩ => .published bs
  | .writing _ _, ⟨.rename _ _, .error _⟩ => .closed
  | .writing _ _, ⟨.close _, _⟩ => .closed
  | .failed _, ⟨.close _, _⟩ => .closed
  | .closed, ⟨.remove _, _⟩ => .dropped none
  | .published bs, ⟨.remove _, _⟩ => .dropped (some bs)
  | ph, _ => ph

/-- The calls that may be made next. -/
def Allows : Phase → FsOp Str UInt8 → Prop
  | .idle, .create p => p = tmpName out
  | .writing h _, .write i _ => i = h
  | .writing _ _, .rename a b => a = tmpName out ∧ b = out
  | .writing h _, .close i => i = h
  | .failed h, .close i => i = h
  | .closed, .remove p => p = tmpName out
  | .published _, .remove p => p = tmpName out
  | .idle, o => IsLook o
  | .writing _ _, o => IsLook o
  | _, _ => False

/-- The temporary file is open as `h`. -/
def Opens (ph : Phase) (h : ℕ) : Prop := (∃ bs, ph = .writing h bs) ∨ ph = .failed h

/-- What was published. -/
def published? : Phase → Option Bytes
  | .published bs => some bs
  | .dropped bs => bs
  | _ => none

variable {out}

theorem next_look {ph : Phase} {o : FsOp Str UInt8} {r : FsOp.Res Str o} (ho : IsLook o) :
    ph.next out ⟨o, r⟩ = ph := by
  cases o <;> cases ph <;> first | rfl | exact absurd ho id

theorem allows_look {ph : Phase} {o : FsOp Str UInt8} (ho : IsLook o)
    (hph : ph = .idle ∨ ∃ h bs, ph = .writing h bs) : ph.Allows out o := by
  rcases hph with rfl | ⟨h, bs, rfl⟩ <;> cases o <;> first | exact ho | exact absurd ho id

/-- **What may be called when.** -/
theorem allows_cases {ph : Phase} {o : FsOp Str UInt8} (h : ph.Allows out o) :
    (ph = .idle ∧ o = .create (tmpName out)) ∨
    (∃ i bs new, ph = .writing i bs ∧ o = .write i new) ∨
    (∃ i bs, ph = .writing i bs ∧ o = .rename (tmpName out) out) ∨
    (∃ i, ph.Opens i ∧ o = .close i) ∨
    ((ph = .closed ∨ ∃ bs, ph = .published bs) ∧ o = .remove (tmpName out)) ∨ IsLook o := by
  cases o with
  | create p => cases ph <;> first | exact Or.inl ⟨rfl, congrArg _ h⟩ | exact absurd h id
  | write i new =>
    cases ph <;> first
      | exact Or.inr (Or.inl ⟨_, _, _, rfl, congrArg (FsOp.write · new) h⟩)
      | exact absurd h id
  | rename a b =>
    cases ph <;> first
      | exact Or.inr (Or.inr (Or.inl ⟨_, _, rfl, by rw [h.1, h.2]⟩))
      | exact absurd h id
  | close i =>
    refine Or.inr (Or.inr (Or.inr (Or.inl ⟨i, ?_, rfl⟩)))
    cases ph <;> first
      | exact Or.inl ⟨_, congrArg (Phase.writing · _) (Eq.symm h)⟩
      | exact Or.inr (congrArg Phase.failed (Eq.symm h))
      | exact absurd h id
  | remove p =>
    refine Or.inr (Or.inr (Or.inr (Or.inr (Or.inl ?_))))
    cases ph <;> first
      | exact ⟨Or.inl rfl, congrArg _ h⟩
      | exact ⟨Or.inr ⟨_, rfl⟩, congrArg _ h⟩
      | exact absurd h id
  | _ => exact Or.inr (Or.inr (Or.inr (Or.inr (Or.inr trivial))))

theorem opens_writing {h i : ℕ} {bs : Bytes} : (writing i bs).Opens h ↔ h = i := by
  constructor
  · rintro (⟨bs', hph⟩ | hph) <;> cases hph
    rfl
  · rintro rfl
    exact Or.inl ⟨bs, rfl⟩

theorem opens_failed {h i : ℕ} : (failed i).Opens h ↔ h = i := by
  constructor
  · rintro (⟨bs, hph⟩ | hph) <;> cases hph
    rfl
  · rintro rfl
    exact Or.inr rfl

theorem not_opens_idle {h : ℕ} : ¬idle.Opens h := by
  rintro (⟨bs, hph⟩ | hph) <;> cases hph

theorem not_opens_closed {h : ℕ} : ¬closed.Opens h := by
  rintro (⟨bs, hph⟩ | hph) <;> cases hph

theorem not_opens_published {h : ℕ} {bs : Bytes} : ¬(published bs).Opens h := by
  rintro (⟨bs, hph⟩ | hph) <;> cases hph

theorem not_opens_dropped {h : ℕ} {o? : Option Bytes} : ¬(dropped o?).Opens h := by
  rintro (⟨bs, hph⟩ | hph) <;> cases hph

theorem published?_of_opens {ph : Phase} {h : ℕ} (hopens : ph.Opens h) : ph.published? = none := by
  rcases hopens with ⟨bs, rfl⟩ | rfl <;> rfl

/-- Closing the file leaves only removing it. -/
theorem next_close {ph : Phase} {h : ℕ} (hopens : ph.Opens h) (r : FsOp.Res Str (.close h)) :
    ph.next out ⟨.close h, r⟩ = .closed := by
  rcases hopens with ⟨bs, rfl⟩ | rfl <;> rfl

end Phase

/-- The phase after the calls `es`. -/
def phaseOf (out : Str) (es : List FileEvent) : Phase := es.foldl (Phase.next out) .idle

/-- The phases of a call are its stages, whatever the answers. -/
def phaseStages (out : Str) : Stages (answers (Phase.next out))
    (fun o ph _ _ => ph.Allows out o) out (fun _ _ => True) where
  Idle ph := ph = .idle
  Writing h bs ph := ph = .writing h bs
  Failed h ph := ph.Opens h
  Closed ph := ph = .closed
  Published bs ph := ph = .published bs
  Dropped ph := ph = .dropped none
  Done bs ph := ph = .dropped (some bs)
  look_idle := by
    rintro o ph r _ ho rfl rfl
    exact ⟨Phase.allows_look ho (Or.inl rfl), Phase.next_look ho, trivial⟩
  look_writing := by
    rintro o h bs ph r _ ho rfl rfl
    exact ⟨Phase.allows_look ho (Or.inr ⟨h, bs, rfl⟩), Phase.next_look ho, trivial⟩
  create_ok := by
    rintro h ph _ rfl rfl
    exact ⟨rfl, if_pos rfl⟩
  create_error := by
    rintro e ph _ rfl rfl
    exact ⟨rfl, rfl⟩
  write_ok := by
    rintro h bs new ph _ rfl rfl
    exact ⟨rfl, rfl⟩
  write_error := by
    rintro h bs new e ph _ rfl rfl
    exact ⟨rfl, Or.inr rfl⟩
  failed_of_writing hph := Or.inl ⟨_, hph⟩
  close := by
    rintro h ph _ (⟨bs, rfl⟩ | rfl) rfl
    · exact ⟨rfl, rfl⟩
    · exact ⟨rfl, rfl⟩
  rename_ok := by
    rintro h bs ph _ rfl rfl
    exact ⟨⟨rfl, rfl⟩, rfl⟩
  rename_error := by
    rintro h bs e ph _ rfl rfl
    exact ⟨⟨rfl, rfl⟩, rfl⟩
  remove_closed := by
    rintro ph _ rfl rfl
    exact ⟨rfl, rfl⟩
  remove_published := by
    rintro bs ph _ rfl rfl
    exact ⟨rfl, rfl⟩

/-! ### Calls -/

/-- A call and its options. -/
structure Job where
  call : PackCall
  opts : PackOptions

namespace Job

variable (W : ParquetWriter) (out : Str)

def program (j : Job) : FileM PackSummary := j.call.program W out j.opts

/-- The complete shard of the rows. -/
def shard (j : Job) (rows : List Row) : Bytes :=
  W.fileBytes j.opts.schema j.opts.compression (flushGroups (max j.opts.maxRowGroupBytes 1) rows)

/-- The rows the call accepted, by the answers it got. -/
def Sees (j : Job) (rows : List Row) (es : List FileEvent) : Prop :=
  j.call.Sees W j.opts (fun _ _ => True) rows es

/-- How the call ends. -/
def Ends (j : Job) : Outcome PackSummary → List FileEvent → Phase → Prop :=
  (phaseStages out).Ends W j.opts (j.Sees W)

/-- What is left to do of the call keeps to the phases. -/
def Keeps (j : Job) (todo : FileM PackSummary) (es : List FileEvent) : Prop :=
  wp (answers (Phase.next out)) (fun o ph _ _ => ph.Allows out o) todo
    (fun r es' ph => j.Ends W out r (es ++ es') ph) (phaseOf out es)

end Job

section Job

variable {W : ParquetWriter} {out : Str} {j : Job} {todo : FileM PackSummary}
  {es : List FileEvent} {bs : Bytes}

/-- **Every call keeps to the phases, whatever the answers.** -/
theorem wp_phase (j : Job) : wp (answers (Phase.next out)) (fun o ph _ _ => ph.Allows out o)
    (j.program W out) (j.Ends W out) Phase.idle :=
  Stages.wp_program (S := phaseStages out) j.call rfl

theorem phaseOf_append (e : FileEvent) :
    phaseOf out (es ++ [e]) = (phaseOf out es).next out e := by
  rw [phaseOf, List.foldl_append]
  rfl

/-- The next call is one the phase allows, and the rest keeps to the phases. -/
theorem Job.Keeps.call {o : FsOp Str UInt8} {k : FsOp.Res Str o → FileM PackSummary}
    (h : j.Keeps W out (.call o k) es) (r : FsOp.Res Str o) :
    (phaseOf out es).Allows out o ∧ j.Keeps W out (k r) (es ++ [⟨o, r⟩]) := by
  obtain ⟨hallows, hrest⟩ := h r _ rfl
  refine ⟨hallows, ?_⟩
  rw [Job.Keeps, phaseOf_append]
  simp only [List.append_assoc, List.singleton_append]
  exact hrest

theorem Job.Keeps.ret {r : Outcome PackSummary} (h : j.Keeps W out (.ret r) es) :
    j.Ends W out r es (phaseOf out es) := by
  have h' : j.Ends W out r (es ++ []) (phaseOf out es) := h
  rwa [List.append_nil] at h'

theorem Job.Ends.eq_of_ok {sum : PackSummary} {ph : Phase} (h : j.Ends W out (.ok sum) es ph) :
    ∃ rows, j.Sees W rows es ∧ ph = .dropped (some (j.shard W rows)) := by
  obtain ⟨rows, ⟨hrows, -⟩, -, hdone⟩ := h
  exact ⟨rows, hrows, hdone⟩

theorem Job.Ends.eq_of_error {e : Failure} {ph : Phase} (h : j.Ends W out (.error e) es ph) :
    ph = .dropped none ∨ ph = .idle :=
  h.imp And.right And.right

/-- A call that has ended has dropped its file, or has not created one. -/
theorem Job.Ends.phase {r : Outcome PackSummary} {ph : Phase} (h : j.Ends W out r es ph) :
    ph = .idle ∨ ∃ o?, ph = .dropped o? := by
  cases r with
  | ok sum =>
    obtain ⟨rows, -, hph⟩ := h.eq_of_ok
    exact Or.inr ⟨_, hph⟩
  | error e =>
    rcases h.eq_of_error with hph | hph
    · exact Or.inr ⟨_, hph⟩
    · exact Or.inl hph

/-- Every call has an answer. -/
theorem exists_answer (o : FsOp Str UInt8) : Nonempty (FsOp.Res Str o) := by
  cases o with
  | remove p => exact ⟨()⟩
  | create p => exact ⟨.error []⟩
  | write h bs => exact ⟨.error []⟩
  | close h => exact ⟨()⟩
  | alloc n => exact ⟨()⟩
  | read p => exact ⟨.error []⟩
  | poll => exact ⟨.error []⟩
  | rename a b => exact ⟨.error []⟩
  | stat p => exact ⟨.error []⟩
  | expand p => exact ⟨.error []⟩

/-- Once its file is dropped, a call has ended. -/
theorem Job.Keeps.ends_of_dropped (h : j.Keeps W out todo es) {o? : Option Bytes}
    (hph : phaseOf out es = .dropped o?) :
    ∃ r, todo = .ret r ∧ j.Ends W out r es (.dropped o?) := by
  cases todo with
  | ret r => exact ⟨r, rfl, hph ▸ h.ret⟩
  | call o k =>
    obtain ⟨r⟩ := exists_answer o
    have hallows := (h.call r).1
    rw [hph] at hallows
    cases o <;> exact absurd hallows id

/-- What was dropped after publishing is a complete shard. -/
theorem Job.Keeps.sees_of_dropped (h : j.Keeps W out todo es)
    (hph : phaseOf out es = .dropped (some bs)) :
    ∃ rows, j.Sees W rows es ∧ bs = j.shard W rows := by
  obtain ⟨r, -, hends⟩ := h.ends_of_dropped hph
  cases r with
  | ok sum =>
    obtain ⟨rows, hrows, hdone⟩ := hends.eq_of_ok
    cases hdone
    exact ⟨rows, hrows, rfl⟩
  | error e => rcases hends.eq_of_error with hno | hno <;> cases hno

/-- **What a call has published is the complete shard of the rows it accepted.** -/
theorem Job.Keeps.sees_of_published (h : j.Keeps W out todo es)
    (hbs : (phaseOf out es).published? = some bs) :
    ∃ rows, j.Sees W rows es ∧ bs = j.shard W rows := by
  cases hph : phaseOf out es with
  | dropped o? =>
    rw [hph] at hbs
    have hsome : o? = some bs := hbs
    exact h.sees_of_dropped (hsome ▸ hph)
  | published bs' =>
    rw [hph] at hbs
    cases hbs
    -- only the drop is left, which sees nothing
    cases todo with
    | ret r =>
      have hends := h.ret
      rw [hph] at hends
      rcases hends.phase with hno | ⟨o?, hno⟩ <;> cases hno
    | call o k =>
      obtain ⟨r⟩ := exists_answer o
      obtain ⟨hallows, hrest⟩ := h.call r
      rw [hph] at hallows
      cases o with
      | remove p =>
        have hph' : phaseOf out (es ++ [⟨.remove p, r⟩]) = .dropped (some bs) := by
          rw [phaseOf_append, hph]
          rfl
        obtain ⟨rows, hrows, hbs⟩ := hrest.sees_of_dropped hph'
        refine ⟨rows, PackCall.Sees.mono (fun e he hlook => ?_) hrows, hbs⟩
        rcases List.mem_append.mp he with he | he
        · exact he
        · rw [List.mem_singleton.mp he] at hlook
          exact absurd hlook id
      | _ => exact absurd hallows id
  | idle => rw [hph] at hbs; cases hbs
  | writing h bs' => rw [hph] at hbs; cases hbs
  | failed h => rw [hph] at hbs; cases hbs
  | closed => rw [hph] at hbs; cases hbs

/-- A call that failed has not published anything. -/
theorem Job.Keeps.published?_of_error {e : Failure} (h : j.Keeps W out (.ret (.error e)) es) :
    (phaseOf out es).published? = none := by
  rcases h.ret.eq_of_error with hph | hph <;> rw [hph] <;> rfl

/-- Only creating the temporary file leads on from the start. -/
theorem creates_of_next {e : FileEvent} (h : Phase.next out .idle e ≠ .idle) : Creates out [e] := by
  obtain ⟨o, r⟩ := e
  cases o with
  | create p =>
    cases r with
    | ok i =>
      have hp : p = tmpName out := by
        by_contra hp
        exact h (if_neg hp)
      exact ⟨i, by rw [hp]; exact List.mem_singleton_self _⟩
    | error e => exact absurd rfl h
  | _ => exact absurd rfl h

theorem creates_of_phaseOf (h : phaseOf out es ≠ .idle) : Creates out es := by
  induction es using List.reverseRecOn with
  | nil => exact absurd rfl h
  | append_singleton es e ih =>
    rw [phaseOf_append] at h
    rw [creates_append]
    by_cases hph : phaseOf out es = .idle
    · rw [hph] at h
      exact Or.inr (creates_of_next h)
    · exact Or.inl (ih hph)

end Job

/-! ### Interleavings -/

section Interleaving

variable {ι : Type}

/-- The calls on their way. -/
abbrev Calls (ι : Type) := Shared (FsOp Str UInt8) (FsOp.Res Str) Files (Outcome PackSummary) ι

/-- A call on its way. -/
abbrev CallParty := Party (FsOp Str UInt8) (FsOp.Res Str) Files (Outcome PackSummary)

/-- The call has created its temporary file, and removing it is not what it does next. -/
def HasTemp (out : Str) (p : CallParty) : Prop :=
  Creates out p.events ∧ ∃ o k, p.todo = .call o k ∧ o ≠ .remove (tmpName out)

/-- If the next step of `i` creates the temporary file, no other call has it. -/
def Undisturbed (out : Str) (i : ι) (s : Calls ι) : Prop :=
  ∀ k, (s.party i).todo = .call (.create (tmpName out)) k → ∀ j, j ≠ i → ¬HasTemp out (s.party j)

/-- The output holds what it held at the start or the complete shard of one of the
calls, and a call that has failed has not changed it. -/
structure OutputSound (W : ParquetWriter) (fs₀ : Files) (out : Str) (jobs : ι → Job)
    (s : Calls ι) : Prop where
  whole : s.state.read out = fs₀.read out ∨ ∃ i rows, (jobs i).Sees W rows (s.party i).events ∧
    s.state.read out = some ((jobs i).shard W rows)
  unchanged : ∀ i e, (s.party i).todo = .ret (.error e) → ∀ step ∈ (s.party i).steps,
    step.2.2.read out = step.1.read out

/-- The call has its temporary file open. -/
def Active (out : Str) (h : ℕ) (p : CallParty) : Prop := (phaseOf out p.events).Opens h

/-- What a call relies on in each phase: what it writes holds what it has written, and
while the temporary file has its name it is the one; the output is another one. -/
structure OwnsFile (out : Str) (ph : Phase) (fs : Files) : Prop where
  held : ∀ h bs, ph = .writing h bs →
    fs.body h = bs ∧ ∀ k, fs.names (tmpName out) = some k → k = h
  apart : ∀ h, ph.Opens h → fs.names out ≠ some h

/-- What the steps of undisturbed calls preserve. -/
structure Invariant (fs₀ : Files) (out : Str) (s : Calls ι) : Prop where
  /-- One call at a time is active. -/
  alone : ∀ i j h h', Active out h (s.party i) → Active out h' (s.party j) → i = j
  /-- It has its file. -/
  file : ∀ i, OwnsFile out (phaseOf out (s.party i).events) s.state
  output : s.state.read out = fs₀.read out ∨
    ∃ i bs, (phaseOf out (s.party i).events).published? = some bs ∧ s.state.read out = some bs
  unchanged : ∀ i, (phaseOf out (s.party i).events).published? = none →
    ∀ step ∈ (s.party i).steps, step.2.2.read out = step.1.read out

/-- Decides `HasTemp`. -/
def hasTemp (out : Str) (p : CallParty) : Bool :=
  (p.events.any fun
    | ⟨.create q, .ok _⟩ => q = tmpName out
    | _ => false) &&
  match p.todo with
  | .ret _ => false
  | .call (.remove q) _ => q ≠ tmpName out
  | .call _ _ => true

theorem hasTemp_iff {out : Str} {p : CallParty} : hasTemp out p = true ↔ HasTemp out p := by
  rw [hasTemp, Bool.and_eq_true, HasTemp]
  refine and_congr ?_ ?_
  · rw [List.any_eq_true]
    constructor
    · rintro ⟨⟨o, r⟩, he, hcreate⟩
      cases o with
      | create q =>
        cases r with
        | ok i => exact ⟨i, of_decide_eq_true hcreate ▸ he⟩
        | error e => cases hcreate
      | _ => cases hcreate
    · rintro ⟨i, he⟩
      exact ⟨_, he, decide_eq_true rfl⟩
  · cases p.todo with
    | ret r =>
      constructor
      · intro hno
        cases hno
      · rintro ⟨o, k, hno, -⟩
        cases hno
    | call o k =>
      have hremove : (∃ o' k', (Program.call o k : FileM PackSummary) = .call o' k' ∧
          o' ≠ .remove (tmpName out)) ↔ o ≠ .remove (tmpName out) := by
        constructor
        · rintro ⟨o', k', hcall, ho⟩
          cases hcall
          exact ho
        · exact fun ho => ⟨o, k, rfl, ho⟩
      rw [hremove]
      cases o <;> simp

instance {out : Str} {p : CallParty} : Decidable (HasTemp out p) :=
  decidable_of_iff _ hasTemp_iff

/-- Creating the temporary file is what the call does next. -/
def createsNext (out : Str) : FileM PackSummary → Bool
  | .call (.create p) _ => p = tmpName out
  | _ => false

theorem createsNext_iff {out : Str} {todo : FileM PackSummary} :
    createsNext out todo = true ↔ ∃ k, todo = .call (.create (tmpName out)) k := by
  constructor
  · intro h
    cases todo with
    | ret r => cases h
    | call o k =>
      cases o with
      | create p =>
        have hp : p = tmpName out := of_decide_eq_true h
        subst hp
        exact ⟨k, rfl⟩
      | _ => cases h
  · rintro ⟨k, rfl⟩
    exact decide_eq_true rfl

instance [Fintype ι] [DecidableEq ι] {out : Str} {i : ι} {s : Calls ι} :
    Decidable (Undisturbed out i s) :=
  decidable_of_iff (createsNext out (s.party i).todo = true → ∀ j, j ≠ i → ¬HasTemp out (s.party j))
    (by rw [createsNext_iff, forall_exists_index]; rfl)

variable {W : ParquetWriter} {expand : Files → Str → Except Str (List (Except (Str × Str) Str))}
  {fs₀ fs fs' : Files} {out : Str} {jobs : ι → Job} {s s' : Calls ι} {job : Job} {p : CallParty}
  {h : ℕ}

/-- An active call has its temporary file. -/
theorem Active.hasTemp (hactive : Active out h p) (hkeeps : job.Keeps W out p.todo p.events) :
    HasTemp out p := by
  refine ⟨creates_of_phaseOf fun hidle => ?_, ?_⟩
  · rcases hactive with ⟨bs, hph⟩ | hph <;> rw [hidle] at hph <;> cases hph
  generalize p.todo = todo at hkeeps
  cases todo with
  | ret r =>
    -- a call that has ended has dropped its file
    rcases hactive with ⟨bs, hph⟩ | hph <;>
      rcases hkeeps.ret.phase with hno | ⟨o?, hno⟩ <;> rw [hph] at hno <;> cases hno
  | call o k =>
    refine ⟨o, k, rfl, ?_⟩
    rintro rfl
    have hallows := (hkeeps.call ()).1
    rcases hactive with ⟨bs, hph⟩ | hph <;> rw [hph] at hallows <;> exact hallows

/-- A call without an open file relies on nothing. -/
theorem ownsFile_of_not_opens {ph : Phase} (hph : ∀ h, ¬ph.Opens h) : OwnsFile out ph fs :=
  ⟨fun h bs hwriting => absurd (Or.inl ⟨bs, hwriting⟩) (hph h), fun h hopens =>
    absurd hopens (hph h)⟩

/-- The output stays, and the call has published what it had, or the call publishes. -/
def OutputStep (out : Str) (fs : Files) (ph : Phase) (fs' : Files) (ph' : Phase) : Prop :=
  (fs'.read out = fs.read out ∧ ∀ bs, ph.published? = some bs → ph'.published? = some bs) ∨
    ∃ bs, ph'.published? = some bs ∧ fs'.read out = some bs

/-- A call that has published nothing after a step has not changed the output. -/
theorem OutputStep.of_none {ph ph' : Phase} (h : OutputStep out fs ph fs' ph')
    (hnone : ph'.published? = none) : ph.published? = none ∧ fs'.read out = fs.read out := by
  rcases h with ⟨hsame, hkept⟩ | ⟨bs, hbs, -⟩
  · refine ⟨?_, hsame⟩
    by_contra hsome
    obtain ⟨bs, hbs⟩ := Option.ne_none_iff_exists'.mp hsome
    rw [hkept bs hbs] at hnone
    cases hnone
  · rw [hbs] at hnone
    cases hnone

/-- What a step does to the output. -/
theorem outputStep {o : FsOp Str UInt8} {r : FsOp.Res Str o} {ph : Phase}
    (hallows : ph.Allows out o) (hW : fsWorld expand o fs r fs') (hfile : OwnsFile out ph fs) :
    OutputStep out fs ph fs' (ph.next out ⟨o, r⟩) := by
  rcases Phase.allows_cases hallows with ⟨rfl, rfl⟩ | ⟨i, bs, new, rfl, rfl⟩ | ⟨i, bs, rfl, rfl⟩ |
    ⟨i, hopens, rfl⟩ | ⟨hph, rfl⟩ | hlook
  · -- the file that is created or emptied is not the output
    refine Or.inl ⟨?_, fun bs hbs => by cases hbs⟩
    cases r with
    | ok i => rw [FileSystem.read_create hW, if_neg (ne_tmpName out)]
    | error e => rw [show fs' = fs from hW]
  · have hne := hfile.apart i (Or.inl ⟨bs, rfl⟩)
    refine Or.inl ⟨?_, fun bs hbs => by cases hbs⟩
    cases r with
    | ok u => rw [show fs' = fs.append i new from hW, FileSystem.read_append_of_ne hne]
    | error e =>
      obtain ⟨new', -, hfs⟩ := hW
      rw [hfs, FileSystem.read_append_of_ne hne]
  · cases r with
    | ok u =>
      -- the name still points to the file of the call
      obtain ⟨hbody, hname⟩ := hfile.held i bs rfl
      obtain ⟨k, hk⟩ := FileSystem.exists_of_rename hW
      refine Or.inr ⟨bs, rfl, ?_⟩
      rw [FileSystem.read_rename hW, if_pos rfl, FileSystem.read, hk, hname k hk, Option.map_some,
        hbody]
    | error e => exact Or.inl ⟨by rw [show fs' = fs from hW], fun bs hbs => by cases hbs⟩
  · -- what is left in the buffer goes to the file of the call
    obtain ⟨rest, hfs⟩ := hW
    refine Or.inl ⟨?_, fun bs hbs => ?_⟩
    · rw [hfs, FileSystem.read_append_of_ne (hfile.apart i hopens)]
    · rw [Phase.published?_of_opens hopens] at hbs
      cases hbs
  · refine Or.inl ⟨?_, fun bs hbs => ?_⟩
    · rw [show fs' = fs.remove (tmpName out) from hW, FileSystem.read_remove,
        if_neg (ne_tmpName out)]
    · rcases hph with rfl | ⟨bs', rfl⟩ <;> cases hbs
      rfl
  · rw [fsWorld_look hlook hW, Phase.next_look hlook]
    exact Or.inl ⟨rfl, fun _ h => h⟩

variable {i j : ι} {o : FsOp Str UInt8} {r : FsOp.Res Str o}
  {k : FsOp.Res Str o → FileM PackSummary}

/-- A call of another one leaves alone what a call relies on. -/
theorem ownsFile_of_other (hinv : Invariant fs₀ out s)
    (hkeeps : ∀ i, (jobs i).Keeps W out (s.party i).todo (s.party i).events)
    (hcond : Undisturbed out i s) (htodo : (s.party i).todo = .call o k)
    (hW : fsWorld expand o s.state r fs') (hij : j ≠ i) :
    OwnsFile out (phaseOf out (s.party j).events) fs' := by
  by_cases hactive : ∃ h, Active out h (s.party j)
  · obtain ⟨h, hactive⟩ := hactive
    have hi := hkeeps i
    rw [htodo] at hi
    -- a call that writes, renames or closes would be active, too
    have hno : ∀ i', ¬Active out i' (s.party i) := fun i' hi' =>
      hij (hinv.alone j i h i' hactive hi')
    obtain ⟨hheld, hapart⟩ := hinv.file j
    rcases Phase.allows_cases (hi.call r).1 with ⟨-, rfl⟩ | ⟨i', bs', new, hph, -⟩ |
      ⟨i', bs', hph, -⟩ | ⟨i', hopens, -⟩ | ⟨-, rfl⟩ | hlook
    · exact absurd (hactive.hasTemp (hkeeps j)) (hcond k htodo j hij)
    · exact absurd (Or.inl ⟨bs', hph⟩) (hno i')
    · exact absurd (Or.inl ⟨bs', hph⟩) (hno i')
    · exact absurd hopens (hno i')
    · rw [show fs' = s.state.remove (tmpName out) from hW]
      refine ⟨fun h' bs hwriting => ⟨(hheld h' bs hwriting).1, fun k hk => ?_⟩, fun h' hopens => ?_⟩
      · simp [FileSystem.remove] at hk
      · simpa [FileSystem.remove, Function.update_of_ne (ne_tmpName out)] using hapart h' hopens
    · rw [fsWorld_look hlook hW]
      exact ⟨hheld, hapart⟩
  · exact ownsFile_of_not_opens fun h hopens => hactive ⟨h, hopens⟩

/-- A call has its file after its step, too. -/
theorem ownsFile_of_self (hinv : Invariant fs₀ out s)
    (hkeeps : ∀ i, (jobs i).Keeps W out (s.party i).todo (s.party i).events)
    (htodo : (s.party i).todo = .call o k) (hW : fsWorld expand o s.state r fs') :
    OwnsFile out ((phaseOf out (s.party i).events).next out ⟨o, r⟩) fs' := by
  have hi := hkeeps i
  rw [htodo] at hi
  obtain ⟨hheld, hapart⟩ := hinv.file i
  rcases Phase.allows_cases (hi.call r).1 with ⟨hph, rfl⟩ | ⟨i', bs', new, hph, rfl⟩ |
    ⟨i', bs', hph, rfl⟩ | ⟨i', hopens, rfl⟩ | ⟨hph, rfl⟩ | hlook
  · rw [hph]
    cases r with
    | ok i' =>
      have hnext : Phase.next out .idle ⟨.create (tmpName out), .ok i'⟩ = .writing i' [] :=
        if_pos rfl
      rw [hnext]
      constructor
      · intro h bs hwriting
        cases hwriting
        refine ⟨by rw [FileSystem.body_create hW, Function.update_self], fun k hk => ?_⟩
        rw [FileSystem.names_create hW, Function.update_self] at hk
        exact (Option.some.inj hk).symm
      · intro h hopens
        rw [Phase.opens_writing.mp hopens, FileSystem.names_create hW,
          Function.update_of_ne (ne_tmpName out)]
        exact FileSystem.names_ne_of_create hW (ne_tmpName out)
    | error e => exact ownsFile_of_not_opens fun h => Phase.not_opens_idle
  · obtain ⟨hbody, hname⟩ := hheld i' bs' hph
    have hne := hapart i' (Or.inl ⟨bs', hph⟩)
    rw [hph]
    cases r with
    | ok u =>
      rw [show fs' = s.state.append i' new from hW]
      constructor
      · intro h bs hwriting
        cases hwriting
        exact ⟨by rw [FileSystem.body_append, Function.update_self, hbody], hname⟩
      · intro h hopens
        rw [Phase.opens_writing.mp hopens]
        exact hne
    | error e =>
      obtain ⟨new', -, hfs⟩ := hW
      rw [hfs]
      constructor
      · intro h bs hno
        cases hno
      · intro h hopens
        rw [Phase.opens_failed.mp hopens]
        exact hne
  · rw [hph]
    cases r with
    | ok u => exact ownsFile_of_not_opens fun h => Phase.not_opens_published
    | error e => exact ownsFile_of_not_opens fun h => Phase.not_opens_closed
  · rw [Phase.next_close hopens]
    exact ownsFile_of_not_opens fun h => Phase.not_opens_closed
  · refine ownsFile_of_not_opens fun h => ?_
    rcases hph with hph | ⟨bs, hph⟩ <;> rw [hph] <;> exact Phase.not_opens_dropped
  · rw [Phase.next_look hlook, fsWorld_look hlook hW]
    exact ⟨hheld, hapart⟩

/-- Of the calls that are active after a step, no other one was than the one that made it. -/
theorem alone_of_step (hinv : Invariant fs₀ out s)
    (hkeeps : ∀ i, (jobs i).Keeps W out (s.party i).todo (s.party i).events)
    (hcond : Undisturbed out i s) (htodo : (s.party i).todo = .call o k)
    (hopens : ((phaseOf out (s.party i).events).next out ⟨o, r⟩).Opens h) (hij : j ≠ i) (h' : ℕ) :
    ¬Active out h' (s.party j) := by
  intro hactive
  have hi := hkeeps i
  rw [htodo] at hi
  have hbefore : ∀ i', ¬Active out i' (s.party i) := fun i' hi' =>
    hij (hinv.alone j i h' i' hactive hi')
  rcases Phase.allows_cases (hi.call r).1 with ⟨-, rfl⟩ | ⟨i', bs', new, hph, -⟩ |
    ⟨i', bs', hph, -⟩ | ⟨i', hopens', -⟩ | ⟨hph, rfl⟩ | hlook
  · exact hcond k htodo j hij (hactive.hasTemp (hkeeps j))
  · exact hbefore i' (Or.inl ⟨bs', hph⟩)
  · exact hbefore i' (Or.inl ⟨bs', hph⟩)
  · exact hbefore i' hopens'
  · rcases hph with hph | ⟨bs, hph⟩ <;> rw [hph] at hopens <;>
      exact Phase.not_opens_dropped hopens
  · rw [Phase.next_look hlook] at hopens
    exact hbefore h hopens

variable [DecidableEq ι]

/-- **A step of an undisturbed call preserves the invariant.** -/
theorem Invariant.step (hinv : Invariant fs₀ out s)
    (hkeeps : ∀ i, (jobs i).Keeps W out (s.party i).todo (s.party i).events)
    (hcond : Undisturbed out i s) (hstep : Shared.Step (fsWorld expand) i s s') :
    Invariant fs₀ out s' := by
  obtain ⟨o, k, r, htodo, hW, hself, hother⟩ := hstep.cases
  have hi := hkeeps i
  rw [htodo] at hi
  have hphase : phaseOf out (s'.party i).events
      = (phaseOf out (s.party i).events).next out ⟨o, r⟩ := by
    rw [hself, Party.events_after, phaseOf_append]
  have hout : OutputStep out s.state (phaseOf out (s.party i).events) s'.state
      (phaseOf out (s'.party i).events) := by
    rw [hphase]
    exact outputStep (hi.call r).1 hW (hinv.file i)
  have halone : ∀ h, Active out h (s'.party i) → ∀ j h', j ≠ i → ¬Active out h' (s'.party j) := by
    intro h hactive j h' hj
    rw [Active, hphase] at hactive
    rw [hother j hj]
    exact alone_of_step hinv hkeeps hcond htodo hactive hj h'
  constructor
  · intro j j' h h' hj hj'
    by_cases hji : j = i
    · subst hji
      by_contra hne
      exact halone h hj j' h' (Ne.symm hne) hj'
    · by_cases hji' : j' = i
      · subst hji'
        exact absurd hj (halone h' hj' j h hji)
      · rw [hother j hji] at hj
        rw [hother j' hji'] at hj'
        exact hinv.alone j j' h h' hj hj'
  · intro j
    by_cases hji : j = i
    · subst hji
      rw [hphase]
      exact ownsFile_of_self hinv hkeeps htodo hW
    · rw [hother j hji]
      exact ownsFile_of_other hinv hkeeps hcond htodo hW hji
  · rcases hout with ⟨hsame, hkept⟩ | ⟨bs, hbs, hread⟩
    · rcases hinv.output with h₀ | ⟨j, bs, hbs, hread⟩
      · exact Or.inl (hsame.trans h₀)
      · refine Or.inr ⟨j, bs, ?_, hsame.trans hread⟩
        by_cases hji : j = i
        · subst hji
          exact hkept bs hbs
        · rwa [hother j hji]
    · exact Or.inr ⟨i, bs, hbs, hread⟩
  · intro j hnone
    by_cases hji : j = i
    · subst hji
      obtain ⟨hbefore, hsame⟩ := hout.of_none hnone
      intro step hstep
      rw [hself] at hstep
      rcases List.mem_append.mp hstep with hstep | hstep
      · exact hinv.unchanged j hbefore step hstep
      · rw [List.mem_singleton.mp hstep]
        exact hsame
    · rw [hother j hji] at hnone ⊢
      exact hinv.unchanged j hnone

/-- **The output is sound in every interleaving of undisturbed calls.** -/
theorem outputSound_of_undisturbed (hreach : Shared.Reaches (fsWorld expand) (Undisturbed out)
    (Shared.start fs₀ fun i => (jobs i).program W out) s) : OutputSound W fs₀ out jobs s := by
  have hkeeps : ∀ {s : Calls ι}, Shared.Reaches (fsWorld expand) (Undisturbed out)
      (Shared.start fs₀ fun i => (jobs i).program W out) s →
      ∀ i, (jobs i).Keeps W out (s.party i).todo (s.party i).events :=
    fun hreach i => Shared.Reaches.wp_party (fun i => wp_phase (jobs i)) hreach i
  have hinv : Invariant fs₀ out s := by
    induction hreach with
    | refl =>
      -- no call has created its file or made a step
      constructor
      · intro i j h h' hi
        exact absurd hi Phase.not_opens_idle
      · exact fun i => ownsFile_of_not_opens fun h => Phase.not_opens_idle
      · exact Or.inl rfl
      · intro i _ step hstep
        cases hstep
    | step i hreach hcond hstep ih => exact ih.step (hkeeps hreach) hcond hstep
  constructor
  · rcases hinv.output with hsame | ⟨i, bs, hbs, hout⟩
    · exact Or.inl hsame
    · obtain ⟨rows, hrows, rfl⟩ := (hkeeps hreach i).sees_of_published hbs
      exact Or.inr ⟨i, rows, hrows, hout⟩
  · intro i e htodo
    have hi := hkeeps hreach i
    rw [htodo] at hi
    exact hinv.unchanged i hi.published?_of_error

end Interleaving

/-- A call that packs one file. -/
def sampleJob : Job := ⟨.ofFiles ["a".toList] [], {}⟩

/-- Two of them that have not started. -/
def sampleStart : Calls Bool :=
  Shared.start sampleFiles fun _ => sampleJob.program plainWriter "o".toList

/-- What the output holds, how the second call has ended, and whether its steps have
left the output as it was. -/
def sampleView (s : Calls Bool) : Option Bytes × Option (Outcome PackSummary) × Bool :=
  (s.state.read "o".toList, (s.party false).result?,
    (s.party false).steps.all fun step => step.2.2.read "o".toList = step.1.read "o".toList)

/-- A call publishes its file, another one creates one, and the first one drops that:
the second call fails, and the output is the shard of the first. -/
theorem outputSound_sampleStart : ∃ s e, Shared.Reaches (fsWorld expandNothing)
    (Undisturbed "o".toList) sampleStart s ∧ (s.party false).todo = .ret (.error e) ∧
    s.state.read "o".toList = some (sampleJob.shard plainWriter [("a".toList, [1, 2])]) ∧
    OutputSound plainWriter sampleFiles "o".toList (fun _ => sampleJob) s := by
  have hsched : (Shared.schedule (fsHandler expandNothing)
      (fun i s => decide (Undisturbed "o".toList i s))
      ([true, false] ++ List.replicate 7 true ++ [false, true] ++ List.replicate 7 false)
      sampleStart).map sampleView = some (some (sampleJob.shard plainWriter [("a".toList, [1, 2])]),
        some (.error (.err (.io "o".toList []))), true) := by decide
  obtain ⟨s, hs, hview⟩ := Shared.exists_reaches (fsWorld_fsHandler expandNothing)
    (fun _ _ => of_decide_eq_true) hsched
  obtain ⟨hread, hended⟩ := Prod.mk.inj hview
  exact ⟨s, _, hs, Party.todo_of_result? (Prod.mk.inj hended).1, hread,
    outputSound_of_undisturbed hs⟩

/-- **The second call empties the file that the first one publishes, and then writes to
the output before it fails.** -/
theorem not_outputSound_sampleStart :
    (∃ s, Shared.Reaches (fsWorld expandNothing) (fun _ _ => True) sampleStart s ∧
      s.state.read "o".toList ≠ sampleFiles.read "o".toList ∧
      ∀ rows, s.state.read "o".toList ≠ some (sampleJob.shard plainWriter rows)) ∧
    ∃ s e, Shared.Reaches (fsWorld expandNothing) (fun _ _ => True) sampleStart s ∧
      (s.party false).todo = .ret (.error e) ∧
      ∃ step ∈ (s.party false).steps, step.2.2.read "o".toList ≠ step.1.read "o".toList := by
  constructor
  · have hsched : (Shared.schedule (fsHandler expandNothing) (fun _ _ => true)
        (List.replicate 7 true ++ [false, false, true]) sampleStart).map sampleView
          = some (some [], none, true) := by decide
    obtain ⟨s, hs, hview⟩ := Shared.exists_reaches (fsWorld_fsHandler expandNothing)
      (C := fun _ _ => True) (fun _ _ _ => trivial) hsched
    have hread : s.state.read "o".toList = some [] := (Prod.mk.inj hview).1
    refine ⟨s, hs, ?_, fun rows => ?_⟩
    · rw [hread]
      decide
    · rw [hread]
      simp [Job.shard, ParquetWriter.fileBytes, plainWriter, plainMagic]
  · have hsched : (Shared.schedule (fsHandler expandNothing) (fun _ _ => true)
        (List.replicate 7 true ++ [false, false, true] ++ List.replicate 7 false)
        sampleStart).map sampleView
          = some (some (sampleJob.shard plainWriter [("a".toList, [1, 2])]),
              some (.error (.err (.io "o".toList []))), false) := by decide
    obtain ⟨s, hs, hview⟩ := Shared.exists_reaches (fsWorld_fsHandler expandNothing)
      (C := fun _ _ => True) (fun _ _ _ => trivial) hsched
    obtain ⟨hended, hchanged⟩ := Prod.mk.inj (Prod.mk.inj hview).2
    refine ⟨s, _, hs, Party.todo_of_result? hended, ?_⟩
    simpa using hchanged

end ParquetFileFs
