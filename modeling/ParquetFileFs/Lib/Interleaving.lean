import ParquetFileFs.Lib.Program
import Mathlib.Logic.Function.Basic
import Mathlib.Data.List.Basic

/-!
# Programs that share a world

Several parties run their programs in one world, a call of one at a time in any
order.  To each of them the others are a world that may answer anything.  Unlike in
a pool, the parties are given, and the calls each has made are kept.

## Main definitions

* `Party`, `Shared` — a program on its way, and parties that share a state.
* `Shared.Step`, `Shared.Reaches` — a call of one party, and any number of them.
* `answers` — the world that admits every answer and only keeps track of them.
* `Shared.schedule` — the run in which a handler answers and the order is given.

## Main results

* `Shared.Reaches.wp_party` — **what holds of a program whatever the answers, holds
  of each party in every interleaving.**
* `Shared.reaches_schedule` — a schedule is one of the interleavings.
-/

universe u v

namespace Program

/-- A program on its way: what is left to do, and the calls made so far, each with
the state before it and after it. -/
structure Party (Op : Type u) (Res : Op → Type u) (σ α : Type u) where
  todo : Program Op Res α
  steps : List (σ × Event Op Res × σ)

/-- Parties that share a state. -/
structure Shared (Op : Type u) (Res : Op → Type u) (σ α : Type u) (ι : Type v) where
  state : σ
  party : ι → Party Op Res σ α

variable {Op : Type u} {Res : Op → Type u} {σ τ α : Type u} {ι : Type v} {β : Type*}

/-- The calls a party has made. -/
def Party.events (p : Party Op Res σ α) : List (Event Op Res) := p.steps.map fun step => step.2.1

/-- What the program has ended with. -/
def Party.result? (p : Party Op Res σ α) : Option α :=
  match p.todo with
  | .ret a => some a
  | .call _ _ => none

theorem Party.todo_of_result? {p : Party Op Res σ α} {a : α} (h : p.result? = some a) :
    p.todo = .ret a := by
  obtain ⟨todo, steps⟩ := p
  cases todo with
  | ret a' =>
    cases h
    rfl
  | call o k => cases h

/-- The answers are anything, and `next` keeps track of them. -/
def answers (next : τ → Event Op Res → τ) : World Op Res τ := fun o t r t' => t' = next t ⟨o, r⟩

/-- A program makes a call and gets an answer. -/
def Party.after (p : Party Op Res σ α) (todo : Program Op Res α) (s : σ) (e : Event Op Res)
    (s' : σ) : Party Op Res σ α :=
  ⟨todo, p.steps ++ [(s, e, s')]⟩

theorem Party.events_after (p : Party Op Res σ α) (todo : Program Op Res α) (s : σ)
    (e : Event Op Res) (s' : σ) : (p.after todo s e s').events = p.events ++ [e] := by
  simp [Party.events, Party.after]

namespace Shared

/-- No party has made a call. -/
def start (s : σ) (p : ι → Program Op Res α) : Shared Op Res σ α ι := ⟨s, fun i => ⟨p i, []⟩⟩

variable [DecidableEq ι]

/-- The party `i` makes a call. -/
inductive Step (W : World Op Res σ) (i : ι) (s : Shared Op Res σ α ι) :
    Shared Op Res σ α ι → Prop
  | call {o : Op} {k : Res o → Program Op Res α} {r : Res o} {state : σ} :
      (s.party i).todo = .call o k → W o s.state r state →
      Step W i s ⟨state,
        Function.update s.party i ((s.party i).after (k r) s.state ⟨o, r⟩ state)⟩

variable {W : World Op Res σ} {s s' : Shared Op Res σ α ι}

/-- A step is an answer to a call, and the other parties are where they were. -/
theorem Step.cases {i : ι} (h : Step W i s s') : ∃ o k r, (s.party i).todo = .call o k ∧
    W o s.state r s'.state ∧
    s'.party i = (s.party i).after (k r) s.state ⟨o, r⟩ s'.state ∧
    ∀ j, j ≠ i → s'.party j = s.party j := by
  cases h with
  | @call o k r state htodo hW =>
    exact ⟨o, k, r, htodo, hW, Function.update_self .., fun j hj => Function.update_of_ne hj ..⟩

/-- The parties make calls in any order, as long as the condition `C` lets them. -/
inductive Reaches (W : World Op Res σ) (C : ι → Shared Op Res σ α ι → Prop)
    (s₀ : Shared Op Res σ α ι) : Shared Op Res σ α ι → Prop
  | refl : Reaches W C s₀ s₀
  | step {s s' : Shared Op Res σ α ι} (i : ι) :
      Reaches W C s₀ s → C i s → Step W i s s' → Reaches W C s₀ s'

variable {C : ι → Shared Op Res σ α ι → Prop} {s₀ : Shared Op Res σ α ι} {p : ι → Program Op Res α}

/-- What holds of the program of one party whatever the answers, holds of this party. -/
theorem Reaches.wp_one {G : World Op Res τ} {next : τ → Event Op Res → τ} {t₀ : τ} {i : ι}
    {Q : α → List (Event Op Res) → τ → Prop} {state : σ} (hwp : wp (answers next) G (p i) Q t₀)
    (h : Reaches W C (start state p) s) :
    wp (answers next) G (s.party i).todo
      (fun a es t => Q a ((s.party i).events ++ es) t) ((s.party i).events.foldl next t₀) := by
  induction h with
  | refl => exact hwp
  | step j _ _ hstep ih =>
    obtain ⟨o, k, r, htodo, -, hself, hother⟩ := hstep.cases
    by_cases hij : i = j
    · subst hij
      rw [htodo] at ih
      have hcall := (ih r _ rfl).2
      rw [hself, Party.events_after, List.foldl_append]
      simp only [List.append_assoc, List.singleton_append]
      exact hcall
    · rw [hother i hij]
      exact ih

/-- **What holds of a program whatever the answers, holds of each party.** -/
theorem Reaches.wp_party {G : World Op Res τ} {next : τ → Event Op Res → τ} {t₀ : τ}
    {Q : ι → α → List (Event Op Res) → τ → Prop} {state : σ}
    (hwp : ∀ i, wp (answers next) G (p i) (Q i) t₀) (h : Reaches W C (start state p) s) (i : ι) :
    wp (answers next) G (s.party i).todo
      (fun a es t => Q i a ((s.party i).events ++ es) t) ((s.party i).events.foldl next t₀) :=
  h.wp_one (hwp i)

/-! ### Schedules -/

/-- The party `i` makes its next call, if it has one, and `h` answers. -/
def advance (h : (o : Op) → σ → Res o × σ) (i : ι) (s : Shared Op Res σ α ι) :
    Shared Op Res σ α ι :=
  match (s.party i).todo with
  | .ret _ => s
  | .call o k => ⟨(h o s.state).2, Function.update s.party i
      ((s.party i).after (k (h o s.state).1) s.state ⟨o, (h o s.state).1⟩ (h o s.state).2)⟩

/-- The parties make their calls in the given order, if `ok` lets them. -/
def schedule (h : (o : Op) → σ → Res o × σ) (ok : ι → Shared Op Res σ α ι → Bool) :
    List ι → Shared Op Res σ α ι → Option (Shared Op Res σ α ι)
  | [], s => some s
  | i :: is, s => if ok i s then schedule h ok is (advance h i s) else none

/-- **A schedule is one of the interleavings.** -/
theorem reaches_schedule {h : (o : Op) → σ → Res o × σ} (hW : ∀ o s, W o s (h o s).1 (h o s).2)
    {ok : ι → Shared Op Res σ α ι → Bool} (hok : ∀ i s, ok i s = true → C i s) {is : List ι}
    (hs : Reaches W C s₀ s) (hsched : schedule h ok is s = some s') : Reaches W C s₀ s' := by
  induction is generalizing s with
  | nil =>
    cases hsched
    exact hs
  | cons i is ih =>
    rw [schedule] at hsched
    split_ifs at hsched with hi
    refine ih ?_ hsched
    unfold advance
    split
    · exact hs
    · next o k htodo => exact hs.step i (hok i s hi) (.call htodo (hW o s.state))

/-- What a schedule ends with is reached. -/
theorem exists_reaches {h : (o : Op) → σ → Res o × σ} (hW : ∀ o s, W o s (h o s).1 (h o s).2)
    {ok : ι → Shared Op Res σ α ι → Bool} (hok : ∀ i s, ok i s = true → C i s) {is : List ι}
    {f : Shared Op Res σ α ι → β} {b : β} (hsched : (schedule h ok is s₀).map f = some b) :
    ∃ s, Reaches W C s₀ s ∧ f s = b := by
  obtain ⟨s, hs, hb⟩ := Option.map_eq_some_iff.mp hsched
  exact ⟨s, reaches_schedule hW hok .refl hs, hb⟩

end Shared

end Program
