import ParquetFileFs.Lib.Program
import Mathlib.Logic.Relation

/-!
# Pools of programs over one shared state

Any number of calls run at once, each of them a program started for a request.
At every step one call makes its next operation on the shared state, or a new
call starts, or the environment changes the state.  Nothing is assumed of the
schedule.

A property of all results follows from a contract for the operations: what must
hold of an operation for it to be called, and what its response then satisfies.
Programs are checked against the contract one by one.  A call that got better
responses than the contract promises keeps to what these promise: what it got is
in the calls of the run.

## Main definitions

* `Pool`, `PoolStep`, `Reachable` — the pools and their runs.
* `Contract`, `Program.Meets` — contracts, and programs that keep to one.
* `UpTo` — the same result, or a fault.
* `Contract.Holds` — a world in which an invariant secures the contract.
* `CallAt`, `Moves`, `callsOf` — a step of one call, runs with the calls made in
  them, and those of one call.
* `Program.After` — the program that is left after some calls.

## Main results

* `meets_bind`, `meets_andThen`, `meets_forEach` — the rules for composed programs.
* `pool_invariant` — **in every reachable pool the invariant holds and every
  call keeps to the contract**.
* `Moves.after`, `Moves.post` — what a call has left is what its own calls have left
  of its program, and all calls get what the contract says.
-/

universe u

variable {Op : Type u} {Res : Op → Type u} {α β σ Req : Type u}

/-- What may be called, and what the response then satisfies. -/
structure Contract (Op : Type u) (Res : Op → Type u) where
  /-- The operations that may be called. -/
  pre : Op → Prop
  /-- What a response satisfies. -/
  post : (o : Op) → Res o → Prop

namespace Program

/-- The program calls only what it may, and whatever allowed responses it gets,
its result satisfies `Q`. -/
def Meets (C : Contract Op Res) : Program Op Res α → (α → Prop) → Prop
  | .ret a, Q => Q a
  | .call o k, Q => C.pre o ∧ ∀ r, C.post o r → Meets C (k r) Q

variable {C : Contract Op Res}

theorem meets_bind {p : Program Op Res α} {f : α → Program Op Res β} {P : α → Prop} {Q : β → Prop}
    (hp : p.Meets C P) (hf : ∀ a, P a → (f a).Meets C Q) : (p >>= f).Meets C Q := by
  induction p with
  | ret a => exact hf a hp
  | call o k ih => exact ⟨hp.1, fun r hr => ih r (hp.2 r hr)⟩

theorem meets_andThen {ε : Type u} {p : Program Op Res (Except ε α)}
    {f : α → Program Op Res (Except ε β)} {P : Except ε α → Prop} {Q : Except ε β → Prop}
    (hp : p.Meets C P) (herr : ∀ e, P (.error e) → Q (.error e))
    (hf : ∀ a, P (.ok a) → (f a).Meets C Q) : (p.andThen f).Meets C Q := by
  refine meets_bind hp fun r hr => ?_
  cases r with
  | error e => exact herr e hr
  | ok a => exact hf a hr

/-! ### Results up to faults -/

/-- The same result, or a fault. -/
def UpTo {ε : Type u} (F : ε → Prop) (x r : Except ε α) : Prop := r = x ∨ ∃ e, F e ∧ r = .error e

variable {ε : Type u} {F : ε → Prop}

theorem UpTo.ok {x : Except ε α} {a : α} (h : UpTo F x (.ok a)) : x = .ok a := by
  rcases h with h | ⟨e, -, h⟩
  · exact h.symm
  · cases h

theorem meets_ret_upTo (x : Except ε α) :
    (Program.ret x : Program Op Res (Except ε α)).Meets C (UpTo F x) := Or.inl rfl

theorem meets_andThen_upTo {p : Program Op Res (Except ε α)} {f : α → Program Op Res (Except ε β)}
    {x : Except ε α} {g : α → Except ε β} (hp : p.Meets C (UpTo F x))
    (hf : ∀ a, x = .ok a → (f a).Meets C (UpTo F (g a))) :
    (p.andThen f).Meets C (UpTo F (x.bind g)) := by
  refine meets_andThen hp (fun e he => ?_) fun a ha => ?_
  · rcases he with rfl | ⟨e', hfault, he⟩
    · exact Or.inl rfl
    · cases he
      exact Or.inr ⟨e, hfault, rfl⟩
  · have hx := ha.ok
    subst hx
    exact hf a rfl

theorem meets_map_upTo {p : Program Op Res (Except ε α)} {f : α → β} {x : Except ε α}
    (hp : p.Meets C (UpTo F x)) :
    (p.andThen fun a => .ret (.ok (f a))).Meets C (UpTo F (x.map f)) := by
  have hbind : x.map f = x.bind fun a => .ok (f a) := by cases x <;> rfl
  rw [hbind]
  exact meets_andThen_upTo hp fun a _ => meets_ret_upTo _

/-- A program for every element gives what all of them give, up to the first fault. -/
theorem meets_forEach {f : α → Program Op Res (Except ε β)} {g : α → Except ε β} {as : List α}
    (h : ∀ a ∈ as, (f a).Meets C (UpTo F (g a))) :
    (forEach f as).Meets C (UpTo F (as.mapM g)) := by
  induction as with
  | nil => exact meets_ret_upTo _
  | cons a as ih =>
    rw [List.forall_mem_cons] at h
    rw [List.mapM_cons]
    refine meets_andThen_upTo h.1 fun b _ => ?_
    exact meets_map_upTo (ih h.2)

end Program

/-- The invariant `I` of the states secures the contract in the world `W`. -/
def Contract.Holds (C : Contract Op Res) (W : World Op Res σ) (I : σ → Prop) : Prop :=
  ∀ o s r s', W o s r s' → I s → C.pre o → C.post o r ∧ I s'

/-- A call in progress: the request it serves, and what is left to do. -/
structure Thread (Op : Type u) (Res : Op → Type u) (Req α : Type u) where
  request : Req
  program : Program Op Res α

/-- The shared state, and all calls made so far. -/
structure Pool (Op : Type u) (Res : Op → Type u) (Req α σ : Type u) where
  state : σ
  threads : List (Thread Op Res Req α)

/-- One step of a pool. -/
inductive PoolStep (W : World Op Res σ) (env : σ → σ → Prop) (start : Req → Program Op Res α) :
    Pool Op Res Req α σ → Pool Op Res Req α σ → Prop
  /-- A new call starts. -/
  | spawn (s : σ) (ts : List (Thread Op Res Req α)) (q : Req) :
      PoolStep W env start ⟨s, ts⟩ ⟨s, ts ++ [⟨q, start q⟩]⟩
  /-- A call makes its next operation. -/
  | call {s s' : σ} {ts : List (Thread Op Res Req α)} {i : ℕ} {q : Req} {o : Op}
      {k : Res o → Program Op Res α} {r : Res o} :
      ts[i]? = some ⟨q, .call o k⟩ → W o s r s' →
        PoolStep W env start ⟨s, ts⟩ ⟨s', ts.set i ⟨q, k r⟩⟩
  /-- The environment changes the state. -/
  | environment {s s' : σ} (ts : List (Thread Op Res Req α)) :
      env s s' → PoolStep W env start ⟨s, ts⟩ ⟨s', ts⟩

/-- The pools that can be reached from state `s` without calls. -/
def Reachable (W : World Op Res σ) (env : σ → σ → Prop) (start : Req → Program Op Res α) (s : σ) :
    Pool Op Res Req α σ → Prop :=
  Relation.ReflTransGen (PoolStep W env start) ⟨s, []⟩

variable {W : World Op Res σ} {env : σ → σ → Prop} {start : Req → Program Op Res α}
  {C : Contract Op Res} {I : σ → Prop} {Q : Req → α → Prop}

/-- The invariant holds and every call keeps to the contract. -/
structure PoolInv (C : Contract Op Res) (I : σ → Prop) (Q : Req → α → Prop)
    (c : Pool Op Res Req α σ) : Prop where
  state : I c.state
  threads : ∀ t ∈ c.threads, t.program.Meets C (Q t.request)

/-- One step keeps the invariant. -/
theorem PoolStep.preserves (hC : C.Holds W I) (henv : ∀ s s', env s s' → I s → I s')
    (hstart : ∀ q, (start q).Meets C (Q q)) {c c' : Pool Op Res Req α σ}
    (h : PoolStep W env start c c') (hc : PoolInv C I Q c) : PoolInv C I Q c' := by
  cases h with
  | spawn s ts q =>
    refine ⟨hc.state, fun t ht => ?_⟩
    rcases List.mem_append.mp ht with ht | ht
    · exact hc.threads t ht
    · rw [List.mem_singleton] at ht
      subst ht
      exact hstart q
  | @call s s' ts i q o k r hget hW =>
    -- the call that moves kept to the contract, so its response is one it is ready for
    have hmeets := hc.threads _ (List.mem_of_getElem? hget)
    obtain ⟨hpost, hI⟩ := hC o s r s' hW hc.state hmeets.1
    refine ⟨hI, fun t ht => ?_⟩
    rcases List.mem_or_eq_of_mem_set ht with ht | rfl
    · exact hc.threads t ht
    · exact hmeets.2 r hpost
  | environment ts he => exact ⟨henv _ _ he hc.state, hc.threads⟩

/-- **In every reachable pool the invariant holds and every call keeps to the
contract.** -/
theorem pool_invariant (hC : C.Holds W I) (henv : ∀ s s', env s s' → I s → I s')
    (hstart : ∀ q, (start q).Meets C (Q q)) {s : σ} (hs : I s) {c : Pool Op Res Req α σ}
    (h : Reachable W env start s c) : PoolInv C I Q c := by
  induction h with
  | refl => exact ⟨hs, by simp⟩
  | tail _ hstep ih => exact hstep.preserves hC henv hstart ih

/-- A program that keeps to the contract, run on its own from a state where the
invariant holds. -/
theorem Program.Meets.exec {h : (o : Op) → σ → Res o × σ} (hC : C.Holds W I)
    (hW : ∀ o s, W o s (h o s).1 (h o s).2) {p : Program Op Res α} {P : α → Prop}
    (hp : p.Meets C P) {s : σ} (hs : I s) : P (p.exec h s).1 ∧ I (p.exec h s).2 := by
  induction p generalizing s with
  | ret a => exact ⟨hp, hs⟩
  | call o k ih =>
    obtain ⟨hpost, hI⟩ := hC o s _ _ (hW o s) hs hp.1
    exact ih _ (hp.2 _ hpost) hI

/-! ### What is left of a program -/

namespace Program

/-- The program that is left after calls with these responses. -/
inductive After : Program Op Res α → List (Event Op Res) → Program Op Res α → Prop
  | refl {p : Program Op Res α} : After p [] p
  | snoc {p : Program Op Res α} {es : List (Event Op Res)} {o : Op} {k : Res o → Program Op Res α}
      (r : Res o) : After p es (.call o k) → After p (es ++ [⟨o, r⟩]) (k r)

/-- What is left after responses that the contract allows keeps to the contract. -/
theorem After.meets {p p' : Program Op Res α} {es : List (Event Op Res)} {P : α → Prop}
    (h : After p es p') (hes : ∀ e ∈ es, C.post e.1 e.2) (hp : p.Meets C P) : p'.Meets C P := by
  induction h with
  | refl => exact hp
  | snoc r _ ih =>
    rw [List.forall_mem_append, List.forall_mem_singleton] at hes
    exact (ih hes.1).2 r hes.2

end Program

/-! ### Runs with their calls -/

variable (W) in
/-- The call at place `i` makes its next operation. -/
inductive CallAt (i : ℕ) : Event Op Res → Pool Op Res Req α σ → Pool Op Res Req α σ → Prop
  | intro {s s' : σ} {ts : List (Thread Op Res Req α)} {q : Req} {o : Op}
      {k : Res o → Program Op Res α} {r : Res o} : ts[i]? = some ⟨q, .call o k⟩ → W o s r s' →
        CallAt i ⟨o, r⟩ ⟨s, ts⟩ ⟨s', ts.set i ⟨q, k r⟩⟩

variable (W env start) in
/-- A run, and the calls made in it: at which place, and what. -/
inductive Moves : Pool Op Res Req α σ → List (ℕ × Event Op Res) → Pool Op Res Req α σ → Prop
  | refl {c : Pool Op Res Req α σ} : Moves c [] c
  | move {c c' c'' : Pool Op Res Req α σ} {ms : List (ℕ × Event Op Res)} {i : ℕ}
      {e : Event Op Res} : Moves c ms c' → CallAt W i e c' c'' → Moves c (ms ++ [(i, e)]) c''
  | spawn {c : Pool Op Res Req α σ} {s : σ} {ts : List (Thread Op Res Req α)}
      {ms : List (ℕ × Event Op Res)} (q : Req) :
      Moves c ms ⟨s, ts⟩ → Moves c ms ⟨s, ts ++ [⟨q, start q⟩]⟩
  | environment {c : Pool Op Res Req α σ} {s s' : σ} {ts : List (Thread Op Res Req α)}
      {ms : List (ℕ × Event Op Res)} : Moves c ms ⟨s, ts⟩ → env s s' → Moves c ms ⟨s', ts⟩

/-- What the call at place `i` did. -/
def callsOf (i : ℕ) (ms : List (ℕ × Event Op Res)) : List (Event Op Res) :=
  (ms.filter fun m => m.1 = i).map Prod.snd

section Moves

variable {ms : List (ℕ × Event Op Res)} {i j : ℕ} {e : Event Op Res}

theorem mem_callsOf : e ∈ callsOf i ms ↔ (i, e) ∈ ms := by
  simp [callsOf]

@[simp] theorem callsOf_concat :
    callsOf i (ms ++ [(j, e)]) = callsOf i ms ++ if j = i then [e] else [] := by
  by_cases hij : j = i <;> simp [callsOf, hij]

/-- A run without its calls. -/
theorem Moves.reachable {s : σ} {c : Pool Op Res Req α σ} (h : Moves W env start ⟨s, []⟩ ms c) :
    Reachable W env start s c := by
  induction h with
  | refl => exact .refl
  | move _ hcall ih =>
    obtain ⟨hget, hW⟩ := hcall
    exact ih.tail (.call hget hW)
  | spawn q _ ih => exact ih.tail (.spawn _ _ q)
  | environment _ he ih => exact ih.tail (.environment _ he)

/-- Every call has what its own calls have left of its program. -/
structure Left (start : Req → Program Op Res α) (ms : List (ℕ × Event Op Res))
    (c : Pool Op Res Req α σ) : Prop where
  thread : ∀ i t, c.threads[i]? = some t →
    (start t.request).After (callsOf i ms) t.program
  absent : ∀ i, c.threads.length ≤ i → callsOf i ms = []

theorem CallAt.left {c c' : Pool Op Res Req α σ} (h : CallAt W j e c c')
    (hc : Left start ms c) : Left start (ms ++ [(j, e)]) c' := by
  obtain @⟨s, s', ts, q, o, k, r, hget, -⟩ := h
  have hlt : j < ts.length := (List.getElem?_eq_some_iff.mp hget).1
  refine ⟨fun i t ht => ?_, fun i hi => ?_⟩
  · by_cases hij : j = i
    · subst hij
      rw [List.getElem?_set_self hlt, Option.some.injEq] at ht
      subst ht
      rw [callsOf_concat, if_pos rfl]
      exact .snoc r (hc.thread j _ hget)
    · rw [List.getElem?_set_ne hij] at ht
      simpa [hij] using hc.thread i t ht
  · rw [List.length_set] at hi
    have hij : j ≠ i := by omega
    simpa [hij] using hc.absent i hi

theorem Moves.left {s : σ} {c : Pool Op Res Req α σ} (h : Moves W env start ⟨s, []⟩ ms c) :
    Left start ms c := by
  induction h with
  | refl => exact ⟨fun i t ht => by simp at ht, fun i _ => rfl⟩
  | move _ hcall ih => exact hcall.left ih
  | @spawn s' ts ms q _ ih =>
    refine ⟨fun i t ht => ?_, fun i hi => ih.absent i ?_⟩
    · rcases Nat.lt_trichotomy i ts.length with hlt | heq | hgt
      · rw [List.getElem?_append_left hlt] at ht
        exact ih.thread i t ht
      · -- the call that starts has done nothing
        subst heq
        rw [List.getElem?_concat_length, Option.some.injEq] at ht
        subst ht
        rw [ih.absent ts.length le_rfl]
        exact .refl
      · rw [List.getElem?_eq_none (by simp; omega)] at ht
        cases ht
    · simp only [List.length_append, List.length_singleton] at hi
      exact Nat.le_of_succ_le hi
  | environment _ _ ih => exact ⟨ih.thread, ih.absent⟩

/-- **What a call has left is what its own calls have left of its program.** -/
theorem Moves.after {s : σ} {c : Pool Op Res Req α σ} (h : Moves W env start ⟨s, []⟩ ms c)
    {t : Thread Op Res Req α} (ht : c.threads[i]? = some t) :
    (start t.request).After (callsOf i ms) t.program := h.left.thread i t ht

/-- **All calls get what the contract says.** -/
theorem Moves.post (hC : C.Holds W I) (henv : ∀ s s', env s s' → I s → I s')
    (hstart : ∀ q, (start q).Meets C (Q q)) {s : σ} (hs : I s) {c : Pool Op Res Req α σ}
    (h : Moves W env start ⟨s, []⟩ ms c) : ∀ m ∈ ms, C.post m.2.1 m.2.2 := by
  induction h with
  | refl => simp
  | move hmoves hcall ih =>
    have hinv := pool_invariant hC henv hstart hs hmoves.reachable
    obtain ⟨hget, hW⟩ := hcall
    rw [List.forall_mem_append, List.forall_mem_singleton]
    have hmeets := hinv.threads _ (List.mem_of_getElem? hget)
    exact ⟨ih, (hC _ _ _ _ hW hinv.state hmeets.1).1⟩
  | spawn q _ ih => exact ih
  | environment _ _ ih => exact ih

end Moves
