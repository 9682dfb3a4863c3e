import Mathlib.Tactic

/-!
# Programs that call a world

A program is a tree: it has finished with a result, or it calls an operation of
the world and continues with whatever response comes back.  A world says which
responses and which next states each operation admits, so one program has many
runs, and a fault is a response like any other.

## Main definitions

* `Program`, `World`, `Run` — programs, worlds, and the runs of a program in a
  world, with the calls made along them.
* `wp` — the weakest precondition for a guarantee on every single call and a
  postcondition on the result, the calls made and the final state.
* `Mimics` — the runs of one program are, call for call, runs of another.
* `exec`, `trace` — the run in which a handler fixes every response, and the
  calls along it.
* `supply` — a program with the responses to some operations given.

## Main results

* `wp_bind`, `wp_andThen`, `wp_onError`, `wp_andFinally`, `wp_mono`,
  `wp_weaken`, `wp_and` — the composition, consequence and conjunction rules.
* `wp_sound`, `chain_of_run` — **what a weakest precondition says** of a finished
  run, and of every state an unfinished one has reached.
* `wp_exec` — what it says of the run a handler picks out.
* `run_supply_iff` — the runs of a program with given responses are the runs in
  which these responses came.
-/

universe u

/-- A program over operations `Op` with responses `Res`. -/
inductive Program (Op : Type u) (Res : Op → Type u) (α : Type u) : Type u
  /-- The program has finished. -/
  | ret (a : α) : Program Op Res α
  /-- The program calls an operation and continues with the response. -/
  | call (o : Op) (k : Res o → Program Op Res α) : Program Op Res α

/-- What each operation may answer in each state, and the state it leaves. -/
abbrev World (Op : Type u) (Res : Op → Type u) (σ : Type u) : Type u :=
  (o : Op) → σ → Res o → σ → Prop

/-- A call that was made: the operation and its response. -/
abbrev Event (Op : Type u) (Res : Op → Type u) : Type u := (o : Op) × Res o

namespace Program

variable {Op : Type u} {Res : Op → Type u} {α β σ : Type u}

/-- Sequencing: the second program continues from the result of the first. -/
def bind : Program Op Res α → (α → Program Op Res β) → Program Op Res β
  | .ret a, f => f a
  | .call o k, f => .call o fun r => (k r).bind f

instance : Monad (Program Op Res) where
  pure := .ret
  bind := bind

theorem bind_assoc {γ : Type u} (p : Program Op Res α) (f : α → Program Op Res β)
    (g : β → Program Op Res γ) : (p.bind f).bind g = p.bind fun a => (f a).bind g := by
  induction p with
  | ret a => rfl
  | call o k ih => exact congrArg _ (funext ih)

/-- The program that makes one call and returns the response. -/
def perform (o : Op) : Program Op Res (Res o) := .call o .ret

@[simp] theorem pure_eq (a : α) : (pure a : Program Op Res α) = .ret a := rfl

@[simp] theorem ret_bind (a : α) (f : α → Program Op Res β) : (ret a >>= f) = f a := rfl

@[simp] theorem call_bind (o : Op) (k : Res o → Program Op Res α) (f : α → Program Op Res β) :
    (call o k >>= f) = call o fun r => k r >>= f := rfl

@[simp] theorem perform_bind (o : Op) (f : Res o → Program Op Res β) :
    (perform o >>= f) = call o f := rfl

/-- Sequencing of programs that may fail: a failure is the result of the whole. -/
def andThen {ε : Type u} (p : Program Op Res (Except ε α))
    (f : α → Program Op Res (Except ε β)) : Program Op Res (Except ε β) :=
  p >>= fun
    | .ok a => f a
    | .error e => .ret (.error e)

@[simp] theorem ret_ok_andThen {ε : Type u} (a : α) (f : α → Program Op Res (Except ε β)) :
    (ret (.ok a) : Program Op Res (Except ε α)).andThen f = f a := rfl

@[simp] theorem ret_error_andThen {ε : Type u} (e : ε) (f : α → Program Op Res (Except ε β)) :
    (ret (.error e) : Program Op Res (Except ε α)).andThen f = ret (.error e) := rfl

@[simp] theorem call_andThen {ε : Type u} (o : Op) (k : Res o → Program Op Res (Except ε α))
    (f : α → Program Op Res (Except ε β)) :
    (call o k).andThen f = call o fun r => (k r).andThen f := rfl

theorem andThen_assoc {ε : Type u} {γ : Type u} (p : Program Op Res (Except ε α))
    (f : α → Program Op Res (Except ε β)) (g : β → Program Op Res (Except ε γ)) :
    (p.andThen f).andThen g = p.andThen fun a => (f a).andThen g := by
  induction p with
  | ret r => cases r <;> rfl
  | call o k ih =>
    simp only [call_andThen]
    exact congrArg _ (funext ih)

theorem andThen_ret {ε : Type u} (p : Program Op Res (Except ε α)) :
    p.andThen (fun a => .ret (.ok a)) = p := by
  induction p with
  | ret r => cases r <;> rfl
  | call o k ih =>
    rw [call_andThen]
    exact congrArg _ (funext ih)

/-- Run a program for every element, one after the other, up to the first failure. -/
def forEach {ε : Type u} (f : α → Program Op Res (Except ε β)) :
    List α → Program Op Res (Except ε (List β))
  | [] => .ret (.ok [])
  | a :: as => (f a).andThen fun b => (forEach f as).andThen fun bs => .ret (.ok (b :: bs))

/-- Run a program and, if it fails, another one before the failure is returned. -/
def onError {ε : Type u} (p : Program Op Res (Except ε α)) (f : Program Op Res β) :
    Program Op Res (Except ε α) :=
  p >>= fun
    | .ok a => .ret (.ok a)
    | .error e => f >>= fun _ => .ret (.error e)

/-- Run a program and, whatever its result, another one after it. -/
def andFinally (p : Program Op Res α) (f : Program Op Res β) : Program Op Res α :=
  p >>= fun a => f >>= fun _ => .ret a

/-! ### Runs -/

/-- `Run W s p es s' p'`: started in state `s`, the program `p` makes the calls
`es` and reaches state `s'` with `p'` left to do. -/
inductive Run (W : World Op Res σ) :
    σ → Program Op Res α → List (Event Op Res) → σ → Program Op Res α → Prop
  | refl (s : σ) (p : Program Op Res α) : Run W s p [] s p
  | step {o : Op} {k : Res o → Program Op Res α} {s s' s'' : σ} {r : Res o}
      {es : List (Event Op Res)} {p' : Program Op Res α} :
      W o s r s' → Run W s' (k r) es s'' p' → Run W s (.call o k) (⟨o, r⟩ :: es) s'' p'

/-- A run and one more call. -/
theorem Run.snoc {W : World Op Res σ} {p : Program Op Res α} {s s' s'' : σ}
    {es : List (Event Op Res)} {o : Op} {k : Res o → Program Op Res α} {r : Res o}
    (h : Run W s p es s' (.call o k)) (hW : W o s' r s'') :
    Run W s p (es ++ [⟨o, r⟩]) s'' (k r) := by
  generalize hq : Program.call o k = q at h
  induction h with
  | refl s p =>
    subst hq
    exact .step hW (.refl _ _)
  | step hW' _ ih => exact .step hW' (ih hW hq)

/-- A sequence of calls from `s` to `s'`, each of them a step of `G`. -/
inductive Chain (G : World Op Res σ) : σ → List (Event Op Res) → σ → Prop
  | nil (s : σ) : Chain G s [] s
  | cons {o : Op} {s s' s'' : σ} {r : Res o} {es : List (Event Op Res)} :
      G o s r s' → Chain G s' es s'' → Chain G s (⟨o, r⟩ :: es) s''

/-- What every step of `G` with an event in `E` preserves, a chain of such
events preserves. -/
theorem Chain.preserves {G : World Op Res σ} {E : Event Op Res → Prop} {P : σ → Prop}
    (hstep : ∀ o s r s', G o s r s' → E ⟨o, r⟩ → P s → P s')
    {s s' : σ} {es : List (Event Op Res)} (h : Chain G s es s') (hE : ∀ e ∈ es, E e)
    (hs : P s) : P s' := by
  induction h with
  | nil => exact hs
  | cons hG _ ih =>
    exact ih (fun e he => hE e (List.mem_cons_of_mem _ he))
      (hstep _ _ _ _ hG (hE _ List.mem_cons_self) hs)

/-- What every step of `G` says of its call holds of all calls of a chain. -/
theorem Chain.forall_mem {G : World Op Res σ} {P : Event Op Res → Prop}
    (hstep : ∀ o s r s', G o s r s' → P ⟨o, r⟩) {s s' : σ} {es : List (Event Op Res)}
    (h : Chain G s es s') : ∀ e ∈ es, P e := by
  induction h with
  | nil => simp
  | cons hG _ ih => exact List.forall_mem_cons.mpr ⟨hstep _ _ _ _ hG, ih⟩

/-- A run of the first program, and then a run of what follows its result. -/
theorem Run.bind {W : World Op Res σ} {p : Program Op Res α} {f : α → Program Op Res β}
    {s s' s'' : σ} {es es' : List (Event Op Res)} {a : α} {q : Program Op Res β}
    (hp : Run W s p es s' (.ret a)) (hf : Run W s' (f a) es' s'' q) :
    Run W s (p >>= f) (es ++ es') s'' q := by
  generalize hr : Program.ret a = p' at hp
  induction hp with
  | refl s p =>
    subst hr
    exact hf
  | step hW _ ih => exact .step hW (ih hf hr)

theorem Run.andThen {ε : Type u} {W : World Op Res σ} {p : Program Op Res (Except ε α)}
    {f : α → Program Op Res (Except ε β)} {s s' s'' : σ} {es es' : List (Event Op Res)} {a : α}
    {q : Program Op Res (Except ε β)} (hp : Run W s p es s' (.ret (.ok a)))
    (hf : Run W s' (f a) es' s'' q) : Run W s (p.andThen f) (es ++ es') s'' q :=
  hp.bind hf

/-- A finished program makes no calls. -/
theorem Run.of_ret {W : World Op Res σ} {s s' : σ} {es : List (Event Op Res)} {a : α}
    {p : Program Op Res α} (h : Run W s (.ret a) es s' p) : es = [] ∧ s' = s ∧ p = .ret a := by
  cases h
  exact ⟨rfl, rfl, rfl⟩

/-- Every finished run of a sequence is one of the first program and then one of
what follows its result. -/
theorem Run.of_bind {W : World Op Res σ} {p : Program Op Res α} {f : α → Program Op Res β}
    {s s'' : σ} {es : List (Event Op Res)} {b : β} (h : Run W s (p >>= f) es s'' (.ret b)) :
    ∃ a s' es₁ es₂, Run W s p es₁ s' (.ret a) ∧ Run W s' (f a) es₂ s'' (.ret b) ∧
      es = es₁ ++ es₂ := by
  induction p generalizing s es with
  | ret a => exact ⟨a, s, [], es, .refl s _, h, rfl⟩
  | call o k ih =>
    cases h with
    | step hW hrun =>
      obtain ⟨a, s', es₁, es₂, h₁, h₂, rfl⟩ := ih _ hrun
      exact ⟨a, s', _, es₂, .step hW h₁, h₂, rfl⟩

/-! ### Weakest preconditions -/

/-- The weakest precondition for `G` to hold of every call `p` makes, and for
`Q` to hold of the result, the calls made and the final state. -/
def wp (W G : World Op Res σ) : Program Op Res α →
    (α → List (Event Op Res) → σ → Prop) → σ → Prop
  | .ret a, Q, s => Q a [] s
  | .call o k, Q, s => ∀ r s', W o s r s' →
      G o s r s' ∧ wp W G (k r) (fun a es s'' => Q a (⟨o, r⟩ :: es) s'') s'

variable {W G : World Op Res σ}

@[simp] theorem wp_ret (a : α) (Q : α → List (Event Op Res) → σ → Prop) (s : σ) :
    wp W G (.ret a) Q s ↔ Q a [] s := Iff.rfl

theorem wp_mono {p : Program Op Res α} {Q Q' : α → List (Event Op Res) → σ → Prop} {s : σ}
    (hQ : ∀ a es s', Q a es s' → Q' a es s') (h : wp W G p Q s) : wp W G p Q' s := by
  induction p generalizing Q Q' s with
  | ret a => exact hQ _ _ _ h
  | call o k ih =>
    intro r s' hW
    obtain ⟨hG, hk⟩ := h r s' hW
    exact ⟨hG, ih r (fun a es s'' => hQ a _ s'') hk⟩

/-- A weaker guarantee. -/
theorem wp_weaken {G' : World Op Res σ} {p : Program Op Res α}
    {Q : α → List (Event Op Res) → σ → Prop} {s : σ} (hG : ∀ o s r s', G o s r s' → G' o s r s')
    (h : wp W G p Q s) : wp W G' p Q s := by
  induction p generalizing Q s with
  | ret a => exact h
  | call o k ih =>
    intro r s' hW
    obtain ⟨hstep, hk⟩ := h r s' hW
    exact ⟨hG _ _ _ _ hstep, ih r hk⟩

/-- Two postconditions together. -/
theorem wp_and {G' : World Op Res σ} {p : Program Op Res α}
    {Q Q' : α → List (Event Op Res) → σ → Prop} {s : σ} (h : wp W G p Q s) (h' : wp W G' p Q' s) :
    wp W G p (fun a es s' => Q a es s' ∧ Q' a es s') s := by
  induction p generalizing Q Q' s with
  | ret a => exact ⟨h, h'⟩
  | call o k ih =>
    intro r s' hW
    obtain ⟨hstep, hk⟩ := h r s' hW
    exact ⟨hstep, ih r hk (h' r s' hW).2⟩

theorem wp_bind {p : Program Op Res α} {f : α → Program Op Res β}
    {Q : β → List (Event Op Res) → σ → Prop} {s : σ}
    (h : wp W G p (fun a es s' => wp W G (f a) (fun b es' s'' => Q b (es ++ es') s'') s') s) :
    wp W G (p >>= f) Q s := by
  induction p generalizing Q s with
  | ret a => exact h
  | call o k ih =>
    intro r s' hW
    obtain ⟨hG, hk⟩ := h r s' hW
    exact ⟨hG, ih r hk⟩

theorem wp_andThen {ε : Type u} {p : Program Op Res (Except ε α)}
    {f : α → Program Op Res (Except ε β)}
    {Q : Except ε β → List (Event Op Res) → σ → Prop} {s : σ}
    (h : wp W G p (fun r es s' => match r with
      | .ok a => wp W G (f a) (fun r' es' s'' => Q r' (es ++ es') s'') s'
      | .error e => Q (.error e) es s') s) :
    wp W G (p.andThen f) Q s := by
  refine wp_bind (wp_mono (fun r es s' hr => ?_) h)
  cases r with
  | ok a => exact hr
  | error e => simpa using hr

theorem wp_onError {ε : Type u} {p : Program Op Res (Except ε α)} {f : Program Op Res β}
    {Q : Except ε α → List (Event Op Res) → σ → Prop} {s : σ}
    (h : wp W G p (fun r es s' => match r with
      | .ok a => Q (.ok a) es s'
      | .error e => wp W G f (fun _ es' s'' => Q (.error e) (es ++ es') s'') s') s) :
    wp W G (p.onError f) Q s := by
  refine wp_bind (wp_mono (fun r es s' hr => ?_) h)
  cases r with
  | ok a => simpa using hr
  | error e =>
    refine wp_bind (wp_mono (fun _ es' s'' hf => ?_) hr)
    simpa using hf

theorem wp_andFinally {p : Program Op Res α} {f : Program Op Res β}
    {Q : α → List (Event Op Res) → σ → Prop} {s : σ}
    (h : wp W G p (fun a es s' => wp W G f (fun _ es' s'' => Q a (es ++ es') s'') s') s) :
    wp W G (p.andFinally f) Q s := by
  refine wp_bind (wp_mono (fun a es s' hf => ?_) h)
  refine wp_bind (wp_mono (fun _ es' s'' hQ => ?_) hf)
  simpa using hQ

/-- A finished run satisfies the postcondition. -/
theorem wp_sound {p : Program Op Res α} {Q : α → List (Event Op Res) → σ → Prop} {s s' : σ}
    {es : List (Event Op Res)} {a : α} (h : wp W G p Q s) (hrun : Run W s p es s' (.ret a)) :
    Q a es s' := by
  generalize hp : Program.ret a = p' at hrun
  -- the postcondition changes along the run: it takes up the calls made
  induction hrun generalizing Q with
  | refl s p => subst hp; exact h
  | step hW _ ih => exact ih (h _ _ hW).2 hp

/-- Every call made along a run satisfies the guarantee. -/
theorem chain_of_run {p p' : Program Op Res α} {Q : α → List (Event Op Res) → σ → Prop}
    {s s' : σ} {es : List (Event Op Res)} (h : wp W G p Q s) (hrun : Run W s p es s' p') :
    Chain G s es s' := by
  induction hrun generalizing Q with
  | refl s p => exact .nil s
  | step hW _ ih =>
    obtain ⟨hG, hk⟩ := h _ _ hW
    exact .cons hG (ih hk)

/-! ### Programs that do alike -/

/-- Every finished run of `p` is one of `q`, with each call as `f` says. -/
def Mimics (W : World Op Res σ) (f : Event Op Res → Event Op Res) (p q : Program Op Res α)
    (s : σ) : Prop :=
  ∀ es s' a, Run W s p es s' (.ret a) → Run W s q (es.map f) s' (.ret a)

theorem Mimics.refl {f : Event Op Res → Event Op Res} {p : Program Op Res α} {s : σ}
    (h : ∀ es s' a, Run W s p es s' (.ret a) → es.map f = es) : Mimics W f p p s := by
  intro es s' a hrun
  rwa [h es s' a hrun]

theorem Mimics.ret (f : Event Op Res → Event Op Res) (a : α) (s : σ) :
    Mimics W f (.ret a) (.ret a) s := by
  intro es s' b hrun
  obtain ⟨rfl, -, -⟩ := hrun.of_ret
  exact hrun

theorem Mimics.call {f : Event Op Res → Event Op Res} {o o' : Op}
    {k : Res o → Program Op Res α} {k' : Res o' → Program Op Res α} {s : σ}
    (h : ∀ r s', W o s r s' → ∃ r', f ⟨o, r⟩ = ⟨o', r'⟩ ∧ W o' s r' s' ∧
      Mimics W f (k r) (k' r') s') : Mimics W f (.call o k) (.call o' k') s := by
  intro es s' a hrun
  cases hrun with
  | step hW hrest =>
    obtain ⟨r', hf, hW', hk⟩ := h _ _ hW
    rw [List.map_cons, hf]
    exact .step hW' (hk _ _ _ hrest)

/-- What follows is to do alike after each result that can come. -/
theorem Mimics.bind {f : Event Op Res → Event Op Res} {p q : Program Op Res α}
    {g g' : α → Program Op Res β} {s : σ} (h : Mimics W f p q s)
    (hg : ∀ es s' a, Run W s p es s' (.ret a) → Mimics W f (g a) (g' a) s') :
    Mimics W f (p >>= g) (q >>= g') s := by
  intro es s' b hrun
  obtain ⟨a, s₁, es₁, es₂, hp, hrest, rfl⟩ := hrun.of_bind
  rw [List.map_append]
  exact (h _ _ _ hp).bind (hg _ _ _ hp _ _ _ hrest)

theorem Mimics.andThen {ε : Type u} {f : Event Op Res → Event Op Res}
    {p q : Program Op Res (Except ε α)} {g g' : α → Program Op Res (Except ε β)} {s : σ}
    (h : Mimics W f p q s)
    (hg : ∀ es s' a, Run W s p es s' (.ret (.ok a)) → Mimics W f (g a) (g' a) s') :
    Mimics W f (p.andThen g) (q.andThen g') s := by
  refine h.bind fun es s' r hrun => ?_
  cases r with
  | error e => exact .ret f _ s'
  | ok a => exact hg es s' a hrun

/-! ### Handlers -/

/-- The run in which the handler `h` gives every response. -/
def exec (h : (o : Op) → σ → Res o × σ) : Program Op Res α → σ → α × σ
  | .ret a, s => (a, s)
  | .call o k, s => exec h (k (h o s).1) (h o s).2

@[simp] theorem exec_ret (h : (o : Op) → σ → Res o × σ) (a : α) (s : σ) :
    exec h (.ret a) s = (a, s) := rfl

@[simp] theorem exec_call (h : (o : Op) → σ → Res o × σ) (o : Op)
    (k : Res o → Program Op Res α) (s : σ) :
    exec h (.call o k) s = exec h (k (h o s).1) (h o s).2 := rfl

theorem exec_bind (h : (o : Op) → σ → Res o × σ) (p : Program Op Res α)
    (f : α → Program Op Res β) (s : σ) :
    exec h (p >>= f) s = exec h (f (exec h p s).1) (exec h p s).2 := by
  induction p generalizing s with
  | ret a => rfl
  | call o k ih => exact ih _ _

theorem exec_andThen {ε : Type u} (h : (o : Op) → σ → Res o × σ)
    {p : Program Op Res (Except ε α)} {f : α → Program Op Res (Except ε β)} {s : σ} {a : α}
    (hp : (exec h p s).1 = .ok a) : exec h (p.andThen f) s = exec h (f a) (exec h p s).2 := by
  rw [andThen, exec_bind, hp]

theorem exec_andThen_error {ε : Type u} (h : (o : Op) → σ → Res o × σ)
    {p : Program Op Res (Except ε α)} {f : α → Program Op Res (Except ε β)} {s : σ} {e : ε}
    (hp : (exec h p s).1 = .error e) : exec h (p.andThen f) s = (.error e, (exec h p s).2) := by
  rw [andThen, exec_bind, hp]
  rfl

/-- Two programs that start alike and go on alike. -/
theorem exec_andThen_congr {ε : Type u} (h : (o : Op) → σ → Res o × σ)
    {p p' : Program Op Res (Except ε α)} {f f' : α → Program Op Res (Except ε β)} {s : σ}
    (hp : exec h p s = exec h p' s)
    (hf : ∀ a, (exec h p' s).1 = .ok a →
      exec h (f a) (exec h p' s).2 = exec h (f' a) (exec h p' s).2) :
    exec h (p.andThen f) s = exec h (p'.andThen f') s := by
  rw [andThen, andThen, exec_bind, exec_bind, hp]
  cases hres : (exec h p' s).1 with
  | ok a => exact hf a hres
  | error e => rfl

theorem exec_onError_congr {ε : Type u} (h : (o : Op) → σ → Res o × σ)
    {p p' : Program Op Res (Except ε α)} {f : Program Op Res β} {s : σ}
    (hp : exec h p s = exec h p' s) : exec h (p.onError f) s = exec h (p'.onError f) s := by
  rw [onError, onError, exec_bind, exec_bind, hp]

theorem exec_onError {ε : Type u} (h : (o : Op) → σ → Res o × σ)
    {p : Program Op Res (Except ε α)} {f : Program Op Res β} {s : σ} {a : α}
    (hp : (exec h p s).1 = .ok a) : exec h (p.onError f) s = exec h p s := by
  rw [onError, exec_bind, hp]
  exact Prod.ext hp.symm rfl

theorem exec_onError_error {ε : Type u} (h : (o : Op) → σ → Res o × σ)
    {p : Program Op Res (Except ε α)} {f : Program Op Res β} {s : σ} {e : ε}
    (hp : (exec h p s).1 = .error e) : (exec h (p.onError f) s).1 = .error e := by
  rw [onError, exec_bind, hp]
  dsimp only
  rw [exec_bind]
  rfl

theorem exec_andFinally (h : (o : Op) → σ → Res o × σ) (p : Program Op Res α)
    (f : Program Op Res β) (s : σ) : (exec h (p.andFinally f) s).1 = (exec h p s).1 := by
  rw [andFinally, exec_bind, exec_bind]
  rfl

/-- What every answer of a handler preserves, its run preserves. -/
theorem exec_preserves {h : (o : Op) → σ → Res o × σ} {P : σ → Prop}
    (hstep : ∀ o s, P s → P (h o s).2) (p : Program Op Res α) {s : σ} (hs : P s) :
    P (exec h p s).2 := by
  induction p generalizing s with
  | ret a => exact hs
  | call o k ih => exact ih _ (hstep o s hs)

/-- A handler of the world picks out one of its runs, and the calls of this run
are as its answers are. -/
theorem run_exec_forall {h : (o : Op) → σ → Res o × σ} {P : Event Op Res → Prop}
    (hW : ∀ o s, W o s (h o s).1 (h o s).2) (hP : ∀ o s, P ⟨o, (h o s).1⟩)
    (p : Program Op Res α) (s : σ) :
    ∃ es, Run W s p es (exec h p s).2 (.ret (exec h p s).1) ∧ ∀ e ∈ es, P e := by
  induction p generalizing s with
  | ret a => exact ⟨[], .refl s _, by simp⟩
  | call o k ih =>
    obtain ⟨es, hrun, hes⟩ := ih (h o s).1 (h o s).2
    exact ⟨_, .step (hW o s) hrun, List.forall_mem_cons.mpr ⟨hP o s, hes⟩⟩

/-- A handler of the world picks out one of its runs. -/
theorem run_exec {h : (o : Op) → σ → Res o × σ} (hW : ∀ o s, W o s (h o s).1 (h o s).2)
    (p : Program Op Res α) (s : σ) :
    ∃ es, Run W s p es (exec h p s).2 (.ret (exec h p s).1) := by
  obtain ⟨es, hrun, -⟩ := run_exec_forall (P := fun _ => True) hW (fun _ _ => trivial) p s
  exact ⟨es, hrun⟩

/-- The run a handler of the world picks out satisfies the postcondition. -/
theorem wp_exec {W G : World Op Res σ} {h : (o : Op) → σ → Res o × σ}
    (hW : ∀ o s, W o s (h o s).1 (h o s).2) {p : Program Op Res α}
    {Q : α → List (Event Op Res) → σ → Prop} {s : σ} (hwp : wp W G p Q s) :
    ∃ es, Q (exec h p s).1 es (exec h p s).2 := by
  obtain ⟨es, hrun⟩ := run_exec hW p s
  exact ⟨es, wp_sound hwp hrun⟩

/-- The calls of the run in which the handler `h` gives every response. -/
def trace (h : (o : Op) → σ → Res o × σ) : Program Op Res α → σ → List (Event Op Res)
  | .ret _, _ => []
  | .call o k, s => ⟨o, (h o s).1⟩ :: trace h (k (h o s).1) (h o s).2

@[simp] theorem trace_ret (h : (o : Op) → σ → Res o × σ) (a : α) (s : σ) :
    trace h (.ret a) s = [] := rfl

@[simp] theorem trace_call (h : (o : Op) → σ → Res o × σ) (o : Op)
    (k : Res o → Program Op Res α) (s : σ) :
    trace h (.call o k) s = ⟨o, (h o s).1⟩ :: trace h (k (h o s).1) (h o s).2 := rfl

/-- The calls are those of the run the handler picks out. -/
theorem run_trace {W : World Op Res σ} {h : (o : Op) → σ → Res o × σ}
    (hW : ∀ o s, W o s (h o s).1 (h o s).2) (p : Program Op Res α) (s : σ) :
    Run W s p (trace h p s) (exec h p s).2 (.ret (exec h p s).1) := by
  induction p generalizing s with
  | ret a => exact .refl s _
  | call o k ih => exact .step (hW o s) (ih _ _)

theorem trace_bind (h : (o : Op) → σ → Res o × σ) (p : Program Op Res α)
    (f : α → Program Op Res β) (s : σ) :
    trace h (p >>= f) s = trace h p s ++ trace h (f (exec h p s).1) (exec h p s).2 := by
  induction p generalizing s with
  | ret a => rfl
  | call o k ih => exact congrArg _ (ih _ _)

theorem trace_andThen {ε : Type u} (h : (o : Op) → σ → Res o × σ)
    {p : Program Op Res (Except ε α)} {f : α → Program Op Res (Except ε β)} {s : σ} {a : α}
    (hp : (exec h p s).1 = .ok a) :
    trace h (p.andThen f) s = trace h p s ++ trace h (f a) (exec h p s).2 := by
  rw [andThen, trace_bind, hp]

theorem trace_andThen_error {ε : Type u} (h : (o : Op) → σ → Res o × σ)
    {p : Program Op Res (Except ε α)} {f : α → Program Op Res (Except ε β)} {s : σ} {e : ε}
    (hp : (exec h p s).1 = .error e) : trace h (p.andThen f) s = trace h p s := by
  rw [andThen, trace_bind, hp]
  exact List.append_nil _

/-- A pure end of a program makes no calls. -/
theorem exec_andThen_ret {ε : Type u} (h : (o : Op) → σ → Res o × σ)
    (p : Program Op Res (Except ε α)) (f : α → Except ε β) (s : σ) :
    (exec h (p.andThen fun a => .ret (f a)) s).2 = (exec h p s).2 ∧
      trace h (p.andThen fun a => .ret (f a)) s = trace h p s := by
  cases hp : (exec h p s).1 with
  | error e => exact ⟨by rw [exec_andThen_error h hp], trace_andThen_error h hp⟩
  | ok a =>
    exact ⟨by rw [exec_andThen h hp]; rfl, by rw [trace_andThen h hp]; exact List.append_nil _⟩

/-! ### Given responses -/

/-- The program, with the operations that `given` answers answered so. -/
def supply (given : (o : Op) → Option (Res o)) : Program Op Res α → Program Op Res α
  | .ret a => .ret a
  | .call o k =>
      match given o with
      | some r => supply given (k r)
      | none => .call o fun r => supply given (k r)

section Supply

variable {given : (o : Op) → Option (Res o)}

@[simp] theorem supply_ret (a : α) : supply given (.ret a : Program Op Res α) = .ret a := rfl

theorem supply_call_of_some {o : Op} {r : Res o} (h : given o = some r)
    (k : Res o → Program Op Res α) : supply given (.call o k) = supply given (k r) := by
  rw [supply, h]

theorem supply_call_of_none {o : Op} (h : given o = none) (k : Res o → Program Op Res α) :
    supply given (.call o k) = .call o fun r => supply given (k r) := by
  rw [supply, h]

theorem supply_bind (p : Program Op Res α) (f : α → Program Op Res β) :
    supply given (p >>= f) = supply given p >>= fun a => supply given (f a) := by
  induction p with
  | ret a => rfl
  | call o k ih =>
    rw [call_bind]
    cases h : given o with
    | some r => rw [supply_call_of_some h, supply_call_of_some h, ih]
    | none =>
      rw [supply_call_of_none h, supply_call_of_none h, call_bind]
      exact congrArg _ (funext ih)

theorem supply_andThen {ε : Type u} (p : Program Op Res (Except ε α))
    (f : α → Program Op Res (Except ε β)) :
    supply given (p.andThen f) = (supply given p).andThen fun a => supply given (f a) := by
  rw [andThen, andThen, supply_bind]
  refine congrArg _ (funext fun r => ?_)
  cases r <;> rfl

/-- The responses that came are the given ones. -/
def Given (given : (o : Op) → Option (Res o)) (e : Event Op Res) : Prop :=
  ∀ r, given e.1 = some r → e.2 = r

/-- **The runs of a program with given responses are the runs in which these
responses came**, where they leave the state alone. -/
theorem run_supply_iff (hgiven : ∀ o r, given o = some r → ∀ s s', W o s r s' ↔ s' = s)
    {p : Program Op Res α} {s s' : σ} {a : α} {es' : List (Event Op Res)} :
    Run W s (supply given p) es' s' (.ret a) ↔
      ∃ es, Run W s p es s' (.ret a) ∧ (∀ e ∈ es, Given given e) ∧
        es.filter (fun e => (given e.1).isNone) = es' := by
  induction p generalizing s es' with
  | ret b =>
    constructor
    · intro h
      obtain ⟨rfl, -, -⟩ := h.of_ret
      exact ⟨[], h, by simp, rfl⟩
    · intro ⟨es, h, _, hes⟩
      obtain ⟨rfl, -, -⟩ := h.of_ret
      rw [← hes]
      exact h
  | call o k ih =>
    cases ho : given o with
    | some r =>
      rw [supply_call_of_some ho, ih]
      constructor
      · intro ⟨es, hrun, hes, hfilter⟩
        refine ⟨⟨o, r⟩ :: es, .step ((hgiven o r ho s s).mpr rfl) hrun, ?_, by simp [ho, hfilter]⟩
        refine List.forall_mem_cons.mpr ⟨fun r' hr' => ?_, hes⟩
        exact Option.some.inj (ho.symm.trans hr')
      · intro ⟨es, hrun, hes, hfilter⟩
        cases hrun with
        | step hW hrest =>
          obtain ⟨hhead, hes⟩ := List.forall_mem_cons.mp hes
          have hr := hhead r ho
          simp only at hr
          subst hr
          rw [(hgiven o _ ho _ _).mp hW] at hrest
          exact ⟨_, hrest, hes, by simpa [ho] using hfilter⟩
    | none =>
      rw [supply_call_of_none ho]
      constructor
      · intro hrun
        cases hrun with
        | step hW hrest =>
          obtain ⟨es, hrun, hes, hfilter⟩ := (ih _).mp hrest
          refine ⟨_ :: es, .step hW hrun, ?_, by simp [ho, hfilter]⟩
          exact List.forall_mem_cons.mpr ⟨fun r' hr' => by simp [ho] at hr', hes⟩
      · intro ⟨es, hrun, hes, hfilter⟩
        cases hrun with
        | step hW hrest =>
          rw [List.filter_cons_of_pos (by simp [ho])] at hfilter
          subst hfilter
          exact .step hW ((ih _).mpr ⟨_, hrest, (List.forall_mem_cons.mp hes).2, rfl⟩)

end Supply

end Program
