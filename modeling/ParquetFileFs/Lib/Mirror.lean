import Mathlib.Data.List.Basic

/-!
# Steps that mirror each other

One step function mirrors another when, on the states that are the image of
states of the other, it succeeds just when the other one does and ends in a state
that is allowed, with the image of its result.  Runs over a list of inputs then
mirror each other too.

## Main definitions

* `Mirrors` — a step is that of another state, seen through a map.

## Main results

* `Mirrors.foldlM` — runs mirror each other as their steps do.
* `foldlM_of_step` — what one step function succeeds with, another does too.
-/

variable {ε σ τ α β : Type}

/-- Steps of `f` from the image of a state under `g` are those of `f'` from the
state itself, as far as they end where `P` holds. -/
structure Mirrors (f : σ → α → Except ε σ) (f' : τ → α → Except ε τ) (g : τ → σ)
    (P : τ → Prop) : Prop where
  step : ∀ t a s, P t → (f (g t) a = .ok s ↔ ∃ t', f' t a = .ok t' ∧ P t' ∧ g t' = s)
  back : ∀ t a t', f' t a = .ok t' → P t' → P t

namespace Mirrors

/-- What a bind gives is what its second part gives for some result of the first. -/
theorem bind_eq_ok_iff {x : Except ε α} {f : α → Except ε β} {b : β} :
    (x >>= f) = .ok b ↔ ∃ a, x = .ok a ∧ f a = .ok b := by
  cases x with
  | error e =>
    constructor
    · intro h
      cases h
    · intro ⟨a, ha, _⟩
      cases ha
  | ok a =>
    constructor
    · intro h
      exact ⟨a, rfl, h⟩
    · intro ⟨a', ha, h⟩
      cases ha
      exact h

variable {f : σ → α → Except ε σ} {f' : τ → α → Except ε τ} {g : τ → σ} {P : τ → Prop}

/-- **Runs mirror each other as their steps do.** -/
theorem foldlM (h : Mirrors f f' g P) :
    Mirrors (fun s (as : List α) => as.foldlM f s) (fun t as => as.foldlM f' t) g P := by
  have hback : ∀ t (as : List α) t', as.foldlM f' t = .ok t' → P t' → P t := by
    intro t as
    induction as generalizing t with
    | nil =>
      intro t' ht' hP
      cases ht'
      exact hP
    | cons a as ih =>
      intro t' ht' hP
      rw [List.foldlM_cons] at ht'
      obtain ⟨t₁, ht₁, ht'⟩ := bind_eq_ok_iff.mp ht'
      exact h.back t a t₁ ht₁ (ih t₁ t' ht' hP)
  refine ⟨fun t as => ?_, hback⟩
  induction as generalizing t with
  | nil =>
    intro s hP
    constructor
    · intro hs
      cases hs
      exact ⟨t, rfl, hP, rfl⟩
    · intro ⟨t', ht', _, hg⟩
      cases ht'
      exact congrArg Except.ok hg
  | cons a as ih =>
    intro s hP
    simp only [List.foldlM_cons, bind_eq_ok_iff]
    constructor
    · intro ⟨s₁, hs₁, hs⟩
      obtain ⟨t₁, ht₁, hP₁, rfl⟩ := (h.step t a s₁ hP).mp hs₁
      obtain ⟨t', ht', hP', hg⟩ := (ih t₁ s hP₁).mp hs
      exact ⟨t', ⟨t₁, ht₁, ht'⟩, hP', hg⟩
    · intro ⟨t', ⟨t₁, ht₁, ht'⟩, hP', hg⟩
      have hP₁ := hback t₁ as t' ht' hP'
      exact ⟨g t₁, (h.step t a _ hP).mpr ⟨t₁, ht₁, hP₁, rfl⟩, (ih t₁ s hP₁).mpr ⟨t', ht', hP', hg⟩⟩

/-- **A run that succeeds also does with steps that give the same wherever those of the run
succeed.** -/
theorem foldlM_of_step {f f' : σ → α → Except ε σ}
    (h : ∀ s a s', f s a = .ok s' → f' s a = .ok s') {s s' : σ} {as : List α}
    (hrun : as.foldlM f s = .ok s') : as.foldlM f' s = .ok s' := by
  induction as generalizing s with
  | nil => exact hrun
  | cons a as ih =>
    rw [List.foldlM_cons] at hrun ⊢
    obtain ⟨s₁, hs₁, hrest⟩ := bind_eq_ok_iff.mp hrun
    exact bind_eq_ok_iff.mpr ⟨s₁, h s a s₁ hs₁, ih hrest⟩

end Mirrors
