import Mathlib.Tactic

/-!
# Patterns of segments

A pattern is a list of segments.  Each stands for one segment of a name, as a
relation between the two says, except for the *deep* ones, which stand for any
number of segments.

## Main definitions

* `Matches deep m ps ts` — the segments `ts` match the pattern `ps`.

## Main results

* `matches_cons_iff`, `matches_deep_iff` — matching, by the first segment.
* `matches_append_iff` — **patterns match piece by piece.**
* `matches_literals_iff` — a pattern of literals matches itself only.
* `matches_below_iff` — a deep segment and one that matches everything match
  whatever is not empty.
-/

namespace Glob

variable {σ τ : Type*}

/-- `Matches deep m ps ts`: the segments `ts` match the pattern `ps`. -/
inductive Matches (deep : σ → Prop) (m : σ → τ → Prop) : List σ → List τ → Prop
  | nil : Matches deep m [] []
  /-- A segment that is not deep matches one segment. -/
  | cons {p : σ} {ps : List σ} {t : τ} {ts : List τ} :
      ¬deep p → m p t → Matches deep m ps ts → Matches deep m (p :: ps) (t :: ts)
  /-- A deep segment matches nothing, -/
  | skip {p : σ} {ps : List σ} {ts : List τ} :
      deep p → Matches deep m ps ts → Matches deep m (p :: ps) ts
  /-- or one segment more. -/
  | more {p : σ} {ps : List σ} {t : τ} {ts : List τ} :
      deep p → Matches deep m (p :: ps) ts → Matches deep m (p :: ps) (t :: ts)

variable {deep : σ → Prop} {m : σ → τ → Prop} {p : σ} {ps qs : List σ} {ts : List τ}

@[simp] theorem matches_nil_iff : Matches deep m [] ts ↔ ts = [] := by
  constructor
  · intro h
    cases h
    rfl
  · rintro rfl
    exact .nil

theorem matches_cons_iff (hp : ¬deep p) :
    Matches deep m (p :: ps) ts ↔ ∃ t ts', ts = t :: ts' ∧ m p t ∧ Matches deep m ps ts' := by
  constructor
  · intro h
    cases h with
    | cons _ ht hts => exact ⟨_, _, rfl, ht, hts⟩
    | skip hdeep _ => exact absurd hdeep hp
    | more hdeep _ => exact absurd hdeep hp
  · rintro ⟨t, ts', rfl, ht, hts⟩
    exact .cons hp ht hts

theorem matches_deep_iff (hp : deep p) :
    Matches deep m (p :: ps) ts ↔ ∃ ts₁ ts₂, ts = ts₁ ++ ts₂ ∧ Matches deep m ps ts₂ := by
  constructor
  · intro h
    induction ts with
    | nil =>
      cases h with
      | skip _ h => exact ⟨[], [], rfl, h⟩
    | cons t ts ih =>
      cases h with
      | cons hno _ _ => exact absurd hp hno
      | skip _ h => exact ⟨[], t :: ts, rfl, h⟩
      | more _ h =>
        obtain ⟨ts₁, ts₂, rfl, hts⟩ := ih h
        exact ⟨t :: ts₁, ts₂, rfl, hts⟩
  · rintro ⟨ts₁, ts₂, rfl, h⟩
    induction ts₁ with
    | nil => exact .skip hp h
    | cons t ts₁ ih => exact .more hp ih

/-- **Patterns match piece by piece.** -/
theorem matches_append_iff :
    Matches deep m (ps ++ qs) ts ↔
      ∃ ts₁ ts₂, ts = ts₁ ++ ts₂ ∧ Matches deep m ps ts₁ ∧ Matches deep m qs ts₂ := by
  induction ps generalizing ts with
  | nil => simp
  | cons p ps ih =>
    rw [List.cons_append]
    by_cases hp : deep p
    · rw [matches_deep_iff hp]
      constructor
      · rintro ⟨us, vs, rfl, h⟩
        obtain ⟨ts₁, ts₂, rfl, h₁, h₂⟩ := ih.mp h
        exact ⟨us ++ ts₁, ts₂, by rw [List.append_assoc],
          (matches_deep_iff hp).mpr ⟨us, ts₁, rfl, h₁⟩, h₂⟩
      · rintro ⟨ts₁, ts₂, rfl, h₁, h₂⟩
        obtain ⟨us, vs, rfl, hvs⟩ := (matches_deep_iff hp).mp h₁
        exact ⟨us, vs ++ ts₂, by rw [List.append_assoc], ih.mpr ⟨vs, ts₂, rfl, hvs, h₂⟩⟩
    · rw [matches_cons_iff hp]
      constructor
      · rintro ⟨t, ts', rfl, ht, h⟩
        obtain ⟨ts₁, ts₂, rfl, h₁, h₂⟩ := ih.mp h
        exact ⟨t :: ts₁, ts₂, rfl, .cons hp ht h₁, h₂⟩
      · rintro ⟨ts₁, ts₂, rfl, h₁, h₂⟩
        obtain ⟨t, ts', rfl, ht, h₁'⟩ := (matches_cons_iff hp).mp h₁
        exact ⟨t, ts' ++ ts₂, rfl, ht, ih.mpr ⟨ts', ts₂, rfl, h₁', h₂⟩⟩

/-- **A pattern of literals matches itself only.** -/
theorem matches_literals_iff {m : σ → σ → Prop} {ts : List σ}
    (h : ∀ p ∈ ps, ¬deep p ∧ ∀ t, m p t ↔ t = p) : Matches deep m ps ts ↔ ts = ps := by
  induction ps generalizing ts with
  | nil => exact matches_nil_iff
  | cons p ps ih =>
    obtain ⟨hp, hm⟩ := h p List.mem_cons_self
    rw [matches_cons_iff hp]
    constructor
    · rintro ⟨t, ts', rfl, ht, hts⟩
      rw [(hm t).mp ht, (ih fun q hq => h q (List.mem_cons_of_mem p hq)).mp hts]
    · rintro rfl
      exact ⟨p, ps, rfl, (hm p).mpr rfl, (ih fun q hq => h q (List.mem_cons_of_mem p hq)).mpr rfl⟩

/-- A deep segment and one that matches everything match whatever is not empty. -/
theorem matches_below_iff {q : σ} (hp : deep p) (hq : ¬deep q) (hall : ∀ t, m q t) :
    Matches deep m [p, q] ts ↔ ts ≠ [] := by
  rw [matches_deep_iff hp]
  constructor
  · rintro ⟨us, vs, rfl, h⟩ hnil
    obtain ⟨t, ts', rfl, -, -⟩ := (matches_cons_iff hq).mp h
    simp at hnil
  · intro hne
    -- the last segment is left for the second one
    refine ⟨ts.dropLast, [ts.getLast hne], (List.dropLast_append_getLast hne).symm, ?_⟩
    exact .cons hq (hall _) .nil

end Glob
