import Mathlib.Data.List.Basic
import Mathlib.Tactic

/-!
# Cutting a list into groups by weight

Elements are collected into a group until its weight reaches a limit; the group
is then closed and a new one begun.  The last group may stay below the limit.

## Main definitions

* `push`, `cut` — one more element, and the closed groups and the open one after
  a list of elements.
* `close`, `groups` — all groups, the open one closed at the end.

## Main results

* `flatten_cut`, `flatten_groups` — **no element is lost, doubled or moved.**
* `of_mem_cut`, `total_cut_lt` — a closed group reaches the limit with its last
  element, and the open one stays below it.
* `exists_prefix_mem_groups` — what is in the open group stays together.
-/

namespace Grouping

variable {α : Type*} (weight : α → ℕ) (limit : ℕ)

/-- The weight of a group. -/
def total (as : List α) : ℕ := (as.map weight).sum

@[simp] theorem total_nil : total weight [] = 0 := rfl

theorem total_append (as bs : List α) :
    total weight (as ++ bs) = total weight as + total weight bs := by
  simp [total]

theorem total_append_singleton (as : List α) (a : α) :
    total weight (as ++ [a]) = total weight as + weight a := by
  simp [total]

/-- One more element joins the open group, which is closed once it reaches the limit. -/
def push (st : List (List α) × List α) (a : α) : List (List α) × List α :=
  if limit ≤ total weight (st.2 ++ [a]) then (st.1 ++ [st.2 ++ [a]], [])
  else (st.1, st.2 ++ [a])

/-- The closed groups and the open one after the given elements. -/
def cut (as : List α) : List (List α) × List α := as.foldl (push weight limit) ([], [])

@[simp] theorem cut_nil : cut weight limit ([] : List α) = ([], []) := rfl

theorem cut_append_singleton (as : List α) (a : α) :
    cut weight limit (as ++ [a]) = push weight limit (cut weight limit as) a := by
  simp [cut]

/-- Close the open group, unless it is empty. -/
def close (closed : List (List α)) (buf : List α) : List (List α) :=
  closed ++ if buf.isEmpty then [] else [buf]

@[simp] theorem close_nil (closed : List (List α)) : close closed [] = closed := by simp [close]

theorem close_of_ne_nil (closed : List (List α)) {buf : List α} (h : buf ≠ []) :
    close closed buf = closed ++ [buf] := by
  simp [close, h]

/-- All groups, the open one closed at the end. -/
def groups (as : List α) : List (List α) := close (cut weight limit as).1 (cut weight limit as).2

/-- The closed groups and the open one hold the elements in order. -/
theorem flatten_cut (as : List α) :
    (cut weight limit as).1.flatten ++ (cut weight limit as).2 = as := by
  induction as using List.reverseRecOn with
  | nil => rfl
  | append_singleton as a ih =>
    rw [cut_append_singleton, push]
    split
    · rw [List.flatten_append, List.flatten_singleton, List.append_nil, ← List.append_assoc, ih]
    · rw [← List.append_assoc, ih]

theorem flatten_groups (as : List α) : (groups weight limit as).flatten = as := by
  have hcut := flatten_cut weight limit as
  unfold groups
  by_cases hnil : (cut weight limit as).2 = []
  · rw [hnil, List.append_nil] at hcut
    rwa [hnil, close_nil]
  · rwa [close_of_ne_nil _ hnil, List.flatten_append, List.flatten_singleton]

/-- The open group stays below the limit. -/
theorem total_cut_lt (hlimit : 0 < limit) (as : List α) :
    total weight (cut weight limit as).2 < limit := by
  induction as using List.reverseRecOn with
  | nil => exact hlimit
  | append_singleton as a _ =>
    rw [cut_append_singleton, push]
    split
    · exact hlimit
    · next hopen => exact not_le.mp hopen

/-- A closed group reaches the limit, and does so with its last element. -/
theorem of_mem_cut (hlimit : 0 < limit) {as g : List α} (hg : g ∈ (cut weight limit as).1) :
    g ≠ [] ∧ limit ≤ total weight g ∧ total weight g.dropLast < limit := by
  induction as using List.reverseRecOn with
  | nil => simp at hg
  | append_singleton as a ih =>
    rw [cut_append_singleton, push] at hg
    split at hg
    · next hfull =>
      rcases List.mem_append.mp hg with hg | hg
      · exact ih hg
      · rw [List.mem_singleton.mp hg, List.dropLast_concat]
        exact ⟨by simp, hfull, total_cut_lt weight limit hlimit as⟩
    · exact ih hg

/-- The open group an element joined is the beginning of a group, whatever follows. -/
theorem exists_prefix_mem_groups (as : List α) (a : α) (bs : List α) :
    ∃ g ∈ groups weight limit (as ++ [a] ++ bs), (cut weight limit as).2 ++ [a] <+: g := by
  have hkept :
      (∃ g ∈ (cut weight limit (as ++ [a] ++ bs)).1, (cut weight limit as).2 ++ [a] <+: g) ∨
      (cut weight limit as).2 ++ [a] <+: (cut weight limit (as ++ [a] ++ bs)).2 := by
    -- either the group has been closed meanwhile, or it is still open and has only grown
    induction bs using List.reverseRecOn with
    | nil =>
      rw [List.append_nil, cut_append_singleton, push]
      split
      · exact Or.inl ⟨_, List.mem_append_right _ (List.mem_singleton_self _), List.prefix_rfl⟩
      · exact Or.inr List.prefix_rfl
    | append_singleton bs b ih =>
      rw [← List.append_assoc, cut_append_singleton, push]
      split
      · rcases ih with ⟨g, hg, hpre⟩ | hpre
        · exact Or.inl ⟨g, List.mem_append_left _ hg, hpre⟩
        · exact Or.inl ⟨_, List.mem_append_right _ (List.mem_singleton_self _),
            hpre.trans (List.prefix_append _ [b])⟩
      · exact ih.imp_right fun hpre => hpre.trans (List.prefix_append _ [b])
  unfold groups
  rcases hkept with ⟨g, hg, hpre⟩ | hpre
  · exact ⟨g, List.mem_append_left _ hg, hpre⟩
  · have hne : (cut weight limit (as ++ [a] ++ bs)).2 ≠ [] := by
      intro hnil
      rw [hnil, List.prefix_nil] at hpre
      simp at hpre
    rw [close_of_ne_nil _ hne]
    exact ⟨_, List.mem_append_right _ (List.mem_singleton_self _), hpre⟩

/-- With one more element, the groups are those closed before, and the one it joined. -/
theorem of_mem_groups_append_singleton {as g : List α} {a : α}
    (hg : g ∈ groups weight limit (as ++ [a])) :
    g ∈ groups weight limit as ∨ g = (cut weight limit as).2 ++ [a] := by
  have hclosed : (cut weight limit as).1 ⊆ groups weight limit as :=
    List.subset_append_left _ _
  rw [groups, cut_append_singleton, push] at hg
  split at hg
  · rw [close_nil, List.mem_append, List.mem_singleton] at hg
    exact hg.imp_left fun hg => hclosed hg
  · rw [close_of_ne_nil _ (by simp), List.mem_append, List.mem_singleton] at hg
    exact hg.imp_left fun hg => hclosed hg

/-- Elements that do not reach the limit are one group. -/
theorem groups_of_total_lt {as : List α} (hne : as ≠ []) (h : total weight as < limit) :
    groups weight limit as = [as] := by
  have hcut : cut weight limit as = ([], as) := by
    clear hne
    induction as using List.reverseRecOn with
    | nil => rfl
    | append_singleton as a ih =>
      have hle : total weight as ≤ total weight (as ++ [a]) := by
        rw [total_append_singleton]
        omega
      rw [cut_append_singleton, ih (by omega), push, if_neg (not_le.mpr h)]
  rw [groups, hcut, close_of_ne_nil _ hne, List.nil_append]

end Grouping
