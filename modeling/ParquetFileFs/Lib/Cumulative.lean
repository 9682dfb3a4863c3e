import Mathlib.Data.List.Basic
import Mathlib.Tactic

/-!
# Positions in a sequence of groups

A sequence cut into consecutive groups is addressed in two ways: by the index
in the whole sequence, and by a group together with an index in it.  The
cumulative sizes of the groups translate the first address into the second.
Empty groups are allowed, and repeat a cumulative size.

## Main definitions

* `offsets` — the cumulative sizes before each group.
* `partitionPoint` — the length of the initial part on which a test holds.
* `place`, `IsAddress` — the group address of an index, and which addresses there are.
* `label` — the elements of all groups with their addresses.

## Main results

* `take_sum_add_place`, `place_take_sum_add` — an address adds up to its index, and
  to no other.
* `place_strictMono`, `bijOn_place` — the indices correspond to the addresses, in order.
* `partitionPoint_offsets` — the last group starting at or before an index is
  the group that holds it.
* `label_eq_map_zipIdx` — the labelled elements, by index in the whole sequence.
-/

namespace Cumulative

variable {β : Type*}

/-- The number of elements before each group, counted from `acc`. -/
def offsets : ℕ → List ℕ → List ℕ
  | _, [] => []
  | acc, n :: ns => acc :: offsets (acc + n) ns

/-- The length of the longest initial part on which `p` holds. -/
def partitionPoint (p : β → Bool) (l : List β) : ℕ := (l.takeWhile p).length

/-- The group and the index in it of element `i` of the whole sequence. -/
def place : List ℕ → ℕ → ℕ × ℕ
  | [], i => (0, i)
  | n :: ns, i => if i < n then (0, i) else ((place ns (i - n)).1 + 1, (place ns (i - n)).2)

/-- The address of an element: a group, and an index below its size. -/
def IsAddress (ns : List ℕ) (p : ℕ × ℕ) : Prop := ∃ n, ns[p.1]? = some n ∧ p.2 < n

/-- The elements of all groups in order, each with its address; the groups are
numbered from `g`. -/
def label : ℕ → List (List β) → List ((ℕ × ℕ) × β)
  | _, [] => []
  | g, xs :: gs => (xs.zipIdx.map fun p => ((g, p.2), p.1)) ++ label (g + 1) gs

@[simp] theorem length_offsets (acc : ℕ) (ns : List ℕ) : (offsets acc ns).length = ns.length := by
  induction ns generalizing acc with
  | nil => rfl
  | cons n ns ih => simp [offsets, ih]

/-- An offset is the size of all groups before it. -/
theorem getElem?_offsets (acc : ℕ) (ns : List ℕ) (g : ℕ) :
    (offsets acc ns)[g]? = ns[g]?.map fun _ => acc + (ns.take g).sum := by
  induction ns generalizing acc g with
  | nil => rfl
  | cons n ns ih =>
    cases g with
    | zero => simp [offsets]
    | succ g =>
      rw [offsets, List.getElem?_cons_succ, List.getElem?_cons_succ, ih, List.take_succ_cons,
        List.sum_cons]
      simp only [Nat.add_assoc]

theorem le_of_mem_offsets {acc o : ℕ} {ns : List ℕ} (h : o ∈ offsets acc ns) : acc ≤ o := by
  obtain ⟨g, hg⟩ := List.mem_iff_getElem?.mp h
  rw [getElem?_offsets] at hg
  obtain ⟨-, -, rfl⟩ := Option.map_eq_some_iff.mp hg
  omega

/-- The offsets do not decrease, so those up to an index come first. -/
theorem pairwise_offsets (acc : ℕ) (ns : List ℕ) : (offsets acc ns).Pairwise (· ≤ ·) := by
  induction ns generalizing acc with
  | nil => exact .nil
  | cons n ns ih =>
    refine .cons (fun o ho => ?_) (ih (acc + n))
    have := le_of_mem_offsets ho
    omega

/-- Every group ends within the whole sequence. -/
theorem add_le_of_mem_zip_offsets {acc n o : ℕ} {ns : List ℕ}
    (h : (n, o) ∈ ns.zip (offsets acc ns)) : o + n ≤ acc + ns.sum := by
  induction ns generalizing acc with
  | nil => simp [offsets] at h
  | cons m ns ih =>
    rw [offsets, List.zip_cons_cons, List.mem_cons] at h
    rw [List.sum_cons]
    rcases h with heq | h
    · cases heq
      omega
    · have := ih h
      omega

/-- **The last offset at or before an index belongs to the group holding it.**
Where empty groups repeat the offset, the last of the equal offsets is meant. -/
theorem partitionPoint_offsets (acc : ℕ) {i : ℕ} {ns : List ℕ} (hi : i < ns.sum) :
    partitionPoint (· ≤ acc + i) (offsets acc ns) = (place ns i).1 + 1 ∧
      (offsets acc ns)[(place ns i).1]? = some (acc + i - (place ns i).2) ∧
        (place ns i).2 ≤ i := by
  induction ns generalizing acc i with
  | nil => simp at hi
  | cons n ns ih =>
    rw [List.sum_cons] at hi
    rw [offsets, partitionPoint, List.takeWhile_cons_of_pos (by simp), place]
    by_cases hin : i < n
    · -- the next offset is already past the index
      rw [if_pos hin]
      have hstop : (offsets (acc + n) ns).takeWhile (· ≤ acc + i) = [] := by
        cases ns with
        | nil => rfl
        | cons n' ns => rw [offsets, List.takeWhile_cons_of_neg (by simpa using hin)]
      rw [hstop]
      refine ⟨rfl, ?_, le_rfl⟩
      simp
    · rw [if_neg hin]
      -- the offsets of the rest are counted from `acc + n`
      have hlt : i - n < ns.sum := by omega
      obtain ⟨h1, h2, h3⟩ := ih (acc + n) hlt
      have hacc : acc + n + (i - n) = acc + i := by omega
      rw [hacc] at h1 h2
      refine ⟨by rw [List.length_cons, ← h1, partitionPoint], ?_, by omega⟩
      rw [List.getElem?_cons_succ, h2]

/-- The sizes before the group of an index, and the index in it, add up to it. -/
theorem take_sum_add_place {i : ℕ} {ns : List ℕ} (hi : i < ns.sum) :
    ∃ n, ns[(place ns i).1]? = some n ∧ (place ns i).2 < n ∧
      (ns.take (place ns i).1).sum + (place ns i).2 = i := by
  induction ns generalizing i with
  | nil => simp at hi
  | cons n ns ih =>
    rw [List.sum_cons] at hi
    rw [place]
    by_cases hin : i < n
    · rw [if_pos hin]
      exact ⟨n, rfl, hin, by simp⟩
    · rw [if_neg hin]
      obtain ⟨m, hm, hlt, hsum⟩ := ih (show i - n < ns.sum by omega)
      refine ⟨m, by rwa [List.getElem?_cons_succ], hlt, ?_⟩
      rw [List.take_succ_cons, List.sum_cons, Nat.add_assoc, hsum]
      omega

theorem take_sum_add_le {g n : ℕ} {ns : List ℕ} (h : ns[g]? = some n) :
    (ns.take g).sum + n ≤ ns.sum := by
  induction ns generalizing g with
  | nil => simp at h
  | cons m ns ih =>
    cases g with
    | zero => simp_all
    | succ g =>
      have := ih (List.getElem?_cons_succ ▸ h)
      rw [List.take_succ_cons, List.sum_cons, List.sum_cons]
      omega

theorem isAddress_place {i : ℕ} {ns : List ℕ} (hi : i < ns.sum) : IsAddress ns (place ns i) := by
  obtain ⟨n, hn, hlt, -⟩ := take_sum_add_place hi
  exact ⟨n, hn, hlt⟩

/-- **An address is that of one index**, the sizes before its group and the index
in it added up. -/
theorem place_take_sum_add {ns : List ℕ} {p : ℕ × ℕ} (h : IsAddress ns p) :
    place ns ((ns.take p.1).sum + p.2) = p := by
  obtain ⟨g, r⟩ := p
  obtain ⟨m, hm, hr⟩ := h
  dsimp only at hm hr ⊢
  induction ns generalizing g with
  | nil => simp at hm
  | cons n ns ih =>
    cases g with
    | zero =>
      obtain rfl : n = m := by simpa using hm
      rw [List.take_zero, List.sum_nil, Nat.zero_add, place, if_pos hr]
    | succ g =>
      -- the first group lies before the address
      rw [List.getElem?_cons_succ] at hm
      have hsub : n + (ns.take g).sum + r - n = (ns.take g).sum + r := by omega
      rw [List.take_succ_cons, List.sum_cons, place, if_neg (by omega), hsub, ih g hm]

/-- Addresses are ordered like the indices. -/
theorem place_strictMono (ns : List ℕ) : StrictMono fun i => toLex (place ns i) := by
  intro i j hij
  rw [Prod.Lex.toLex_lt_toLex]
  induction ns generalizing i j with
  | nil => exact Or.inr ⟨rfl, hij⟩
  | cons n ns ih =>
    rw [place, place]
    by_cases hj : j < n
    · rw [if_pos (by omega), if_pos hj]
      exact Or.inr ⟨rfl, hij⟩
    · rw [if_neg hj]
      by_cases hi : i < n
      · rw [if_pos hi]
        exact Or.inl (Nat.succ_pos _)
      · rw [if_neg hi]
        have hsub : i - n < j - n := by omega
        rcases ih hsub with hlt | ⟨heq, hlt⟩
        · exact Or.inl (Nat.succ_lt_succ hlt)
        · exact Or.inr ⟨congrArg Nat.succ heq, hlt⟩

/-- **The indices correspond to the addresses.** -/
theorem bijOn_place (ns : List ℕ) : Set.BijOn (place ns) {i | i < ns.sum} {p | IsAddress ns p} := by
  refine ⟨fun i hi => isAddress_place hi, fun i _ j _ hij => ?_, fun p hp => ?_⟩
  · exact (place_strictMono ns).injective (congrArg toLex hij)
  · refine ⟨(ns.take p.1).sum + p.2, ?_, place_take_sum_add hp⟩
    obtain ⟨n, hn, hlt⟩ := hp
    have hle := take_sum_add_le hn
    show (ns.take p.1).sum + p.2 < ns.sum
    omega

/-- The address of an element names a group and an index within its size. -/
theorem place_spec {i : ℕ} {gs : List (List β)} (hi : i < (gs.map List.length).sum) :
    ∃ xs, gs[(place (gs.map List.length) i).1]? = some xs ∧
      xs[(place (gs.map List.length) i).2]? = gs.flatten[i]? := by
  induction gs generalizing i with
  | nil => simp at hi
  | cons xs gs ih =>
    rw [List.map_cons, List.sum_cons] at hi
    rw [List.map_cons, place, List.flatten_cons]
    by_cases hin : i < xs.length
    · rw [if_pos hin]
      exact ⟨xs, rfl, (List.getElem?_append_left hin).symm⟩
    · rw [if_neg hin, List.getElem?_append_right (not_lt.mp hin)]
      exact ih (by omega)

theorem getElem?_label (g : ℕ) (gs : List (List β)) (i : ℕ) :
    (label g gs)[i]? = gs.flatten[i]?.map fun b =>
      ((g + (place (gs.map List.length) i).1, (place (gs.map List.length) i).2), b) := by
  induction gs generalizing g i with
  | nil => simp [label]
  | cons xs gs ih =>
    rw [label, List.map_cons, place, List.flatten_cons]
    by_cases hin : i < xs.length
    · rw [if_pos hin, List.getElem?_append_left (by simpa using hin),
        List.getElem?_append_left hin]
      simp [List.getElem?_eq_getElem hin]
    · have hle : xs.length ≤ i := not_lt.mp hin
      rw [if_neg hin, List.getElem?_append_right (by simpa using hle),
        List.getElem?_append_right hle, List.length_map, List.length_zipIdx, ih]
      simp only [Nat.add_right_comm, Nat.add_assoc]

/-- The labelled elements, from their indices in the whole sequence. -/
theorem label_eq_map_zipIdx (gs : List (List β)) :
    label 0 gs = gs.flatten.zipIdx.map fun p => (place (gs.map List.length) p.2, p.1) := by
  refine List.ext_getElem? fun i => ?_
  rw [getElem?_label, List.getElem?_map, List.getElem?_zipIdx]
  simp [Option.map_map, Function.comp_def]

/-- A label is the address of its element. -/
theorem mem_label {gs : List (List β)} {g r : ℕ} {b : β} (h : ((g, r), b) ∈ label 0 gs) :
    ∃ xs, gs[g]? = some xs ∧ xs[r]? = some b := by
  rw [label_eq_map_zipIdx, List.mem_map] at h
  obtain ⟨⟨b', i⟩, hmem, heq⟩ := h
  rw [List.mk_mem_zipIdx_iff_getElem?] at hmem
  obtain ⟨hplace, rfl⟩ := Prod.mk.inj heq
  have hi : i < (gs.map List.length).sum := by
    rw [← List.length_flatten]
    exact (List.getElem?_eq_some_iff.mp hmem).1
  obtain ⟨xs, hxs, hget⟩ := place_spec hi
  rw [hplace] at hxs hget
  exact ⟨xs, hxs, hget.trans hmem⟩

end Cumulative
