import Mathlib.Data.List.Basic
import Mathlib.Data.List.Infix
import Mathlib.Data.List.DropRight
import Mathlib.Tactic

/-!
# Words cut into segments by a separator

A word over an alphabet with a distinguished separator is read as the list of
its non-empty segments.  Two words with the same segments are spellings of one
name, and each such class has exactly one *canonical* spelling: single
separators, none at either end.

## Main definitions

* `segs`, `join`, `canon` — the segments of a word, the word of a list of
  segments, and the canonical spelling of a word.
* `Canonical` — the words that are their own canonical spelling.
* `splitOnce`, `beforeLast` — cutting at the first and at the last separator.
* `stem`, `IsChild`, `AtOrBelow` — the tree structure on canonical words: the
  prefix shared by everything below a name, its immediate children, and the
  names at or below a child.

## Main results

* `canon_eq_canon_iff` — canonical spellings decide equality of segments.
* `canonical_append_sep` — a separator cuts a canonical word into two canonical
  non-empty words.
* `Canonical.separators`, `canon_append_sep` — where the separators of a canonical
  word are, and the canonical spelling of two words put together.
* `exists_child`, `child_unique` — every canonical word below a name lies at or
  below exactly one child of it.
-/

namespace Segments

variable {α : Type*} {sep : α}

/-! ### Joining -/

/-- The word made of the given segments, a single separator between them. -/
def join (sep : α) (ss : List (List α)) : List α := [sep].intercalate ss

@[simp] theorem join_nil : join sep ([] : List (List α)) = [] := rfl

@[simp] theorem join_singleton (s : List α) : join sep [s] = s := by simp [join]

theorem join_cons_cons (s t : List α) (ss : List (List α)) :
    join sep (s :: t :: ss) = s ++ sep :: join sep (t :: ss) := by
  simp [join]

theorem join_append {ss ts : List (List α)} (hs : ss ≠ []) (ht : ts ≠ []) :
    join sep (ss ++ ts) = join sep ss ++ sep :: join sep ts := by
  induction ss with
  | nil => exact absurd rfl hs
  | cons s ss ih =>
    cases ss with
    | nil =>
      obtain ⟨t, ts, rfl⟩ := List.exists_cons_of_ne_nil ht
      simp [join_cons_cons]
    | cons s' ss =>
      have h := ih (by simp)
      simp only [List.cons_append] at h ⊢
      rw [join_cons_cons, h, join_cons_cons, List.append_assoc, List.cons_append]

theorem mem_join {ss : List (List α)} {c : α} (h : c ∈ join sep ss) :
    c = sep ∨ ∃ s ∈ ss, c ∈ s := by
  induction ss with
  | nil => simp at h
  | cons s ss ih =>
    cases ss with
    | nil => exact Or.inr ⟨s, List.mem_cons_self, by simpa using h⟩
    | cons t ss =>
      rw [join_cons_cons, List.mem_append, List.mem_cons] at h
      rcases h with h | rfl | h
      · exact Or.inr ⟨s, List.mem_cons_self, h⟩
      · exact Or.inl rfl
      · exact (ih h).imp id fun ⟨u, hu, hc⟩ => ⟨u, List.mem_cons_of_mem s hu, hc⟩

theorem subset_join {ss : List (List α)} {s : List α} (h : s ∈ ss) : s ⊆ join sep ss := by
  induction ss with
  | nil => cases h
  | cons t ss ih =>
    cases ss with
    | nil => rw [List.mem_singleton.mp h, join_singleton]; exact List.Subset.refl t
    | cons u ss =>
      rw [join_cons_cons]
      rcases List.mem_cons.mp h with rfl | h
      · exact List.subset_append_left s _
      · intro c hc
        exact List.mem_append_right t (List.mem_cons_of_mem sep (ih h hc))

/-- What a list is cut at is in no segment. -/
theorem not_of_mem_splitOnP {p : α → Bool} {l s : List α} (h : s ∈ l.splitOnP p) :
    ∀ c ∈ s, p c = false := by
  induction l generalizing s with
  | nil =>
    rw [List.splitOnP_nil, List.mem_singleton] at h
    simp [h]
  | cons x l ih =>
    rw [List.splitOnP_cons_eq_if_modifyHead] at h
    split at h
    · rcases List.mem_cons.mp h with rfl | h
      · simp
      · exact ih h
    · next hx =>
      -- an element that is no separator joins the first segment of the rest
      obtain ⟨t, ts, hts⟩ := List.exists_cons_of_ne_nil (List.splitOnP_ne_nil p l)
      rw [hts, List.modifyHead_cons, List.mem_cons] at h
      rcases h with rfl | h
      · intro c hc
        rcases List.mem_cons.mp hc with rfl | hc
        · simpa using hx
        · exact ih (by simp [hts]) c hc
      · exact ih (by simp [hts, h])

/-! ### The tree of names -/

/-- The prefix shared by every word strictly below `n`; the empty word is the
root, and everything is below it. -/
def stem (sep : α) : List α → List α
  | [] => []
  | c :: n => c :: n ++ [sep]

@[simp] theorem stem_nil : stem sep ([] : List α) = [] := rfl

theorem stem_of_ne_nil {n : List α} (h : n ≠ []) : stem sep n = n ++ [sep] := by
  cases n with
  | nil => exact absurd rfl h
  | cons => rfl

/-- `c` is `n` extended by a single segment. -/
def IsChild (sep : α) (n c : List α) : Prop := ∃ s, s ≠ [] ∧ sep ∉ s ∧ c = stem sep n ++ s

/-- `x` is the name `c` itself or lies strictly below it. -/
def AtOrBelow (sep : α) (c x : List α) : Prop := x = c ∨ c ++ [sep] <+: x

theorem IsChild.ne_nil {n c : List α} (h : IsChild sep n c) : c ≠ [] := by
  obtain ⟨s, hs, -, rfl⟩ := h
  simp [hs]

theorem IsChild.stem_isPrefix {n c : List α} (h : IsChild sep n c) : stem sep n <+: c := by
  obtain ⟨s, -, -, rfl⟩ := h
  exact List.prefix_append _ _

variable [DecidableEq α]

instance (c x : List α) : Decidable (AtOrBelow sep c x) :=
  inferInstanceAs (Decidable (_ ∨ _))

/-! ### Segments and canonical spellings -/

/-- The non-empty segments of a word, in order. -/
def segs (sep : α) (l : List α) : List (List α) := (l.splitOn sep).filter (· ≠ [])

/-- The canonical spelling of a word. -/
def canon (sep : α) (l : List α) : List α := join sep (segs sep l)

/-- The words that are their own canonical spelling. -/
def Canonical (sep : α) (l : List α) : Prop := canon sep l = l

instance (l : List α) : Decidable (Canonical sep l) :=
  inferInstanceAs (Decidable (canon sep l = l))

theorem sep_notMem_of_mem_splitOn {l s : List α} (h : s ∈ l.splitOn sep) : sep ∉ s := by
  intro hmem
  rw [List.splitOn_eq_splitOnP] at h
  have hsep := not_of_mem_splitOnP h sep hmem
  simp at hsep

/-- A segment is non-empty and free of separators. -/
theorem of_mem_segs {l s : List α} (h : s ∈ segs sep l) : s ≠ [] ∧ sep ∉ s := by
  rw [segs, List.mem_filter] at h
  exact ⟨by simpa using h.2, sep_notMem_of_mem_splitOn h.1⟩

/-- A segment is made of what is in the list. -/
theorem subset_of_mem_segs {l s : List α} (h : s ∈ segs sep l) : s ⊆ l := by
  have hsub : s ⊆ join sep (l.splitOn sep) := subset_join (List.mem_of_mem_filter h)
  rwa [join, List.intercalate_splitOn] at hsub

@[simp] theorem segs_nil : segs sep ([] : List α) = [] := by simp [segs]

/-- Writing segments back and cutting again gives the same segments. -/
theorem segs_join {ss : List (List α)} (h : ∀ s ∈ ss, s ≠ [] ∧ sep ∉ s) :
    segs sep (join sep ss) = ss := by
  by_cases hss : ss = []
  · simp [hss]
  · rw [segs, join, List.splitOn_intercalate sep (fun s hs => (h s hs).2) hss, List.filter_eq_self]
    simpa using fun s hs => (h s hs).1

theorem segs_join_eq_filter {ss : List (List α)} (h : ∀ s ∈ ss, sep ∉ s) :
    segs sep (join sep ss) = ss.filter (· ≠ []) := by
  by_cases hss : ss = []
  · simp [hss]
  · rw [segs, join, List.splitOn_intercalate sep h hss]

theorem segs_canon (l : List α) : segs sep (canon sep l) = segs sep l :=
  segs_join fun _ => of_mem_segs

theorem canonical_canon (l : List α) : Canonical sep (canon sep l) := by
  rw [Canonical, canon, segs_canon, canon]

/-- **Canonical spellings decide equality of segments.** -/
theorem canon_eq_canon_iff {l l' : List α} :
    canon sep l = canon sep l' ↔ segs sep l = segs sep l' := by
  constructor
  · intro h
    rw [← segs_canon l, h, segs_canon]
  · intro h
    rw [canon, h, canon]

theorem segs_append_sep (a b : List α) : segs sep (a ++ sep :: b) = segs sep a ++ segs sep b := by
  rw [segs, List.splitOn_append_cons_self, List.filter_append, segs, segs]

/-- The words cut into non-empty segments only are the non-empty canonical ones. -/
theorem nil_notMem_splitOn_iff {l : List α} :
    [] ∉ l.splitOn sep ↔ Canonical sep l ∧ l ≠ [] := by
  constructor
  · intro h
    -- no segment is dropped, so joining them undoes the cut
    have hseg : segs sep l = l.splitOn sep := by
      rw [segs, List.filter_eq_self]
      intro s hs
      simpa using fun hnil : s = [] => h (hnil ▸ hs)
    refine ⟨by rw [Canonical, canon, hseg, join, List.intercalate_splitOn], ?_⟩
    rintro rfl
    simp at h
  · rintro ⟨hc, hne⟩ hmem
    have hss : segs sep l ≠ [] := by
      intro hnil
      rw [Canonical, canon, hnil, join_nil] at hc
      exact hne hc.symm
    rw [← hc, canon, join, List.splitOn_intercalate sep (fun s hs => (of_mem_segs hs).2) hss]
      at hmem
    exact (of_mem_segs hmem).1 rfl

/-- **A separator cuts a canonical word into two canonical non-empty words.** -/
theorem canonical_append_sep {a b : List α} :
    Canonical sep (a ++ sep :: b) ↔
      (Canonical sep a ∧ a ≠ []) ∧ Canonical sep b ∧ b ≠ [] := by
  have h : [] ∉ (a ++ sep :: b).splitOn sep ↔ _ := nil_notMem_splitOn_iff
  rw [List.splitOn_append_cons_self, List.mem_append, not_or, nil_notMem_splitOn_iff,
    nil_notMem_splitOn_iff] at h
  simpa using h.symm

@[simp] theorem canonical_nil : Canonical sep ([] : List α) := by simp [Canonical, canon]

/-- A canonical word has no separator at either end, and no two in a row. -/
theorem Canonical.separators {l : List α} (h : Canonical sep l) :
    l.head? ≠ some sep ∧ l.getLast? ≠ some sep ∧ ¬[sep, sep] <:+: l := by
  refine ⟨?_, ?_, ?_⟩
  · intro hhead
    obtain ⟨t, rfl⟩ := List.head?_eq_some_iff.mp hhead
    have hcut := (canonical_append_sep (a := [])).mp h
    exact hcut.1.2 rfl
  · intro hlast
    obtain ⟨t, rfl⟩ := List.getLast?_eq_some_iff.mp hlast
    have hcut := canonical_append_sep.mp h
    exact hcut.2.2 rfl
  · rintro ⟨s, t, rfl⟩
    -- nothing stands between the two separators
    rw [List.append_assoc, List.cons_append] at h
    have hrest : Canonical sep ([] ++ sep :: t) := (canonical_append_sep.mp h).2.1
    exact (canonical_append_sep.mp hrest).1.2 rfl

theorem canon_eq_nil_iff {l : List α} : canon sep l = [] ↔ segs sep l = [] := by
  constructor
  · intro h
    rw [← segs_canon, h, segs_nil]
  · intro h
    rw [canon, h, join_nil]

/-- **A separator joins the canonical spellings** of two words, unless one of
them is empty. -/
theorem canon_append_sep (a b : List α) :
    canon sep (a ++ sep :: b) =
      if canon sep a = [] then canon sep b
      else if canon sep b = [] then canon sep a
      else canon sep a ++ sep :: canon sep b := by
  rw [canon, segs_append_sep]
  split
  · next ha => rw [canon_eq_nil_iff.mp ha, List.nil_append, canon]
  · next ha =>
    split
    · next hb => rw [canon_eq_nil_iff.mp hb, List.append_nil, canon]
    · next hb => exact join_append (mt canon_eq_nil_iff.mpr ha) (mt canon_eq_nil_iff.mpr hb)

/-! ### Trimming -/

theorem segs_dropWhile (l : List α) : segs sep (l.dropWhile (· = sep)) = segs sep l := by
  induction l with
  | nil => rfl
  | cons x l ih =>
    by_cases hx : x = sep
    · rw [List.dropWhile_cons_of_pos (by simpa using hx), ih, hx]
      have h : segs sep ([] ++ sep :: l) = segs sep [] ++ segs sep l := segs_append_sep [] l
      simpa using h.symm
    · rw [List.dropWhile_cons_of_neg (by simpa using hx)]

theorem segs_rdropWhile (l : List α) : segs sep (l.rdropWhile (· = sep)) = segs sep l := by
  induction l using List.reverseRecOn with
  | nil => rfl
  | append_singleton l x ih =>
    by_cases hx : x = sep
    · rw [List.rdropWhile_concat_pos _ _ _ (by simpa using hx), ih, hx]
      have h : segs sep (l ++ sep :: []) = segs sep l ++ segs sep [] := segs_append_sep l []
      simpa using h.symm
    · rw [List.rdropWhile_concat_neg _ _ _ (by simpa using hx)]

/-- A word without segments is made of separators only. -/
theorem eq_sep_of_segs_eq_nil {l : List α} (h : segs sep l = []) : ∀ c ∈ l, c = sep := by
  induction l with
  | nil => simp
  | cons x l ih =>
    by_cases hx : x = sep
    · subst hx
      have hsegs : segs x ([] ++ x :: l) = segs x [] ++ segs x l := segs_append_sep [] l
      rw [List.nil_append, segs_nil, List.nil_append, h] at hsegs
      intro c hc
      rcases List.mem_cons.mp hc with rfl | hc
      · rfl
      · exact ih hsegs.symm c hc
    · -- the first segment starts with `x`
      exfalso
      obtain ⟨u, us, hus⟩ := List.exists_cons_of_ne_nil (List.splitOn_ne_nil sep l)
      rw [segs, List.filter_eq_nil_iff, List.splitOn_cons_eq_if_modifyHead,
        if_neg (by simpa using hx), hus, List.modifyHead_cons] at h
      simpa using h (x :: u) List.mem_cons_self

/-! ### Cutting at one separator -/

/-- Cut at the first separator, if there is one. -/
def splitOnce (sep : α) : List α → Option (List α × List α)
  | [] => none
  | c :: cs => if c = sep then some ([], cs) else (splitOnce sep cs).map fun p => (c :: p.1, p.2)

theorem splitOnce_eq_some_iff {l a b : List α} :
    splitOnce sep l = some (a, b) ↔ sep ∉ a ∧ l = a ++ sep :: b := by
  induction l generalizing a with
  | nil => simp [splitOnce]
  | cons c cs ih =>
    rw [splitOnce]
    split
    · next hc =>
      subst hc
      cases a with
      | nil => simp [eq_comm]
      | cons x a => simp; tauto
    · next hc =>
      cases a with
      | nil => simp [hc]
      | cons x a =>
        simp only [Option.map_eq_some_iff, Prod.mk.injEq, List.cons.injEq, List.mem_cons,
          List.cons_append, Prod.exists]
        constructor
        · rintro ⟨a', b', h, ⟨rfl, rfl⟩, rfl⟩
          obtain ⟨h1, h2⟩ := ih.mp h
          exact ⟨by simp [h1, Ne.symm hc], rfl, h2⟩
        · rintro ⟨h1, rfl, h2⟩
          exact ⟨a, b, ih.mpr ⟨by tauto, h2⟩, ⟨rfl, rfl⟩, rfl⟩

theorem splitOnce_eq_none_iff {l : List α} : splitOnce sep l = none ↔ sep ∉ l := by
  induction l with
  | nil => simp [splitOnce]
  | cons c cs ih =>
    rw [splitOnce]
    split
    · next hc => simp [hc]
    · next hc => simp [ih, Ne.symm hc]

/-- What stands before the last separator, if there is one. -/
def beforeLast (sep : α) (l : List α) : Option (List α) :=
  (splitOnce sep l.reverse).map fun p => p.2.reverse

theorem beforeLast_eq_some_iff {l p : List α} :
    beforeLast sep l = some p ↔ ∃ s, sep ∉ s ∧ l = p ++ sep :: s := by
  simp only [beforeLast, Option.map_eq_some_iff, Prod.exists, splitOnce_eq_some_iff]
  constructor
  · rintro ⟨a, b, ⟨h1, h2⟩, rfl⟩
    refine ⟨a.reverse, by simpa using h1, ?_⟩
    rw [← List.reverse_reverse l, h2]
    simp
  · rintro ⟨s, h1, rfl⟩
    exact ⟨s.reverse, p.reverse, ⟨by simpa using h1, by simp⟩, by simp⟩

theorem beforeLast_eq_none_iff {l : List α} : beforeLast sep l = none ↔ sep ∉ l := by
  simp [beforeLast, splitOnce_eq_none_iff]

theorem length_lt_of_beforeLast {l p : List α} (h : beforeLast sep l = some p) :
    p.length < l.length := by
  obtain ⟨s, -, rfl⟩ := beforeLast_eq_some_iff.mp h
  simp

/-- The words above `l` are what stands before its last separator, and the
words above that. -/
theorem append_sep_prefix_iff {l p x : List α} (h : beforeLast sep l = some p) :
    x ++ [sep] <+: l ↔ x = p ∨ x ++ [sep] <+: p := by
  obtain ⟨s, hs, rfl⟩ := beforeLast_eq_some_iff.mp h
  constructor
  · intro hx
    rcases Nat.lt_or_ge p.length (x ++ [sep]).length with hlt | hle
    · -- `x` and its separator reach past `p`, where one separator is left: `x` is `p`
      have hpx : p <+: x := by
        refine List.prefix_of_prefix_length_le (List.prefix_append p _)
          ((List.prefix_append x [sep]).trans hx) ?_
        simp only [List.length_append, List.length_singleton] at hlt
        omega
      obtain ⟨t, rfl⟩ := hpx
      rw [List.append_assoc, List.prefix_append_right_inj] at hx
      cases t with
      | nil => exact Or.inl (by simp)
      | cons a t =>
        rw [List.cons_append, List.cons_prefix_cons] at hx
        exact absurd (hx.2.subset (by simp)) hs
    · exact Or.inr (List.prefix_of_prefix_length_le hx (List.prefix_append p _) hle)
  · rintro (rfl | hx)
    · exact ⟨s, by simp⟩
    · exact hx.trans (List.prefix_append p _)

theorem not_append_sep_of_beforeLast {l x : List α} (h : beforeLast sep l = none) :
    ¬x ++ [sep] <+: l := fun hx => beforeLast_eq_none_iff.mp h (hx.subset (by simp))

/-! ### Children of a name -/

/-- The first segment of what follows a prefix. -/
theorem takeWhile_of_atOrBelow {p s x : List α} (hs : sep ∉ s) (h : AtOrBelow sep (p ++ s) x) :
    (x.drop p.length).takeWhile (· ≠ sep) = s := by
  have hall : s.takeWhile (· ≠ sep) = s := by
    rw [List.takeWhile_eq_self_iff]
    intro c hc
    simpa using fun e : c = sep => hs (e ▸ hc)
  rcases h with rfl | ⟨t, rfl⟩
  · rw [List.drop_left, hall]
  · rw [List.append_assoc, List.append_assoc, List.drop_left, List.singleton_append]
    rw [List.takeWhile_append_of_pos fun c hc => by simpa using fun e : c = sep => hs (e ▸ hc)]
    simp

/-- What follows the stem of `n` in a canonical word other than `n`. -/
theorem canonical_of_stem_append {n r : List α} (h : Canonical sep (stem sep n ++ r))
    (hne : stem sep n ++ r ≠ n) : Canonical sep r ∧ r ≠ [] := by
  cases n with
  | nil => exact ⟨h, by simpa using hne⟩
  | cons a n =>
    rw [stem, List.append_assoc, List.singleton_append] at h
    exact (canonical_append_sep.mp h).2

/-- A canonical word below `n` has a child of `n` at or above it. -/
theorem exists_child {n x : List α} (hx : Canonical sep x) (hne : x ≠ n)
    (h : stem sep n <+: x) : ∃ c, IsChild sep n c ∧ AtOrBelow sep c x := by
  obtain ⟨r, rfl⟩ := h
  obtain ⟨hr, hrne⟩ := canonical_of_stem_append hx hne
  -- the child is the first segment of what follows the stem
  cases hcut : splitOnce sep r with
  | none => exact ⟨stem sep n ++ r, ⟨r, hrne, splitOnce_eq_none_iff.mp hcut, rfl⟩, Or.inl rfl⟩
  | some p =>
    obtain ⟨s, t⟩ := p
    obtain ⟨hs, rfl⟩ := splitOnce_eq_some_iff.mp hcut
    obtain ⟨⟨-, hsne⟩, -⟩ := canonical_append_sep.mp hr
    exact ⟨stem sep n ++ s, ⟨s, hsne, hs, rfl⟩, Or.inr ⟨t, by simp⟩⟩

/-- Two children of `n` at or above one word are the same child. -/
theorem child_unique {n c c' x : List α} (hc : IsChild sep n c) (hc' : IsChild sep n c')
    (h : AtOrBelow sep c x) (h' : AtOrBelow sep c' x) : c = c' := by
  obtain ⟨s, -, hs, rfl⟩ := hc
  obtain ⟨s', -, hs', rfl⟩ := hc'
  rw [← takeWhile_of_atOrBelow hs h, ← takeWhile_of_atOrBelow hs' h']

end Segments
