import ParquetFileFs.Index.Basic

/-!
# Directories, and well-formed indices

The directories of an index are collected by climbing from every file key, and
a climb stops at the first directory that is there already.  Since every
recorded directory brought its ancestors along, nothing is missed.

## Main definitions

* `Climbs`, `Visits` — the loop over the keys, as one that ends.
* `Index.WellFormed` — canonical file keys, and exactly their ancestors as
  directories.

## Main results

* `mem_addAncestors` — one climb records exactly the ancestors of its key.
* `mem_collectDirs` — **the directories are exactly the ancestors of the keys.**
* `visits_iff` — **the loop ends with the same directories in every order of the
  keys, the ones above some key.**
* `wellFormed_of_buildIndex` — **every index that is built is well formed.**
-/

namespace ParquetFileFs

open Segments

/-! ### Climbing -/

/-- **One climb records exactly the ancestors of its key**, given that the
directories shorter than the key have their ancestors recorded. -/
theorem mem_addAncestors {fuel : ℕ} {dirs : SortedMap Str Unit} {p : Str} (hfuel : p.length ≤ fuel)
    (hclosed : ∀ q ∈ dirs.keys, q.length < p.length → ∀ x, x ++ ['/'] <+: q → x ∈ dirs.keys)
    (x : Str) : x ∈ (addAncestors fuel dirs p).keys ↔ x ∈ dirs.keys ∨ x ++ ['/'] <+: p := by
  induction fuel generalizing dirs p with
  -- without fuel the path is empty, and has no ancestors
  | zero =>
    have hp : p = [] := List.eq_nil_of_length_eq_zero (by omega)
    simp [addAncestors, hp]
  | succ fuel ih =>
    rw [addAncestors]
    cases hcut : beforeLast '/' p with
    | none => simp [not_append_sep_of_beforeLast hcut]
    | some q =>
      have hlt := length_lt_of_beforeLast hcut
      simp only [append_sep_prefix_iff hcut]
      split
      · next hq =>
        -- the climb stops: `q` and, by closure, all its ancestors are recorded
        rw [SortedMap.contains_iff_mem_keys] at hq
        constructor
        · exact Or.inl
        · rintro (hx | rfl | hx)
          · exact hx
          · exact hq
          · exact hclosed q hq hlt x hx
      · rw [ih (by omega), SortedMap.mem_keys_insert]
        · tauto
        · -- the rest of the climb asks about directories shorter than `q`, so not about `q`
          intro q' hq' hlt' y hy
          rw [SortedMap.mem_keys_insert] at hq' ⊢
          rcases hq' with rfl | hq'
          · omega
          · exact Or.inr (hclosed q' hq' (by omega) y hy)

theorem append_sep_prefix_trans {x y k : Str} (hxy : x ++ ['/'] <+: y) (hyk : y ++ ['/'] <+: k) :
    x ++ ['/'] <+: k := hxy.trans ((List.prefix_append y _).trans hyk)

theorem mem_foldl_addAncestors (keys pre : List Str) {dirs : SortedMap Str Unit}
    (h : ∀ x, x ∈ dirs.keys ↔ ∃ k ∈ pre, x ++ ['/'] <+: k) (x : Str) :
    x ∈ (keys.foldl (fun dirs k => addAncestors k.length dirs k) dirs).keys ↔
      ∃ k ∈ pre ++ keys, x ++ ['/'] <+: k := by
  induction keys generalizing pre dirs with
  | nil => simpa using h x
  | cons k keys ih =>
    rw [List.foldl_cons, ← List.singleton_append, ← List.append_assoc]
    refine ih (pre ++ [k]) fun y => ?_
    rw [mem_addAncestors le_rfl, h]
    · simp only [List.mem_append, List.mem_singleton, or_and_right, exists_or, exists_eq_left]
    · -- a recorded directory is above some key, and so are its own ancestors
      intro q hq _ z hz
      obtain ⟨k', hk', hqk'⟩ := (h q).mp hq
      exact (h z).mpr ⟨k', hk', append_sep_prefix_trans hz hqk'⟩

/-- **The directories are exactly the ancestors of the keys**, in whatever order
the keys are visited. -/
theorem mem_collectDirs {keys : List Str} {x : Str} :
    x ∈ (collectDirs keys).keys ↔ ∃ k ∈ keys, x ++ ['/'] <+: k :=
  mem_foldl_addAncestors keys [] (by simp) x

/-! ### The loop ends -/

/-- The climb from `p` ends, and leaves `dirs'` of `dirs`. -/
inductive Climbs : SortedMap Str Unit → Str → SortedMap Str Unit → Prop
  /-- No separator is left in the path. -/
  | top {dirs : SortedMap Str Unit} {p : Str} : beforeLast '/' p = none → Climbs dirs p dirs
  /-- The directory is there already. -/
  | known {dirs : SortedMap Str Unit} {p q : Str} : beforeLast '/' p = some q →
      dirs.contains q = true → Climbs dirs p dirs
  /-- The directory is new, and the climb goes on from it. -/
  | up {dirs dirs' : SortedMap Str Unit} {p q : Str} : beforeLast '/' p = some q →
      dirs.contains q = false → Climbs (dirs.insert q ()) q dirs' → Climbs dirs p dirs'

/-- The loop over the keys ends, and leaves `dirs'` of `dirs`. -/
inductive Visits : List Str → SortedMap Str Unit → SortedMap Str Unit → Prop
  | nil (dirs : SortedMap Str Unit) : Visits [] dirs dirs
  | cons {k : Str} {keys : List Str} {dirs dirs₁ dirs' : SortedMap Str Unit} :
      Climbs dirs k dirs₁ → Visits keys dirs₁ dirs' → Visits (k :: keys) dirs dirs'

/-- A climb ends: each round shortens the path. -/
theorem climbs_addAncestors {fuel : ℕ} {dirs : SortedMap Str Unit} {p : Str}
    (hfuel : p.length ≤ fuel) : Climbs dirs p (addAncestors fuel dirs p) := by
  induction fuel generalizing dirs p with
  | zero =>
    have hp : p = [] := List.eq_nil_of_length_eq_zero (by omega)
    subst hp
    exact .top (beforeLast_eq_none_iff.mpr (by simp))
  | succ fuel ih =>
    rw [addAncestors]
    cases hcut : beforeLast '/' p with
    | none => exact .top hcut
    | some q =>
      have hlt := length_lt_of_beforeLast hcut
      cases hq : dirs.contains q with
      | true =>
        simp only [hq, if_true]
        exact .known hcut hq
      | false =>
        simp only [hq, Bool.false_eq_true, if_false]
        exact .up hcut hq (ih (by omega))

/-- A climb ends in one way. -/
theorem Climbs.unique {dirs dirs₁ dirs₂ : SortedMap Str Unit} {p : Str} (h₁ : Climbs dirs p dirs₁)
    (h₂ : Climbs dirs p dirs₂) : dirs₁ = dirs₂ := by
  induction h₁ with
  | top hcut =>
    cases h₂ with
    | top => rfl
    | known hcut' => cases hcut.symm.trans hcut'
    | up hcut' => cases hcut.symm.trans hcut'
  | known hcut hq =>
    cases h₂ with
    | top hcut' => cases hcut.symm.trans hcut'
    | known => rfl
    | up hcut' hq' =>
      cases hcut.symm.trans hcut'
      cases hq.symm.trans hq'
  | up hcut hq _ ih =>
    cases h₂ with
    | top hcut' => cases hcut.symm.trans hcut'
    | known hcut' hq' =>
      cases hcut.symm.trans hcut'
      cases hq.symm.trans hq'
    | up hcut' _ hrest =>
      cases hcut.symm.trans hcut'
      exact ih hrest

/-- The loop ends, with what `collectDirs` computes. -/
theorem visits_foldl (keys : List Str) (dirs : SortedMap Str Unit) :
    Visits keys dirs (keys.foldl (fun dirs k => addAncestors k.length dirs k) dirs) := by
  induction keys generalizing dirs with
  | nil => exact .nil dirs
  | cons k keys ih => exact .cons (climbs_addAncestors le_rfl) (ih _)

theorem Visits.unique {keys : List Str} {dirs dirs₁ dirs₂ : SortedMap Str Unit}
    (h₁ : Visits keys dirs dirs₁) (h₂ : Visits keys dirs dirs₂) : dirs₁ = dirs₂ := by
  induction h₁ with
  | nil => cases h₂; rfl
  | cons hclimb _ ih =>
    cases h₂ with
    | cons hclimb' hrest =>
      rw [hclimb'.unique hclimb] at hrest
      exact ih hrest

/-- Sets of directories with the same members are equal. -/
theorem dirs_ext {dirs dirs' : SortedMap Str Unit} (h : ∀ x, x ∈ dirs.keys ↔ x ∈ dirs'.keys) :
    dirs = dirs' := by
  refine SortedMap.ext_find? fun x => ?_
  have hx := h x
  rw [SortedMap.mem_keys_iff_find?, SortedMap.mem_keys_iff_find?] at hx
  cases hfind : dirs.find? x with
  | some u => exact (hx.mp ⟨u, hfind⟩).choose_spec.symm
  | none =>
    cases hfind' : dirs'.find? x with
    | none => rfl
    | some u => rw [hx.mpr ⟨u, hfind'⟩ |>.choose_spec] at hfind; cases hfind

/-- The order in which the keys are visited does not matter. -/
theorem collectDirs_congr {keys order : List Str} (h : ∀ k, k ∈ order ↔ k ∈ keys) :
    collectDirs order = collectDirs keys :=
  dirs_ext fun x => by simp only [mem_collectDirs, h]

/-- An ancestor of a canonical word is not empty. -/
theorem ne_nil_of_ancestor {k x : Str} (hk : Canonical '/' k) (hx : x ++ ['/'] <+: k) : x ≠ [] := by
  obtain ⟨t, rfl⟩ := hx
  rw [List.append_assoc] at hk
  exact (canonical_append_sep.mp hk).1.2

/-- **The loop ends with the same directories in every order of the keys**, the
non-empty words that some key continues below. -/
theorem visits_iff {keys : List Str} (hkeys : ∀ k ∈ keys, Canonical '/' k ∧ k ≠ [])
    {order : List Str} (horder : ∀ k, k ∈ order ↔ k ∈ keys) :
    (∀ dirs, Visits order SortedMap.empty dirs ↔ dirs = collectDirs keys) ∧
      ∀ x, x ∈ (collectDirs keys).keys ↔ x ≠ [] ∧ ∃ k ∈ keys, x ++ ['/'] <+: k := by
  have hvisits : Visits order SortedMap.empty (collectDirs keys) := by
    rw [← collectDirs_congr horder]
    exact visits_foldl order SortedMap.empty
  refine ⟨fun dirs => ⟨fun h => h.unique hvisits, fun h => h ▸ hvisits⟩, fun x => ?_⟩
  rw [mem_collectDirs]
  constructor
  · intro ⟨k, hk, hx⟩
    exact ⟨ne_nil_of_ancestor (hkeys k hk).1 hx, k, hk, hx⟩
  · intro ⟨_, h⟩
    exact h

theorem visits_sample :
    (∀ dirs, Visits ["a/b".toList, "a/b/c".toList, "d".toList] SortedMap.empty dirs ↔
        dirs = collectDirs ["d".toList, "a/b/c".toList, "a/b".toList]) ∧
      ∀ x, x ∈ (collectDirs ["d".toList, "a/b/c".toList, "a/b".toList]).keys ↔
        x ≠ [] ∧ ∃ k ∈ ["d".toList, "a/b/c".toList, "a/b".toList], x ++ ['/'] <+: k :=
  visits_iff (by decide +kernel) (by
    intro k
    simp only [List.mem_cons, List.not_mem_nil, or_false]
    tauto)

/-! ### Well-formed indices -/

/-- File keys are canonical and not empty, and the directories are exactly
their ancestors. -/
structure Index.WellFormed (ix : Index) : Prop where
  canonical : ∀ {k}, k ∈ ix.files.keys → Canonical '/' k
  ne_nil : ∀ {k}, k ∈ ix.files.keys → k ≠ []
  mem_dirs : ∀ {d}, d ∈ ix.dirs.keys ↔ ∃ k ∈ ix.files.keys, d ++ ['/'] <+: k

/-- What every successful step of a fold keeps, a successful fold keeps. -/
theorem foldlM_ok_preserves {ε α β : Type} {f : β → α → Except ε β} {P : β → Prop}
    (hf : ∀ b a b', f b a = .ok b' → P b → P b') {l : List α} {b b' : β}
    (h : l.foldlM f b = .ok b') (hb : P b) : P b' := by
  induction l generalizing b with
  | nil => cases h; exact hb
  | cons a l ih =>
    rw [List.foldlM_cons] at h
    cases ha : f b a with
    | error e => rw [ha] at h; cases h
    | ok b₁ => rw [ha] at h; exact ih h (hf b a b₁ ha hb)

/-- File keys that `buildIndex` may record. -/
def CanonicalKeys (files : SortedMap Str FileEntry) : Prop :=
  ∀ k ∈ files.keys, Canonical '/' k ∧ k ≠ []

theorem canonicalKeys_insert {files : SortedMap Str FileEntry} {raw : Str} (entry : FileEntry)
    (h : CanonicalKeys files) (hne : normalize raw ≠ []) :
    CanonicalKeys (files.insert (normalize raw) entry) := by
  intro k hk
  rcases SortedMap.mem_keys_insert.mp hk with rfl | hk
  · exact ⟨canonical_normalize raw, hne⟩
  · exact h k hk

theorem canonicalKeys_addRow {pol : DupPolicy} {shards : List Shard} {url : Str} {s : ℕ}
    {offs : List ℕ} {st st' : ℕ × SortedMap Str FileEntry} {raw : Str}
    (h : addRow pol shards url s offs st raw = .ok st') (hst : CanonicalKeys st.2) :
    CanonicalKeys st'.2 := by
  unfold addRow at h
  split at h
  · cases h
  · split at h
    · cases h
    · next hne =>
      unfold addEntry at h
      split at h
      · cases h
        exact canonicalKeys_insert _ hst hne
      · split at h
        · split at h <;> cases h
        · cases h
          exact hst
        · cases h
          exact canonicalKeys_insert _ hst hne

theorem canonicalKeys_addBatch {pol : DupPolicy} {shards : List Shard} {url : Str} {s : ℕ}
    {offs : List ℕ} {st st' : ℕ × SortedMap Str FileEntry} {batch : Except Str (List Column)}
    (h : addBatch pol shards url s offs st batch = .ok st') (hst : CanonicalKeys st.2) :
    CanonicalKeys st'.2 := by
  unfold addBatch at h
  split at h
  · cases h
  · cases h
  · split at h
    · cases h
    · exact foldlM_ok_preserves (P := fun st => CanonicalKeys st.2)
        (fun _ _ _ => canonicalKeys_addRow) h hst

variable {A : Adapters} {R : ParquetReader} {pathColumn contentColumn : Option Str}

theorem canonicalKeys_addShard {pol : DupPolicy} {ix ix' : Index} {url : Str}
    (h : addShard A R pathColumn contentColumn pol ix url = .ok ix')
    (hix : CanonicalKeys ix.files) : CanonicalKeys ix'.files := by
  unfold addShard at h
  cases hopen : openShard A R pathColumn contentColumn url with
  | error e => rw [hopen] at h; cases h
  | ok p =>
    rw [hopen, lift_ok] at h
    change (p.2.foldlM (addBatch pol (ix.shards ++ [p.1]) url ix.shards.length
      p.1.rowGroupOffsets) (0, ix.files) >>= fun st =>
        .ok { ix with shards := ix.shards ++ [p.1], files := st.2 }) = _ at h
    cases hrun : p.2.foldlM (addBatch pol (ix.shards ++ [p.1]) url ix.shards.length
        p.1.rowGroupOffsets) (0, ix.files) with
    | error e => rw [hrun] at h; cases h
    | ok st =>
      rw [hrun] at h
      cases h
      exact foldlM_ok_preserves (P := fun st => CanonicalKeys st.2)
        (fun _ _ _ => canonicalKeys_addBatch) hrun hix

/-- **Every index that is built is well formed.** -/
theorem wellFormed_of_buildIndex {sources : List Str} {pol : DupPolicy} {ix : Index}
    (h : buildIndex A R pathColumn contentColumn sources pol = .ok ix) : ix.WellFormed := by
  unfold buildIndex at h
  cases hsrc : expandSources A sources with
  | error e => rw [hsrc] at h; cases h
  | ok urls =>
    rw [hsrc, lift_ok] at h
    change (urls.foldlM (addShard A R pathColumn contentColumn pol)
      Index.empty >>= fun ix =>
        .ok { ix with dirs := collectDirs ix.files.keys }) = _ at h
    cases hrun : urls.foldlM (addShard A R pathColumn contentColumn pol)
        Index.empty with
    | error e => rw [hrun] at h; cases h
    | ok ix₁ =>
      rw [hrun] at h
      cases h
      have hkeys : CanonicalKeys ix₁.files :=
        foldlM_ok_preserves (P := fun ix : Index => CanonicalKeys ix.files)
          (fun _ _ _ => canonicalKeys_addShard) hrun (by simp [CanonicalKeys, Index.empty])
      exact ⟨fun hk => (hkeys _ hk).1, fun hk => (hkeys _ hk).2, mem_collectDirs⟩

end ParquetFileFs
