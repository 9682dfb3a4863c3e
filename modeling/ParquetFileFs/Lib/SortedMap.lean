import Mathlib.Data.List.Sort
import Mathlib.Order.Lex
import Mathlib.Data.List.Lex
import Mathlib.Tactic

/-!
# Finite maps with ordered keys

A finite map kept as its list of entries in strictly increasing key order; the
order is a field of the structure, so a map with a repeated or misplaced key
cannot be built.  Because the representation is canonical, two maps with the
same lookups are equal.

For keys that are themselves words, the keys with a given prefix form one block
of the key list, which starts at the prefix.

## Main definitions

* `SortedMap`, `find?`, `contains`, `insert`, `keys`, `keysFrom`.
* `mapVals`, `overlay` — values changed, and the entries of one map over another's.

## Main results

* `find?_insert`, `ext_find?` — lookups after an insertion, extensionality.
* `find?_overlay` — a lookup in one map, and then in the other.
* `takeWhile_prefix_keysFrom` — **scanning from a prefix to the first key without it
  visits exactly the keys that have it.**
-/

/-- A finite map as a list of entries in strictly increasing key order. -/
structure SortedMap (κ ν : Type*) [LinearOrder κ] where
  /-- The entries, in key order. -/
  entries : List (κ × ν)
  /-- The keys strictly increase. -/
  sorted : (entries.map Prod.fst).Pairwise (· < ·)

namespace SortedMap

variable {κ ν : Type*} [LinearOrder κ]

instance [DecidableEq ν] : DecidableEq (SortedMap κ ν) := fun m m' =>
  decidable_of_iff (m.entries = m'.entries)
    ⟨fun h => by cases m; cases m'; simp_all, fun h => h ▸ rfl⟩

/-- The empty map. -/
def empty : SortedMap κ ν := ⟨[], by simp⟩

/-- The value stored under `k`. -/
def find? (m : SortedMap κ ν) (k : κ) : Option ν :=
  (m.entries.find? fun e => e.1 = k).map Prod.snd

/-- Whether `k` is a key. -/
def contains (m : SortedMap κ ν) (k : κ) : Bool := (m.find? k).isSome

/-- The keys, in increasing order. -/
def keys (m : SortedMap κ ν) : List κ := m.entries.map Prod.fst

/-- The keys from `lo` up, in increasing order. -/
def keysFrom (m : SortedMap κ ν) (lo : κ) : List κ := m.keys.dropWhile (· < lo)

/-- Insertion into an entry list in key order, replacing the value of an
existing key. -/
def insertEntry (k : κ) (v : ν) : List (κ × ν) → List (κ × ν)
  | [] => [(k, v)]
  | e :: es =>
      if k < e.1 then (k, v) :: e :: es
      else if e.1 = k then (k, v) :: es
      else e :: insertEntry k v es

theorem mem_insertEntry {k x : κ} {v : ν} {es : List (κ × ν)} :
    x ∈ (insertEntry k v es).map Prod.fst ↔ x = k ∨ x ∈ es.map Prod.fst := by
  induction es with
  | nil => simp [insertEntry]
  | cons e es ih =>
    rw [insertEntry]
    split_ifs with h1 h2
    · simp
    · subst h2; simp
    · rw [List.map_cons, List.mem_cons, ih, List.map_cons, List.mem_cons]
      tauto

theorem sorted_insertEntry (k : κ) (v : ν) {es : List (κ × ν)}
    (h : (es.map Prod.fst).Pairwise (· < ·)) :
    ((insertEntry k v es).map Prod.fst).Pairwise (· < ·) := by
  induction es with
  | nil => simp [insertEntry]
  | cons e es ih =>
    rw [List.map_cons, List.pairwise_cons] at h
    rw [insertEntry]
    split_ifs with h1 h2
    · rw [List.map_cons, List.pairwise_cons]
      refine ⟨fun x hx => ?_, by rw [List.map_cons, List.pairwise_cons]; exact h⟩
      rcases List.mem_cons.mp hx with rfl | hx
      · exact h1
      · exact h1.trans (h.1 x hx)
    · subst h2
      rw [List.map_cons, List.pairwise_cons]
      exact h
    · rw [List.map_cons, List.pairwise_cons]
      refine ⟨fun x hx => ?_, ih h.2⟩
      rcases mem_insertEntry.mp hx with rfl | hx
      · exact lt_of_le_of_ne (not_lt.mp h1) h2
      · exact h.1 x hx

/-- The map with `v` stored under `k`. -/
def insert (m : SortedMap κ ν) (k : κ) (v : ν) : SortedMap κ ν :=
  ⟨insertEntry k v m.entries, sorted_insertEntry k v m.sorted⟩

/-! ### Lookups -/

@[simp] theorem find?_empty (k : κ) : (empty : SortedMap κ ν).find? k = none := rfl

@[simp] theorem keys_empty : (empty : SortedMap κ ν).keys = [] := rfl

theorem pairwise_keys (m : SortedMap κ ν) : m.keys.Pairwise (· < ·) := m.sorted

theorem nodup_keys (m : SortedMap κ ν) : m.keys.Nodup := m.sorted.imp fun h => ne_of_lt h

theorem find?_insertEntry (k x : κ) (v : ν) (es : List (κ × ν)) :
    ((insertEntry k v es).find? fun e => e.1 = x).map Prod.snd
      = if x = k then some v else (es.find? fun e => e.1 = x).map Prod.snd := by
  induction es with
  | nil => by_cases h : x = k <;> simp [insertEntry, h, eq_comm]
  | cons e es ih =>
    rw [insertEntry]
    -- the cases are those of the insertion: before, at, or past the first entry
    by_cases h1 : k < e.1
    · rw [if_pos h1]
      by_cases hx : x = k
      · simp [hx]
      · rw [List.find?_cons_of_neg (by simpa using Ne.symm hx), if_neg hx]
    · rw [if_neg h1]
      by_cases h2 : e.1 = k
      · rw [if_pos h2]
        by_cases hx : x = k
        · simp [hx]
        · rw [List.find?_cons_of_neg (by simpa using Ne.symm hx), if_neg hx,
            List.find?_cons_of_neg (by simpa [h2] using Ne.symm hx)]
      · rw [if_neg h2]
        by_cases he : e.1 = x
        · rw [List.find?_cons_of_pos (by simpa using he),
            List.find?_cons_of_pos (by simpa using he), if_neg fun hx => h2 (he.trans hx)]
        · rw [List.find?_cons_of_neg (by simpa using he),
            List.find?_cons_of_neg (by simpa using he), ih]

theorem find?_insert (m : SortedMap κ ν) (k x : κ) (v : ν) :
    (m.insert k v).find? x = if x = k then some v else m.find? x :=
  find?_insertEntry k x v m.entries

theorem contains_iff_mem_keys {m : SortedMap κ ν} {k : κ} : m.contains k ↔ k ∈ m.keys := by
  rw [contains, find?, Option.isSome_map, List.find?_isSome, keys, List.mem_map]
  simp

theorem mem_keys_iff_find? {m : SortedMap κ ν} {k : κ} : k ∈ m.keys ↔ ∃ v, m.find? k = some v := by
  rw [← contains_iff_mem_keys, contains, Option.isSome_iff_exists]

/-- The keys are determined by which they are. -/
theorem keys_eq_insertionSort {m : SortedMap κ ν} {ks : List κ} (hnodup : ks.Nodup)
    (hmem : ∀ k, k ∈ m.keys ↔ k ∈ ks) : m.keys = ks.insertionSort (· ≤ ·) := by
  have hperm : m.keys.Perm (ks.insertionSort (· ≤ ·)) :=
    ((List.perm_ext_iff_of_nodup m.nodup_keys hnodup).mpr hmem).trans
      (List.perm_insertionSort (· ≤ ·) ks).symm
  have hle : m.keys.Pairwise (· ≤ ·) := m.pairwise_keys.imp fun h => le_of_lt h
  exact hperm.eq_of_pairwise (fun a b _ _ hab hba => le_antisymm hab hba) hle
    (List.pairwise_insertionSort (· ≤ ·) ks)

/-- Maps with the same keys have them in the same order. -/
theorem keys_ext {m m' : SortedMap κ ν} (h : ∀ k, k ∈ m.keys ↔ k ∈ m'.keys) :
    m.keys = m'.keys := by
  rw [keys_eq_insertionSort m'.nodup_keys h]
  exact (keys_eq_insertionSort m'.nodup_keys fun k => Iff.rfl).symm

theorem mem_keys_insert {m : SortedMap κ ν} {k x : κ} {v : ν} :
    x ∈ (m.insert k v).keys ↔ x = k ∨ x ∈ m.keys := mem_insertEntry

/-- The entry of a key is found by looking the key up. -/
theorem mem_entries_iff {m : SortedMap κ ν} {k : κ} {v : ν} :
    (k, v) ∈ m.entries ↔ m.find? k = some v := by
  have hnd := m.nodup_keys
  unfold keys at hnd
  unfold find?
  generalize m.entries = es at hnd
  induction es with
  | nil => simp
  | cons e es ih =>
    rw [List.map_cons, List.nodup_cons] at hnd
    rw [List.mem_cons]
    by_cases he : e.1 = k
    · rw [List.find?_cons_of_pos (by simpa using he), Option.map_some, Option.some.injEq]
      constructor
      · rintro (rfl | h)
        · rfl
        · exact absurd (List.mem_map.mpr ⟨_, h, he.symm⟩) hnd.1
      · rintro rfl
        exact Or.inl (by rw [← he])
    · rw [List.find?_cons_of_neg (by simpa using he)]
      exact (or_iff_right fun h => he (by rw [← h])).trans (ih hnd.2)

/-- **Maps with the same lookups are equal.** -/
theorem ext_find? {m m' : SortedMap κ ν} (h : ∀ k, m.find? k = m'.find? k) : m = m' := by
  have hs : m.entries.Pairwise (·.1 < ·.1) := List.pairwise_map.mp m.sorted
  have hs' : m'.entries.Pairwise (·.1 < ·.1) := List.pairwise_map.mp m'.sorted
  have hmem : ∀ e, e ∈ m.entries ↔ e ∈ m'.entries := fun e => by
    rw [← Prod.mk.eta (p := e), mem_entries_iff, mem_entries_iff, h]
  -- two sorted lists with the same members are one list
  have hperm : m.entries.Perm m'.entries :=
    (List.perm_ext_iff_of_nodup (hs.imp fun hlt e => absurd (e ▸ hlt) (lt_irrefl _))
      (hs'.imp fun hlt e => absurd (e ▸ hlt) (lt_irrefl _))).mpr hmem
  have heq : m.entries = m'.entries :=
    hperm.eq_of_pairwise (fun a b _ _ hab hba => absurd hab (lt_asymm hba)) hs hs'
  cases m
  cases m'
  simp_all

/-! ### One map over another -/

/-- The map with the values changed. -/
def mapVals {ν' : Type*} (f : ν → ν') (m : SortedMap κ ν) : SortedMap κ ν' where
  entries := m.entries.map fun e => (e.1, f e.2)
  sorted := by
    rw [List.map_map]
    exact m.sorted

/-- The entries of the second map over those of the first. -/
def overlay (m m' : SortedMap κ ν) : SortedMap κ ν :=
  m'.entries.foldl (fun acc e => acc.insert e.1 e.2) m

@[simp] theorem find?_mapVals {ν' : Type*} (f : ν → ν') (m : SortedMap κ ν) (k : κ) :
    (m.mapVals f).find? k = (m.find? k).map f := by
  rw [find?, mapVals, List.find?_map, Option.map_map, find?, Option.map_map]
  rfl

theorem find?_foldl_insert {es : List (κ × ν)} (h : (es.map Prod.fst).Nodup) (m : SortedMap κ ν)
    (k : κ) : (es.foldl (fun acc e => acc.insert e.1 e.2) m).find? k
      = ((es.find? fun e => e.1 = k).map Prod.snd).or (m.find? k) := by
  induction es generalizing m with
  | nil => rfl
  | cons e es ih =>
    rw [List.map_cons, List.nodup_cons] at h
    rw [List.foldl_cons, ih h.2, find?_insert]
    by_cases he : e.1 = k
    · -- the key does not come again
      have hnone : es.find? (fun e => e.1 = k) = none := by
        rw [List.find?_eq_none]
        intro e' he' heq
        exact h.1 (List.mem_map.mpr ⟨e', he', (of_decide_eq_true heq).trans he.symm⟩)
      simp [hnone, he]
    · simp [he, Ne.symm he]

/-- **A lookup in an overlay** is one in the upper map, and then in the lower. -/
theorem find?_overlay (m m' : SortedMap κ ν) (k : κ) :
    (m.overlay m').find? k = (m'.find? k).or (m.find? k) :=
  find?_foldl_insert m'.nodup_keys m k

theorem mem_keys_overlay {m m' : SortedMap κ ν} {k : κ} :
    k ∈ (m.overlay m').keys ↔ k ∈ m.keys ∨ k ∈ m'.keys := by
  rw [← contains_iff_mem_keys, ← contains_iff_mem_keys, ← contains_iff_mem_keys, contains,
    contains, contains, find?_overlay, Option.isSome_or, Bool.or_eq_true, or_comm]

theorem mem_keys_mapVals {ν' : Type*} {f : ν → ν'} {m : SortedMap κ ν} {k : κ} :
    k ∈ (m.mapVals f).keys ↔ k ∈ m.keys := by
  rw [keys, mapVals, List.map_map]
  rfl

end SortedMap

/-! ### Prefix ranges -/

namespace List

variable {α : Type*} [LinearOrder α]

theorem not_lt_of_prefix {p l : List α} (h : p <+: l) : ¬l < p := by
  induction p generalizing l with
  | nil => simp
  | cons x p ih =>
    obtain ⟨t, rfl⟩ := h
    rw [cons_append, cons_lt_cons_iff]
    rintro (h | ⟨-, h⟩)
    · exact lt_irrefl x h
    · exact ih (prefix_append p t) h

/-- Between a prefix and a word that has it, every word has it. -/
theorem prefix_of_not_lt {p a b : List α} (hpa : ¬a < p) (hab : ¬b < a) (hpb : p <+: b) :
    p <+: a := by
  induction p generalizing a b with
  | nil => exact nil_prefix
  | cons x p ih =>
    obtain ⟨t, rfl⟩ := hpb
    cases a with
    | nil => simp at hpa
    | cons y a =>
      rw [cons_lt_cons_iff, not_or, not_and] at hpa
      rw [cons_append, cons_lt_cons_iff, not_or, not_and] at hab
      -- `a` lies between `x :: p` and a word starting with `x`, so it starts with `x`
      have hxy : y = x := le_antisymm (not_lt.mp hab.1) (not_lt.mp hpa.1)
      subst hxy
      exact cons_prefix_cons.mpr ⟨rfl, ih (hpa.2 rfl) (hab.2 rfl) (prefix_append p t)⟩

/-- Scanning a sorted list from a prefix to the first word without it visits
exactly the words that have it. -/
theorem takeWhile_prefix_dropWhile_lt {l : List (List α)} (h : l.Pairwise (· < ·)) (p : List α) :
    (l.dropWhile (· < p)).takeWhile (p <+: ·) = l.filter (p <+: ·) := by
  induction l with
  | nil => rfl
  | cons k l ih =>
    rw [pairwise_cons] at h
    by_cases hlt : k < p
    · have hk : ¬p <+: k := fun hp => not_lt_of_prefix hp hlt
      rw [dropWhile_cons_of_pos (by simpa using hlt), ih h.2,
        filter_cons_of_neg (by simpa using hk)]
    · rw [dropWhile_cons_of_neg (by simpa using hlt)]
      by_cases hk : p <+: k
      · -- past the start of the block nothing is below the prefix any more
        have hnot : l.dropWhile (· < p) = l := by
          cases l with
          | nil => rfl
          | cons a l =>
            have ha : ¬a < p := fun hap => hlt ((h.1 a mem_cons_self).trans hap)
            rw [dropWhile_cons_of_neg (by simpa using ha)]
        rw [takeWhile_cons_of_pos (by simpa using hk), filter_cons_of_pos (by simpa using hk),
          ← ih h.2, hnot]
      · -- the scan stops at `k`; a later word with the prefix would give it to `k`
        rw [takeWhile_cons_of_neg (by simpa using hk), filter_cons_of_neg (by simpa using hk),
          eq_comm, filter_eq_nil_iff]
        intro a ha hpa
        exact hk (prefix_of_not_lt hlt (lt_asymm (h.1 a ha)) (by simpa using hpa))

end List

/-- The keys with a given prefix, by scanning from the prefix. -/
theorem SortedMap.takeWhile_prefix_keysFrom {α ν : Type*} [LinearOrder α]
    (m : SortedMap (List α) ν) (p : List α) :
    (m.keysFrom p).takeWhile (p <+: ·) = m.keys.filter (p <+: ·) := by
  rw [← List.takeWhile_prefix_dropWhile_lt m.pairwise_keys p, keysFrom]
  congr!
