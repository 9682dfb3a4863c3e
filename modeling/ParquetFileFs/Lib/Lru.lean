import Mathlib.Data.List.Basic
import Mathlib.Tactic

/-!
# A least-recently-used cache

A cache of bounded size, kept as a list of entries with the most recently used
one first.  That no key occurs twice and that the size is bounded are fields of
the structure.

## Main definitions

* `Lru`, `get`, `put`, `evict`.
* `touch`, `recent` — the keys that were used, the last one first.

## Main results

* `mem_of_get`, `mem_entries_get`, `mem_entries_put`, `mem_entries_evict` — an
  answer is a cached entry, and no operation makes up an entry.
* `keys_get_recent`, `keys_put_recent` — **a cache that is used key by key holds
  the most recently used keys.**
-/

/-- At most `cap` entries with distinct keys, the most recently used one first. -/
structure Lru (κ ν : Type*) [DecidableEq κ] (cap : ℕ) where
  /-- The entries, most recently used first. -/
  entries : List (κ × ν)
  /-- No key occurs twice. -/
  nodup : (entries.map Prod.fst).Nodup
  /-- The size is bounded. -/
  length_le : entries.length ≤ cap

namespace Lru

variable {κ ν : Type*} [DecidableEq κ] {cap : ℕ}

/-- The cache without entries. -/
def empty : Lru κ ν cap := ⟨[], by simp, by simp⟩

/-- The cache without the entry of a key. -/
def evict (c : Lru κ ν cap) (k : κ) : Lru κ ν cap where
  entries := c.entries.filter (·.1 ≠ k)
  nodup := c.nodup.sublist (List.filter_sublist.map Prod.fst)
  length_le := (List.length_filter_le _ _).trans c.length_le

theorem notMem_filter_ne {k : κ} {es : List (κ × ν)} :
    k ∉ (es.filter (·.1 ≠ k)).map Prod.fst := by
  simp

/-- Look a key up; a found entry becomes the most recently used one. -/
def get (c : Lru κ ν cap) (k : κ) : Option ν × Lru κ ν cap :=
  match h : c.entries.find? (·.1 = k) with
  | none => (none, c)
  | some e => (some e.2,
      { entries := (k, e.2) :: c.entries.filter (·.1 ≠ k)
        nodup := by
          rw [List.map_cons, List.nodup_cons]
          exact ⟨notMem_filter_ne, (c.evict k).nodup⟩
        length_le := by
          -- one entry is taken out before one is put in front
          have hmem := List.mem_of_find?_eq_some h
          have hlt : (c.entries.filter (·.1 ≠ k)).length < c.entries.length :=
            List.length_filter_lt_length_iff_exists.mpr ⟨e, hmem, by simpa using List.find?_some h⟩
          exact hlt.trans_le c.length_le })

/-- Store a value as the most recently used entry; the entry over the bound is
dropped from the other end. -/
def put (c : Lru κ ν cap) (k : κ) (v : ν) : Lru κ ν cap where
  entries := ((k, v) :: c.entries.filter (·.1 ≠ k)).take cap
  nodup := by
    refine List.Nodup.sublist ((List.take_sublist _ _).map Prod.fst) ?_
    rw [List.map_cons, List.nodup_cons]
    exact ⟨notMem_filter_ne, (c.evict k).nodup⟩
  length_le := by simp

@[simp] theorem entries_empty : (empty : Lru κ ν cap).entries = [] := rfl

theorem mem_of_get {c : Lru κ ν cap} {k : κ} {v : ν} (h : (c.get k).1 = some v) :
    (k, v) ∈ c.entries := by
  unfold get at h
  split at h
  · cases h
  · next e he =>
    rw [Option.some.injEq] at h
    have hk : e.1 = k := by simpa using List.find?_some he
    rw [← h, ← hk]
    exact List.mem_of_find?_eq_some he

theorem mem_entries_get {c : Lru κ ν cap} {k : κ} {e : κ × ν} (h : e ∈ (c.get k).2.entries) :
    e ∈ c.entries := by
  unfold get at h
  split at h
  · exact h
  · next e' he' =>
    rcases List.mem_cons.mp h with rfl | h
    · have hk : e'.1 = k := by simpa using List.find?_some he'
      rw [← hk]
      exact List.mem_of_find?_eq_some he'
    · exact (List.mem_filter.mp h).1

theorem mem_entries_put {c : Lru κ ν cap} {k : κ} {v : ν} {e : κ × ν}
    (h : e ∈ (c.put k v).entries) : e = (k, v) ∨ e ∈ c.entries := by
  rcases List.mem_cons.mp (List.mem_of_mem_take h) with rfl | h
  · exact Or.inl rfl
  · exact Or.inr (List.mem_filter.mp h).1

theorem mem_entries_evict {c : Lru κ ν cap} {k : κ} {e : κ × ν}
    (h : e ∈ (c.evict k).entries) : e ∈ c.entries := (List.mem_filter.mp h).1

/-! ### Keys in the order of their last use -/

/-- The keys of the entries, the most recently used one first. -/
def keys (c : Lru κ ν cap) : List κ := c.entries.map Prod.fst

/-- Use a key: it moves to the front. -/
def touch (ks : List κ) (k : κ) : List κ := k :: ks.filter (· ≠ k)

/-- The keys of a sequence of uses, each once, the last one used first. -/
def recent (uses : List κ) : List κ := uses.foldl touch []

@[simp] theorem keys_empty : (empty : Lru κ ν cap).keys = [] := rfl

@[simp] theorem recent_nil : recent ([] : List κ) = [] := rfl

@[simp] theorem recent_append_singleton (uses : List κ) (k : κ) :
    recent (uses ++ [k]) = touch (recent uses) k := by
  rw [recent, List.foldl_append]
  rfl

theorem mem_touch {ks : List κ} {k x : κ} : x ∈ touch ks k ↔ x = k ∨ x ∈ ks := by
  by_cases h : x = k <;> simp [touch, h]

theorem nodup_touch {ks : List κ} {k : κ} (h : ks.Nodup) : (touch ks k).Nodup := by
  rw [touch, List.nodup_cons]
  exact ⟨by simp, h.filter _⟩

@[simp] theorem mem_recent {uses : List κ} {k : κ} : k ∈ recent uses ↔ k ∈ uses := by
  induction uses using List.reverseRecOn with
  | nil => simp
  | append_singleton uses k' ih =>
    rw [recent_append_singleton, mem_touch, ih]
    simp [or_comm]

theorem nodup_recent (uses : List κ) : (recent uses).Nodup := by
  induction uses using List.reverseRecOn with
  | nil => exact List.nodup_nil
  | append_singleton uses k ih =>
    rw [recent_append_singleton]
    exact nodup_touch ih

/-- Using one of the first keys does not change which keys are the first ones. -/
theorem take_touch_of_mem {ks : List κ} {k : κ} (h : ks.Nodup) (hk : k ∈ ks.take cap) :
    (touch ks k).take cap = touch (ks.take cap) k := by
  have hdrop : k ∉ ks.drop cap := fun hd => List.disjoint_take_drop h le_rfl hk hd
  have hrest : (ks.drop cap).filter (· ≠ k) = ks.drop cap := by
    rw [List.filter_eq_self]
    exact fun x hx => decide_eq_true fun hxk : x = k => hdrop (hxk ▸ hx)
  have hsplit : touch ks k = touch (ks.take cap) k ++ ks.drop cap := by
    conv_lhs => rw [touch, ← List.take_append_drop cap ks, List.filter_append, hrest]
    rfl
  -- one key is taken out of the first ones before it is put in front
  have hlen : (touch (ks.take cap) k).length = (ks.take cap).length := by
    have hpos := List.length_pos_of_mem hk
    have herase : (ks.take cap).filter (· ≠ k) = (ks.take cap).erase k := by
      rw [(h.sublist (List.take_sublist cap ks)).erase_eq_filter]
      exact List.filter_congr fun x _ => by by_cases hx : x = k <;> simp [hx]
    rw [touch, List.length_cons, herase, List.length_erase_of_mem hk]
    omega
  rw [hsplit]
  rcases le_total cap ks.length with hle | hle
  · exact List.take_left' (by rw [hlen, List.length_take_of_le hle])
  · rw [List.drop_of_length_le hle, List.append_nil, List.take_of_length_le]
    rw [hlen, List.length_take]
    exact min_le_left _ _

/-- Using another key drops the last of the first keys, if there are as many as can be. -/
theorem take_touch_of_notMem {ks : List κ} {k : κ} (hk : k ∉ ks.take cap) :
    (touch ks k).take cap = (touch (ks.take cap) k).take cap := by
  cases cap with
  | zero => simp
  | succ n =>
    have hkeep : ∀ l : List κ, k ∉ l → l.filter (· ≠ k) = l := by
      intro l hl
      rw [List.filter_eq_self]
      exact fun x hx => decide_eq_true fun hxk : x = k => hl (hxk ▸ hx)
    rw [touch, touch, List.take_succ_cons, List.take_succ_cons, hkeep _ hk, List.take_take,
      min_eq_left (Nat.le_succ n)]
    -- up to the bound there is nothing to take out
    have hn : k ∉ ks.take n := fun h =>
      hk ((List.take_prefix_take_left (by omega)).subset h)
    rw [← List.take_append_drop n ks, List.filter_append, hkeep _ hn]
    rcases le_total n ks.length with hle | hle
    · have hlen := List.length_take_of_le hle
      rw [List.take_left' hlen, List.take_left' hlen]
    · simp [List.drop_of_length_le hle]

theorem get_of_notMem {c : Lru κ ν cap} {k : κ} (h : k ∉ c.keys) : c.get k = (none, c) := by
  unfold get
  split
  · rfl
  · next e he =>
    have hk : e.1 = k := by simpa using List.find?_some he
    exact absurd (hk ▸ List.mem_map_of_mem (List.mem_of_find?_eq_some he)) h

theorem exists_get_of_mem {c : Lru κ ν cap} {k : κ} (h : k ∈ c.keys) :
    ∃ v, (c.get k).1 = some v ∧ (c.get k).2.keys = touch c.keys k := by
  unfold get
  split
  · next hnone =>
    obtain ⟨e, he, rfl⟩ := List.mem_map.mp h
    simpa using List.find?_eq_none.mp hnone e he
  · next e _ =>
    refine ⟨e.2, rfl, ?_⟩
    simp [keys, touch, List.filter_map, Function.comp_def]

theorem keys_put (c : Lru κ ν cap) (k : κ) (v : ν) :
    (c.put k v).keys = (touch c.keys k).take cap := by
  simp [keys, put, touch, List.map_take, List.filter_map, Function.comp_def]

section Recent

variable {c : Lru κ ν cap} {uses : List κ} {k : κ}

/-- **A found key is used**: the cache holds the most recently used keys. -/
theorem keys_get_recent (h : c.keys = (recent uses).take cap) (hk : k ∈ c.keys) :
    ∃ v, (c.get k).1 = some v ∧ (c.get k).2.keys = (recent (uses ++ [k])).take cap := by
  obtain ⟨v, hv, hkeys⟩ := exists_get_of_mem hk
  rw [h] at hk
  exact ⟨v, hv, by rw [hkeys, h, recent_append_singleton, take_touch_of_mem (nodup_recent uses) hk]⟩

/-- **A stored key is used**: the cache holds the most recently used keys. -/
theorem keys_put_recent (h : c.keys = (recent uses).take cap) (hk : k ∉ c.keys) (v : ν) :
    (c.put k v).keys = (recent (uses ++ [k])).take cap := by
  rw [h] at hk
  rw [keys_put, h, recent_append_singleton, take_touch_of_notMem hk]

end Recent

end Lru
