import ParquetFileFs.Index.Basic

/-!
# What the merged index holds

The rows of all shards form one sequence, each row with the place it is stored
at.  Under each policy the file table built from them is a function of that
sequence: the place of the first row with a given path, of the last one, or, if
no two rows share a path, of the only one.

## Main definitions

* `shardRows` — the rows of all shards with their places.
* `lookupFirst`, `lookupLast` — the place of the first and last row of a path.
* `Merged` — the file table that a policy makes of a sequence of rows.
* `ShardHolds` — a shard whose path column holds given rows, as the library answers.

## Main results

* `locate_offsets` — `locate` finds the place of every row of a shard.
* `locate_inverts_offsets` — **`locate` inverts the layout of the row groups.**
* `mergeRows_ok`, `mergeRows_duplicate` — recording rows one by one, under each policy.
* `buildIndex_merge` — **the index is exactly the merge of the rows**.
-/

namespace ParquetFileFs

open Segments Cumulative

/-! ### Rows and their places -/

/-- A row: the place it is stored at, and its raw path. -/
abbrev LocatedRow := RowLoc × Str

/-- The path a row is filed under. -/
def LocatedRow.key (r : LocatedRow) : Str := normalize r.2

/-- The rows of the row groups `groups` of shard `s`. -/
def groupRows (s : ℕ) (groups : List (List Str)) : List LocatedRow :=
  (label 0 groups).map fun p => (⟨s, p.1.1, p.1.2⟩, p.2)

/-- The rows of all shards in order, the shards numbered from `s`. -/
def shardRows : ℕ → List (List (List Str)) → List LocatedRow
  | _, [] => []
  | s, groups :: rest => groupRows s groups ++ shardRows (s + 1) rest

/-- The place of the first row filed under `k`. -/
def lookupFirst (rows : List LocatedRow) (k : Str) : Option RowLoc :=
  (rows.find? fun r => r.key = k).map Prod.fst

/-- The place of the last row filed under `k`. -/
def lookupLast (rows : List LocatedRow) (k : Str) : Option RowLoc := lookupFirst rows.reverse k

theorem mem_shardRows {data : List (List (List Str))} {s : ℕ} {r : LocatedRow}
    (h : r ∈ shardRows s data) :
    s ≤ r.1.shard ∧ ∃ groups rows, data[r.1.shard - s]? = some groups ∧
      groups[r.1.rowGroup]? = some rows ∧ rows[r.1.row]? = some r.2 := by
  induction data generalizing s with
  | nil => simp [shardRows] at h
  | cons groups rest ih =>
    rw [shardRows, List.mem_append] at h
    rcases h with h | h
    · rw [groupRows, List.mem_map] at h
      obtain ⟨⟨⟨g, i⟩, raw⟩, hmem, rfl⟩ := h
      obtain ⟨xs, hxs, hget⟩ := mem_label hmem
      exact ⟨le_rfl, groups, xs, by simp, hxs, hget⟩
    · obtain ⟨hle, gs, rows, hgs, hrows, hget⟩ := ih h
      refine ⟨by omega, gs, rows, ?_, hrows, hget⟩
      rw [← hgs, show r.1.shard - s = r.1.shard - (s + 1) + 1 by omega, List.getElem?_cons_succ]

theorem lookupFirst_append_singleton (rows : List LocatedRow) (r : LocatedRow) (k : Str) :
    lookupFirst (rows ++ [r]) k
      = (lookupFirst rows k).or (if r.key = k then some r.1 else none) := by
  rw [lookupFirst, List.find?_append, lookupFirst, List.find?_singleton]
  cases rows.find? fun r => r.key = k with
  | none => by_cases h : r.key = k <;> simp [h]
  | some r' => simp

theorem lookupLast_append_singleton (rows : List LocatedRow) (r : LocatedRow) (k : Str) :
    lookupLast (rows ++ [r]) k = if r.key = k then some r.1 else lookupLast rows k := by
  rw [lookupLast, List.reverse_append, List.reverse_singleton, List.singleton_append, lookupFirst,
    List.find?_cons]
  by_cases h : r.key = k <;> simp [h, lookupLast, lookupFirst]

theorem lookupFirst_eq_none_iff {rows : List LocatedRow} {k : Str} :
    lookupFirst rows k = none ↔ k ∉ rows.map LocatedRow.key := by
  simp [lookupFirst]

theorem of_lookupFirst {rows : List LocatedRow} {k : Str} {loc : RowLoc}
    (h : lookupFirst rows k = some loc) : ∃ r ∈ rows, r.key = k ∧ r.1 = loc := by
  rw [lookupFirst, Option.map_eq_some_iff] at h
  obtain ⟨r, hr, rfl⟩ := h
  exact ⟨r, List.mem_of_find?_eq_some hr, by simpa using List.find?_some hr, rfl⟩

theorem of_lookupLast {rows : List LocatedRow} {k : Str} {loc : RowLoc}
    (h : lookupLast rows k = some loc) : ∃ r ∈ rows, r.key = k ∧ r.1 = loc := by
  obtain ⟨r, hr, h⟩ := of_lookupFirst h
  exact ⟨r, List.mem_reverse.mp hr, h⟩

/-- Rows with distinct paths are found wherever the search starts. -/
theorem lookupFirst_of_nodup {rows : List LocatedRow} (hnd : (rows.map LocatedRow.key).Nodup)
    {r : LocatedRow} (hr : r ∈ rows) : lookupFirst rows r.key = some r.1 := by
  induction rows with
  | nil => simp at hr
  | cons r' rows ih =>
    rw [List.map_cons, List.nodup_cons] at hnd
    rw [lookupFirst, List.find?_cons]
    by_cases h : r'.key = r.key
    · rcases List.mem_cons.mp hr with rfl | hr
      · simp
      · exact absurd (List.mem_map.mpr ⟨r, hr, h.symm⟩) hnd.1
    · have hr' : r ∈ rows := (List.mem_cons.mp hr).resolve_left fun e => h (by rw [e])
      simpa [h, lookupFirst] using ih hnd.2 hr'

theorem lookupLast_eq_lookupFirst {rows : List LocatedRow}
    (hnd : (rows.map LocatedRow.key).Nodup) (k : Str) : lookupLast rows k = lookupFirst rows k := by
  have hnd' : (rows.reverse.map LocatedRow.key).Nodup := by
    rw [List.map_reverse]
    exact List.nodup_reverse.mpr hnd
  cases h : lookupFirst rows k with
  | none =>
    rw [lookupFirst_eq_none_iff] at h
    rw [lookupLast, lookupFirst_eq_none_iff, List.map_reverse, List.mem_reverse]
    exact h
  | some loc =>
    obtain ⟨r, hr, rfl, rfl⟩ := of_lookupFirst h
    exact lookupFirst_of_nodup hnd' (List.mem_reverse.mpr hr)

/-! ### Recording rows one by one -/

/-- The place a policy keeps for a path. -/
def DupPolicy.lookup : DupPolicy → List LocatedRow → Str → Option RowLoc
  | .error => lookupFirst
  | .first => lookupFirst
  | .last => lookupLast

/-- The file table `files` is what the policy makes of the rows. -/
structure Merged (onDuplicate : DupPolicy) (rows : List LocatedRow)
    (files : SortedMap Str FileEntry) : Prop where
  /-- No path occurs twice where that is an error. -/
  nodup : onDuplicate = .error → (rows.map LocatedRow.key).Nodup
  /-- Every path has the place the policy keeps for it. -/
  find : ∀ k, files.find? k = (onDuplicate.lookup rows k).map FileEntry.mk

theorem DupPolicy.of_lookup {pol : DupPolicy} {rows : List LocatedRow} {k : Str} {loc : RowLoc}
    (h : pol.lookup rows k = some loc) : ∃ r ∈ rows, r.key = k ∧ r.1 = loc := by
  cases pol with
  | last => exact of_lookupLast h
  | first => exact of_lookupFirst h
  | error => exact of_lookupFirst h

theorem DupPolicy.lookup_eq_none_iff (pol : DupPolicy) {rows : List LocatedRow} {k : Str} :
    pol.lookup rows k = none ↔ k ∉ rows.map LocatedRow.key := by
  cases pol with
  | last => simp [lookup, lookupLast, lookupFirst_eq_none_iff]
  | first => exact lookupFirst_eq_none_iff
  | error => exact lookupFirst_eq_none_iff

theorem merged_empty (pol : DupPolicy) : Merged pol [] SortedMap.empty where
  nodup _ := List.nodup_nil
  find k := by
    rw [(DupPolicy.lookup_eq_none_iff pol).mpr (by simp)]
    rfl

theorem Merged.mem_keys {pol : DupPolicy} {rows : List LocatedRow}
    {files : SortedMap Str FileEntry} (h : Merged pol rows files) {k : Str} :
    k ∈ files.keys ↔ k ∈ rows.map LocatedRow.key := by
  rw [SortedMap.mem_keys_iff_find?, h.find, ← not_iff_not,
    ← DupPolicy.lookup_eq_none_iff pol]
  cases pol.lookup rows k <;> simp

/-- What one more row does to the kept places. -/
theorem Merged.insert {pol : DupPolicy} {rows : List LocatedRow} {r : LocatedRow}
    {files : SortedMap Str FileEntry} (h : Merged pol rows files)
    (hnew : pol = .last ∨ r.key ∉ rows.map LocatedRow.key)
    (hnd : pol = .error → ((rows ++ [r]).map LocatedRow.key).Nodup) :
    Merged pol (rows ++ [r]) (files.insert r.key ⟨r.1⟩) where
  nodup := hnd
  find k := by
    rw [SortedMap.find?_insert, h.find]
    -- only lookups of the path of the new row change
    by_cases hk : k = r.key
    · subst hk
      rw [if_pos rfl]
      cases pol with
      | last => simp [DupPolicy.lookup, lookupLast_append_singleton]
      | first =>
        have hnone := lookupFirst_eq_none_iff.mpr (hnew.resolve_left (by simp))
        simp [DupPolicy.lookup, lookupFirst_append_singleton, hnone]
      | error =>
        have hnone := lookupFirst_eq_none_iff.mpr (hnew.resolve_left (by simp))
        simp [DupPolicy.lookup, lookupFirst_append_singleton, hnone]
    · rw [if_neg hk]
      have hk' : r.key ≠ k := Ne.symm hk
      cases pol <;>
        simp [DupPolicy.lookup, lookupLast_append_singleton, lookupFirst_append_singleton, hk']

theorem Merged.keep {rows : List LocatedRow} {r : LocatedRow} {files : SortedMap Str FileEntry}
    (h : Merged .first rows files) (hold : r.key ∈ rows.map LocatedRow.key) :
    Merged .first (rows ++ [r]) files where
  nodup := by simp
  find k := by
    rw [h.find, DupPolicy.lookup, lookupFirst_append_singleton]
    cases hk : lookupFirst rows k with
    | some loc => simp
    | none =>
      have hne : r.key ≠ k := by
        rintro rfl
        exact lookupFirst_eq_none_iff.mp hk hold
      simp [hne]

/-- A row that no policy objects to is recorded. -/
theorem addEntry_merged {pol : DupPolicy} {rows : List LocatedRow} {r : LocatedRow}
    {files : SortedMap Str FileEntry} (shards : List Shard) (url : Str)
    (h : Merged pol rows files) (hnd : pol = .error → ((rows ++ [r]).map LocatedRow.key).Nodup) :
    ∃ files', addEntry pol shards url files r.key ⟨r.1⟩ = .ok files' ∧
      Merged pol (rows ++ [r]) files' := by
  have hmem := h.mem_keys (k := r.key)
  rw [SortedMap.mem_keys_iff_find?] at hmem
  unfold addEntry
  cases hfind : files.find? r.key with
  | none =>
    have hnew : r.key ∉ rows.map LocatedRow.key := fun hold => by simpa [hfind] using hmem.mpr hold
    exact ⟨_, rfl, h.insert (Or.inr hnew) hnd⟩
  | some old =>
    have hold : r.key ∈ rows.map LocatedRow.key := hmem.mp ⟨old, hfind⟩
    cases pol with
    | first => exact ⟨_, rfl, h.keep hold⟩
    | last => exact ⟨_, rfl, h.insert (Or.inl rfl) (by simp)⟩
    | error =>
      have hnd' := hnd rfl
      rw [List.map_append, List.map_singleton, List.nodup_append] at hnd'
      exact absurd rfl (hnd'.2.2 _ hold _ (by simp))

/-- A second row with the same path, where that is an error. -/
theorem addEntry_duplicate {rows : List LocatedRow} {r : LocatedRow}
    {files : SortedMap Str FileEntry} {shards : List Shard} (url : Str)
    (h : Merged .error rows files) (hold : r.key ∈ rows.map LocatedRow.key)
    (hshard : ∀ r' ∈ rows, r'.1.shard < shards.length) :
    ∃ s ∈ shards, addEntry .error shards url files r.key ⟨r.1⟩
      = .error (.err (.duplicate r.key s.url url)) := by
  obtain ⟨old, hfind⟩ := SortedMap.mem_keys_iff_find?.mp (h.mem_keys.mpr hold)
  have hloc := hfind
  rw [h.find, Option.map_eq_some_iff] at hloc
  obtain ⟨loc, hloc, rfl⟩ := hloc
  obtain ⟨r', hr', -, rfl⟩ := DupPolicy.of_lookup hloc
  -- the error names the shard of the entry that is there, which is among the shards
  have hget := List.getElem?_eq_getElem (hshard r' hr')
  exact ⟨_, List.getElem_mem (hshard r' hr'), by simp only [addEntry, hfind, hget]⟩

/-- Record the rows of one shard. -/
def mergeRows (onDuplicate : DupPolicy) (shards : List Shard) (url : Str)
    (files : SortedMap Str FileEntry) (rows : List LocatedRow) :
    Outcome (SortedMap Str FileEntry) :=
  rows.foldlM (fun files r => addEntry onDuplicate shards url files r.key ⟨r.1⟩) files

/-- **Rows that no policy objects to are all recorded.** -/
theorem mergeRows_ok {pol : DupPolicy} {pre rows : List LocatedRow}
    {files : SortedMap Str FileEntry} (shards : List Shard) (url : Str)
    (h : Merged pol pre files)
    (hnd : pol = .error → ((pre ++ rows).map LocatedRow.key).Nodup) :
    ∃ files', mergeRows pol shards url files rows = .ok files' ∧
      Merged pol (pre ++ rows) files' := by
  induction rows generalizing pre files with
  | nil => exact ⟨files, rfl, by simpa using h⟩
  | cons r rows ih =>
    have hsplit : pre ++ r :: rows = pre ++ [r] ++ rows := by simp
    rw [hsplit] at hnd ⊢
    -- the rows up to `r` are among all rows, so they are distinct too
    have hnd₁ : pol = .error → ((pre ++ [r]).map LocatedRow.key).Nodup := fun he => by
      have := hnd he
      rw [List.map_append] at this
      exact this.of_append_left
    obtain ⟨files₁, hadd, h₁⟩ := addEntry_merged shards url h hnd₁
    obtain ⟨files', hrest, h'⟩ := ih h₁ hnd
    refine ⟨files', ?_, h'⟩
    rw [mergeRows, List.foldlM_cons, hadd]
    exact hrest

/-- **Two rows with one path are reported** where that is an error. -/
theorem mergeRows_duplicate {pre rows : List LocatedRow} {files : SortedMap Str FileEntry}
    {shards : List Shard} (url : Str) (h : Merged .error pre files)
    (hshard : ∀ r ∈ pre ++ rows, r.1.shard < shards.length)
    (hdup : ¬((pre ++ rows).map LocatedRow.key).Nodup) :
    ∃ k a b, mergeRows .error shards url files rows = .error (.err (.duplicate k a b)) := by
  induction rows generalizing pre files with
  | nil => exact absurd (h.nodup rfl) (by simpa using hdup)
  | cons r rows ih =>
    rw [mergeRows, List.foldlM_cons]
    -- the first row whose path is taken is the one reported
    by_cases hold : r.key ∈ pre.map LocatedRow.key
    · obtain ⟨s, -, hadd⟩ := addEntry_duplicate url h hold
        fun r' hr' => hshard r' (List.mem_append_left _ hr')
      rw [hadd]
      exact ⟨_, _, _, rfl⟩
    · have hnd₁ : ((pre ++ [r]).map LocatedRow.key).Nodup := by
        rw [List.map_append, List.map_singleton, ← List.concat_eq_append]
        exact (h.nodup rfl).concat hold
      obtain ⟨files₁, hadd, h₁⟩ := addEntry_merged shards url h fun _ => hnd₁
      have hsplit : pre ++ r :: rows = pre ++ [r] ++ rows := by simp
      rw [hsplit] at hshard hdup
      obtain ⟨k, a, b, hrest⟩ := ih h₁ hshard hdup
      rw [hadd]
      exact ⟨k, a, b, hrest⟩

/-! ### The rows of one shard -/

/-- `locate` finds the place of every row of a shard. -/
theorem locate_offsets {sizes : List ℕ} {i : ℕ} (hi : i < sizes.sum) :
    locate (offsets 0 sizes) i = some (place sizes i) := by
  obtain ⟨hpoint, hoff, hle⟩ := partitionPoint_offsets 0 hi
  rw [Nat.zero_add] at hpoint hoff
  simp only [locate, hpoint, List.getD_eq_getElem?_getD, hoff, Option.getD_some,
    Nat.sub_sub_self hle]

/-- The row with the given index of the shard is at the given place. -/
def IsRowAt (sizes : List ℕ) (i : ℕ) (p : ℕ × ℕ) : Prop :=
  IsAddress sizes p ∧ ∃ o, (offsets 0 sizes)[p.1]? = some o ∧ o + p.2 = i

theorem isRowAt_iff {sizes : List ℕ} {i : ℕ} {p : ℕ × ℕ} (hi : i < sizes.sum) :
    IsRowAt sizes i p ↔ p = place sizes i := by
  constructor
  · rintro ⟨hp, o, ho, rfl⟩
    rw [getElem?_offsets, Option.map_eq_some_iff] at ho
    obtain ⟨n, -, rfl⟩ := ho
    rw [Nat.zero_add, place_take_sum_add hp]
  · rintro rfl
    obtain ⟨n, hn, -, hsum⟩ := take_sum_add_place hi
    refine ⟨isAddress_place hi, _, ?_, hsum⟩
    rw [getElem?_offsets, hn, Option.map_some, Nat.zero_add]

/-- **`locate` inverts the layout of the row groups**, empty ones among them.  Its
search is over offsets in order, it does not underflow, and it finds the one
place of every row, in order; every place is found. -/
theorem locate_inverts_offsets (sizes : List ℕ) :
    (offsets 0 sizes).Pairwise (· ≤ ·) ∧
    (∀ i < sizes.sum, ∃ p, locate (offsets 0 sizes) i = some p ∧ sizes[p.1]? ≠ some 0 ∧
      IsRowAt sizes i p ∧ ∀ q, IsRowAt sizes i q → q = p) ∧
    (∀ i j p q, i < j → j < sizes.sum → locate (offsets 0 sizes) i = some p →
      locate (offsets 0 sizes) j = some q → toLex p < toLex q) ∧
    Set.BijOn (locate (offsets 0 sizes)) {i | i < sizes.sum}
      (some '' {p | IsAddress sizes p}) := by
  refine ⟨pairwise_offsets 0 sizes, fun i hi => ?_, fun i j p q hij hj hp hq => ?_, ?_⟩
  · refine ⟨place sizes i, locate_offsets hi, ?_, (isRowAt_iff hi).mpr rfl,
      fun q hq => (isRowAt_iff hi).mp hq⟩
    obtain ⟨n, hn, hlt⟩ := isAddress_place hi
    rw [hn]
    intro hzero
    cases hzero
    exact Nat.not_lt_zero _ hlt
  · rw [locate_offsets (hij.trans hj)] at hp
    rw [locate_offsets hj] at hq
    cases hp
    cases hq
    exact place_strictMono sizes hij
  · have hplaces : Set.BijOn (fun i => some (place sizes i)) {i | i < sizes.sum}
        (some '' {p | IsAddress sizes p}) :=
      (Option.some_injective _).injOn.bijOn_image.comp (bijOn_place sizes)
    exact hplaces.congr fun i hi => (locate_offsets hi).symm

example : (List.range 4).map (locate (offsets 0 [0, 2, 0, 0, 2])) =
    [some (1, 0), some (1, 1), some (4, 0), some (4, 1)] := by
  decide

/-- One row of the shard is recorded at its place. -/
theorem addRow_eq {sizes : List ℕ} {i s : ℕ} {raw : Str} (pol : DupPolicy) (shards : List Shard)
    (url : Str) (files : SortedMap Str FileEntry) (hi : i < sizes.sum)
    (hne : normalize raw ≠ []) :
    addRow pol shards url s (offsets 0 sizes) (i, files) raw
      = (addEntry pol shards url files (normalize raw)
          ⟨⟨s, (place sizes i).1, (place sizes i).2⟩⟩).map fun files => (i + 1, files) := by
  simp only [addRow, locate_offsets hi, if_neg hne]

/-- The rows from index `i` on, as they come out of the decoder, are recorded
at their places. -/
theorem foldlM_addRow (sizes : List ℕ) (i s : ℕ) (raws : List Str) (pol : DupPolicy)
    (shards : List Shard) (url : Str) (files : SortedMap Str FileEntry)
    (hi : i + raws.length ≤ sizes.sum) (hne : ∀ raw ∈ raws, normalize raw ≠ []) :
    raws.foldlM (addRow pol shards url s (offsets 0 sizes)) (i, files)
      = (mergeRows pol shards url files ((raws.zipIdx i).map fun p =>
          (⟨s, (place sizes p.2).1, (place sizes p.2).2⟩, p.1))).map
            fun files => (i + raws.length, files) := by
  induction raws generalizing i files with
  | nil => rfl
  | cons raw raws ih =>
    rw [List.length_cons] at hi
    rw [List.foldlM_cons, addRow_eq pol shards url files (by omega) (hne raw (by simp)),
      List.zipIdx_cons, List.map_cons, mergeRows, List.foldlM_cons]
    simp only [LocatedRow.key]
    cases addEntry pol shards url files (normalize raw)
        ⟨⟨s, (place sizes i).1, (place sizes i).2⟩⟩ with
    | error e => rfl
    | ok files₁ =>
      have hlen : i + 1 + raws.length ≤ sizes.sum := by omega
      have hrest := ih (i + 1) files₁ hlen fun r hr => hne r (by simp [hr])
      rw [List.length_cons, Nat.add_comm raws.length 1, ← Nat.add_assoc]
      exact hrest

/-- A batch whose first column holds the given non-null texts. -/
def BatchHolds (batch : Except Str (List Column)) (raws : List Str) : Prop :=
  ∃ col rest, batch = .ok (col :: rest) ∧ col.stringCells = some (raws.map Cell.valid)

theorem mapM_valid (url : Str) (raws : List Str) :
    (raws.map Cell.valid).mapM (fun cell => if cell.isNull then
        .error (.schema ("path column contains a null value in ".toList ++ url))
      else .ok cell.value) = (.ok raws : Except FsError (List Str)) := by
  induction raws with
  | nil => rfl
  | cons raw raws ih =>
    rw [List.map_cons, List.mapM_cons, ih]
    rfl

theorem addBatch_eq {batch : Except Str (List Column)} {raws : List Str}
    (h : BatchHolds batch raws) (pol : DupPolicy) (shards : List Shard) (url : Str) (s : ℕ)
    (offs : List ℕ) (st : ℕ × SortedMap Str FileEntry) :
    addBatch pol shards url s offs st batch
      = raws.foldlM (addRow pol shards url s offs) st := by
  obtain ⟨col, rest, rfl, hcells⟩ := h
  simp only [addBatch, pathStrings, hcells, mapM_valid]

/-- The batches are read as one sequence of rows. -/
theorem foldlM_addBatch {batches : List (Except Str (List Column))} {chunks : List (List Str)}
    (h : List.Forall₂ BatchHolds batches chunks) (pol : DupPolicy) (shards : List Shard)
    (url : Str) (s : ℕ) (offs : List ℕ) (st : ℕ × SortedMap Str FileEntry) :
    batches.foldlM (addBatch pol shards url s offs) st
      = chunks.flatten.foldlM (addRow pol shards url s offs) st := by
  induction h generalizing st with
  | nil => rfl
  | cons hb _ ih =>
    rw [List.foldlM_cons, addBatch_eq hb, List.flatten_cons, List.foldlM_append]
    exact bind_congr fun st' => ih st'

/-! ### All shards -/

theorem exists_forall₂_of_forall_mem {α β : Type*} {P : α → β → Prop} {as : List α}
    (h : ∀ a ∈ as, ∃ b, P a b) : ∃ bs, List.Forall₂ P as bs := by
  induction as with
  | nil => exact ⟨[], .nil⟩
  | cons a as ih =>
    obtain ⟨b, hb⟩ := h a (by simp)
    obtain ⟨bs, hbs⟩ := ih fun a' ha' => h a' (by simp [ha'])
    exact ⟨b :: bs, .cons hb hbs⟩

theorem exists_getElem?_of_forall₂ {α β : Type*} {P : α → β → Prop} {as : List α} {bs : List β}
    (h : List.Forall₂ P as bs) {i : ℕ} {a : α} (ha : as[i]? = some a) :
    ∃ b, bs[i]? = some b ∧ P a b := by
  obtain ⟨hlt, rfl⟩ := List.getElem?_eq_some_iff.mp ha
  have hlt' : i < bs.length := h.length_eq ▸ hlt
  exact ⟨bs[i], List.getElem?_eq_getElem hlt', h.get hlt hlt'⟩

section Merge

variable (A : Adapters) (R : ParquetReader) (pathColumn contentColumn : Option Str)

/-- The library finds two different columns at `url`, in row groups that hold the
given non-null raw paths, and gives its path column in some sequence of batches. -/
def ShardHolds (url : Str) (groups : List (List Str)) (shard : Shard) : Prop :=
  ReadsFrom A url shard ∧
    ∃ md pathIdx batches, ShardOpens R pathColumn contentColumn shard md pathIdx batches ∧
      md.rowGroups = groups.map List.length ∧
      ∃ chunks, chunks.flatten = groups.flatten ∧ List.Forall₂ BatchHolds batches chunks

variable {A R pathColumn contentColumn}

/-- A shard that the library answers for opens. -/
theorem ShardHolds.openShard_eq {url : Str} {groups : List (List Str)} {shard : Shard}
    (h : ShardHolds A R pathColumn contentColumn url groups shard) :
    ∃ batches, openShard A R pathColumn contentColumn url = .ok (shard, batches) ∧
      shard.rowGroupOffsets = offsets 0 (groups.map List.length) ∧
      ∃ chunks, chunks.flatten = groups.flatten ∧ List.Forall₂ BatchHolds batches chunks := by
  obtain ⟨hfrom, md, pathIdx, batches, hopens, hgroups, hchunks⟩ := h
  refine ⟨batches, openShard_eq_ok_iff.mpr ⟨hfrom, md, pathIdx, hopens⟩, ?_, hchunks⟩
  rw [hopens.rowGroupOffsets, hgroups]

/-- Adding a shard records its rows. -/
theorem addShard_eq {url : Str} {groups : List (List Str)} {shard : Shard}
    (h : ShardHolds A R pathColumn contentColumn url groups shard)
    (hne : ∀ raw ∈ groups.flatten, normalize raw ≠ []) (pol : DupPolicy) (ix : Index) :
    addShard A R pathColumn contentColumn pol ix url
      = (mergeRows pol (ix.shards ++ [shard]) url ix.files (groupRows ix.shards.length groups)).map
          fun files => { ix with shards := ix.shards ++ [shard], files := files } := by
  obtain ⟨batches, hopen, hoff, chunks, hflat, hbatches⟩ := h.openShard_eq
  have hlen : 0 + groups.flatten.length ≤ (groups.map List.length).sum := by
    rw [List.length_flatten, Nat.zero_add]
  have hrun := foldlM_addRow (groups.map List.length) 0 ix.shards.length groups.flatten pol
    (ix.shards ++ [shard]) url ix.files hlen hne
  have hrows : groupRows ix.shards.length groups = (groups.flatten.zipIdx 0).map fun p =>
      (⟨ix.shards.length, (place (groups.map List.length) p.2).1,
        (place (groups.map List.length) p.2).2⟩, p.1) := by
    rw [groupRows, label_eq_map_zipIdx, List.map_map]
    rfl
  rw [addShard, hopen, lift_ok]
  change (batches.foldlM (addBatch pol (ix.shards ++ [shard]) url ix.shards.length
    shard.rowGroupOffsets) (0, ix.files) >>= fun st =>
      .ok { ix with shards := ix.shards ++ [shard], files := st.2 }) = _
  rw [foldlM_addBatch hbatches, hflat, hoff, hrun, ← hrows]
  cases mergeRows pol (ix.shards ++ [shard]) url ix.files (groupRows ix.shards.length groups)
  all_goals rfl

/-- The row of shard `s` are at places of shard `s`. -/
theorem shard_of_mem_groupRows {s : ℕ} {groups : List (List Str)} {r : LocatedRow}
    (h : r ∈ groupRows s groups) : r.1.shard = s := by
  rw [groupRows, List.mem_map] at h
  obtain ⟨p, -, rfl⟩ := h
  rfl

theorem groupRows_key_ne {s : ℕ} {groups : List (List Str)}
    (h : ∀ r ∈ groupRows s groups, r.key ≠ []) : ∀ raw ∈ groups.flatten, normalize raw ≠ [] := by
  intro raw hraw
  obtain ⟨i, hi⟩ := List.mem_iff_getElem?.mp hraw
  rw [groupRows, label_eq_map_zipIdx, List.map_map] at h
  exact h _ (List.mem_map.mpr ⟨(raw, i), List.mk_mem_zipIdx_iff_getElem?.mpr hi, rfl⟩)

/-- **Shards whose rows no policy objects to are all added.** -/
theorem foldlM_addShard_ok {data : List (Str × List (List Str))} {shards : List Shard}
    {pol : DupPolicy} (pre : List LocatedRow) (ix : Index)
    (hsh : List.Forall₂ (fun d shard => ShardHolds A R pathColumn contentColumn d.1 d.2 shard)
      data shards)
    (hne : ∀ r ∈ shardRows ix.shards.length (data.map Prod.snd), r.key ≠ [])
    (h : Merged pol pre ix.files)
    (hnd : pol = .error →
      ((pre ++ shardRows ix.shards.length (data.map Prod.snd)).map LocatedRow.key).Nodup) :
    ∃ files, (data.map Prod.fst).foldlM (addShard A R pathColumn contentColumn pol) ix
        = .ok { ix with shards := ix.shards ++ shards, files := files } ∧
      Merged pol (pre ++ shardRows ix.shards.length (data.map Prod.snd)) files := by
  induction hsh generalizing pre ix with
  | nil => exact ⟨ix.files, by simp [pure, Except.pure], by simpa [shardRows] using h⟩
  | @cons d shard data shards hd _ ih =>
    simp only [List.map_cons, shardRows, ← List.append_assoc] at hne hnd ⊢
    have hnd₁ : pol = .error →
        ((pre ++ groupRows ix.shards.length d.2).map LocatedRow.key).Nodup := fun he => by
      have := hnd he
      rw [List.map_append] at this
      exact this.of_append_left
    obtain ⟨files₁, hrows, h₁⟩ := mergeRows_ok (ix.shards ++ [shard]) d.1 h hnd₁
    have hadd := addShard_eq hd (groupRows_key_ne fun r hr => hne r (List.mem_append_left _ hr))
      pol ix
    rw [hrows] at hadd
    have hrest := ih (pre ++ groupRows ix.shards.length d.2)
      { ix with shards := ix.shards ++ [shard], files := files₁ }
      (by simpa using fun r hr => hne r (List.mem_append_right _ hr)) h₁ (by simpa using hnd)
    rw [List.foldlM_cons, hadd]
    simpa [bind, Except.bind, Except.map] using hrest

/-- **Two rows with one path anywhere are reported** where that is an error. -/
theorem foldlM_addShard_duplicate {data : List (Str × List (List Str))} {shards : List Shard}
    (pre : List LocatedRow) (ix : Index)
    (hsh : List.Forall₂ (fun d shard => ShardHolds A R pathColumn contentColumn d.1 d.2 shard)
      data shards)
    (hne : ∀ r ∈ shardRows ix.shards.length (data.map Prod.snd), r.key ≠ [])
    (h : Merged .error pre ix.files) (hpre : ∀ r ∈ pre, r.1.shard < ix.shards.length)
    (hdup : ¬((pre ++ shardRows ix.shards.length (data.map Prod.snd)).map LocatedRow.key).Nodup) :
    ∃ k a b, (data.map Prod.fst).foldlM (addShard A R pathColumn contentColumn .error) ix
      = .error (.err (.duplicate k a b)) := by
  induction hsh generalizing pre ix with
  | nil => exact absurd (h.nodup rfl) (by simpa [shardRows] using hdup)
  | @cons d shard data shards hd _ ih =>
    simp only [List.map_cons, shardRows, ← List.append_assoc] at hne hdup
    have hadd := addShard_eq hd (groupRows_key_ne fun r hr => hne r (List.mem_append_left _ hr))
      .error ix
    have hshard : ∀ r ∈ pre ++ groupRows ix.shards.length d.2,
        r.1.shard < (ix.shards ++ [shard]).length := by
      intro r hr
      rw [List.length_append, List.length_singleton]
      rcases List.mem_append.mp hr with hr | hr
      · have := hpre r hr
        omega
      · have := shard_of_mem_groupRows hr
        omega
    rw [List.map_cons, List.foldlM_cons, hadd]
    -- the duplicate is within the shards up to this one, or comes later
    by_cases hnd : ((pre ++ groupRows ix.shards.length d.2).map LocatedRow.key).Nodup
    · obtain ⟨files₁, hrows, h₁⟩ := mergeRows_ok (ix.shards ++ [shard]) d.1 h fun _ => hnd
      obtain ⟨k, a, b, hrest⟩ := ih (pre ++ groupRows ix.shards.length d.2)
        { ix with shards := ix.shards ++ [shard], files := files₁ }
        (by simpa using fun r hr => hne r (List.mem_append_right _ hr)) h₁ hshard
        (by simpa using hdup)
      rw [hrows]
      exact ⟨k, a, b, hrest⟩
    · obtain ⟨k, a, b, hrows⟩ := mergeRows_duplicate d.1 h hshard hnd
      rw [hrows]
      exact ⟨k, a, b, rfl⟩

/-! ### The whole index -/

variable (A R pathColumn contentColumn) in
/-- The files of `ix` are exactly the paths of the rows of the shards `data`,
each at the place `lookup` keeps for it, and every place is that of a row filed
under the path. -/
structure IndexHolds (data : List (Str × List (List Str)))
    (lookup : List LocatedRow → Str → Option RowLoc) (ix : Index) : Prop where
  mem_keys : ∀ k, k ∈ ix.files.keys ↔ ∃ r ∈ shardRows 0 (data.map Prod.snd), r.key = k
  find : ∀ k, ix.files.find? k
    = (lookup (shardRows 0 (data.map Prod.snd)) k).map FileEntry.mk
  in_range : ∀ k entry, ix.files.find? k = some entry → ∃ shard d rows raw,
    ix.shards[entry.loc.shard]? = some shard ∧ data[entry.loc.shard]? = some d ∧
      ShardHolds A R pathColumn contentColumn d.1 d.2 shard ∧
      d.2[entry.loc.rowGroup]? = some rows ∧ rows[entry.loc.row]? = some raw ∧ normalize raw = k

theorem IndexHolds.of_merged {data : List (Str × List (List Str))} {pol : DupPolicy}
    {shards : List Shard} {files : SortedMap Str FileEntry} {dirs : SortedMap Str Unit}
    (hsh : List.Forall₂ (fun d shard => ShardHolds A R pathColumn contentColumn d.1 d.2 shard)
      data shards) (h : Merged pol (shardRows 0 (data.map Prod.snd)) files) :
    IndexHolds A R pathColumn contentColumn data pol.lookup ⟨shards, files, dirs⟩ where
  mem_keys k := by rw [h.mem_keys, List.mem_map]
  find := h.find
  in_range := by
    intro k entry hfind
    rw [h.find, Option.map_eq_some_iff] at hfind
    obtain ⟨loc, hloc, rfl⟩ := hfind
    obtain ⟨r, hr, hkey, rfl⟩ := DupPolicy.of_lookup hloc
    obtain ⟨-, groups, rows, hgroups, hrows, hraw⟩ := mem_shardRows hr
    rw [Nat.sub_zero, List.getElem?_map, Option.map_eq_some_iff] at hgroups
    obtain ⟨d, hd, rfl⟩ := hgroups
    obtain ⟨shard, hshard, hholds⟩ := exists_getElem?_of_forall₂ hsh hd
    exact ⟨shard, d, rows, r.2, hshard, hd, hholds, hrows, hraw, hkey⟩

theorem buildIndex_of_merged (pol : DupPolicy) {sources : List Str}
    {data : List (Str × List (List Str))} {shards : List Shard}
    (hsrc : expandSources A sources = .ok (data.map Prod.fst))
    (hsh : List.Forall₂ (fun d shard => ShardHolds A R pathColumn contentColumn d.1 d.2 shard)
      data shards)
    (hne : ∀ r ∈ shardRows 0 (data.map Prod.snd), r.key ≠ [])
    (hnd : pol = .error → ((shardRows 0 (data.map Prod.snd)).map LocatedRow.key).Nodup) :
    ∃ files, Merged pol (shardRows 0 (data.map Prod.snd)) files ∧
      buildIndex A R pathColumn contentColumn sources pol
        = .ok ⟨shards, files, collectDirs files.keys⟩ := by
  obtain ⟨files, hrun, hmerged⟩ := foldlM_addShard_ok [] Index.empty hsh hne (merged_empty pol) hnd
  refine ⟨files, hmerged, ?_⟩
  rw [buildIndex, hsrc, lift_ok]
  change ((data.map Prod.fst).foldlM _ _ >>= _ : Outcome Index) = _
  rw [hrun]
  rfl

theorem buildIndex_duplicate {sources : List Str} {data : List (Str × List (List Str))}
    {shards : List Shard} (hsrc : expandSources A sources = .ok (data.map Prod.fst))
    (hsh : List.Forall₂ (fun d shard => ShardHolds A R pathColumn contentColumn d.1 d.2 shard)
      data shards)
    (hne : ∀ r ∈ shardRows 0 (data.map Prod.snd), r.key ≠ [])
    (hdup : ¬((shardRows 0 (data.map Prod.snd)).map LocatedRow.key).Nodup) :
    ∃ k a b, buildIndex A R pathColumn contentColumn sources .error
      = .error (.err (.duplicate k a b)) := by
  obtain ⟨k, a, b, hrun⟩ :=
    foldlM_addShard_duplicate [] Index.empty hsh hne (merged_empty .error) (by simp) hdup
  refine ⟨k, a, b, ?_⟩
  rw [buildIndex, hsrc, lift_ok]
  change ((data.map Prod.fst).foldlM _ _ >>= _ : Outcome Index) = _
  rw [hrun]
  rfl

/-- **The index is exactly the merge of the rows.**  With the first or the last
row winning, building succeeds and the index holds that row of every path; where
duplicates are an error, building fails exactly when two rows share a path, and
else all three policies build the same index. -/
theorem buildIndex_merge {sources : List Str} {data : List (Str × List (List Str))}
    (hsrc : expandSources A sources = .ok (data.map Prod.fst))
    (hopen : ∀ d ∈ data, ∃ shard, ShardHolds A R pathColumn contentColumn d.1 d.2 shard)
    (hne : ∀ r ∈ shardRows 0 (data.map Prod.snd), r.key ≠ []) :
    (∃ ix, buildIndex A R pathColumn contentColumn sources .first = .ok ix ∧
        IndexHolds A R pathColumn contentColumn data lookupFirst ix) ∧
      (∃ ix, buildIndex A R pathColumn contentColumn sources .last = .ok ix ∧
        IndexHolds A R pathColumn contentColumn data lookupLast ix) ∧
      ((∃ e, buildIndex A R pathColumn contentColumn sources .error = .error (.err e)) ↔
        ¬((shardRows 0 (data.map Prod.snd)).map LocatedRow.key).Nodup) ∧
      (((shardRows 0 (data.map Prod.snd)).map LocatedRow.key).Nodup →
        ∃ ix, buildIndex A R pathColumn contentColumn sources .error = .ok ix ∧
          buildIndex A R pathColumn contentColumn sources .first = .ok ix ∧
          buildIndex A R pathColumn contentColumn sources .last = .ok ix) := by
  obtain ⟨shards, hsh⟩ := exists_forall₂_of_forall_mem hopen
  obtain ⟨first, hfirst, hbuildFirst⟩ := buildIndex_of_merged .first hsrc hsh hne (by simp)
  obtain ⟨last, hlast, hbuildLast⟩ := buildIndex_of_merged .last hsrc hsh hne (by simp)
  have hsame : ((shardRows 0 (data.map Prod.snd)).map LocatedRow.key).Nodup →
      ∃ ix, buildIndex A R pathColumn contentColumn sources .error = .ok ix ∧
        buildIndex A R pathColumn contentColumn sources .first = .ok ix ∧
        buildIndex A R pathColumn contentColumn sources .last = .ok ix := by
    intro hnd
    obtain ⟨only, honly, hbuild⟩ := buildIndex_of_merged .error hsrc hsh hne fun _ => hnd
    -- with distinct paths all policies look up the same places
    have hfirst_eq : first = only :=
      SortedMap.ext_find? fun k => by rw [hfirst.find, honly.find]; rfl
    have hlast_eq : last = only := SortedMap.ext_find? fun k => by
      rw [hlast.find, honly.find]
      exact congrArg _ (lookupLast_eq_lookupFirst hnd k)
    exact ⟨_, hbuild, hfirst_eq ▸ hbuildFirst, hlast_eq ▸ hbuildLast⟩
  refine ⟨⟨_, hbuildFirst, .of_merged hsh hfirst⟩, ⟨_, hbuildLast, .of_merged hsh hlast⟩, ?_, hsame⟩
  constructor
  · rintro ⟨e, herr⟩ hnd
    obtain ⟨ix, hok, -⟩ := hsame hnd
    rw [hok] at herr
    cases herr
  · intro hdup
    obtain ⟨k, a, b, hrun⟩ := buildIndex_duplicate hsrc hsh hne hdup
    exact ⟨.duplicate k a b, hrun⟩

end Merge

/-! ### The rows of the two small shards -/

def sampleData : List (Str × List (List Str)) :=
  [("u".toList, [["/a".toList], [], ["b//c".toList, "a/".toList]]),
    ("v".toList, [["a/d/".toList]])]

theorem buildIndex_merge_sample :
    (∃ ix, buildIndex sampleAdapters sampleReader none none [[]] .first = .ok ix ∧
        ix.files.find? "a".toList = some ⟨⟨0, 0, 0⟩⟩) ∧
      (∃ ix, buildIndex sampleAdapters sampleReader none none [[]] .last = .ok ix ∧
        ix.files.find? "a".toList = some ⟨⟨0, 2, 1⟩⟩ ∧
        ix.files.find? "a/d".toList = some ⟨⟨1, 0, 0⟩⟩) ∧
      ∃ e, buildIndex sampleAdapters sampleReader none none [[]] .error = .error (.err e) := by
  have hsrc : expandSources sampleAdapters [[]] = .ok (sampleData.map Prod.fst) := rfl
  have hopen : ∀ d ∈ sampleData,
      ∃ shard, ShardHolds sampleAdapters sampleReader none none d.1 d.2 shard := by
    intro d hd
    rcases List.mem_pair.mp hd with rfl | rfl
    · exact ⟨⟨"u".toList, ⟨sampleRangeReader, "u".toList, 0⟩, 1, [], [], offsets 0 [1, 0, 2]⟩,
        ⟨_, _, rfl, rfl, rfl, rfl⟩, _, 0, _, ⟨rfl, rfl, rfl, by simp, rfl, rfl, rfl, rfl⟩, rfl,
        [["/a".toList, "b//c".toList], ["a/".toList]], rfl,
        .cons ⟨_, _, rfl, rfl⟩ (.cons ⟨_, _, rfl, rfl⟩ .nil)⟩
    · exact ⟨⟨"v".toList, ⟨sampleRangeReader, "v".toList, 0⟩, 1, [], [], offsets 0 [1]⟩,
        ⟨_, _, rfl, rfl, rfl, rfl⟩, _, 0, _, ⟨rfl, rfl, rfl, by simp, rfl, rfl, rfl, rfl⟩, rfl,
        [["a/d/".toList]], rfl, .cons ⟨_, _, rfl, rfl⟩ .nil⟩
  obtain ⟨⟨ix, hix, hfirst⟩, ⟨ix', hix', hlast⟩, herr, -⟩ :=
    buildIndex_merge hsrc hopen (by decide)
  refine ⟨⟨ix, hix, ?_⟩, ⟨ix', hix', ?_, ?_⟩, herr.mpr (by decide)⟩
  · rw [hfirst.find]; decide
  · rw [hlast.find]; decide
  · rw [hlast.find]; decide

end ParquetFileFs
