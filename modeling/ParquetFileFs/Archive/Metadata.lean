import ParquetFileFs.Archive.Tables

/-!
# Metadata reports the integers of the row

The information about a path carries the other columns of its row.  The place of
an entry stands for a row of the table of its shard, which both the content and
the metadata are taken from.  Integers of every width are reported as signed
64-bit integers: a `UInt64` of `2 ^ 63` or more comes out negative, and every
other integer as it is.

## Main definitions

* `DataType.integer` — the integer that a value of an integer type stands for.
* `MetaValue.Exact` — a value reports a cell as it is.
* `Wraps` — the cells that are not reported as they are.

## Main results

* `metaValue_exact_iff` — a cell is reported exactly unless it wraps.
* `located_of_buildIndex` — every entry is at the place of a row of its shard.
* `metadata_exact_iff` — **the metadata of a path holds the integers of the row
  its content is in, but for those that wrap.**
-/

namespace ParquetFileFs

open Cumulative

/-! ### Integers -/

/-- The signed and unsigned integer types. -/
def DataType.isInteger : DataType → Bool
  | .int8 => true
  | .int16 => true
  | .int32 => true
  | .int64 => true
  | .uint8 => true
  | .uint16 => true
  | .uint32 => true
  | .uint64 => true
  | _ => false

/-- The integer a value stands for, if its type is an integer type. -/
def DataType.integer : (t : DataType) → t.Value → Option ℤ
  | .int8, v => some (Int8.toInt v)
  | .int16, v => some (Int16.toInt v)
  | .int32, v => some (Int32.toInt v)
  | .int64, v => some (Int64.toInt v)
  | .uint8, v => some (UInt8.toNat v)
  | .uint16, v => some (UInt16.toNat v)
  | .uint32, v => some (UInt32.toNat v)
  | .uint64, v => some (UInt64.toNat v)
  | _, _ => none

/-- The value `v` is null just where the cell is, and else is its integer. -/
def MetaValue.Exact (v : MetaValue) (t : DataType) (cell : Cell t.Value) : Prop :=
  (v = .null ↔ cell.isNull = true) ∧
    ∀ n, cell.isNull = false → t.integer cell.value = some n → ∃ i, v = .int i ∧ i.toInt = n

/-- The cell holds an unsigned integer beyond the signed range. -/
def Wraps (t : DataType) (cell : Cell t.Value) : Prop :=
  t = .uint64 ∧ cell.isNull = false ∧ ∃ n, t.integer cell.value = some n ∧ 2 ^ 63 ≤ n

theorem toInt_toInt64_of_lt {v : UInt64} (h : v.toNat < 2 ^ 63) :
    v.toInt64.toInt = v.toNat := by
  change v.toBitVec.toInt = _
  rw [BitVec.toInt_eq_toNat_of_lt]
  · rfl
  · change 2 * v.toNat < 2 ^ 64
    omega

theorem toInt_lt (i : Int64) : i.toInt < 2 ^ 63 := by
  have := Int64.toInt_lt i
  omega

/-- **Every integer is reported as an integer**: as itself, or as a smaller one
if it is an unsigned one beyond the signed range. -/
theorem metaValue_integer {t : DataType} {v : t.Value} {n : ℤ} (h : t.integer v = some n) :
    ∃ i, t.metaValue v = .int i ∧ (i.toInt = n ∨ t = .uint64 ∧ 2 ^ 63 ≤ n) := by
  cases t <;> cases h <;> refine ⟨_, rfl, ?_⟩
  case int8 => exact Or.inl (Int8.toInt_toInt64 v)
  case int16 => exact Or.inl (Int16.toInt_toInt64 v)
  case int32 => exact Or.inl (Int32.toInt_toInt64 v)
  case int64 => exact Or.inl rfl
  case uint8 =>
    have hlt := UInt8.toNat_lt v
    have hnat : (UInt8.toUInt64 v).toNat = UInt8.toNat v := UInt8.toNat_toUInt64 v
    exact Or.inl ((toInt_toInt64_of_lt (by omega)).trans (congrArg _ hnat))
  case uint16 =>
    have hlt := UInt16.toNat_lt v
    have hnat : (UInt16.toUInt64 v).toNat = UInt16.toNat v := UInt16.toNat_toUInt64 v
    exact Or.inl ((toInt_toInt64_of_lt (by omega)).trans (congrArg _ hnat))
  case uint32 =>
    have hlt := UInt32.toNat_lt v
    have hnat : (UInt32.toUInt64 v).toNat = UInt32.toNat v := UInt32.toNat_toUInt64 v
    exact Or.inl ((toInt_toInt64_of_lt (by omega)).trans (congrArg _ hnat))
  case uint64 =>
    rcases Nat.lt_or_ge (UInt64.toNat v) (2 ^ 63) with hlt | hle
    · exact Or.inl (toInt_toInt64_of_lt hlt)
    · exact Or.inr ⟨rfl, by omega⟩

/-- **A cell of an integer column is reported exactly unless it wraps.** -/
theorem metaValue_exact_iff {col : Column} (ht : col.type.isInteger = true) {i : ℕ}
    {cell : Cell col.type.Value} (hcell : col.cells[i]? = some cell) {v : MetaValue}
    (hv : metaValue col i = .ok v) : v.Exact col.type cell ↔ ¬Wraps col.type cell := by
  rw [metaValue_of_getElem? hcell] at hv
  cases hv
  obtain ⟨n, hn⟩ : ∃ n, col.type.integer cell.value = some n := by
    obtain ⟨type, cells⟩ := col
    cases type <;> cases ht <;> exact ⟨_, rfl⟩
  obtain ⟨i, hi, hfits⟩ := metaValue_integer hn
  cases hnull : cell.isNull with
  | true => simp [MetaValue.Exact, Wraps, hnull]
  | false =>
    simp only [MetaValue.Exact, Wraps, hnull, hn, hi]
    constructor
    · intro hexact hwraps
      obtain ⟨-, -, n', hn', hle⟩ := hwraps
      obtain ⟨i', hi', hval⟩ := hexact.2 n trivial rfl
      cases hn'
      cases hi'
      have := toInt_lt i
      omega
    · intro hno
      refine ⟨by simp, fun n' _ hn' => ⟨i, rfl, ?_⟩⟩
      cases hn'
      exact hfits.resolve_right fun hbig => hno ⟨hbig.1, trivial, n, rfl, hbig.2⟩

/-! ### Places -/

/-- The place of one of the first `n` rows of shard `s`. -/
def RowLoc.Within (loc : RowLoc) (s : ℕ) (offsets : List ℕ) (n : ℕ) : Prop :=
  loc.shard = s ∧ ∃ i < n, locate offsets i = some (loc.rowGroup, loc.row)

theorem RowLoc.Within.mono {loc : RowLoc} {s n n' : ℕ} {offsets : List ℕ}
    (h : loc.Within s offsets n) (hle : n ≤ n') : loc.Within s offsets n' := by
  obtain ⟨hs, i, hi, hloc⟩ := h
  exact ⟨hs, i, by omega, hloc⟩

/-- Of the entries in `files'`, those not in `files` are at the places of the
first `n` rows of shard `s`. -/
def Grows (s : ℕ) (offsets : List ℕ) (n : ℕ) (files files' : SortedMap Str FileEntry) : Prop :=
  ∀ k entry, files'.find? k = some entry →
    files.find? k = some entry ∨ entry.loc.Within s offsets n

theorem Grows.trans {s n n' : ℕ} {offsets : List ℕ} {files files₁ files₂ : SortedMap Str FileEntry}
    (h : Grows s offsets n files files₁) (h' : Grows s offsets n' files₁ files₂) (hle : n ≤ n') :
    Grows s offsets n' files files₂ := by
  intro k entry hk
  rcases h' k entry hk with hold | hnew
  · exact (h k entry hold).imp_right fun hw => hw.mono hle
  · exact Or.inr hnew

/-- The number of paths a batch of the path column holds. -/
def batchRows : Except Str (List Column) → ℕ
  | .ok (col :: _) => col.length
  | _ => 0

section Places

variable {pol : DupPolicy} {shards : List Shard} {url : Str} {s : ℕ} {offs : List ℕ}
  {st st' : ℕ × SortedMap Str FileEntry}

theorem grows_insert {files : SortedMap Str FileEntry} {k : Str} {n : ℕ} {entry : FileEntry}
    (h : entry.loc.Within s offs n) : Grows s offs n files (files.insert k entry) := by
  intro k' entry' hk'
  rw [SortedMap.find?_insert] at hk'
  split_ifs at hk'
  · cases hk'
    exact Or.inr h
  · exact Or.inl hk'

/-- One row is counted, and adds no other place than its own. -/
theorem addRow_spec {raw : Str} (h : addRow pol shards url s offs st raw = .ok st') :
    st'.1 = st.1 + 1 ∧ Grows s offs st'.1 st.2 st'.2 := by
  unfold addRow at h
  split at h
  · cases h
  · next g row hloc =>
    have hwithin : RowLoc.Within ⟨s, g, row⟩ s offs (st.1 + 1) :=
      ⟨rfl, st.1, Nat.lt_succ_self _, hloc⟩
    split at h
    · cases h
    · unfold addEntry at h
      split at h
      · cases h
        exact ⟨rfl, grows_insert hwithin⟩
      · split at h
        · split at h <;> cases h
        · cases h
          exact ⟨rfl, fun k entry hk => Or.inl hk⟩
        · cases h
          exact ⟨rfl, grows_insert hwithin⟩

theorem addRows_spec {raws : List Str}
    (h : raws.foldlM (addRow pol shards url s offs) st = .ok st') :
    st'.1 = st.1 + raws.length ∧ Grows s offs st'.1 st.2 st'.2 := by
  induction raws generalizing st with
  | nil =>
    cases h
    exact ⟨rfl, fun k entry hk => Or.inl hk⟩
  | cons raw raws ih =>
    rw [List.foldlM_cons] at h
    cases hrow : addRow pol shards url s offs st raw with
    | error e => rw [hrow] at h; cases h
    | ok st₁ =>
      rw [hrow] at h
      obtain ⟨hcount, hgrows⟩ := addRow_spec hrow
      obtain ⟨hcount', hgrows'⟩ := ih h
      rw [List.length_cons]
      exact ⟨by omega, hgrows.trans hgrows' (by omega)⟩

theorem length_pathStrings {col : Column} {raws : List Str} (h : pathStrings col url = .ok raws) :
    raws.length = col.length := by
  unfold pathStrings at h
  split at h
  · next cells hcells =>
    rw [length_of_mapM_ok h]
    obtain ⟨type, cells'⟩ := col
    cases type <;> cases hcells <;> rfl
  · cases h

theorem addBatch_spec {batch : Except Str (List Column)}
    (h : addBatch pol shards url s offs st batch = .ok st') :
    st'.1 = st.1 + batchRows batch ∧ Grows s offs st'.1 st.2 st'.2 := by
  unfold addBatch at h
  split at h
  · cases h
  · cases h
  · next col rest =>
    split at h
    · cases h
    · next raws hraws =>
      have hlen := length_pathStrings hraws
      rw [batchRows, ← hlen]
      exact addRows_spec h

/-- **The batches of a shard add places of its rows.** -/
theorem addBatches_spec {batches : List (Except Str (List Column))}
    (h : batches.foldlM (addBatch pol shards url s offs) st = .ok st') :
    st'.1 = st.1 + (batches.map batchRows).sum ∧ Grows s offs st'.1 st.2 st'.2 := by
  induction batches generalizing st with
  | nil =>
    cases h
    exact ⟨rfl, fun k entry hk => Or.inl hk⟩
  | cons batch batches ih =>
    rw [List.foldlM_cons] at h
    cases hbatch : addBatch pol shards url s offs st batch with
    | error e => rw [hbatch] at h; cases h
    | ok st₁ =>
      rw [hbatch] at h
      obtain ⟨hcount, hgrows⟩ := addBatch_spec hbatch
      obtain ⟨hcount', hgrows'⟩ := ih h
      rw [List.map_cons, List.sum_cons]
      exact ⟨by omega, hgrows.trans hgrows' (by omega)⟩

end Places

/-! ### Shards -/

section Shards

variable {A : Adapters} {R : ParquetReader} {pathColumn contentColumn : Option Str}

variable (R pathColumn contentColumn) in
/-- Every entry is at the place of a row of its shard. -/
def Located (ix : Index) : Prop :=
  ∀ k entry, ix.files.find? k = some entry → ∃ shard md pathIdx batches,
    ix.shards[entry.loc.shard]? = some shard ∧
      ShardOpens R pathColumn contentColumn shard md pathIdx batches ∧
      entry.loc.Within entry.loc.shard shard.rowGroupOffsets (batches.map batchRows).sum

theorem located_addShard {pol : DupPolicy} {ix ix' : Index} {url : Str}
    (h : addShard A R pathColumn contentColumn pol ix url = .ok ix')
    (hix : Located R pathColumn contentColumn ix) : Located R pathColumn contentColumn ix' := by
  unfold addShard at h
  obtain ⟨⟨shard, batches⟩, hopen, h⟩ := exists_of_bind_ok h
  obtain ⟨⟨count, files⟩, hrun, h⟩ := exists_of_bind_ok h
  cases h
  obtain ⟨hcount, hgrows⟩ := addBatches_spec hrun
  have hopens : openShard A R pathColumn contentColumn url = .ok (shard, batches) := by
    cases hres : openShard A R pathColumn contentColumn url with
    | error e => rw [hres] at hopen; cases hopen
    | ok p =>
      rw [hres, lift_ok] at hopen
      cases hopen
      rfl
  intro k entry hk
  rcases hgrows k entry hk with hold | hnew
  · -- an entry of an earlier shard; that shard keeps its number
    obtain ⟨shard', md, pathIdx, batches', hshard, hopened, hwithin⟩ := hix k entry hold
    refine ⟨shard', md, pathIdx, batches', ?_, hopened, hwithin⟩
    rw [List.getElem?_append_left (List.getElem?_eq_some_iff.mp hshard).1]
    exact hshard
  · obtain ⟨md, pathIdx, hopened⟩ := shardOpens_of_openShard hopens
    refine ⟨shard, md, pathIdx, batches, ?_, hopened, ?_⟩
    · rw [hnew.1, List.getElem?_concat_length]
    · rw [hcount, Nat.zero_add, ← hnew.1] at hnew
      exact hnew

/-- **Every entry of an index that is built is at the place of a row.** -/
theorem located_of_buildIndex {sources : List Str} {pol : DupPolicy} {ix : Index}
    (h : buildIndex A R pathColumn contentColumn sources pol = .ok ix) :
    Located R pathColumn contentColumn ix := by
  unfold buildIndex at h
  obtain ⟨urls, -, h⟩ := exists_of_bind_ok h
  obtain ⟨ix₁, hrun, h⟩ := exists_of_bind_ok h
  cases h
  have hlocated : Located R pathColumn contentColumn ix₁ :=
    foldlM_ok_preserves (P := Located R pathColumn contentColumn) (fun _ _ _ => located_addShard)
      hrun fun k entry hk => by cases hk
  exact hlocated

end Shards

/-! ### Shards that hold tables -/

section Tables

variable {A : Adapters} {R : ParquetReader} {pathColumn contentColumn : Option Str} {ix : Index}
  {shard : Shard} {T : Table}

/-- The batches of a column hold all rows of the table. -/
theorem sum_batchRows {j : ℕ} {col : Column} (hcol : T.columns[j]? = some col) {lens : List ℕ}
    (hlens : lens.sum = T.rowGroups.sum) :
    (((lens.zip (offsets 0 lens)).map fun p => (.ok (T.project [j] p.2 p.1) :
      Except Str (List Column))).map batchRows).sum = T.rowGroups.sum := by
  have heach : ∀ p ∈ lens.zip (offsets 0 lens),
      batchRows (.ok (T.project [j] p.2 p.1)) = p.1 := by
    intro p hp
    have hle := add_le_of_mem_zip_offsets hp
    rw [T.project_singleton hcol, batchRows]
    refine Column.length_slice ?_
    rw [T.length_columns col (List.mem_of_getElem? hcol)]
    omega
  have hmap : ((lens.zip (offsets 0 lens)).map fun p => (.ok (T.project [j] p.2 p.1) :
      Except Str (List Column))).map batchRows = (lens.zip (offsets 0 lens)).map Prod.fst := by
    rw [List.map_map]
    exact List.map_congr_left heach
  rw [hmap, List.map_fst_zip (by simp), hlens]

variable {md : ParquetMetaData} {pathIdx : ℕ} {batches : List (Except Str (List Column))}

/-- The columns a shard records are those of its table. -/
theorem ShardOpens.columnsOf (h : ShardOpens R pathColumn contentColumn shard md pathIdx batches)
    (hT : ReadsTable R shard.reader T) :
    md = ⟨T.names, T.rowGroups⟩ ∧ shard.ColumnsOf T ∧
      (batches.map batchRows).sum = T.rowGroups.sum := by
  obtain rfl : md = ⟨T.names, T.rowGroups⟩ := Except.ok.inj (h.tryNew.symm.trans hT.tryNew)
  have hpath := lt_length_of_detectColumn h.pathCol
  have hcontent := lt_length_of_detectColumn h.contentCol
  have hextra := h.extraCols
  simp only [T.length_names] at hpath hcontent hextra
  refine ⟨rfl, ⟨hcontent, ⟨_, hextra⟩, h.extraNames⟩, ?_⟩
  obtain ⟨lens, hlens, hbuild⟩ := hT.column pathIdx hpath
  obtain rfl := Except.ok.inj (h.build.symm.trans hbuild)
  exact sum_batchRows (List.getElem?_eq_getElem hpath) hlens

/-- A place of a row of the table names a row group, and a row within it. -/
theorem rowGroup_of_within {loc : RowLoc} {s : ℕ}
    (h : loc.Within s (offsets 0 T.rowGroups) T.rowGroups.sum) :
    ∃ n, T.rowGroups[loc.rowGroup]? = some n ∧ loc.row < n := by
  obtain ⟨-, i, hi, hloc⟩ := h
  rw [locate_offsets hi, Option.some.injEq] at hloc
  obtain ⟨n, hn, hlt, -⟩ := take_sum_add_place hi
  rw [hloc] at hn hlt
  exact ⟨n, hn, hlt⟩

/-- A row of a row group is a row of every column of the table. -/
theorem Table.rowAt_lt {loc : RowLoc} {n j : ℕ} {col : Column}
    (hgroup : T.rowGroups[loc.rowGroup]? = some n) (hrow : loc.row < n)
    (hcol : T.columns[j]? = some col) : T.rowAt loc < col.length := by
  have hle := T.start_add_le hgroup
  rw [T.length_columns col (List.mem_of_getElem? hcol), rowAt]
  omega

/-- The content of a path is that of its row. -/
theorem directRead_table {path : Str} {entry : FileEntry} {n : ℕ} {content : Column}
    (hT : ReadsTable R shard.reader T) (hshard : ix.shards[entry.loc.shard]? = some shard)
    (hgroup : T.rowGroups[entry.loc.rowGroup]? = some n) (hrow : entry.loc.row < n)
    (hcontent : T.columns[shard.contentCol]? = some content)
    (hentry : ix.files.find? (normalize path) = some entry) :
    directRead R ix path = binaryValue content (T.rowAt entry.loc) := by
  have hchunk := decodeChunk_table hT hshard hgroup (by omega) hcontent
  rw [directRead, hentry]
  dsimp only
  rw [hchunk]
  exact binaryValue_slice content hrow

/-- The columns of the table other than those of the paths and contents. -/
structure ExtraColumn (pathColumn : Option Str) (shard : Shard) (T : Table) (j : ℕ) : Prop where
  lt : j < T.columns.length
  ne_contentCol : j ≠ shard.contentCol
  ne_pathCol : detectColumn T.names pathNames pathColumn "path".toList shard.url ≠ .ok j

/-- The extra columns are recorded. -/
theorem ShardOpens.exists_extraCols
    (h : ShardOpens R pathColumn contentColumn shard md pathIdx batches)
    (hmd : md = ⟨T.names, T.rowGroups⟩) {j : ℕ} (hj : ExtraColumn pathColumn shard T j) :
    ∃ k : ℕ, shard.extraCols[k]? = some j := by
  subst hmd
  have hne : j ≠ pathIdx := by
    rintro rfl
    exact hj.ne_pathCol h.pathCol
  refine List.mem_iff_getElem?.mp ?_
  rw [h.extraCols, List.mem_filter, List.mem_range, T.length_names]
  exact ⟨hj.lt, by simpa using ⟨hne, hj.ne_contentCol⟩⟩

/-- **Metadata reports the stored integers of the right row.**  In every state that
concurrent calls can reach, the bytes of an indexed path are the content of a row
of the table of its shard, and its metadata holds, under the name of every other
column, a value for the cell of that column in the same row: for a column of an
integer type exactly what the cell holds, if and only if the cell does not wrap. -/
theorem metadata_exact_iff {sources : List Str} {pol : DupPolicy}
    (h : buildIndex A R pathColumn contentColumn sources pol = .ok ix) {tables : List Table}
    (htables : List.Forall₂ (fun shard T => ReadsTable R shard.reader T) ix.shards tables)
    {c : Pool CacheOp CacheOp.Res Request (Outcome Response) Caches}
    (hreach : Reachable (cacheWorld R ix True) evictStep (serve ix) Caches.empty c)
    {path : Str} {entry : FileEntry} (hentry : ix.files.find? (normalize path) = some entry) :
    ∃ shard T content, ix.shards[entry.loc.shard]? = some shard ∧
      tables[entry.loc.shard]? = some T ∧ T.columns[shard.contentCol]? = some content ∧
      callFrom R ix c.state (.read path)
        = (binaryValue content (T.rowAt entry.loc)).bind (fun bs => .ok (.bytes bs)) ∧
      ∀ bytes, callFrom R ix c.state (.read path) = .ok (.bytes bytes) →
        ∃ metas : List (Str × MetaValue),
          callFrom R ix c.state (.info path) = .ok (.info (.file bytes.length metas)) ∧
          ∀ j, ExtraColumn pathColumn shard T j → ∃ (k : ℕ) (col : Column)
            (cell : Cell col.type.Value) (v : MetaValue),
            shard.extraCols[k]? = some j ∧ T.columns[j]? = some col ∧
              col.cells[T.rowAt entry.loc]? = some cell ∧
              metas[k]? = some (T.names.getD j [], v) ∧
              (col.type.isInteger = true →
                (v.Exact col.type cell ↔ ¬Wraps col.type cell)) := by
  obtain ⟨shard, md, pathIdx, batches, hshard, hopens, hwithin⟩ :=
    located_of_buildIndex h _ entry hentry
  obtain ⟨T, htable, hT⟩ := exists_getElem?_of_forall₂ htables hshard
  obtain ⟨hmd, hcols, hrows⟩ := hopens.columnsOf hT
  rw [hopens.rowGroupOffsets, hmd, hrows] at hwithin
  obtain ⟨n, hgroup, hrow⟩ := rowGroup_of_within hwithin
  have hcontent := List.getElem?_eq_getElem hcols.contentCol
  have hcall : ∀ q, callFrom R ix c.state q = directCall R ix q := fun q =>
    exec_serve q (caching_invisible hreach).2.1.1
  have hread := directRead_table hT hshard hgroup hrow hcontent hentry
  refine ⟨shard, T, _, hshard, htable, hcontent, ?_, fun bytes hbytes => ?_⟩
  · rw [hcall, directCall, hread]
  · rw [hcall, directCall_read_eq_iff, hread] at hbytes
    obtain ⟨d, metas, hd, hinfo, hmetas⟩ :=
      rowInfo_table hT hcols hshard hgroup hrow hcontent hbytes
    refine ⟨metas, ?_, fun j hj => ?_⟩
    · rw [hcall, directCall_info_eq_iff, directInfo, hentry]
      dsimp only
      rw [hd]
      exact hinfo
    · obtain ⟨k, hk⟩ := hopens.exists_extraCols hmd hj
      have hcol := List.getElem?_eq_getElem hj.lt
      obtain ⟨v, hv, hmeta⟩ := hmetas k j hk _ hcol
      have hcell := List.getElem?_eq_getElem (T.rowAt_lt hgroup hrow hcol)
      exact ⟨k, _, _, v, hk, hcol, hcell, hmeta, fun ht => metaValue_exact_iff ht hcell hv⟩

end Tables

/-! ### A table with counts -/

/-- Two row groups, with a count in front of the content and a level after it. -/
def countsTable : Table where
  names := ["path".toList, "n".toList, "content".toList, "level".toList]
  columns := [utf8Column ["/a".toList, "b".toList, "c".toList],
    ⟨.uint64, [Cell.valid (7 : UInt64), Cell.valid (9223372036854775808 : UInt64),
      (⟨true, 0⟩ : Cell UInt64)]⟩,
    largeBinaryColumn [[1], [2, 3], []],
    ⟨.int8, [Cell.valid (-1 : Int8), Cell.valid (1 : Int8), Cell.valid (0 : Int8)]⟩]
  rowGroups := [1, 2]
  length_names := rfl
  length_columns := by
    intro col hcol
    fin_cases hcol <;> rfl

/-- The index of two shards with this table, the first row of a path winning. -/
def countsIndex : Index :=
  match buildIndex sampleAdapters (tableReader countsTable) none none [[]] .first with
  | .ok ix => ix
  | .error _ => Index.empty

theorem metadata_exact_iff_sample : ∃ (metas : List (Str × MetaValue)) (k : ℕ) (v : MetaValue),
    callFrom (tableReader countsTable) countsIndex Caches.empty (.info "a".toList)
        = .ok (.info (.file 1 metas)) ∧
      metas[k]? = some ("n".toList, v) ∧ v.Exact .uint64 (Cell.valid (7 : UInt64)) := by
  have h : buildIndex sampleAdapters (tableReader countsTable) none none [[]] .first
      = .ok countsIndex := rfl
  have htables : List.Forall₂ (fun shard T => ReadsTable (tableReader countsTable) shard.reader T)
      countsIndex.shards [countsTable, countsTable] :=
    .cons (readsTable_tableReader _ _) (.cons (readsTable_tableReader _ _) .nil)
  have hentry : countsIndex.files.find? (normalize "a".toList) = some ⟨⟨0, 0, 0⟩⟩ := rfl
  obtain ⟨shard, T, content, hshard, hT, hcontent, hread, hinfo⟩ := metadata_exact_iff h htables
    (.refl : Reachable (cacheWorld _ countsIndex True) evictStep _ _ ⟨Caches.empty, []⟩) hentry
  cases hshard
  cases hT
  cases hcontent
  obtain ⟨metas, hfile, hmetas⟩ := hinfo [1] hread
  obtain ⟨k, col, cell, v, -, hcol, hcell, hmeta, hexact⟩ :=
    hmetas 1 ⟨by decide, by decide, by decide⟩
  cases hcol
  cases hcell
  refine ⟨metas, k, v, hfile, hmeta, (hexact rfl).mpr fun hwraps => ?_⟩
  obtain ⟨-, -, n, hn, hle⟩ := hwraps
  cases hn
  exact absurd hle (by decide)

/-- The count of the second row comes out negative. -/
theorem uint64_not_exact : ∃ (metas : List (Str × MetaValue)) (v : MetaValue),
    buildIndex sampleAdapters (tableReader countsTable) none none [[]] .first = .ok countsIndex ∧
      countsIndex.files.find? (normalize "b".toList) = some ⟨⟨0, 1, 0⟩⟩ ∧
      countsTable.rowAt ⟨0, 1, 0⟩ = 1 ∧
      callFrom (tableReader countsTable) countsIndex Caches.empty (.read "b".toList)
        = .ok (.bytes [2, 3]) ∧
      callFrom (tableReader countsTable) countsIndex Caches.empty (.info "b".toList)
        = .ok (.info (.file 2 metas)) ∧
      metas[0]? = some ("n".toList, v) ∧ v = .int (-9223372036854775808) ∧
      ∀ col, countsTable.columns[1]? = some col → ∀ cell, col.cells[1]? = some cell →
        ¬v.Exact col.type cell := by
  refine ⟨_, _, rfl, rfl, rfl, rfl, rfl, rfl, rfl, fun col hcol cell hcell hexact => ?_⟩
  cases hcol
  cases hcell
  obtain ⟨i, hi, hval⟩ := hexact.2 9223372036854775808 rfl rfl
  cases hi
  exact absurd hval (by decide)

end ParquetFileFs
