import ParquetFileFs.Archive.Queries
import ParquetFileFs.Archive.Written

/-!
# Shards that hold tables

A shard holds a table: named columns of equal length, cut into row groups.  The
library hands out the chosen columns of a row group in the order of the schema,
all of its rows at once.  So decoding a row group gives windows of the columns,
and a row of the group is a row of the table.

## Main definitions

* `Table`, `Table.project` — tables, and windows of some of their columns.
* `ReadsTable` — what reading a shard that holds a table gives.
* `Table.rowAt` — the row of the table that a place stands for.
* `tableReader` — a reader of one table.

## Main results

* `readRgColumns_table` — a row group decodes to windows of the columns.
* `decodeChunk_table`, `detailOf_table` — content, sizes and metadata of a row
  group, from the rows of the table.
-/

namespace ParquetFileFs

open Cumulative

/-! ### Windows of a column -/

/-- The `n` rows of a column from row `start` on. -/
def Column.slice (c : Column) (start n : ℕ) : Column := ⟨c.type, (c.cells.drop start).take n⟩

theorem Column.length_slice {c : Column} {start n : ℕ} (h : start + n ≤ c.length) :
    (c.slice start n).length = n := by
  unfold Column.length at h ⊢
  rw [slice, List.length_take, List.length_drop]
  omega

theorem getElem?_slice {V : Type} (cells : List V) {start n i : ℕ} (hi : i < n) :
    ((cells.drop start).take n)[i]? = cells[start + i]? := by
  rw [List.getElem?_take_of_lt hi, List.getElem?_drop]

theorem Column.binaryCells_slice (c : Column) (start n : ℕ) :
    (c.slice start n).binaryCells
      = c.binaryCells.map fun cells => (cells.drop start).take n := by
  obtain ⟨type, cells⟩ := c
  -- bytes are taken as they are, texts one by one
  cases type
  all_goals first
    | rfl
    | exact congrArg some (List.map_take.trans (congrArg _ List.map_drop))

theorem binaryValue_slice (c : Column) {start n i : ℕ} (hi : i < n) :
    binaryValue (c.slice start n) i = binaryValue c (start + i) := by
  rw [binaryValue, binaryValue, c.binaryCells_slice]
  cases c.binaryCells with
  | none => rfl
  | some cells => simp only [Option.map_some, cellAt, getElem?_slice cells hi]

theorem metaValue_slice (c : Column) {start n i : ℕ} (hi : i < n) :
    metaValue (c.slice start n) i = metaValue c (start + i) := by
  have hcell : cellAt (c.slice start n).cells i = cellAt c.cells (start + i) := by
    have hget : (c.slice start n).cells[i]? = c.cells[start + i]? := getElem?_slice c.cells hi
    unfold cellAt
    rw [hget]
    rfl
  rw [metaValue, hcell]
  rfl

/-- A value can be taken of every row, or of none. -/
theorem binaryValue_ok {c : Column} {i j : ℕ} {bs : Bytes} (h : binaryValue c i = .ok bs)
    (hj : j < c.length) : ∃ bs', binaryValue c j = .ok bs' := by
  unfold binaryValue at h ⊢
  cases hcells : c.binaryCells with
  | none => rw [hcells] at h; cases h
  | some cells =>
    rw [← Column.length_binaryCells hcells] at hj
    exact ⟨cells[j].value, by simp only [cellAt, List.getElem?_eq_getElem hj, Except.map]⟩

theorem metaValue_of_getElem? {c : Column} {i : ℕ} {cell : Cell c.type.Value}
    (h : c.cells[i]? = some cell) :
    metaValue c i = .ok (if cell.isNull then .null else c.type.metaValue cell.value) := by
  simp only [metaValue, cellAt, h, Except.map]

/-! ### Tables -/

theorem getElem?_filterMap_of_isSome {α β : Type} {f : α → Option β} {l : List α}
    (h : ∀ a ∈ l, (f a).isSome) (k : ℕ) : (l.filterMap f)[k]? = l[k]?.bind f := by
  induction l generalizing k with
  | nil => rfl
  | cons a l ih =>
    obtain ⟨b, hb⟩ := Option.isSome_iff_exists.mp (h a List.mem_cons_self)
    rw [List.filterMap_cons_some hb]
    cases k with
    | zero => exact hb.symm
    | succ k => exact ih (fun a' ha' => h a' (List.mem_cons_of_mem a ha')) k

/-- Named columns of equal length, cut into row groups of the given sizes. -/
structure Table where
  names : List Str
  columns : List Column
  rowGroups : List ℕ
  length_names : names.length = columns.length
  length_columns : ∀ col ∈ columns, col.length = rowGroups.sum

namespace Table

/-- The first row of a row group. -/
def start (T : Table) (g : ℕ) : ℕ := (T.rowGroups.take g).sum

/-- Windows of the columns with the given indices, in column order. -/
def project (T : Table) (cols : List ℕ) (start n : ℕ) : List Column :=
  ((List.range T.columns.length).filter (· ∈ cols)).filterMap fun j =>
    T.columns[j]?.map fun col => col.slice start n

/-- The row of the table that a place in it stands for. -/
def rowAt (T : Table) (loc : RowLoc) : ℕ := T.start loc.rowGroup + loc.row

theorem start_add_le {T : Table} {g n : ℕ} (h : T.rowGroups[g]? = some n) :
    T.start g + n ≤ T.rowGroups.sum := take_sum_add_le h

theorem project_singleton {T : Table} {j : ℕ} {col : Column} (h : T.columns[j]? = some col)
    (start n : ℕ) : T.project [j] start n = [col.slice start n] := by
  have hj := (List.getElem?_eq_some_iff.mp h).1
  have hone : (List.range T.columns.length).filter (· ∈ [j]) = [j] := by
    refine List.perm_singleton.mp ((List.perm_ext_iff_of_nodup
      (List.nodup_range.filter _) (List.nodup_singleton j)).mpr fun i => ?_)
    simp only [List.mem_filter, List.mem_range, decide_eq_true_eq, List.mem_singleton]
    omega
  rw [project, hone]
  simp [h]

/-- Columns chosen in order come out in order. -/
theorem getElem?_project (T : Table) (p : ℕ → Bool) {k j : ℕ} {col : Column}
    (hk : ((List.range T.columns.length).filter p)[k]? = some j) (hcol : T.columns[j]? = some col)
    (start n : ℕ) :
    (T.project ((List.range T.columns.length).filter p) start n)[k]?
      = some (col.slice start n) := by
  have hself : (List.range T.columns.length).filter
      (· ∈ (List.range T.columns.length).filter p) = (List.range T.columns.length).filter p := by
    refine List.filter_congr fun i hi => ?_
    simp only [List.mem_filter, hi, true_and, Bool.decide_eq_true]
  have hsome : ∀ i ∈ (List.range T.columns.length).filter p,
      (T.columns[i]?.map fun col => col.slice start n).isSome := by
    intro i hi
    have hlt := List.mem_range.mp (List.mem_of_mem_filter hi)
    rw [List.getElem?_eq_getElem hlt]
    rfl
  rw [project, hself, getElem?_filterMap_of_isSome hsome, hk, Option.bind_some, hcol,
    Option.map_some]

theorem length_of_mem_project {T : Table} {cols : List ℕ} {start n : ℕ} {col : Column}
    (h : col ∈ T.project cols start n) (hle : start + n ≤ T.rowGroups.sum) : col.length = n := by
  obtain ⟨j, -, hcol⟩ := List.mem_filterMap.mp h
  obtain ⟨whole, hwhole, rfl⟩ := Option.map_eq_some_iff.mp hcol
  refine Column.length_slice ?_
  rwa [T.length_columns whole (List.mem_of_getElem? hwhole)]

end Table

/-! ### Reading a table -/

/-- **What reading a shard that holds a table gives**: its metadata; a column, in
consecutive batches; and the rows of a row group that has any, in one batch if
that is large enough. -/
structure ReadsTable (R : ParquetReader) (r : AdapterChunkReader) (T : Table) : Prop where
  tryNew : R.tryNew r = .ok ⟨T.names, T.rowGroups⟩
  column : ∀ j, j < T.columns.length → ∃ lens : List ℕ, lens.sum = T.rowGroups.sum ∧
    R.build r [j] none none
      = .ok ((lens.zip (offsets 0 lens)).map fun p => .ok (T.project [j] p.2 p.1))
  rowGroup : ∀ cols g n batchSize, cols ≠ [] → (∀ j ∈ cols, j < T.columns.length) →
    T.rowGroups[g]? = some n → n ≠ 0 → n ≤ batchSize →
    R.build r cols (some [g]) (some batchSize) = .ok [.ok (T.project cols (T.start g) n)]

/-- The columns of a shard are columns of a table. -/
structure Shard.ColumnsOf (shard : Shard) (T : Table) : Prop where
  contentCol : shard.contentCol < T.columns.length
  extraCols : ∃ p : ℕ → Bool, shard.extraCols = (List.range T.columns.length).filter p
  extraNames : shard.extraNames = shard.extraCols.map fun i => T.names.getD i []

section Decode

variable {R : ParquetReader} {ix : Index} {shard : Shard} {T : Table} {s g n row : ℕ}
  {content : Column}

/-- **A row group decodes to windows of the columns.** -/
theorem readRgColumns_table (hT : ReadsTable R shard.reader T) (hshard : ix.shards[s]? = some shard)
    (hgroup : T.rowGroups[g]? = some n) (hn : n ≠ 0) {cols : List ℕ} (hcols : cols ≠ [])
    (hlt : ∀ j ∈ cols, j < T.columns.length) :
    readRgColumns R ix s g cols = .ok (T.project cols (T.start g) n) := by
  have hbuild := hT.rowGroup cols g n (max n 1) hcols hlt hgroup hn (le_max_left n 1)
  simp only [readRgColumns, hshard, hT.tryNew, hgroup, hbuild]

theorem decodeChunk_table (hT : ReadsTable R shard.reader T) (hshard : ix.shards[s]? = some shard)
    (hgroup : T.rowGroups[g]? = some n) (hn : n ≠ 0)
    (hcontent : T.columns[shard.contentCol]? = some content) :
    decodeChunk R ix (s, g) = .ok (content.slice (T.start g) n) := by
  have hlt := (List.getElem?_eq_some_iff.mp hcontent).1
  have hread := readRgColumns_table hT hshard hgroup hn (List.cons_ne_nil shard.contentCol [])
    (by simpa using hlt)
  simp only [decodeChunk, hshard, hread, T.project_singleton hcontent]
  rfl

theorem metaValue_ok {col : Column} {i : ℕ} (h : i < col.length) :
    ∃ v, metaValue col i = .ok v :=
  ⟨_, metaValue_of_getElem? (List.getElem?_eq_getElem h)⟩

/-- Where every column has as many rows, all metadata can be taken. -/
theorem rgMetas_ok (names : List Str) {cols : List Column} (h : ∀ col ∈ cols, col.length = n) :
    ∃ metas, rgMetas names cols n = .ok metas := by
  refine exists_mapM_ok fun i hi => exists_mapM_ok fun p hp => ?_
  rw [List.mem_range, ← h p.2 (List.of_mem_zip hp).2] at hi
  obtain ⟨v, hv⟩ := metaValue_ok hi
  exact ⟨(p.1, v), by rw [hv]; rfl⟩

/-- The metadata of a row, one column after another. -/
theorem metas_of_rgMetas {names : List Str} {cols : List Column}
    {metas : List (List (Str × MetaValue))} (h : rgMetas names cols n = .ok metas)
    {ms : List (Str × MetaValue)} (hms : metas[row]? = some ms) {k : ℕ} {name : Str} {col : Column}
    (hname : names[k]? = some name) (hcol : cols[k]? = some col) :
    ∃ v, metaValue col row = .ok v ∧ ms[k]? = some (name, v) := by
  obtain ⟨i, hi, hrow⟩ := mapM_ok_getElem? h hms
  obtain ⟨hlt, rfl⟩ := List.getElem?_eq_some_iff.mp hi
  have hpair : (names.zip cols)[k]? = some (name, col) :=
    List.getElem?_zip_eq_some.mpr ⟨hname, hcol⟩
  obtain ⟨p, hp, hv⟩ := getElem?_of_mapM_ok hrow hpair
  rw [List.getElem_range] at hv
  cases hval : metaValue col row with
  | error e => rw [hval] at hv; cases hv
  | ok v =>
    rw [hval] at hv
    cases hv
    exact ⟨v, rfl, hp⟩

theorem rgMetas_nil (cols : List Column) (n : ℕ) :
    rgMetas [] cols n = .ok (List.replicate n []) := by
  have heach : ∀ i ∈ List.range n, (([] : List Str).zip cols).mapM
      (fun p => (metaValue p.2 i).map (p.1, ·)) = .ok [] := fun _ _ => rfl
  rw [rgMetas, mapM_eq_ok heach, List.map_const', List.length_range]

/-- The details of a row group, from the rows of the table. -/
theorem decodeDetail_table (hT : ReadsTable R shard.reader T) (hcols : shard.ColumnsOf T)
    (hshard : ix.shards[s]? = some shard) (hgroup : T.rowGroups[g]? = some n) (hrow : row < n)
    (hcontent : T.columns[shard.contentCol]? = some content) {bytes : Bytes}
    (hbytes : binaryValue content (T.start g + row) = .ok bytes) :
    ∃ d, decodeDetail R ix (s, g) = .ok d ∧
      rgMetas shard.extraNames (T.project shard.extraCols (T.start g) n) n = .ok d.metas := by
  have hle := T.start_add_le hgroup
  have hn : n ≠ 0 := by omega
  have hlen : (content.slice (T.start g) n).length = n := by
    refine Column.length_slice ?_
    rwa [T.length_columns content (List.mem_of_getElem? hcontent)]
  rw [← binaryValue_slice content hrow] at hbytes
  -- one content was taken, so all of them can be
  obtain ⟨sizes, hsizes⟩ : ∃ sizes, rgSizes (content.slice (T.start g) n) = .ok sizes := by
    refine exists_mapM_ok fun i hi => ?_
    obtain ⟨bs, hbs⟩ := binaryValue_ok hbytes (List.mem_range.mp hi)
    exact ⟨bs.length, by rw [hbs]; rfl⟩
  have hdetail : decodeDetail R ix (s, g)
      = detailOf R ix (s, g) (content.slice (T.start g) n) := by
    rw [decodeDetail, decodeChunk_table hT hshard hgroup hn hcontent]
    rfl
  by_cases hextra : shard.extraCols = []
  · refine ⟨⟨sizes, List.replicate n []⟩, ?_, ?_⟩
    · rw [hdetail, detailOf, hsizes]
      simp only [Except.bind, hshard, hextra, if_pos, hlen]
    · rw [hcols.extraNames, hextra]
      exact rgMetas_nil _ n
  · have hread := readRgColumns_table hT hshard hgroup hn hextra (by
      obtain ⟨p, hp⟩ := hcols.extraCols
      intro j hj
      rw [hp] at hj
      exact List.mem_range.mp (List.mem_of_mem_filter hj))
    obtain ⟨metas, hmetas⟩ := rgMetas_ok shard.extraNames fun col hcol =>
      Table.length_of_mem_project (T := T) hcol hle
    refine ⟨⟨sizes, metas⟩, ?_, hmetas⟩
    rw [hdetail, detailOf, hsizes]
    simp only [Except.bind, hshard, if_neg hextra, hread, hlen, hmetas]

/-- **The information about a row**: the length of its content, and the values of
the other columns in the same row of the table. -/
theorem rowInfo_table (hT : ReadsTable R shard.reader T) (hcols : shard.ColumnsOf T)
    (hshard : ix.shards[s]? = some shard) (hgroup : T.rowGroups[g]? = some n) (hrow : row < n)
    (hcontent : T.columns[shard.contentCol]? = some content) {bytes : Bytes}
    (hbytes : binaryValue content (T.start g + row) = .ok bytes) :
    ∃ (d : RgDetail) (metas : List (Str × MetaValue)), decodeDetail R ix (s, g) = .ok d ∧
      rowInfo d row = .ok (.file bytes.length metas) ∧
      ∀ (k j : ℕ), shard.extraCols[k]? = some j → ∀ col, T.columns[j]? = some col →
        ∃ v, metaValue col (T.start g + row) = .ok v ∧
          metas[k]? = some (T.names.getD j [], v) := by
  obtain ⟨d, hd, hmetas⟩ := decodeDetail_table hT hcols hshard hgroup hrow hcontent hbytes
  have hchunk := decodeChunk_table hT hshard hgroup (by omega) hcontent
  have hval : binaryValue (content.slice (T.start g) n) row = .ok bytes :=
    (binaryValue_slice content hrow).trans hbytes
  obtain ⟨size, ms, hinfo⟩ := rowInfo_of_decodes hchunk hval hd
  have hdetail : detailOf R ix (s, g) (content.slice (T.start g) n) = .ok d := by
    rw [decodeDetail, hchunk] at hd
    exact hd
  obtain ⟨metas, hfile⟩ := size_of_rowInfo hdetail hval hinfo
  cases hfile
  refine ⟨d, ms, hd, hinfo, fun k j hk col hcol => ?_⟩
  have hms : d.metas[row]? = some ms := by
    unfold rowInfo at hinfo
    split at hinfo
    · next hms =>
      cases hinfo
      exact hms
    · cases hinfo
  have hname : shard.extraNames[k]? = some (T.names.getD j []) := by
    rw [hcols.extraNames, List.getElem?_map, hk, Option.map_some]
  obtain ⟨p, hp⟩ := hcols.extraCols
  rw [hp] at hk hmetas
  obtain ⟨v, hv, hmeta⟩ := metas_of_rgMetas hmetas hms hname
    (T.getElem?_project p hk hcol (T.start g) n)
  exact ⟨v, (metaValue_slice col hrow).symm.trans hv, hmeta⟩

end Decode

/-! ### A reader of one table -/

/-- A reader that finds the table behind every URL. -/
def tableReader (T : Table) : ParquetReader where
  tryNew _ := .ok ⟨T.names, T.rowGroups⟩
  build _ cols sel _ :=
    match sel with
    | none => .ok [.ok (T.project cols 0 T.rowGroups.sum)]
    | some gs => .ok (gs.map fun g => .ok (T.project cols (T.start g) (T.rowGroups.getD g 0)))

/-- **The reader of a table reads it.** -/
theorem readsTable_tableReader (T : Table) (r : AdapterChunkReader) :
    ReadsTable (tableReader T) r T where
  tryNew := rfl
  column _ _ := ⟨[T.rowGroups.sum], List.sum_singleton, rfl⟩
  rowGroup cols g n _ _ _ hgroup _ _ := by
    have hget : T.rowGroups.getD g 0 = n := by
      rw [List.getD_eq_getElem?_getD, hgroup, Option.getD_some]
    simp only [tableReader, List.map_cons, List.map_nil, hget]

end ParquetFileFs
