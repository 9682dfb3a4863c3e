import ParquetFileFs.Archive.Metadata

/-!
# Reading never panics

The code takes columns, rows and row groups by index, and counts on the parquet
library for all of them to be there.  Shards whose metadata counts their rows
truly, damaged as they may be otherwise, are opened, read and described without
a panic, whatever decodes fail.  A decode reads the metadata again: the shards are
taken not to change, so a decode that works answers as when the archive was opened.

## Main definitions

* `NoPanic` — a computation that does not panic.
* `CountsRows` — the row counts of the metadata are those of the columns.

## Main results

* `noPanic_buildIndex` — **opening never panics.**
* `reading_noPanic` — **no call ever panics**, over all runs of concurrent calls.
-/

namespace ParquetFileFs

open Cumulative

/-! ### Computations that do not panic -/

/-- The computation returns, with a result or an error. -/
def NoPanic {α : Type} (x : Outcome α) : Prop := x ≠ .error .panic

theorem noPanic_ok {α : Type} (a : α) : NoPanic (.ok a) := by
  intro h
  cases h

theorem noPanic_err {α : Type} (e : FsError) : NoPanic (.error (.err e) : Outcome α) := by
  intro h
  cases h

theorem noPanic_lift {α : Type} (x : Except FsError α) : NoPanic (lift x) := by
  cases x with
  | error e => exact noPanic_err e
  | ok a => exact noPanic_ok a

theorem NoPanic.bind {α β : Type} {x : Outcome α} {f : α → Outcome β} (hx : NoPanic x)
    (hf : ∀ a, x = .ok a → NoPanic (f a)) : NoPanic (x >>= f) := by
  cases x with
  | error e =>
    intro h
    cases h
    exact hx rfl
  | ok a => exact hf a rfl

theorem NoPanic.map {α β : Type} {x : Outcome α} (hx : NoPanic x) (f : α → β) :
    NoPanic (x.map f) := by
  cases x with
  | error e =>
    intro h
    cases h
    exact hx rfl
  | ok a => exact noPanic_ok _

theorem noPanic_mapM {α β : Type} {f : α → Outcome β} {as : List α}
    (h : ∀ a ∈ as, NoPanic (f a)) : NoPanic (as.mapM f) := by
  induction as with
  | nil => exact noPanic_ok []
  | cons a as ih =>
    rw [List.mapM_cons]
    refine (h a List.mem_cons_self).bind fun b _ => ?_
    exact (ih fun a' ha' => h a' (List.mem_cons_of_mem a ha')).bind fun bs _ => noPanic_ok _

/-! ### Shards whose metadata counts their rows -/

/-- What the metadata says is true of the columns.  Any decode may fail, but the
batches of a column hold no more rows than the row groups have, and the first
batch of a row group that fits into one holds as many rows as the group has. -/
structure CountsRows (R : ParquetReader) (r : AdapterChunkReader) (md : ParquetMetaData) :
    Prop where
  column : ∀ j batches, j < md.fields.length → R.build r [j] none none = .ok batches →
    (∀ batch, .ok batch ∈ batches → batch ≠ []) ∧
      (batches.map batchRows).sum ≤ md.rowGroups.sum
  rowGroup : ∀ cols g n batch rest, cols ≠ [] → (∀ j ∈ cols, j < md.fields.length) →
    md.rowGroups[g]? = some n →
    R.build r cols (some [g]) (some (max n 1)) = .ok (.ok batch :: rest) →
    batch ≠ [] ∧ ∀ col ∈ batch, col.length = n

/-- The metadata of every shard counts its rows truly. -/
def ParquetReader.CountsRows (R : ParquetReader) : Prop :=
  ∀ r md, R.tryNew r = .ok md → ParquetFileFs.CountsRows R r md

/-! ### Opening -/

section Opening

variable {A : Adapters} {R : ParquetReader} {pathColumn contentColumn : Option Str}
  {pol : DupPolicy} {shards : List Shard} {url : Str} {s : ℕ} {sizes : List ℕ}
  {st : ℕ × SortedMap Str FileEntry} {files : SortedMap Str FileEntry}

/-- All entries are in the first `n` shards. -/
def InShards (n : ℕ) (files : SortedMap Str FileEntry) : Prop :=
  ∀ k entry, files.find? k = some entry → entry.loc.shard < n

theorem InShards.mono {n n' : ℕ} (h : InShards n files) (hle : n ≤ n') : InShards n' files :=
  fun k entry hk => (h k entry hk).trans_le hle

/-- What grows by places of shard `s` stays in the first shards, `s` among them. -/
theorem InShards.grows {n m : ℕ} {files' : SortedMap Str FileEntry} {offs : List ℕ}
    (h : InShards n files) (hs : s < n) (hgrows : Grows s offs m files files') :
    InShards n files' := by
  intro k entry hk
  rcases hgrows k entry hk with hold | hnew
  · exact h k entry hold
  · rw [hnew.1]
    exact hs

theorem noPanic_addEntry (h : InShards shards.length files) (norm : Str) (entry : FileEntry) :
    NoPanic (addEntry pol shards url files norm entry) := by
  unfold addEntry
  cases hfind : files.find? norm with
  | none => exact noPanic_ok _
  | some old =>
    -- the shard of the entry that was there is one of the shards
    have hget := List.getElem?_eq_getElem (h norm old hfind)
    cases pol with
    | error =>
      simp only [hget]
      exact noPanic_err _
    | first => exact noPanic_ok _
    | last => exact noPanic_ok _

theorem noPanic_addRow (h : InShards shards.length st.2) (hlt : st.1 < sizes.sum) (raw : Str) :
    NoPanic (addRow pol shards url s (offsets 0 sizes) st raw) := by
  unfold addRow
  rw [locate_offsets hlt]
  dsimp only
  split
  · exact noPanic_err _
  · exact (noPanic_addEntry h _ _).map _

theorem noPanic_addRows (raws : List Str) (h : InShards shards.length st.2)
    (hs : s < shards.length) (hle : st.1 + raws.length ≤ sizes.sum) :
    NoPanic (raws.foldlM (addRow pol shards url s (offsets 0 sizes)) st) := by
  induction raws generalizing st with
  | nil => exact noPanic_ok _
  | cons raw raws ih =>
    rw [List.length_cons] at hle
    rw [List.foldlM_cons]
    refine (noPanic_addRow h (by omega) raw).bind fun st' hst' => ?_
    obtain ⟨hcount, hgrows⟩ := addRow_spec hst'
    exact ih (h.grows hs hgrows) (by omega)

theorem noPanic_addBatch {batch : Except Str (List Column)} (hne : ∀ cols, batch = .ok cols →
    cols ≠ []) (h : InShards shards.length st.2) (hs : s < shards.length)
    (hle : st.1 + batchRows batch ≤ sizes.sum) :
    NoPanic (addBatch pol shards url s (offsets 0 sizes) st batch) := by
  unfold addBatch
  split
  · exact noPanic_err _
  · exact absurd rfl (hne [] rfl)
  · next col rest =>
    cases hraws : pathStrings col url with
    | error e => exact noPanic_err _
    | ok raws =>
      rw [batchRows, ← length_pathStrings hraws] at hle
      exact noPanic_addRows raws h hs hle

theorem noPanic_addBatches {batches : List (Except Str (List Column))}
    (hne : ∀ batch, .ok batch ∈ batches → batch ≠ []) (h : InShards shards.length st.2)
    (hs : s < shards.length) (hle : st.1 + (batches.map batchRows).sum ≤ sizes.sum) :
    NoPanic (batches.foldlM (addBatch pol shards url s (offsets 0 sizes)) st) := by
  induction batches generalizing st with
  | nil => exact noPanic_ok _
  | cons batch batches ih =>
    rw [List.map_cons, List.sum_cons] at hle
    rw [List.foldlM_cons]
    refine (noPanic_addBatch (fun cols hcols => hne cols (hcols ▸ List.mem_cons_self)) h hs
      (by omega)).bind fun st' hst' => ?_
    obtain ⟨hcount, hgrows⟩ := addBatch_spec hst'
    exact ih (fun b hb => hne b (List.mem_cons_of_mem _ hb)) (h.grows hs hgrows) (by omega)

theorem openShard_of_lift {p : Shard × List (Except Str (List Column))}
    (h : lift (openShard A R pathColumn contentColumn url) = .ok p) :
    openShard A R pathColumn contentColumn url = .ok p := by
  cases hres : openShard A R pathColumn contentColumn url with
  | error e => rw [hres] at h; cases h
  | ok p' =>
    rw [hres, lift_ok] at h
    cases h
    rfl

/-- A shard that is added holds all the entries that are new. -/
theorem addShard_inShards {ix ix' : Index}
    (h : addShard A R pathColumn contentColumn pol ix url = .ok ix')
    (hix : InShards ix.shards.length ix.files) : InShards ix'.shards.length ix'.files := by
  unfold addShard at h
  obtain ⟨⟨shard, batches⟩, -, h⟩ := exists_of_bind_ok h
  obtain ⟨⟨count, files⟩, hrun, h⟩ := exists_of_bind_ok h
  cases h
  obtain ⟨-, hgrows⟩ := addBatches_spec hrun
  have hlen : (ix.shards ++ [shard]).length = ix.shards.length + 1 := by simp
  rw [hlen]
  exact (hix.mono (Nat.le_succ _)).grows (Nat.lt_succ_self _) hgrows

theorem noPanic_addShard (hR : R.CountsRows) {ix : Index}
    (h : InShards ix.shards.length ix.files) :
    NoPanic (addShard A R pathColumn contentColumn pol ix url) := by
  unfold addShard
  refine (noPanic_lift _).bind fun ⟨shard, batches⟩ hopen => ?_
  obtain ⟨md, pathIdx, hopens⟩ := shardOpens_of_openShard (openShard_of_lift hopen)
  obtain ⟨hne, hsum⟩ := (hR _ _ hopens.tryNew).column pathIdx batches
    (lt_length_of_detectColumn hopens.pathCol) hopens.build
  have hlen : (ix.shards ++ [shard]).length = ix.shards.length + 1 := by simp
  dsimp only
  rw [hopens.rowGroupOffsets]
  refine NoPanic.bind ?_ fun ⟨count, files⟩ _ => noPanic_ok _
  refine noPanic_addBatches hne ?_ (by omega) (by omega)
  rw [hlen]
  exact h.mono (Nat.le_succ _)

/-- **Opening never panics**: shards that count their rows truly are indexed, or
rejected with an error. -/
theorem noPanic_buildIndex (hR : R.CountsRows) (sources : List Str) :
    NoPanic (buildIndex A R pathColumn contentColumn sources pol) := by
  unfold buildIndex
  refine (noPanic_lift _).bind fun urls _ => NoPanic.bind ?_ fun ix _ => noPanic_ok _
  have hall : ∀ (urls : List Str) (ix : Index), InShards ix.shards.length ix.files →
      NoPanic (urls.foldlM (addShard A R pathColumn contentColumn pol) ix) := by
    intro urls
    induction urls with
    | nil => exact fun ix _ => noPanic_ok ix
    | cons url urls ih =>
      intro ix hix
      rw [List.foldlM_cons]
      exact (noPanic_addShard hR hix).bind fun ix' hix' => ih ix' (addShard_inShards hix' hix)
  exact hall urls Index.empty fun k entry hk => by cases hk

end Opening

/-! ### Reading -/

section Reading

variable {R : ParquetReader} {ix : Index} {shard : Shard} {md : ParquetMetaData} {s g n row : ℕ}
  {cols : List ℕ}

theorem noPanic_binaryValue {col : Column} {i : ℕ} (h : i < col.length) :
    NoPanic (binaryValue col i) := by
  unfold binaryValue
  cases hcells : col.binaryCells with
  | none => exact noPanic_err _
  | some cells =>
    rw [← Column.length_binaryCells hcells] at h
    simp only [cellAt, List.getElem?_eq_getElem h]
    exact noPanic_ok _

/-- A row group that is decoded comes with all its rows. -/
theorem readRgColumns_counts (hR : R.CountsRows) (hshard : ix.shards[s]? = some shard)
    (hmd : R.tryNew shard.reader = .ok md) (hgroup : md.rowGroups[g]? = some n)
    (hcols : cols ≠ []) (hlt : ∀ j ∈ cols, j < md.fields.length) :
    NoPanic (readRgColumns R ix s g cols) ∧
      ∀ batch, readRgColumns R ix s g cols = .ok batch →
        batch ≠ [] ∧ ∀ col ∈ batch, col.length = n := by
  simp only [readRgColumns, hshard, hmd, hgroup]
  cases hbuild : R.build shard.reader cols (some [g]) (some (max n 1)) with
  | error e => exact ⟨noPanic_err _, fun batch h => by cases h⟩
  | ok batches =>
    rcases batches with _ | ⟨e | batch, rest⟩
    · exact ⟨noPanic_err _, fun batch h => by cases h⟩
    · exact ⟨noPanic_err _, fun batch h => by cases h⟩
    · refine ⟨noPanic_ok _, fun batch' h => ?_⟩
      cases h
      exact (hR _ _ hmd).rowGroup cols g n batch rest hcols hlt hgroup hbuild

/-- The content of a row group has all its rows. -/
theorem decodeChunk_counts (hR : R.CountsRows) (hshard : ix.shards[s]? = some shard)
    (hmd : R.tryNew shard.reader = .ok md) (hgroup : md.rowGroups[g]? = some n)
    (hcontent : shard.contentCol < md.fields.length) :
    NoPanic (decodeChunk R ix (s, g)) ∧
      ∀ col, decodeChunk R ix (s, g) = .ok col → col.length = n := by
  obtain ⟨hsafe, hcounts⟩ := readRgColumns_counts hR hshard hmd hgroup
    (List.cons_ne_nil shard.contentCol []) (by simpa using hcontent)
  simp only [decodeChunk, hshard]
  cases hread : readRgColumns R ix s g [shard.contentCol] with
  | error e =>
    rw [hread] at hsafe
    exact ⟨fun h => hsafe (by cases h; rfl), fun col h => by cases h⟩
  | ok batch =>
    obtain ⟨hne, hlen⟩ := hcounts batch hread
    cases batch with
    | nil => exact absurd rfl hne
    | cons col rest =>
      refine ⟨noPanic_ok _, fun col' h => ?_⟩
      cases h
      exact hlen col List.mem_cons_self

theorem noPanic_detailOf (hR : R.CountsRows) (hshard : ix.shards[s]? = some shard)
    (hmd : R.tryNew shard.reader = .ok md) (hgroup : md.rowGroups[g]? = some n)
    (hextra : ∀ j ∈ shard.extraCols, j < md.fields.length) {content : Column}
    (hlen : content.length = n) : NoPanic (detailOf R ix (s, g) content) := by
  have hsizes : NoPanic (rgSizes content) := noPanic_mapM fun i hi =>
    (noPanic_binaryValue (List.mem_range.mp hi)).map _
  refine NoPanic.bind hsizes fun sizes _ => ?_
  simp only [hshard]
  split
  · exact noPanic_ok _
  · next hne =>
    obtain ⟨hsafe, hcounts⟩ := readRgColumns_counts hR hshard hmd hgroup hne hextra
    refine NoPanic.bind hsafe fun cols hcols => ?_
    obtain ⟨-, hcols⟩ := hcounts cols hcols
    obtain ⟨metas, hmetas⟩ := rgMetas_ok shard.extraNames (fun col hcol =>
      (hcols col hcol).trans hlen.symm)
    rw [hmetas]
    exact noPanic_ok _

/-- The row group of an entry, and what its shard says of it. -/
structure EntryShard (R : ParquetReader) (ix : Index) (loc : RowLoc) (shard : Shard)
    (md : ParquetMetaData) (n : ℕ) : Prop where
  shard_eq : ix.shards[loc.shard]? = some shard
  tryNew : R.tryNew shard.reader = .ok md
  contentCol : shard.contentCol < md.fields.length
  extraCols : ∀ j ∈ shard.extraCols, j < md.fields.length
  rowGroup : md.rowGroups[loc.rowGroup]? = some n
  row : loc.row < n

/-- **Every entry is in a row group of its shard.** -/
theorem entryShard_of_buildIndex {A : Adapters} {pathColumn contentColumn : Option Str}
    {sources : List Str} {pol : DupPolicy} (hR : R.CountsRows)
    (h : buildIndex A R pathColumn contentColumn sources pol = .ok ix) {k : Str}
    {entry : FileEntry} (hentry : ix.files.find? k = some entry) :
    ∃ shard md n, EntryShard R ix entry.loc shard md n := by
  obtain ⟨shard, md, pathIdx, batches, hshard, hopens, -, i, hi, hloc⟩ :=
    located_of_buildIndex h k entry hentry
  obtain ⟨-, hsum⟩ := (hR _ _ hopens.tryNew).column pathIdx batches
    (lt_length_of_detectColumn hopens.pathCol) hopens.build
  have hlt : i < md.rowGroups.sum := by omega
  rw [hopens.rowGroupOffsets, locate_offsets hlt, Option.some.injEq] at hloc
  obtain ⟨n, hn, hrow, -⟩ := take_sum_add_place hlt
  rw [hloc] at hn hrow
  refine ⟨shard, md, n, hshard, hopens.tryNew, lt_length_of_detectColumn hopens.contentCol,
    fun j hj => ?_, hn, hrow⟩
  rw [hopens.extraCols, List.mem_filter, List.mem_range] at hj
  exact hj.1

theorem noPanic_directRead (hR : R.CountsRows) {path : Str}
    (hentries : ∀ entry, ix.files.find? (normalize path) = some entry →
      ∃ shard md n, EntryShard R ix entry.loc shard md n) : NoPanic (directRead R ix path) := by
  unfold directRead
  cases hfind : ix.files.find? (normalize path) with
  | none => exact noPanic_err _
  | some entry =>
    obtain ⟨shard, md, n, h⟩ := hentries entry hfind
    obtain ⟨hsafe, hlen⟩ := decodeChunk_counts hR h.shard_eq h.tryNew h.rowGroup h.contentCol
    refine NoPanic.bind hsafe fun col hcol => noPanic_binaryValue ?_
    rw [hlen col hcol]
    exact h.row

theorem noPanic_directInfo (hR : R.CountsRows) {path : Str}
    (hentries : ∀ entry, ix.files.find? (normalize path) = some entry →
      ∃ shard md n, EntryShard R ix entry.loc shard md n) : NoPanic (directInfo R ix path) := by
  unfold directInfo
  cases hfind : ix.files.find? (normalize path) with
  | none =>
    dsimp only
    split
    · exact noPanic_ok _
    · exact noPanic_err _
  | some entry =>
    obtain ⟨shard, md, n, h⟩ := hentries entry hfind
    obtain ⟨hsafe, hlen⟩ := decodeChunk_counts hR h.shard_eq h.tryNew h.rowGroup h.contentCol
    have hdetail : NoPanic (decodeDetail R ix (entry.loc.shard, entry.loc.rowGroup)) :=
      NoPanic.bind hsafe fun content hcontent =>
        noPanic_detailOf hR h.shard_eq h.tryNew h.rowGroup h.extraCols (hlen content hcontent)
    refine NoPanic.bind hdetail fun d hd => ?_
    -- the details have one size and one list of metadata for each row
    rw [decodeDetail] at hd
    cases hcontent : decodeChunk R ix (entry.loc.shard, entry.loc.rowGroup) with
    | error e => rw [hcontent] at hd; cases hd
    | ok content =>
      rw [hcontent] at hd
      obtain ⟨hsizes, hmetas⟩ := lengths_of_detailOf hd
      have hrow := h.row
      rw [← hlen content hcontent] at hrow
      rw [rowInfo, List.getElem?_eq_getElem (by omega), List.getElem?_eq_getElem (by omega)]
      exact noPanic_ok _

/-- **Reading never panics.**  Of shards that count their rows truly and do not change,
whatever else is wrong with them, opening gives an index or an error; and in every
state that concurrent calls on the index can reach, with any decodes failing, no call
has ended in a panic. -/
theorem reading_noPanic {A : Adapters} {pathColumn contentColumn : Option Str}
    (hR : R.CountsRows) (sources : List Str) (pol : DupPolicy) :
    NoPanic (buildIndex A R pathColumn contentColumn sources pol) ∧
      ∀ ix, buildIndex A R pathColumn contentColumn sources pol = .ok ix →
        ∀ c : Pool CacheOp CacheOp.Res Request (Outcome Response) Caches,
          Reachable (cacheWorld R ix True) evictStep (serve ix) Caches.empty c →
          ∀ t ∈ c.threads, ∀ r, t.program = .ret r → NoPanic r := by
  refine ⟨noPanic_buildIndex hR sources, fun ix h c hreach t ht r hr => ?_⟩
  have hinv : PoolInv (cacheContract R ix fun _ => True) (Caches.Valid R ix)
      (fun q => Agrees (fun _ => True) (directCall R ix q)) c :=
    pool_invariant cacheContract_holds (fun _ _ => evictStep_valid) serve_meets
      (Caches.valid_empty R ix) hreach
  have hagrees : Agrees (fun _ => True) (directCall R ix t.request) r := by
    have hmeets := hinv.threads t ht
    rwa [hr] at hmeets
  rcases hagrees with rfl | ⟨e, -, rfl⟩
  · cases t.request with
    | read path =>
      exact (noPanic_directRead hR fun entry => entryShard_of_buildIndex hR h).bind
        fun bs _ => noPanic_ok _
    | info path =>
      exact (noPanic_directInfo hR fun entry => entryShard_of_buildIndex hR h).bind
        fun i _ => noPanic_ok _
  · exact noPanic_err e

end Reading

/-- The reader of a table counts its rows. -/
theorem countsRows_tableReader (T : Table) : (tableReader T).CountsRows := by
  intro r md hmd
  cases hmd
  constructor
  · intro j batches hj hbuild
    rw [T.length_names] at hj
    have hcol := List.getElem?_eq_getElem hj
    have hlen : (T.columns[j].slice 0 T.rowGroups.sum).length = T.rowGroups.sum :=
      Column.length_slice (by rw [T.length_columns _ (List.getElem_mem hj)]; omega)
    cases hbuild
    rw [T.project_singleton hcol]
    exact ⟨by simp, by simp [batchRows, hlen]⟩
  · intro cols g n batch rest hne hlt hgroup hbuild
    have hget : T.rowGroups.getD g 0 = n := by
      rw [List.getD_eq_getElem?_getD, hgroup, Option.getD_some]
    have hbatch : batch = T.project cols (T.start g) n := by
      simp only [tableReader, List.map_cons, hget] at hbuild
      cases hbuild
      rfl
    subst hbatch
    have hmem : ∀ col, col ∈ T.project cols (T.start g) n ↔
        ∃ j ∈ cols, ∃ col', T.columns[j]? = some col' ∧ col'.slice (T.start g) n = col := by
      intro col
      simp only [Table.project, List.mem_filterMap, List.mem_filter, List.mem_range,
        decide_eq_true_eq, Option.map_eq_some_iff]
      constructor
      · rintro ⟨j, ⟨_, hj⟩, col', hcol', heq⟩
        exact ⟨j, hj, col', hcol', heq⟩
      · rintro ⟨j, hj, col', hcol', heq⟩
        exact ⟨j, ⟨(List.getElem?_eq_some_iff.mp hcol').1, hj⟩, col', hcol', heq⟩
    constructor
    · obtain ⟨j, hj⟩ := List.exists_mem_of_ne_nil cols hne
      have hjlt := hlt j hj
      rw [T.length_names] at hjlt
      exact List.ne_nil_of_mem ((hmem _).mpr ⟨j, hj, _, List.getElem?_eq_getElem hjlt, rfl⟩)
    · intro col hcol
      obtain ⟨j, -, col', hcol', rfl⟩ := (hmem col).mp hcol
      refine Column.length_slice ?_
      rw [T.length_columns col' (List.mem_of_getElem? hcol')]
      exact T.start_add_le hgroup

/-- Two reads of one file, the first of which fails to decode. -/
theorem reading_noPanic_sample :
    NoPanic (buildIndex sampleAdapters (tableReader countsTable) none none [[]] .first) ∧
      ∃ c : Pool CacheOp CacheOp.Res Request (Outcome Response) Caches,
        c.threads = [⟨.read "b".toList, .ret (.error (.err (.parquet [] [])))⟩,
          ⟨.read "/b".toList, .ret (.ok (.bytes [2, 3]))⟩] ∧
        ∀ t ∈ c.threads, ∀ r, t.program = .ret r → NoPanic r := by
  obtain ⟨hopen, hcalls⟩ := reading_noPanic (countsRows_tableReader countsTable) [[]] .first
  refine ⟨hopen, ?_⟩
  have h₀ : Reachable (cacheWorld (tableReader countsTable) countsIndex True) evictStep
    (serve countsIndex) Caches.empty ⟨Caches.empty, []⟩ := .refl
  have h₁ := (h₀.tail (.spawn _ _ (.read "b".toList))).tail (.spawn _ _ (.read "/b".toList))
  have h₂ := (h₁.tail (.call (i := 0) (r := none) rfl ⟨rfl, rfl⟩)).tail
    (.call (i := 1) (r := none) rfl ⟨rfl, rfl⟩)
  have h₃ := h₂.tail (.call (i := 0) (r := .error (.err (.parquet [] []))) rfl
    ⟨Or.inr ⟨trivial, _, rfl⟩, rfl⟩)
  have h₄ := (h₃.tail (.call (i := 1) rfl ⟨Or.inl rfl, rfl⟩)).tail
    (.call (i := 1) (r := ()) rfl rfl)
  exact ⟨_, rfl, hcalls countsIndex rfl _ h₄⟩

end ParquetFileFs
