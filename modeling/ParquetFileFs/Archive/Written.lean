import ParquetFileFs.Archive.Caching
import ParquetFileFs.Index.Merge

/-!
# Opening a shard that was written

A written shard reads back as the rows it was written from, in row groups of the
library's choice.  Opening it indexes every row at its place, and decoding the
row group of a path gives the bytes that were written with it.

## Main definitions

* `packSchema` — the default columns.
* `Selects` — opening a shard chooses its columns as what they were written as.
* `OpenedShard` — what an opened shard decodes to.

## Main results

* `openShard_written` — a written shard opens.
* `decodeChunk_written` — a row group decodes to the contents of its rows.
* `archive_written` — **every path is there, with the bytes it was written with.**
-/

namespace ParquetFileFs

open Segments Cumulative

/-- The default columns. -/
def packSchema : Schema := ⟨"path".toList, "content".toList⟩

/-- Of the columns of the schema, the first is chosen for the paths and the
second for the contents. -/
def Selects (sch : Schema) (pathColumn contentColumn : Option Str) : Prop :=
  ∀ url, detectColumn [sch.pathColumn, sch.contentColumn] pathNames pathColumn "path".toList url
      = .ok 0 ∧
    detectColumn [sch.pathColumn, sch.contentColumn] contentNames contentColumn "content".toList url
      = .ok 1

/-- The default columns are found by their names. -/
theorem selects_packSchema : Selects packSchema none none := fun _ => ⟨rfl, rfl⟩

/-- The shard has the row groups `rgs` of two columns, and decodes to them. -/
structure OpenedShard (R : ParquetReader) (sch : Schema) (rgs : List (List Row))
    (shard : Shard) : Prop where
  contentCol : shard.contentCol = 1
  extraCols : shard.extraCols = []
  tryNew : R.tryNew shard.reader
    = .ok ⟨[sch.pathColumn, sch.contentColumn], rgs.map List.length⟩
  build : ∀ cols sel batchSize, ValidRequest rgs cols sel batchSize →
    ∃ batches, R.build shard.reader cols sel batchSize = .ok batches ∧
      Batched cols batchSize (selectRows rgs sel) batches

section Written

variable {A : Adapters} {R : ParquetReader} {W : ParquetWriter} {url : Str} {c : PackCompression}
  {sch : Schema} {pathColumn contentColumn : Option Str} {groups rgs : List (List Row)}
  {shard : Shard} {ix : Index}
  {lookup : List LocatedRow → Str → Option RowLoc}

/-! ### Opening -/

/-- Batches of the path column hold the paths of their rows. -/
theorem batchHolds_paths (chunks : List (List Row)) :
    List.Forall₂ BatchHolds (chunks.map fun b => .ok (project [0] b))
      (chunks.map (List.map Prod.fst)) := by
  rw [List.forall₂_map_left_iff, List.forall₂_map_right_iff, List.forall₂_same]
  intro b _
  exact ⟨utf8Column (b.map Prod.fst), [], rfl, rfl⟩

theorem openShard_written {a : RangeReader} (hselects : Selects sch pathColumn contentColumn)
    (hresolve : resolve A url = .ok a) (hholds : a.Holds url (W.fileBytes sch c groups))
    (hback : ReadsBack R W sch c groups) :
    ∃ rgs shard, rgs.flatten = groups.flatten ∧
      ShardHolds A R pathColumn contentColumn url (rgs.map (List.map Prod.fst)) shard ∧
      OpenedShard R sch rgs shard := by
  let r : AdapterChunkReader := ⟨a, url, (W.fileBytes sch c groups).length⟩
  obtain ⟨rgs, ⟨parts, hparts, hrgs⟩, htry, hbuild⟩ := hback r ⟨hholds, rfl⟩
  have hvalid : ValidRequest rgs [0] none none := ⟨by simp, by simp, by simp, by simp⟩
  obtain ⟨batches, hbatches, chunks, hchunks, -, -, rfl⟩ := hbuild [0] none none hvalid
  obtain ⟨hpath, hcontent⟩ := hselects url
  let shard : Shard := ⟨url, r, 1, [], [], offsets 0 (rgs.map List.length)⟩
  have hfrom : ReadsFrom A url shard := ⟨a, _, hresolve, hholds.size, rfl, rfl⟩
  have hopens : ShardOpens R pathColumn contentColumn shard
      ⟨[sch.pathColumn, sch.contentColumn], rgs.map List.length⟩ 0
      (chunks.map fun b => .ok (project [0] b)) :=
    ⟨htry, hpath, hcontent, by simp [shard], rfl, rfl, rfl, hbatches⟩
  refine ⟨rgs, shard, ?_, ⟨hfrom, _, _, _, hopens, ?_, _, ?_, batchHolds_paths chunks⟩, rfl, rfl,
    htry, hbuild⟩
  · rw [← hrgs, ← hparts, List.flatten_flatten]
  · simp [Function.comp_def]
  · rw [← List.map_flatten, ← List.map_flatten, hchunks]
    rfl

/-! ### Decoding -/

/-- A row group with rows decodes to one batch that holds all of it. -/
theorem decodeChunk_written (h : OpenedShard R sch rgs shard) {s g : ℕ} {grp : List Row}
    (hshard : ix.shards[s]? = some shard) (hgrp : rgs[g]? = some grp) (hne : grp ≠ []) :
    decodeChunk R ix (s, g) = .ok (largeBinaryColumn (grp.map Prod.snd)) := by
  obtain ⟨hlt, hget⟩ := List.getElem?_eq_some_iff.mp hgrp
  have hvalid : ValidRequest rgs [1] (some [g]) (some (max grp.length 1)) :=
    ⟨by simp, by simp, by simpa using hlt, by simp⟩
  obtain ⟨batches, hbatches, chunks, hchunks, hchunk_ne, hone, rfl⟩ := h.build _ _ _ hvalid
  have hselect : selectRows rgs (some [g]) = grp := by
    simp [selectRows, List.getD_eq_getElem?_getD, hgrp]
  rw [hselect] at hchunks hone
  -- all rows fit into one batch, and some batch there is
  have hsingle : chunks = [grp] := by
    have hle := hone _ rfl (by omega)
    match chunks, hle with
    | [], _ => exact absurd hchunks.symm hne
    | [b], _ => rw [← hchunks, List.flatten_singleton]
  have hrow : (rgs.map List.length)[g]? = some grp.length := by
    rw [List.getElem?_map, hgrp, Option.map_some]
  simp only [decodeChunk, readRgColumns, hshard, h.contentCol, h.tryNew, hrow, hbatches, hsingle]
  rfl

theorem binaryValue_written {vs : List Bytes} {i : ℕ} {v : Bytes} (h : vs[i]? = some v) :
    binaryValue (largeBinaryColumn vs) i = .ok v := by
  have hcell : (vs.map Cell.valid)[i]? = some (Cell.valid v) := by
    rw [List.getElem?_map, h, Option.map_some]
  have hcells : (largeBinaryColumn vs).binaryCells = some (vs.map Cell.valid) := rfl
  simp only [binaryValue, hcells, cellAt, hcell]
  rfl

/-- Where each result is known, so is the result of the run. -/
theorem mapM_eq_ok {α β : Type} {f : α → Outcome β} {g : α → β} {as : List α}
    (h : ∀ a ∈ as, f a = .ok (g a)) : as.mapM f = .ok (as.map g) := by
  induction as with
  | nil => rfl
  | cons a as ih =>
    rw [List.mapM_cons, h a List.mem_cons_self, ih fun x hx => h x (List.mem_cons_of_mem a hx)]
    rfl

theorem rgSizes_written (vs : List Bytes) :
    rgSizes (largeBinaryColumn vs) = .ok (vs.map List.length) := by
  have hlen : (largeBinaryColumn vs).length = vs.length := List.length_map _
  have heach : ∀ i ∈ List.range vs.length, (binaryValue (largeBinaryColumn vs) i).map List.length
      = .ok (vs.getD i []).length := by
    intro i hi
    have hget := List.getElem?_eq_getElem (List.mem_range.mp hi)
    rw [binaryValue_written hget, List.getD_eq_getElem?_getD, hget]
    rfl
  rw [rgSizes, hlen, mapM_eq_ok heach]
  congr 1
  apply List.ext_getElem (by simp)
  intro i hi _
  have hi' : i < vs.length := by simpa using hi
  simp [List.getD_eq_getElem?_getD, List.getElem?_eq_getElem hi']

theorem decodeDetail_written (h : OpenedShard R sch rgs shard) {s g : ℕ} {grp : List Row}
    (hshard : ix.shards[s]? = some shard) (hgrp : rgs[g]? = some grp) (hne : grp ≠ []) :
    decodeDetail R ix (s, g) = .ok ⟨grp.map fun r => r.2.length, List.replicate grp.length []⟩ := by
  have hlen : (largeBinaryColumn (grp.map Prod.snd)).length = grp.length :=
    (List.length_map _).trans (List.length_map _)
  rw [decodeDetail, decodeChunk_written h hshard hgrp hne]
  simp only [Except.bind, detailOf, rgSizes_written, hshard, h.extraCols, if_pos, hlen,
    List.map_map, Function.comp_def]

/-! ### Every path is there -/

theorem map_key_groupRows {s : ℕ} {paths : List (List Str)}
    (hcanon : ∀ p ∈ paths.flatten, Canonical '/' p) :
    (groupRows s paths).map LocatedRow.key = paths.flatten := by
  have hkey : (groupRows s paths).map LocatedRow.key = paths.flatten.map normalize := by
    rw [groupRows, label_eq_map_zipIdx, List.map_map, List.map_map]
    conv_rhs => rw [← List.zipIdx_map_fst 0 paths.flatten, List.map_map]
    rfl
  rw [hkey]
  conv_rhs => rw [← List.map_id paths.flatten]
  exact List.map_congr_left fun p hp => normalize_eq_self_iff.mpr (hcanon p hp)

/-- Canonical paths are filed under themselves. -/
theorem shardRows_keys {paths : List (List Str)}
    (hcanon : ∀ p ∈ paths.flatten, Canonical '/' p ∧ p ≠ []) :
    (shardRows 0 [paths]).map LocatedRow.key = paths.flatten ∧
      ∀ r ∈ shardRows 0 [paths], r.key ≠ [] := by
  have hkeys : (shardRows 0 [paths]).map LocatedRow.key = paths.flatten := by
    rw [shardRows, shardRows, List.append_nil]
    exact map_key_groupRows fun p hp => (hcanon p hp).1
  refine ⟨hkeys, fun r hr => ?_⟩
  have hmem : r.key ∈ (shardRows 0 [paths]).map LocatedRow.key := List.mem_map_of_mem hr
  rw [hkeys] at hmem
  exact (hcanon _ hmem).2

theorem expandSources_singleton {s : Str} {a : RangeReader} (hresolve : resolve A s = .ok a)
    (hlist : a.list s = .ok [url]) : expandSources A [s] = .ok [url] := by
  rw [expandSources, List.foldlM_cons, hresolve]
  change ((a.list s >>= _ : Except FsError _) >>= _) = _
  rw [hlist]
  rfl

/-- The place of a path is that of the row with this path. -/
theorem find_written
    (h : IndexHolds A R pathColumn contentColumn [(url, rgs.map (List.map Prod.fst))] lookup ix)
    (hcanon : ∀ r ∈ rgs.flatten, Canonical '/' r.1 ∧ r.1 ≠ [])
    (hnodup : (rgs.flatten.map Prod.fst).Nodup) {r : Row} (hr : r ∈ rgs.flatten)
    (hfind : ∃ entry, ix.files.find? r.1 = some entry) :
    ∃ g i grp, ix.files.find? r.1 = some ⟨⟨0, g, i⟩⟩ ∧ rgs[g]? = some grp ∧ grp[i]? = some r := by
  obtain ⟨⟨⟨s, g, i⟩⟩, hentry⟩ := hfind
  obtain ⟨-, d, paths, raw, -, hd, -, hpaths, hraw, hnorm⟩ := h.in_range r.1 _ hentry
  obtain ⟨hlt, hd⟩ := List.getElem?_eq_some_iff.mp hd
  obtain rfl : s = 0 := Nat.lt_one_iff.mp hlt
  subst hd
  -- the row at the place has the path of `r`, so it is `r`
  obtain ⟨grp, hgrp, rfl⟩ := Option.map_eq_some_iff.mp (List.getElem?_map ▸ hpaths)
  obtain ⟨r', hr', rfl⟩ := Option.map_eq_some_iff.mp (List.getElem?_map ▸ hraw)
  have hmem : r' ∈ rgs.flatten :=
    List.mem_flatten.mpr ⟨grp, List.mem_of_getElem? hgrp, List.mem_of_getElem? hr'⟩
  rw [normalize_eq_self_iff.mpr (hcanon r' hmem).1] at hnorm
  have heq : r' = r := List.inj_on_of_nodup_map hnodup hmem hr hnorm
  exact ⟨g, i, grp, hentry, hgrp, heq ▸ hr'⟩

theorem archive_written {s : Str} (hselects : Selects sch pathColumn contentColumn)
    (hserves : Serves A s url (W.fileBytes sch c groups)) (hback : ReadsBack R W sch c groups)
    (hcanon : ∀ r ∈ groups.flatten, Canonical '/' r.1 ∧ r.1 ≠ [])
    (hnodup : (groups.flatten.map Prod.fst).Nodup) (pol : DupPolicy) :
    ∃ ix, buildIndex A R pathColumn contentColumn [s] pol = .ok ix ∧
      ix.files.keys = (groups.flatten.map Prod.fst).insertionSort (· ≤ ·) ∧
      ∀ r ∈ groups.flatten, directRead R ix r.1 = .ok r.2 ∧
        directInfo R ix r.1 = .ok (.file r.2.length []) := by
  obtain ⟨⟨a₀, hresolve₀, hlist⟩, a, hresolve, hholds⟩ := hserves
  obtain ⟨rgs, shard, hflat, hsh, hopened⟩ := openShard_written hselects hresolve hholds hback
  rw [← hflat] at hcanon hnodup ⊢
  have hpaths : (rgs.map (List.map Prod.fst)).flatten = rgs.flatten.map Prod.fst :=
    List.map_flatten.symm
  have hcanon_paths : ∀ p ∈ (rgs.map (List.map Prod.fst)).flatten, Canonical '/' p ∧ p ≠ [] := by
    rw [hpaths]
    exact List.forall_mem_map.mpr hcanon
  obtain ⟨hkeys, hne⟩ := shardRows_keys hcanon_paths
  rw [hpaths] at hkeys
  have hsrc : expandSources A [s] = .ok ([(url, rgs.map (List.map Prod.fst))].map Prod.fst) :=
    expandSources_singleton hresolve₀ hlist
  obtain ⟨files, hmerged, hbuild⟩ := buildIndex_of_merged pol hsrc (.cons hsh .nil) hne fun _ => by
    rw [List.map_singleton, hkeys]
    exact hnodup
  have hmem : ∀ k, k ∈ files.keys ↔ k ∈ rgs.flatten.map Prod.fst := by
    intro k
    rw [hmerged.mem_keys, ← hkeys]
    rfl
  refine ⟨_, hbuild, SortedMap.keys_eq_insertionSort hnodup hmem, fun r hr => ?_⟩
  -- the entry of a path is at a place that holds its row
  have hself : normalize r.1 = r.1 := normalize_eq_self_iff.mpr (hcanon r hr).1
  have hholds : IndexHolds A R pathColumn contentColumn [(url, rgs.map (List.map Prod.fst))]
      pol.lookup ⟨[shard], files, collectDirs files.keys⟩ := .of_merged (.cons hsh .nil) hmerged
  obtain ⟨g, i, grp, hfind, hgrp, hrow⟩ := find_written hholds hcanon hnodup hr
    (SortedMap.mem_keys_iff_find?.mp ((hmem r.1).mpr (List.mem_map_of_mem hr)))
  have hgrp_ne : grp ≠ [] := by
    rintro rfl
    cases hrow
  constructor
  · have hcontent : (grp.map Prod.snd)[i]? = some r.2 := by
      rw [List.getElem?_map, hrow, Option.map_some]
    have hchunk : decodeChunk R ⟨[shard], files, collectDirs files.keys⟩ (0, g)
        = .ok (largeBinaryColumn (grp.map Prod.snd)) := decodeChunk_written hopened rfl hgrp hgrp_ne
    simp only [directRead, hself, hfind, hchunk]
    exact binaryValue_written hcontent
  · have hsize : (grp.map fun r => r.2.length)[i]? = some r.2.length := by
      rw [List.getElem?_map, hrow, Option.map_some]
    have hmetas : (List.replicate grp.length ([] : List (Str × MetaValue)))[i]? = some [] :=
      List.getElem?_replicate_of_lt (List.getElem?_eq_some_iff.mp hrow).1
    have hdetail : decodeDetail R ⟨[shard], files, collectDirs files.keys⟩ (0, g)
        = .ok ⟨grp.map fun r => r.2.length, List.replicate grp.length []⟩ :=
      decodeDetail_written hopened rfl hgrp hgrp_ne
    simp only [directInfo, hself, hfind, hdetail, Except.bind, rowInfo, hsize, hmetas]

end Written

end ParquetFileFs
