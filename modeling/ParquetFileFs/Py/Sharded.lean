import ParquetFileFs.Py.Alike

/-!
# Archives in parts

An archive may be packed into one output, or in parts into several that are opened
together.  Python cannot tell which, whatever each part holds: only that all parts together
accepted the same rows counts.

## Main definitions

* `Part` — a run of packing, and where its output is opened from.
* `openParts` — the outputs opened together.

## Main results

* `contentOf_error` — of distinct paths the first shard that has one counts.
* `parts_alike_iff` — **parts that open together are alike to the whole just when they
  accepted its rows.**
-/

namespace ParquetFileFs

open Segments Program

/-- Of several shards without paths in common the rows of all count. -/
theorem contentOf_error (files : List (List Row)) :
    contentOf .error files = rowContent files.flatten := by
  induction files with
  | nil => rfl
  | cons rows files ih =>
    funext k
    rw [contentOf_cons, ih, List.flatten_cons]
    simp only [rowContent, mergeContent, List.find?_append]
    cases rows.find? fun r => r.1 = k <;> rfl

/-- A run of packing, and where its output is opened from. -/
structure Part where
  run : PackRun
  source : Str
  url : Str

/-- How a part is mounted by itself. -/
def Part.mount (m : Mount) (part : Part) : Mount :=
  { m with source := part.source, url := part.url }

section Parts

variable {p : PackRun} {m m' : Mount} {parts : List Part} {W : ParquetWriter} {sch : Schema}
  {strip : Str → Str} {translate : Str → Option (Str → Bool)} {generic : SuperGlob}
  {fs : ParquetFileSystem}

/-- The outputs opened together; no path may be in two of them. -/
def openParts (m : Mount) (parts : List Part) (strip : Str → Str)
    (translate : Str → Option (Str → Bool)) (generic : SuperGlob) :
    Except PyErr ParquetFileSystem :=
  openFileSystem m.adapters m.reader strip translate generic (parts.map Part.source) m.pathColumn
    m.contentColumn "error".toList

/-- The part is packed by the writer, with the columns, and its output is mounted. -/
structure Part.Mounts (m : Mount) (W : ParquetWriter) (sch : Schema) (part : Part) : Prop where
  mounts : part.run.Mounts (part.mount m)
  writer : part.run.writer = W
  schema : part.run.opts.schema = sch

/-- The shard of a part. -/
def Part.shard (part : Part) (rows : List Row) : WrittenShard :=
  packedShard part.source part.url part.run.opts rows

theorem Part.Mounts.opens {part : Part} (h : part.Mounts m W sch) :
    ∃ rows, part.run.Accepted rows ∧ (part.shard rows).Opens m.adapters m.reader W sch := by
  obtain ⟨bytes, hread, hserves⟩ := h.mounts.serves
  obtain ⟨rows, hrows, -, -, hopens⟩ :=
    opens_of_run part.run.notPairs part.run.run h.mounts.readsBack hread hserves
  rw [h.writer, h.schema] at hopens
  exact ⟨rows, hrows, hopens⟩

theorem parse_error : DupPolicy.parse "error".toList = .ok .error := rfl

/-- What is opened is the index of the sources. -/
theorem buildIndex_of_openParts (h : openParts m parts strip translate generic = .ok fs) :
    ∃ ix, buildIndex m.adapters m.reader m.pathColumn m.contentColumn (parts.map Part.source)
      .error = .ok ix := by
  unfold openParts openFileSystem at h
  rw [parse_error] at h
  dsimp only at h
  split at h
  · next e he => cases e <;> cases h
  · next ix hix => exact ⟨ix, hix⟩

section Rows

variable {rowsOf : Part → List Row}

/-- Each part accepted its rows, and its shard opens. -/
def Holds (m : Mount) (W : ParquetWriter) (sch : Schema) (rowsOf : Part → List Row)
    (part : Part) : Prop :=
  part.run.Accepted (rowsOf part) ∧ (part.shard (rowsOf part)).Opens m.adapters m.reader W sch

theorem rows_shards : (parts.map fun part => part.shard (rowsOf part)).map WrittenShard.rows
    = parts.map rowsOf := by
  rw [List.map_map]
  exact List.map_congr_left fun part _ => rows_packedShard _ _ _ _

theorem paths_shards : (parts.map fun part => part.shard (rowsOf part)).flatMap WrittenShard.paths
    = (parts.flatMap rowsOf).map Prod.fst := by
  rw [List.flatMap_map, List.map_flatMap]
  simp only [WrittenShard.paths, Part.shard, rows_packedShard]

theorem opens_shards (h : ∀ part ∈ parts, Holds m W sch rowsOf part) :
    ∀ sh ∈ parts.map fun part => part.shard (rowsOf part), sh.Opens m.adapters m.reader W sch := by
  intro sh hsh
  obtain ⟨part, hpart, rfl⟩ := List.mem_map.mp hsh
  exact (h part hpart).2

theorem sources_shards : parts.map Part.source
    = (parts.map fun part => part.shard (rowsOf part)).map WrittenShard.source := by
  rw [List.map_map]
  rfl

/-- What opens shows the rows of all parts. -/
theorem showsRows_of_openParts (h : ∀ part ∈ parts, Holds m W sch rowsOf part)
    (hselects : Selects sch m.pathColumn m.contentColumn)
    (hopen : openParts m parts strip translate generic = .ok fs) :
    ShowsRows fs (parts.flatMap rowsOf) strip translate generic := by
  obtain ⟨ix, hbuild⟩ := buildIndex_of_openParts hopen
  obtain ⟨fs', hopen', rfl, hdecoder, hstrip, htranslate, hgeneric⟩ :=
    openFileSystem_of_buildIndex strip translate generic parse_error hbuild
  obtain rfl := Except.ok.inj (hopen.symm.trans hopen')
  rw [sources_shards] at hbuild
  obtain ⟨hnodup, hshows⟩ := shows_shards hselects (opens_shards h) hbuild
  rw [contentOf_error, rows_shards, ← List.flatMap_def, ← hdecoder] at hshows
  rw [paths_shards] at hnodup
  refine ⟨hshows, hnodup rfl, fun r hr => ?_, hstrip, htranslate, hgeneric⟩
  obtain ⟨part, hpart, hr⟩ := List.mem_flatMap.mp hr
  exact isStored_of_accepts part.run.notPairs (h part hpart).1 r hr

/-- The outputs open if no path is in two of them. -/
theorem exists_openParts (h : ∀ part ∈ parts, Holds m W sch rowsOf part)
    (hselects : Selects sch m.pathColumn m.contentColumn)
    (hnodup : ((parts.flatMap rowsOf).map Prod.fst).Nodup) :
    ∃ fs, openParts m parts strip translate generic = .ok fs := by
  rw [← paths_shards] at hnodup
  obtain ⟨ix, hbuild⟩ := exists_buildIndex_shards hselects (opens_shards h) fun _ => hnodup
  rw [← sources_shards] at hbuild
  obtain ⟨fs, hopen, -⟩ := openFileSystem_of_buildIndex strip translate generic parse_error hbuild
  exact ⟨fs, hopen⟩

end Rows

/-- **Parts that open together are alike to the whole just when they accepted its rows.** -/
theorem parts_alike_iff (hparts : ∀ part ∈ parts, part.Mounts m' W sch)
    (hselects : Selects sch m'.pathColumn m'.contentColumn) (h : p.Mounts m)
    (hstrip : StripsProtocol strip) (translate : Str → Option (Str → Bool))
    (generic : SuperGlob) :
    ∃ rows rowsOf fs, p.Accepted rows ∧ (∀ part ∈ parts, part.run.Accepted (rowsOf part)) ∧
      m.open_ strip translate generic "error".toList = .ok fs ∧
      ((∃ fs', openParts m' parts strip translate generic = .ok fs' ∧ Alike fs fs') ↔
        rows.Perm (parts.flatMap rowsOf)) := by
  obtain ⟨rows, fs, hrows, -, hopen, hshows⟩ := h.opens strip translate generic parse_error
  have hopens : ∀ part, ∃ rows, part ∈ parts →
      part.run.Accepted rows ∧ (part.shard rows).Opens m'.adapters m'.reader W sch := by
    intro part
    by_cases hpart : part ∈ parts
    · obtain ⟨rows, hpart⟩ := (hparts part hpart).opens
      exact ⟨rows, fun _ => hpart⟩
    · exact ⟨[], fun h => absurd h hpart⟩
  choose rowsOf hrowsOf using hopens
  refine ⟨rows, rowsOf, fs, hrows, fun part hpart => (hrowsOf part hpart).1, hopen, ?_⟩
  constructor
  · rintro ⟨fs', hopen', halike⟩
    exact (hshows.alike_iff (showsRows_of_openParts hrowsOf hselects hopen') hstrip).mp halike
  · intro hperm
    have hnodup := (hperm.map Prod.fst).nodup_iff.mp hshows.nodup
    obtain ⟨fs', hopen'⟩ := exists_openParts hrowsOf hselects hnodup
    have hshows' := showsRows_of_openParts hrowsOf hselects hopen'
    exact ⟨fs', hopen', (hshows.alike_iff hshows' hstrip).mpr hperm⟩

end Parts

/-! ### Two files in two parts -/

/-- The part with the first file. -/
def firstPack : PackRun := filesPack twoFiles ["a".toList] "o".toList {} ⟨1, 2⟩ rfl

/-- The part with the second file, packed after the first one. -/
def secondPack : PackRun := filesPack firstPack.after ["b".toList] "u".toList {} ⟨1, 1⟩ rfl

def sampleParts : List Part :=
  [⟨firstPack, "o".toList, "o".toList⟩, ⟨secondPack, "u".toList, "u".toList⟩]

theorem mounts_firstPack : firstPack.Mounts (localMount secondPack.after "o".toList) := by
  have hread : ∃ bytes, firstPack.after.read "o".toList = some bytes ∧
      secondPack.after.read "o".toList = some bytes := ⟨_, rfl, rfl⟩
  obtain ⟨bytes, hfirst, hsecond⟩ := hread
  exact mounts_filesPack rfl hfirst hsecond (by decide) (by decide) (chars_files (by decide))

theorem mounts_secondPack : secondPack.Mounts (localMount secondPack.after "u".toList) :=
  mounts_filesPack rfl rfl rfl (by decide) (by decide) (chars_files (by decide))

theorem mounts_sampleParts : ∀ part ∈ sampleParts,
    part.Mounts (localMount secondPack.after "o".toList) plainWriter packSchema := by
  intro part hpart
  rcases List.mem_pair.mp hpart with rfl | rfl
  · exact ⟨mounts_firstPack, rfl, rfl⟩
  · exact ⟨mounts_secondPack, rfl, rfl⟩

theorem parts_alike_iff_sample :
    ∃ fs fs', openSample (localMount pairPack.after "o".toList) = .ok fs ∧
      openParts (localMount secondPack.after "o".toList) sampleParts sampleStrip
        (fun _ => none) segmentGlob = .ok fs' ∧ Alike fs fs' := by
  have hstrip : StripsProtocol sampleStrip := fun _ => rfl
  obtain ⟨rows, rowsOf, fs, hrows, hparts, hopen, halike⟩ := parts_alike_iff mounts_sampleParts
    selects_packSchema mounts_pairPack hstrip (fun _ => none) segmentGlob
  have hfirst : firstPack.Accepted (rowsOf ⟨firstPack, "o".toList, "o".toList⟩) :=
    hparts _ List.mem_cons_self
  have hsecond : secondPack.Accepted (rowsOf ⟨secondPack, "u".toList, "u".toList⟩) :=
    hparts _ (List.mem_cons_of_mem _ List.mem_cons_self)
  have hall : rows.Perm [("b".toList, [3]), ("a".toList, [1, 2])] :=
    perm_of_accepts hrows (by decide)
  have hflat : (sampleParts.flatMap rowsOf).Perm [("a".toList, [1, 2]), ("b".toList, [3])] := by
    rw [sampleParts, List.flatMap_cons, List.flatMap_cons, List.flatMap_nil, List.append_nil]
    exact (perm_of_accepts hfirst (by decide)).append (perm_of_accepts hsecond (by decide))
  obtain ⟨fs', hopen', halike'⟩ := halike.mpr (hall.trans ((List.Perm.swap _ _ _).trans hflat.symm))
  exact ⟨fs, fs', hopen, hopen', halike'⟩

end ParquetFileFs
