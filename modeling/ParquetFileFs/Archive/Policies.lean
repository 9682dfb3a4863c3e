import ParquetFileFs.Archive.Shown

/-!
# Policies and the order of sources

To its readers an index is a map from paths to rows of shards, and opening more sources
merges such maps.  What the policy and the order of the sources change is what they
change in this map.

## Main definitions

* `Index.rowAt` — the row that a path stands for.
* `SameRows` — two indices stand for the same map.
* `Index.Agrees` — nothing that can be asked of two indices tells them apart.

## Main results

* `rowAt_beside` — the map of two indices side by side.
* `SameRows.agrees` — **the map is all that readers see.**
* `buildIndex_of_error` — what opens under `error` opens under every policy, to the same
  index.
* `sources_perm` — **sources that open under `error` open in every order and under every
  policy, and the results cannot be told apart.**
* `last_reverse` — **`last` is `first` with the sources in reverse.**
-/

namespace ParquetFileFs

/-! ### An index as a map -/

/-- A row: the shard it is in, its row group, and its place there. -/
abbrev ShardRow := Option Shard × ℕ × ℕ

/-- The row that a path stands for. -/
def Index.rowAt (ix : Index) (k : Str) : Option ShardRow :=
  (ix.files.find? k).map fun entry =>
    (ix.shards[entry.loc.shard]?, entry.loc.rowGroup, entry.loc.row)

/-- The paths of both stand for the same rows. -/
structure SameRows (ix ix' : Index) : Prop where
  rows : ∀ k, ix.rowAt k = ix'.rowAt k
  dirs : ix.dirs = ix'.dirs

/-- Nothing that can be asked of the two tells them apart. -/
structure Index.Agrees (R : ParquetReader) (ix ix' : Index) : Prop where
  paths : ix.files.keys = ix'.files.keys
  dirs : ix.dirs.keys = ix'.dirs.keys
  ls : ∀ path, ix.ls path = ix'.ls path
  calls : ∀ q, freshCall R ix q = freshCall R ix' q

section Maps

variable {R : ParquetReader} {ix ix' ix₁ ix₁' ix₂ ix₂' ix₃ : Index} {pol : DupPolicy} {k : Str}

theorem rowAt_eq_none_iff : ix.rowAt k = none ↔ k ∉ ix.files.keys := by
  rw [Index.rowAt, Option.map_eq_none_iff, notMem_keys_iff]

theorem SameRows.refl (ix : Index) : SameRows ix ix := ⟨fun _ => rfl, rfl⟩

theorem SameRows.trans (h : SameRows ix₁ ix₂) (h' : SameRows ix₂ ix₃) : SameRows ix₁ ix₃ :=
  ⟨fun k => (h.rows k).trans (h'.rows k), h.dirs.trans h'.dirs⟩

theorem SameRows.mem_keys (h : SameRows ix ix') : k ∈ ix.files.keys ↔ k ∈ ix'.files.keys := by
  rw [← not_iff_not, ← rowAt_eq_none_iff, ← rowAt_eq_none_iff, h.rows]

theorem SameRows.isDir (h : SameRows ix ix') (norm : Str) : ix.isDir norm = ix'.isDir norm := by
  rw [Index.isDir, Index.isDir, h.dirs]

theorem SameRows.keys (h : SameRows ix ix') : ix.files.keys = ix'.files.keys :=
  SortedMap.keys_ext fun _ => h.mem_keys

/-- Listings say which files and directories there are, and nothing else. -/
theorem Index.ls_congr (hfiles : ix.files.keys = ix'.files.keys) (hdirs : ix.dirs = ix'.dirs)
    (path : Str) : ix.ls path = ix'.ls path := by
  have hcontains : ∀ k, ix.files.contains k = ix'.files.contains k := by
    intro k
    rw [Bool.eq_iff_iff, SortedMap.contains_iff_mem_keys, SortedMap.contains_iff_mem_keys, hfiles]
  have hstep : ∀ prefixSlash, lsStep ix.files prefixSlash = lsStep ix'.files prefixSlash := by
    intro prefixSlash
    funext st k
    simp only [lsStep, hcontains]
  have hisDir : ∀ norm, ix.isDir norm = ix'.isDir norm := by
    intro norm
    rw [Index.isDir, Index.isDir, hdirs]
  simp only [Index.ls, hcontains, hisDir, SortedMap.keysFrom, hfiles, hstep]

theorem SameRows.sameAnswers (h : SameRows ix ix') (path : Str) : SameAnswers R ix ix' path := by
  have hrow := h.rows (normalize path)
  unfold Index.rowAt at hrow
  cases hfind : ix.files.find? (normalize path) with
  | none =>
    rw [hfind, Option.map_none, eq_comm, Option.map_eq_none_iff] at hrow
    exact sameAnswers_of_isDir hfind hrow (h.isDir _)
  | some entry =>
    rw [hfind, Option.map_some, eq_comm, Option.map_eq_some_iff] at hrow
    obtain ⟨entry', hfind', heq⟩ := hrow
    obtain ⟨hshard, hplace⟩ := Prod.mk.inj heq
    obtain ⟨hgroup, hrow⟩ := Prod.mk.inj hplace
    exact sameAnswers_of_row hfind hfind' ⟨hshard.symm, hgroup.symm, hrow.symm⟩

/-- **The map is all that readers see.** -/
theorem SameRows.agrees (h : SameRows ix ix') : Index.Agrees R ix ix' where
  paths := h.keys
  dirs := by rw [h.dirs]
  ls := Index.ls_congr h.keys h.dirs
  calls q := by
    rw [freshCall_eq, freshCall_eq]
    exact (h.sameAnswers q.path).directCall

/-- Of two rows of a path the policy says which counts. -/
def preferred (pol : DupPolicy) (r r' : Option ShardRow) : Option ShardRow :=
  if pol = .last then r'.or r else r.or r'

/-- The map of two indices side by side. -/
theorem rowAt_beside (h : InShards ix₁.shards.length ix₁.files) (k : Str) :
    (ix₁.beside pol ix₂).rowAt k = preferred pol (ix₁.rowAt k) (ix₂.rowAt k) := by
  have hfiles : (ix₁.beside pol ix₂).files
      = mergeFiles pol ix₁.shards.length ix₁.files ix₂.files := rfl
  have hfirst : ∀ entry, ix₁.files.find? k = some entry →
      (ix₁.beside pol ix₂).shards[entry.loc.shard]? = ix₁.shards[entry.loc.shard]? :=
    fun entry hentry => (sameRow_first (h k entry hentry)).shard
  have hsecond : ∀ entry : FileEntry,
      (ix₁.beside pol ix₂).shards[(entry.shift ix₁.shards.length).loc.shard]?
        = ix₂.shards[entry.loc.shard]? := fun entry => (sameRow_second entry).shard
  unfold preferred Index.rowAt
  rw [hfiles]
  by_cases hlast : pol = .last
  · subst hlast
    rw [if_pos rfl, find?_mergeFiles_last]
    cases h₂ : ix₂.files.find? k with
    | some entry => simpa [FileEntry.shift] using hsecond entry
    | none =>
      cases h₁ : ix₁.files.find? k with
      | none => rfl
      | some entry => simp [hfirst entry h₁]
  · rw [if_neg hlast, find?_mergeFiles hlast]
    cases h₁ : ix₁.files.find? k with
    | some entry => simp [hfirst entry h₁]
    | none =>
      cases h₂ : ix₂.files.find? k with
      | none => rfl
      | some entry => simpa [FileEntry.shift] using hsecond entry

/-- Indices side by side stand for the same map if each does. -/
theorem SameRows.beside (hin : InShards ix₁.shards.length ix₁.files)
    (hin' : InShards ix₁'.shards.length ix₁'.files) (h₁ : SameRows ix₁ ix₁')
    (h₂ : SameRows ix₂ ix₂') : SameRows (ix₁.beside pol ix₂) (ix₁'.beside pol ix₂') where
  rows k := by rw [rowAt_beside hin, rowAt_beside hin', h₁.rows, h₂.rows]
  dirs := by
    show ix₁.dirs.overlay ix₂.dirs = ix₁'.dirs.overlay ix₂'.dirs
    rw [h₁.dirs, h₂.dirs]

theorem dirs_overlay_comm (dirs dirs' : SortedMap Str Unit) :
    dirs.overlay dirs' = dirs'.overlay dirs := by
  refine dirs_ext fun x => ?_
  rw [SortedMap.mem_keys_overlay, SortedMap.mem_keys_overlay, or_comm]

/-- Where the first index counts under one policy and the last under the other, indices can
change places. -/
theorem SameRows.beside_reverse (hin₁ : InShards ix₁.shards.length ix₁.files)
    (hin₂ : InShards ix₂'.shards.length ix₂'.files) (h₁ : SameRows ix₁ ix₁')
    (h₂ : SameRows ix₂ ix₂') : SameRows (ix₁.beside .last ix₂) (ix₂'.beside .first ix₁') where
  rows k := by
    rw [rowAt_beside hin₁, rowAt_beside hin₂, h₁.rows, h₂.rows]
    rfl
  dirs := by
    show ix₁.dirs.overlay ix₂.dirs = ix₂'.dirs.overlay ix₁'.dirs
    rw [h₁.dirs, h₂.dirs, dirs_overlay_comm]

end Maps

section Sources

variable {A : Adapters} {R : ParquetReader} {pathColumn contentColumn : Option Str}
  {sources sources' : List Str} {ix : Index}

/-! ### Sources without duplicates -/

theorem addEntry_of_error {shards : List Shard} {url norm : Str}
    {files files' : SortedMap Str FileEntry} {entry : FileEntry}
    (h : addEntry .error shards url files norm entry = .ok files') (pol : DupPolicy) :
    addEntry pol shards url files norm entry = .ok files' := by
  obtain ⟨hnone, rfl⟩ := addEntry_error_iff.mp h
  simp only [addEntry, hnone]

theorem addRow_of_error {shards : List Shard} {url : Str} {shardId : ℕ} {offs : List ℕ}
    {st st' : ℕ × SortedMap Str FileEntry} {raw : Str}
    (h : addRow .error shards url shardId offs st raw = .ok st') (pol : DupPolicy) :
    addRow pol shards url shardId offs st raw = .ok st' := by
  unfold addRow at h ⊢
  cases hplace : locate offs st.1 with
  | none => rw [hplace] at h; cases h
  | some place =>
    rw [hplace] at h
    dsimp only at h ⊢
    split_ifs at h ⊢ with hempty
    obtain ⟨files, hentry, hst⟩ := map_eq_ok_iff.mp h
    exact map_eq_ok_iff.mpr ⟨files, addEntry_of_error hentry pol, hst⟩

theorem addBatch_of_error {shards : List Shard} {url : Str} {shardId : ℕ} {offs : List ℕ}
    {st st' : ℕ × SortedMap Str FileEntry} {batch : Except Str (List Column)}
    (h : addBatch .error shards url shardId offs st batch = .ok st') (pol : DupPolicy) :
    addBatch pol shards url shardId offs st batch = .ok st' := by
  rcases batch with e | _ | ⟨col, rest⟩
  · cases h
  · cases h
  · simp only [addBatch] at h ⊢
    cases hpaths : pathStrings col url with
    | error e => rw [hpaths] at h; cases h
    | ok raws =>
      rw [hpaths] at h
      exact Mirrors.foldlM_of_step (fun _ _ _ hrow => addRow_of_error hrow pol) h

theorem addShard_of_error {ix' : Index} {url : Str}
    (h : addShard A R pathColumn contentColumn .error ix url = .ok ix') (pol : DupPolicy) :
    addShard A R pathColumn contentColumn pol ix url = .ok ix' := by
  obtain ⟨shard, batches, st, hopen, hrun, hix'⟩ := addShard_eq_ok_iff.mp h
  exact addShard_eq_ok_iff.mpr ⟨shard, batches, st, hopen,
    Mirrors.foldlM_of_step (fun _ _ _ hbatch => addBatch_of_error hbatch pol) hrun, hix'⟩

/-- What opens under `error` opens under every policy, to the same index. -/
theorem buildIndex_of_error (h : buildIndex A R pathColumn contentColumn sources .error = .ok ix)
    (pol : DupPolicy) : buildIndex A R pathColumn contentColumn sources pol = .ok ix := by
  obtain ⟨urls, ix', hexpand, hrun, hix⟩ := buildIndex_eq_ok_iff.mp h
  exact buildIndex_eq_ok_iff.mpr ⟨urls, ix', hexpand,
    Mirrors.foldlM_of_step (fun _ _ _ hshard => addShard_of_error hshard pol) hrun, hix⟩

/-! ### Sources in another order -/

/-- Opening one source more is opening it by itself, and merging. -/
theorem buildIndex_cons_iff {s : Str} {pol : DupPolicy} :
    buildIndex A R pathColumn contentColumn (s :: sources) pol = .ok ix ↔
      ∃ ix₁ ix₂, buildIndex A R pathColumn contentColumn [s] pol = .ok ix₁ ∧
        buildIndex A R pathColumn contentColumn sources pol = .ok ix₂ ∧
        Compatible pol ix₁.files ix₂.files ∧ ix = ix₁.beside pol ix₂ := by
  rw [← buildIndex_append_iff, List.singleton_append]

/-- Indices that have no path in common can change places. -/
theorem buildIndex_swap {s t : Str}
    (h : buildIndex A R pathColumn contentColumn (s :: t :: sources) .error = .ok ix) :
    ∃ ix', buildIndex A R pathColumn contentColumn (t :: s :: sources) .error = .ok ix' ∧
      SameRows ix ix' := by
  obtain ⟨ixs, ix₁, hs, h₁, hcompat₁, rfl⟩ := buildIndex_cons_iff.mp h
  obtain ⟨ixt, ixl, ht, hl, hcompat, rfl⟩ := buildIndex_cons_iff.mp h₁
  have hkeys : ∀ {ix₁ ix₂ : Index} {k : Str}, k ∈ (ix₁.beside .error ix₂).files.keys ↔
      k ∈ ix₁.files.keys ∨ k ∈ ix₂.files.keys := mem_keys_mergeFiles
  have hins := inShards_of_buildIndex hs
  have hint := inShards_of_buildIndex ht
  -- no path is in two of the three
  have hst : ∀ k ∈ ixt.files.keys, k ∉ ixs.files.keys :=
    fun k hk => hcompat₁ rfl k (hkeys.mpr (Or.inl hk))
  have hsl : ∀ k ∈ ixl.files.keys, k ∉ ixs.files.keys :=
    fun k hk => hcompat₁ rfl k (hkeys.mpr (Or.inr hk))
  have hright : buildIndex A R pathColumn contentColumn (s :: sources) .error
      = .ok (ixs.beside .error ixl) :=
    buildIndex_cons_iff.mpr ⟨ixs, ixl, hs, hl, fun _ => hsl, rfl⟩
  refine ⟨ixt.beside .error (ixs.beside .error ixl), ?_, fun k => ?_, dirs_ext fun x => ?_⟩
  · refine buildIndex_cons_iff.mpr ⟨ixt, _, ht, hright, fun _ k hk hk' => ?_, rfl⟩
    rcases hkeys.mp hk with hks | hkl
    · exact hst k hk' hks
    · exact hcompat rfl k hkl hk'
  · rw [rowAt_beside hins, rowAt_beside hint, rowAt_beside hint, rowAt_beside hins]
    by_cases hk : k ∈ ixt.files.keys
    · have hnone : ixs.rowAt k = none := rowAt_eq_none_iff.mpr (hst k hk)
      simp [preferred, hnone]
    · have hnone : ixt.rowAt k = none := rowAt_eq_none_iff.mpr hk
      simp [preferred, hnone]
  · show x ∈ (ixs.dirs.overlay (ixt.dirs.overlay ixl.dirs)).keys ↔
      x ∈ (ixt.dirs.overlay (ixs.dirs.overlay ixl.dirs)).keys
    simp only [SortedMap.mem_keys_overlay]
    exact or_left_comm

theorem buildIndex_perm (hperm : sources.Perm sources')
    (h : buildIndex A R pathColumn contentColumn sources .error = .ok ix) :
    ∃ ix', buildIndex A R pathColumn contentColumn sources' .error = .ok ix' ∧
      SameRows ix ix' := by
  induction hperm generalizing ix with
  | nil => exact ⟨ix, h, SameRows.refl ix⟩
  | @cons s l l' _ ih =>
    obtain ⟨ix₁, ix₂, h₁, h₂, hcompat, rfl⟩ := buildIndex_cons_iff.mp h
    obtain ⟨ix₂', h₂', hsame⟩ := ih h₂
    refine ⟨ix₁.beside .error ix₂', ?_, ?_⟩
    · refine buildIndex_cons_iff.mpr ⟨ix₁, ix₂', h₁, h₂', fun herror k hk => ?_, rfl⟩
      exact hcompat herror k (hsame.mem_keys.mpr hk)
    · exact (SameRows.refl ix₁).beside (inShards_of_buildIndex h₁) (inShards_of_buildIndex h₁) hsame
  | swap s t l => exact buildIndex_swap h
  | trans _ _ ih ih' =>
    obtain ⟨ix₁, h₁, hsame⟩ := ih h
    obtain ⟨ix₂, h₂, hsame'⟩ := ih' h₁
    exact ⟨ix₂, h₂, hsame.trans hsame'⟩

/-- **Sources that open under `error` open in every order and under every policy**, and the
results cannot be told apart. -/
theorem sources_perm (hperm : sources.Perm sources')
    (h : buildIndex A R pathColumn contentColumn sources .error = .ok ix) (pol : DupPolicy) :
    ∃ ix', buildIndex A R pathColumn contentColumn sources' pol = .ok ix' ∧
      Index.Agrees R ix ix' := by
  obtain ⟨ix', h', hsame⟩ := buildIndex_perm hperm h
  exact ⟨ix', buildIndex_of_error h' pol, hsame.agrees⟩

theorem buildIndex_reverse (hopen : ∀ s ∈ sources, ∃ ix,
      buildIndex A R pathColumn contentColumn [s] .error = .ok ix) :
    ∃ ix ix', buildIndex A R pathColumn contentColumn sources .last = .ok ix ∧
      buildIndex A R pathColumn contentColumn sources.reverse .first = .ok ix' ∧
      SameRows ix ix' := by
  induction sources with
  | nil => exact ⟨_, _, rfl, rfl, SameRows.refl _⟩
  | cons s sources ih =>
    rw [List.forall_mem_cons] at hopen
    obtain ⟨⟨ixs, hs⟩, hrest⟩ := hopen
    obtain ⟨ix, ix', h, h', hsame⟩ := ih hrest
    have hnever : ∀ {pol : DupPolicy} {files files' : SortedMap Str FileEntry},
        pol ≠ .error → Compatible pol files files' := fun hne herror => absurd herror hne
    have hlast := buildIndex_of_error hs .last
    refine ⟨ixs.beside .last ix, ix'.beside .first ixs, ?_, ?_, ?_⟩
    · exact buildIndex_cons_iff.mpr ⟨ixs, ix, hlast, h, hnever (by simp), rfl⟩
    · rw [List.reverse_cons]
      have hfirst := buildIndex_of_error hs .first
      exact buildIndex_append_iff.mpr ⟨ix', ixs, h', hfirst, hnever (by simp), rfl⟩
    · exact (SameRows.refl ixs).beside_reverse (inShards_of_buildIndex hlast)
        (inShards_of_buildIndex h') hsame

/-- **`last` is `first` with the sources in reverse**, of sources without duplicates in
themselves. -/
theorem last_reverse (hopen : ∀ s ∈ sources, ∃ ix,
      buildIndex A R pathColumn contentColumn [s] .error = .ok ix) :
    ∃ ix ix', buildIndex A R pathColumn contentColumn sources .last = .ok ix ∧
      buildIndex A R pathColumn contentColumn sources.reverse .first = .ok ix' ∧
      Index.Agrees R ix ix' := by
  obtain ⟨ix, ix', h, h', hsame⟩ := buildIndex_reverse hopen
  exact ⟨ix, ix', h, h', hsame.agrees⟩

end Sources

/-! ### Two shards in both orders -/

/-- A directory with the first of the sample shards, and one that has no path of it. -/
def apartFiles : FileSystem Str UInt8 :=
  shardFiles.put "q".toList
    (plainWriter.fileBytes packSchema .zstd [[("b/c".toList, [4]), ("b/d".toList, [])]])

def apartAdapters : Adapters :=
  let os : Os := ⟨fun _ _ => .ok [], fun _ => 0, fun _ => []⟩
  ⟨fun _ => none, localAdapter os apartFiles, localAdapter os apartFiles⟩

theorem sources_perm_sample :
    ∃ ix ix', buildIndex apartAdapters plainReader none none ["o".toList, "q".toList] .error
        = .ok ix ∧
      buildIndex apartAdapters plainReader none none ["q".toList, "o".toList] .last = .ok ix' ∧
      Index.Agrees plainReader ix ix' := by
  have hbuild : ∃ ix, buildIndex apartAdapters plainReader none none ["o".toList, "q".toList]
      .error = .ok ix := ⟨_, rfl⟩
  obtain ⟨ix, hix⟩ := hbuild
  obtain ⟨ix', hix', hagrees⟩ := sources_perm (.swap "q".toList "o".toList []) hix .last
  exact ⟨ix, ix', hix, hix', hagrees⟩

theorem last_reverse_sample :
    ∃ ix ix', buildIndex shardAdapters plainReader none none ["o".toList, "p".toList] .last
        = .ok ix ∧
      buildIndex shardAdapters plainReader none none ["p".toList, "o".toList] .first = .ok ix' ∧
      Index.Agrees plainReader ix ix' := by
  have hopen : ∀ s ∈ ["o".toList, "p".toList], ∃ ix,
      buildIndex shardAdapters plainReader none none [s] .error = .ok ix := by
    intro s hs
    rcases List.mem_pair.mp hs with rfl | rfl
    · exact ⟨_, rfl⟩
    · exact ⟨_, rfl⟩
  exact last_reverse hopen

end ParquetFileFs
