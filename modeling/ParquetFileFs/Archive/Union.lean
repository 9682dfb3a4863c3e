import ParquetFileFs.Archive.Safety
import ParquetFileFs.Lib.Mirror

/-!
# Opening several lists of sources together

Opening two lists of sources one after the other, and opening the list that is
made of both, give the same files: the index of the whole is the one index laid
over the other, as the policy says, with the shards of the second after those of
the first.

## Main definitions

* `mergeFiles`, `Compatible` — one table of files over another, and the tables
  that can be merged.
* `Index.beside` — two indices as one.

## Main results

* `buildIndex_append_iff` — **opening all sources is opening both lists, and
  merging.**
* `freshCall_union` — **every file reads as in the index that it comes from.**
-/

namespace ParquetFileFs

open Cumulative

/-! ### Tables of files -/

/-- The place, `n` shards further on. -/
def FileEntry.shift (n : ℕ) (entry : FileEntry) : FileEntry :=
  ⟨{ entry.loc with shard := n + entry.loc.shard }⟩

theorem FileEntry.shift_mk (n shard rowGroup row : ℕ) :
    FileEntry.shift n ⟨⟨shard, rowGroup, row⟩⟩ = ⟨⟨n + shard, rowGroup, row⟩⟩ := rfl

/-- The files of the first `n` shards and of those after them: for a path of both,
the policy says which entry stays. -/
def mergeFiles (pol : DupPolicy) (n : ℕ) (files files' : SortedMap Str FileEntry) :
    SortedMap Str FileEntry :=
  match pol with
  | .last => files.overlay (files'.mapVals (FileEntry.shift n))
  | _ => (files'.mapVals (FileEntry.shift n)).overlay files

/-- No path is in both tables where that is an error. -/
def Compatible (pol : DupPolicy) (files files' : SortedMap Str FileEntry) : Prop :=
  pol = .error → ∀ k ∈ files'.keys, k ∉ files.keys

/-- Two indices as one. -/
def Index.beside (pol : DupPolicy) (ix ix' : Index) : Index where
  shards := ix.shards ++ ix'.shards
  files := mergeFiles pol ix.shards.length ix.files ix'.files
  dirs := ix.dirs.overlay ix'.dirs

section Merge

variable {pol : DupPolicy} {n : ℕ} {files files' : SortedMap Str FileEntry} {k norm : Str}
  {entry : FileEntry} {shards shards' : List Shard} {url : Str}

theorem find?_mergeFiles_last : (mergeFiles .last n files files').find? k
    = ((files'.find? k).map (FileEntry.shift n)).or (files.find? k) := by
  rw [mergeFiles, SortedMap.find?_overlay, SortedMap.find?_mapVals]

theorem find?_mergeFiles (h : pol ≠ .last) : (mergeFiles pol n files files').find? k
    = (files.find? k).or ((files'.find? k).map (FileEntry.shift n)) := by
  cases pol with
  | last => exact absurd rfl h
  | first => simp only [mergeFiles, SortedMap.find?_overlay, SortedMap.find?_mapVals]
  | error => simp only [mergeFiles, SortedMap.find?_overlay, SortedMap.find?_mapVals]

theorem mem_keys_mergeFiles :
    k ∈ (mergeFiles pol n files files').keys ↔ k ∈ files.keys ∨ k ∈ files'.keys := by
  cases pol with
  | last => simp only [mergeFiles, SortedMap.mem_keys_overlay, SortedMap.mem_keys_mapVals]
  | first =>
    simp only [mergeFiles, SortedMap.mem_keys_overlay, SortedMap.mem_keys_mapVals, or_comm]
  | error =>
    simp only [mergeFiles, SortedMap.mem_keys_overlay, SortedMap.mem_keys_mapVals, or_comm]

theorem notMem_keys_iff : k ∉ files.keys ↔ files.find? k = none := by
  rw [← SortedMap.contains_iff_mem_keys, SortedMap.contains, Option.not_isSome_iff_eq_none]

/-- Where a new entry stays, it does so in the merged table. -/
theorem mergeFiles_insert (h : pol = .last ∨ files.find? norm = none) :
    mergeFiles pol n files (files'.insert norm entry)
      = (mergeFiles pol n files files').insert norm (entry.shift n) := by
  refine SortedMap.ext_find? fun k => ?_
  by_cases hlast : pol = .last
  · subst hlast
    rw [SortedMap.find?_insert, find?_mergeFiles_last, find?_mergeFiles_last,
      SortedMap.find?_insert]
    split <;> rfl
  · rw [SortedMap.find?_insert, find?_mergeFiles hlast, find?_mergeFiles hlast,
      SortedMap.find?_insert]
    split
    · next hk =>
      rw [hk, h.resolve_left hlast]
      rfl
    · rfl

/-- An entry that does not count changes nothing in the merged table. -/
theorem mergeFiles_insert_first (h : files.find? norm ≠ none) :
    mergeFiles .first n files (files'.insert norm entry) = mergeFiles .first n files files' := by
  refine SortedMap.ext_find? fun k => ?_
  rw [find?_mergeFiles (by simp), find?_mergeFiles (by simp), SortedMap.find?_insert]
  split
  · next hk =>
    obtain ⟨old, hold⟩ := Option.ne_none_iff_exists'.mp h
    rw [hk, hold]
    rfl
  · rfl

/-! ### Recording one entry -/

theorem map_eq_ok_iff {ε α β : Type} {x : Except ε α} {f : α → β} {b : β} :
    x.map f = .ok b ↔ ∃ a, x = .ok a ∧ f a = b := by
  cases x with
  | error e => simp [Except.map]
  | ok a => simp [Except.map]

theorem addEntry_error_iff {files₁ : SortedMap Str FileEntry} :
    addEntry .error shards url files norm entry = .ok files₁ ↔
      files.find? norm = none ∧ files₁ = files.insert norm entry := by
  unfold addEntry
  cases files.find? norm with
  | none => simp [eq_comm]
  | some old =>
    dsimp only
    split <;> simp

theorem addEntry_first : addEntry .first shards url files norm entry
    = .ok (if files.find? norm = none then files.insert norm entry else files) := by
  unfold addEntry
  cases files.find? norm <;> simp

theorem addEntry_last :
    addEntry .last shards url files norm entry = .ok (files.insert norm entry) := by
  unfold addEntry
  cases files.find? norm <;> rfl

/-- **An entry is recorded in the merged table as it is in the second one.** -/
theorem addEntry_merge_iff (hcompat : Compatible pol files files')
    {merged : SortedMap Str FileEntry} :
    addEntry pol (shards ++ shards') url (mergeFiles pol n files files') norm (entry.shift n)
        = .ok merged ↔
      ∃ files₁, addEntry pol shards' url files' norm entry = .ok files₁ ∧
        Compatible pol files files₁ ∧ mergeFiles pol n files files₁ = merged := by
  cases pol with
  | last =>
    rw [addEntry_last, addEntry_last, ← mergeFiles_insert (Or.inl rfl)]
    simp [Compatible]
  | first =>
    rw [addEntry_first, addEntry_first, find?_mergeFiles (by simp)]
    cases hfiles : files.find? norm with
    | none =>
      cases hfiles' : files'.find? norm with
      | none =>
        simp only [Option.map_none, Option.or_none, if_pos, ← mergeFiles_insert (Or.inr hfiles)]
        simp [Compatible]
      | some old => simp [Compatible]
    | some old =>
      have hne : files.find? norm ≠ none := by simp [hfiles]
      cases hfiles' : files'.find? norm with
      | none => simp [Compatible, mergeFiles_insert_first hne]
      | some old' => simp [Compatible]
  | error =>
    rw [addEntry_error_iff, find?_mergeFiles (by simp), Option.or_eq_none_iff,
      Option.map_eq_none_iff]
    have hcompat := hcompat rfl
    constructor
    · intro ⟨⟨hfiles, hfiles'⟩, hmerged⟩
      refine ⟨_, addEntry_error_iff.mpr ⟨hfiles', rfl⟩, fun _ k hk => ?_, ?_⟩
      · rcases SortedMap.mem_keys_insert.mp hk with rfl | hk
        · exact notMem_keys_iff.mpr hfiles
        · exact hcompat k hk
      · rw [mergeFiles_insert (Or.inr hfiles), hmerged]
    · intro ⟨files₁, hadd, hnew, hmerged⟩
      obtain ⟨hfiles', rfl⟩ := addEntry_error_iff.mp hadd
      have hfiles : files.find? norm = none :=
        notMem_keys_iff.mp (hnew rfl norm (SortedMap.mem_keys_insert.mpr (Or.inl rfl)))
      exact ⟨⟨hfiles, hfiles'⟩, by rw [← hmerged, mergeFiles_insert (Or.inr hfiles)]⟩

/-- Recording only adds paths. -/
theorem keys_addEntry {files₁ : SortedMap Str FileEntry}
    (h : addEntry pol shards url files norm entry = .ok files₁) (hk : k ∈ files.keys) :
    k ∈ files₁.keys := by
  cases pol with
  | last =>
    rw [addEntry_last] at h
    cases h
    exact SortedMap.mem_keys_insert.mpr (Or.inr hk)
  | first =>
    rw [addEntry_first] at h
    cases h
    split
    · exact SortedMap.mem_keys_insert.mpr (Or.inr hk)
    · exact hk
  | error =>
    obtain ⟨-, rfl⟩ := addEntry_error_iff.mp h
    exact SortedMap.mem_keys_insert.mpr (Or.inr hk)

/-! ### Rows, batches and shards -/

/-- Rows are recorded in the merged table as they are in the second one. -/
theorem mirrors_addRow (shardId : ℕ) (offs : List ℕ) :
    Mirrors (addRow pol (shards ++ shards') url (n + shardId) offs)
      (addRow pol shards' url shardId offs)
      (fun st => (st.1, mergeFiles pol n files st.2)) (fun st => Compatible pol files st.2) where
  step st raw res hst := by
    obtain ⟨count, table⟩ := st
    unfold addRow
    dsimp only
    cases locate offs count with
    | none => simp
    | some place =>
      dsimp only
      split
      · simp
      · -- the entry of the merged table is the shifted one of the second table
        have hentry : ∀ merged, addEntry pol (shards ++ shards') url
            (mergeFiles pol n files table) (normalize raw) ⟨⟨n + shardId, place.1, place.2⟩⟩
              = .ok merged ↔
            ∃ files₁, addEntry pol shards' url table (normalize raw)
                ⟨⟨shardId, place.1, place.2⟩⟩ = .ok files₁ ∧
              Compatible pol files files₁ ∧ mergeFiles pol n files files₁ = merged := by
          intro merged
          rw [← FileEntry.shift_mk]
          exact addEntry_merge_iff hst
        simp only [map_eq_ok_iff, hentry]
        constructor
        · intro ⟨merged, ⟨files₁, hadd, hnew, hmerged⟩, hres⟩
          exact ⟨_, ⟨files₁, hadd, rfl⟩, hnew, hmerged ▸ hres⟩
        · intro ⟨st', ⟨files₁, hadd, hst'⟩, hnew, hres⟩
          subst hst'
          exact ⟨_, ⟨files₁, hadd, hnew, rfl⟩, hres⟩
  back st raw st' hst' hnew := by
    obtain ⟨count, table⟩ := st
    intro hpol k hk hfiles
    unfold addRow at hst'
    split at hst'
    · cases hst'
    split at hst'
    · cases hst'
    obtain ⟨files₁, hadd, rfl⟩ := map_eq_ok_iff.mp hst'
    exact hnew hpol k (keys_addEntry hadd hk) hfiles

/-- So are batches of rows. -/
theorem mirrors_addBatch (shardId : ℕ) (offs : List ℕ) :
    Mirrors (addBatch pol (shards ++ shards') url (n + shardId) offs)
      (addBatch pol shards' url shardId offs)
      (fun st => (st.1, mergeFiles pol n files st.2)) (fun st => Compatible pol files st.2) := by
  have hrow : Mirrors (addRow pol (shards ++ shards') url (n + shardId) offs)
      (addRow pol shards' url shardId offs)
      (fun st => (st.1, mergeFiles pol n files st.2)) (fun st => Compatible pol files st.2) :=
    mirrors_addRow shardId offs
  have hrows := hrow.foldlM
  constructor
  · intro st batch res hst
    unfold addBatch
    split
    · simp
    · simp
    · split
      · simp
      · exact hrows.step st _ res hst
  · intro st batch st' hst' hnew
    unfold addBatch at hst'
    split at hst'
    · cases hst'
    · cases hst'
    · split at hst'
      · cases hst'
      · exact hrows.back st _ st' hst' hnew

variable {A : Adapters} {R : ParquetReader} {pathColumn contentColumn : Option Str}

/-- What adding a shard does. -/
theorem addShard_eq_ok_iff {ix ix' : Index} :
    addShard A R pathColumn contentColumn pol ix url = .ok ix' ↔
      ∃ shard batches st, openShard A R pathColumn contentColumn url = .ok (shard, batches) ∧
        batches.foldlM (addBatch pol (ix.shards ++ [shard]) url ix.shards.length
          shard.rowGroupOffsets) (0, ix.files) = .ok st ∧
        ix' = ⟨ix.shards ++ [shard], st.2, ix.dirs⟩ := by
  unfold addShard
  simp only [Mirrors.bind_eq_ok_iff]
  constructor
  · intro ⟨⟨shard, batches⟩, hopen, st, hrun, hix'⟩
    cases hix'
    exact ⟨shard, batches, st, openShard_of_lift hopen, hrun, rfl⟩
  · intro ⟨shard, batches, st, hopen, hrun, hix'⟩
    subst hix'
    refine ⟨⟨shard, batches⟩, ?_, st, hrun, rfl⟩
    rw [hopen, lift_ok]

/-- **Shards are added to the index beside another one as they are to it alone.** -/
theorem mirrors_addShard (ix : Index) :
    Mirrors (addShard A R pathColumn contentColumn pol) (addShard A R pathColumn contentColumn pol)
      (Index.beside pol ix) (fun ix' => Compatible pol ix.files ix'.files) := by
  have hbatches : ∀ (shards' : List Shard) url shardId offs, Mirrors
      (fun st (batches : List _) => batches.foldlM
        (addBatch pol (ix.shards ++ shards') url (ix.shards.length + shardId) offs) st)
      (fun st batches => batches.foldlM (addBatch pol shards' url shardId offs) st)
      (fun st => (st.1, mergeFiles pol ix.shards.length ix.files st.2))
      (fun st => Compatible pol ix.files st.2) :=
    fun shards' url shardId offs => (mirrors_addBatch shardId offs).foldlM
  constructor
  · intro ix' url res hix'
    simp only [addShard_eq_ok_iff]
    have hlen : (Index.beside pol ix ix').shards.length = ix.shards.length + ix'.shards.length :=
      List.length_append
    have happend : ∀ shard, (Index.beside pol ix ix').shards ++ [shard]
        = ix.shards ++ (ix'.shards ++ [shard]) := fun shard => List.append_assoc _ _ _
    simp only [hlen, happend]
    constructor
    · intro ⟨shard, batches, st, hopen, hrun, hres⟩
      obtain ⟨st', hrun', hnew, hst⟩ := ((hbatches _ _ _ _).step (0, ix'.files) _ _ hix').mp hrun
      refine ⟨_, ⟨shard, batches, st', hopen, hrun', rfl⟩, hnew, ?_⟩
      rw [hres, ← hst]
      rfl
    · intro ⟨_, ⟨shard, batches, st', hopen, hrun', hix''⟩, hnew, hres⟩
      subst hix''
      refine ⟨shard, batches, _, hopen, ((hbatches _ _ _ _).step (0, ix'.files) _ _ hix').mpr
        ⟨st', hrun', hnew, rfl⟩, ?_⟩
      rw [← hres]
      rfl
  · intro ix' url ix'' hix'' hnew
    obtain ⟨shard, batches, st, -, hrun, rfl⟩ := addShard_eq_ok_iff.mp hix''
    exact (hbatches _ _ _ _).back (0, ix'.files) batches st hrun hnew

end Merge

/-! ### All sources -/

section Sources

variable {A : Adapters} {R : ParquetReader} {pathColumn contentColumn : Option Str}
  {pol : DupPolicy} {sources sources' : List Str} {ix : Index}

theorem lift_eq_ok_iff {α : Type} {x : Except FsError α} {a : α} :
    lift x = .ok a ↔ x = .ok a := by
  cases x <;> simp

/-- The URLs of one more source. -/
def expandSource (A : Adapters) (urls : List Str) (s : Str) : Except FsError (List Str) := do
  let adapter ← resolve A s
  let expanded ← adapter.list s
  if expanded = [] then
    .error (.schema ("no shards matched '".toList ++ s ++ "'".toList))
  else .ok (urls ++ expanded)

theorem expandSources_eq : expandSources A sources = sources.foldlM (expandSource A) [] := rfl

theorem expandSource_eq_ok_iff {urls urls' : List Str} {s : Str} :
    expandSource A urls s = .ok urls' ↔ ∃ adapter expanded, resolve A s = .ok adapter ∧
      adapter.list s = .ok expanded ∧ expanded ≠ [] ∧ urls' = urls ++ expanded := by
  unfold expandSource
  simp only [Mirrors.bind_eq_ok_iff]
  constructor
  · intro ⟨adapter, hresolve, expanded, hlist, hres⟩
    split at hres
    · cases hres
    · next hne =>
      cases hres
      exact ⟨adapter, expanded, hresolve, hlist, hne, rfl⟩
  · intro ⟨adapter, expanded, hresolve, hlist, hne, hurls'⟩
    exact ⟨adapter, hresolve, expanded, hlist, by rw [if_neg hne, hurls']⟩

/-- URLs are appended to whatever there is. -/
theorem mirrors_expandSource (urls₁ : List Str) :
    Mirrors (expandSource A) (expandSource A) (urls₁ ++ ·) (fun _ => True) := by
  refine ⟨fun urls s res _ => ?_, fun _ _ _ _ _ => trivial⟩
  simp only [expandSource_eq_ok_iff, true_and]
  constructor
  · intro ⟨adapter, expanded, hresolve, hlist, hne, hres⟩
    exact ⟨urls ++ expanded, ⟨adapter, expanded, hresolve, hlist, hne, rfl⟩,
      by rw [hres, List.append_assoc]⟩
  · intro ⟨urls', ⟨adapter, expanded, hresolve, hlist, hne, hurls'⟩, hres⟩
    exact ⟨adapter, expanded, hresolve, hlist, hne, by rw [← hres, hurls', List.append_assoc]⟩

/-- The URLs of two lists of sources are those of the one, then those of the other. -/
theorem expandSources_append_iff {urls : List Str} :
    expandSources A (sources ++ sources') = .ok urls ↔
      ∃ urls₁ urls₂, expandSources A sources = .ok urls₁ ∧ expandSources A sources' = .ok urls₂ ∧
        urls = urls₁ ++ urls₂ := by
  simp only [expandSources_eq]
  rw [List.foldlM_append, Mirrors.bind_eq_ok_iff]
  refine exists_congr fun urls₁ => ?_
  have hrun := (mirrors_expandSource (A := A) urls₁).foldlM.step [] sources' urls trivial
  simp only [List.append_nil, true_and] at hrun
  rw [hrun]
  constructor
  · intro ⟨h₁, urls₂, h₂, hurls⟩
    exact ⟨urls₂, h₁, h₂, hurls.symm⟩
  · intro ⟨urls₂, h₁, h₂, hurls⟩
    exact ⟨h₁, urls₂, h₂, hurls.symm⟩

theorem Index.beside_empty : ix.beside pol Index.empty = ix := by
  have hfiles : mergeFiles pol ix.shards.length ix.files SortedMap.empty = ix.files := by
    refine SortedMap.ext_find? fun k => ?_
    cases pol with
    | last => simp [find?_mergeFiles_last]
    | first => simp [find?_mergeFiles]
    | error => simp [find?_mergeFiles]
  have hdirs : ix.dirs.overlay SortedMap.empty = ix.dirs :=
    SortedMap.ext_find? fun k => by simp [SortedMap.find?_overlay]
  obtain ⟨shards, files, dirs⟩ := ix
  simp only [Index.beside, Index.empty, List.append_nil] at *
  rw [hfiles, hdirs]

theorem buildIndex_eq_ok_iff :
    buildIndex A R pathColumn contentColumn sources pol = .ok ix ↔
      ∃ urls ix', expandSources A sources = .ok urls ∧
        urls.foldlM (addShard A R pathColumn contentColumn pol) Index.empty = .ok ix' ∧
        ix = { ix' with dirs := collectDirs ix'.files.keys } := by
  unfold buildIndex
  simp only [Mirrors.bind_eq_ok_iff]
  constructor
  · intro ⟨urls, hurls, ix', hrun, hix⟩
    cases hix
    exact ⟨urls, ix', lift_eq_ok_iff.mp hurls, hrun, rfl⟩
  · intro ⟨urls, ix', hurls, hrun, hix⟩
    exact ⟨urls, lift_eq_ok_iff.mpr hurls, ix', hrun, congrArg Except.ok hix.symm⟩

/-- The directories above the files of both are those above the files of either. -/
theorem collectDirs_mergeFiles {n : ℕ} {files files' : SortedMap Str FileEntry} :
    collectDirs (mergeFiles pol n files files').keys
      = (collectDirs files.keys).overlay (collectDirs files'.keys) := by
  refine dirs_ext fun x => ?_
  simp only [SortedMap.mem_keys_overlay, mem_collectDirs, mem_keys_mergeFiles, or_and_right,
    exists_or]

/-- **Opening all sources is opening both lists, and merging.** -/
theorem buildIndex_append_iff :
    buildIndex A R pathColumn contentColumn (sources ++ sources') pol = .ok ix ↔
      ∃ ix₁ ix₂, buildIndex A R pathColumn contentColumn sources pol = .ok ix₁ ∧
        buildIndex A R pathColumn contentColumn sources' pol = .ok ix₂ ∧
        Compatible pol ix₁.files ix₂.files ∧ ix = ix₁.beside pol ix₂ := by
  -- shards are added to what the first sources gave, as they are to the empty index
  have hsecond : ∀ (ix₁ : Index) (urls : List Str) ix',
      urls.foldlM (addShard A R pathColumn contentColumn pol) ix₁ = .ok ix' ↔
        ∃ ix₂, urls.foldlM (addShard A R pathColumn contentColumn pol) Index.empty = .ok ix₂ ∧
          Compatible pol ix₁.files ix₂.files ∧ ix₁.beside pol ix₂ = ix' := by
    intro ix₁ urls ix'
    have hmirrors : Mirrors (addShard A R pathColumn contentColumn pol)
      (addShard A R pathColumn contentColumn pol) (Index.beside pol ix₁) _ := mirrors_addShard ix₁
    have hrun := hmirrors.foldlM.step Index.empty urls ix' fun _ k hk => by cases hk
    rwa [Index.beside_empty] at hrun
  have hdirs : ∀ ix₁ ix₂ : Index, { ix₁.beside pol ix₂ with
        dirs := collectDirs (ix₁.beside pol ix₂).files.keys }
      = Index.beside pol { ix₁ with dirs := collectDirs ix₁.files.keys }
          { ix₂ with dirs := collectDirs ix₂.files.keys } := by
    intro ix₁ ix₂
    simp only [Index.beside, collectDirs_mergeFiles]
  simp only [buildIndex_eq_ok_iff, expandSources_append_iff]
  constructor
  · intro ⟨urls, ix', ⟨urls₁, urls₂, h₁, h₂, hurls⟩, hrun, hix⟩
    subst hurls
    rw [List.foldlM_append] at hrun
    obtain ⟨ix₁, hrun₁, hrun⟩ := Mirrors.bind_eq_ok_iff.mp hrun
    obtain ⟨ix₂, hrun₂, hcompat, rfl⟩ := (hsecond ix₁ urls₂ ix').mp hrun
    exact ⟨_, _, ⟨urls₁, ix₁, h₁, hrun₁, rfl⟩, ⟨urls₂, ix₂, h₂, hrun₂, rfl⟩, hcompat,
      hix.trans (hdirs ix₁ ix₂)⟩
  · intro ⟨_, _, ⟨urls₁, ix₁, h₁, hrun₁, hix₁⟩, ⟨urls₂, ix₂, h₂, hrun₂, hix₂⟩, hcompat, hix⟩
    subst hix₁ hix₂
    refine ⟨urls₁ ++ urls₂, _, ⟨urls₁, urls₂, h₁, h₂, rfl⟩, ?_, hix.trans (hdirs ix₁ ix₂).symm⟩
    rw [List.foldlM_append]
    exact Mirrors.bind_eq_ok_iff.mpr ⟨ix₁, hrun₁, (hsecond ix₁ urls₂ _).mpr
      ⟨ix₂, hrun₂, hcompat, rfl⟩⟩

end Sources

/-! ### Reading -/

section Reading

variable {A : Adapters} {R : ParquetReader} {pathColumn contentColumn : Option Str}
  {pol : DupPolicy} {sources sources' : List Str} {ix ix' ix₁ ix₂ : Index} {loc loc' : RowLoc}

/-- Both places are the same row of the same shard. -/
structure SameRow (ix : Index) (loc : RowLoc) (ix' : Index) (loc' : RowLoc) : Prop where
  shard : ix.shards[loc.shard]? = ix'.shards[loc'.shard]?
  rowGroup : loc.rowGroup = loc'.rowGroup
  row : loc.row = loc'.row

theorem SameRow.refl (ix : Index) (loc : RowLoc) : SameRow ix loc ix loc := ⟨rfl, rfl, rfl⟩

theorem SameRow.readRgColumns (h : SameRow ix loc ix' loc') (cols : List ℕ) :
    readRgColumns R ix loc.shard loc.rowGroup cols
      = readRgColumns R ix' loc'.shard loc'.rowGroup cols := by
  rw [ParquetFileFs.readRgColumns, ParquetFileFs.readRgColumns, h.shard, h.rowGroup]

theorem SameRow.decodeChunk (h : SameRow ix loc ix' loc') :
    decodeChunk R ix (loc.shard, loc.rowGroup) = decodeChunk R ix' (loc'.shard, loc'.rowGroup) := by
  simp only [ParquetFileFs.decodeChunk, h.shard, h.readRgColumns]

theorem SameRow.decodeDetail (h : SameRow ix loc ix' loc') :
    decodeDetail R ix (loc.shard, loc.rowGroup)
      = decodeDetail R ix' (loc'.shard, loc'.rowGroup) := by
  rw [ParquetFileFs.decodeDetail, ParquetFileFs.decodeDetail, h.decodeChunk]
  congr 1
  funext content
  simp only [detailOf, h.shard, h.readRgColumns]

/-- Both indices answer alike for a path. -/
structure SameAnswers (R : ParquetReader) (ix ix' : Index) (path : Str) : Prop where
  read : directRead R ix path = directRead R ix' path
  info : directInfo R ix path = directInfo R ix' path

/-- They do where the path has the same row. -/
theorem sameAnswers_of_row {path : Str} {entry entry' : FileEntry}
    (h : ix.files.find? (normalize path) = some entry)
    (h' : ix'.files.find? (normalize path) = some entry')
    (hsame : SameRow ix entry.loc ix' entry'.loc) : SameAnswers R ix ix' path := by
  constructor
  · simp only [directRead, h, h', hsame.decodeChunk, hsame.row]
  · simp only [directInfo, h, h', hsame.decodeDetail, hsame.row]

/-- Where the path is no file, they do if the same is a directory. -/
theorem sameAnswers_of_isDir {path : Str} (h : ix.files.find? (normalize path) = none)
    (h' : ix'.files.find? (normalize path) = none)
    (hdir : ix.isDir (normalize path) = ix'.isDir (normalize path)) :
    SameAnswers R ix ix' path := by
  constructor
  · simp only [directRead, h, h']
  · simp only [directInfo, h, h', hdir]

def Request.path : Request → Str
  | .read path => path
  | .info path => path

theorem SameAnswers.directCall {q : Request} (h : SameAnswers R ix ix' q.path) :
    directCall R ix q = directCall R ix' q := by
  cases q with
  | read path =>
    have hread := h.read
    simp only [Request.path] at hread
    simp only [ParquetFileFs.directCall, hread]
  | info path =>
    have hinfo := h.info
    simp only [Request.path] at hinfo
    simp only [ParquetFileFs.directCall, hinfo]

/-- Whether a canonical path is taken from the second of two indices: a file of
both where the last one counts, and what only the second has. -/
def Index.fromSecond (pol : DupPolicy) (ix₁ ix₂ : Index) (norm : Str) : Bool :=
  if ix₁.files.contains norm then pol = .last ∧ ix₂.files.contains norm
  else ix₂.files.contains norm ∨ ix₂.isDir norm

theorem inShards_of_buildIndex
    (h : buildIndex A R pathColumn contentColumn sources pol = .ok ix) :
    InShards ix.shards.length ix.files := by
  intro k entry hentry
  obtain ⟨shard, md, pathIdx, batches, hshard, -⟩ := located_of_buildIndex h k entry hentry
  exact (List.getElem?_eq_some_iff.mp hshard).1

theorem sameRow_first (h : loc.shard < ix₁.shards.length) :
    SameRow (ix₁.beside pol ix₂) loc ix₁ loc :=
  ⟨List.getElem?_append_left h, rfl, rfl⟩

theorem sameRow_second (entry : FileEntry) :
    SameRow (ix₁.beside pol ix₂) (entry.shift ix₁.shards.length).loc ix₂ entry.loc := by
  refine ⟨?_, rfl, rfl⟩
  change (ix₁.shards ++ ix₂.shards)[ix₁.shards.length + entry.loc.shard]? = _
  rw [List.getElem?_append_right (by omega), Nat.add_sub_cancel_left]

theorem isDir_beside (norm : Str) :
    (ix₁.beside pol ix₂).isDir norm = (ix₁.isDir norm || ix₂.isDir norm) := by
  rw [Bool.eq_iff_iff]
  simp only [Index.isDir, Index.beside, SortedMap.contains_iff_mem_keys,
    SortedMap.mem_keys_overlay, decide_eq_true_eq, Bool.or_eq_true]
  tauto

/-- The entry of a path is that of the index the path is taken from. -/
theorem find?_beside (norm : Str) : (ix₁.beside pol ix₂).files.find? norm
    = if ix₁.fromSecond pol ix₂ norm then
        (ix₂.files.find? norm).map (FileEntry.shift ix₁.shards.length)
      else ix₁.files.find? norm := by
  have hfiles : (ix₁.beside pol ix₂).files
      = mergeFiles pol ix₁.shards.length ix₁.files ix₂.files := rfl
  rw [hfiles]
  by_cases hlast : pol = .last
  · subst hlast
    rw [find?_mergeFiles_last]
    cases h₁ : ix₁.files.find? norm <;> cases h₂ : ix₂.files.find? norm <;>
      simp [Index.fromSecond, SortedMap.contains, h₁, h₂]
  · rw [find?_mergeFiles hlast]
    cases h₁ : ix₁.files.find? norm <;> cases h₂ : ix₂.files.find? norm <;>
      simp [Index.fromSecond, SortedMap.contains, h₁, h₂, hlast]

/-- **Every path is answered as in the index it is taken from.** -/
theorem sameAnswers_beside (h : InShards ix₁.shards.length ix₁.files) (path : Str) :
    SameAnswers R (ix₁.beside pol ix₂)
      (if ix₁.fromSecond pol ix₂ (normalize path) then ix₂ else ix₁) path := by
  have hfind : (ix₁.beside pol ix₂).files.find? (normalize path) = _ := find?_beside _
  cases htaken : ix₁.fromSecond pol ix₂ (normalize path) with
  | true =>
    rw [htaken, if_pos rfl] at hfind
    rw [if_pos rfl]
    cases h₂ : ix₂.files.find? (normalize path) with
    | some entry =>
      rw [h₂] at hfind
      exact sameAnswers_of_row hfind h₂ (sameRow_second entry)
    | none =>
      -- then it is a directory of the second one
      rw [h₂] at hfind
      refine sameAnswers_of_isDir hfind h₂ ?_
      have hdir : ix₂.isDir (normalize path) = true := by
        cases h₁ : ix₁.files.find? (normalize path) <;>
          simp [Index.fromSecond, SortedMap.contains, h₁, h₂] at htaken
        exact htaken
      rw [isDir_beside, hdir, Bool.or_true]
  | false =>
    rw [htaken, if_neg Bool.false_ne_true] at hfind
    rw [if_neg Bool.false_ne_true]
    cases h₁ : ix₁.files.find? (normalize path) with
    | some entry =>
      rw [h₁] at hfind
      exact sameAnswers_of_row hfind h₁ (sameRow_first (h _ _ h₁))
    | none =>
      rw [h₁] at hfind
      refine sameAnswers_of_isDir hfind h₁ ?_
      have hdir : ix₂.isDir (normalize path) = false := by
        simp only [Index.fromSecond, SortedMap.contains, h₁, Option.isSome_none,
          Bool.false_eq_true, if_false] at htaken
        exact Bool.eq_false_iff.mpr (not_or.mp (of_decide_eq_false htaken)).2
      rw [isDir_beside, hdir, Bool.or_false]

/-- **A file system of more sources has the files of both lists of sources**: each
request gives what it gives with the sources that its path is taken from. -/
theorem freshCall_union
    (h : buildIndex A R pathColumn contentColumn (sources ++ sources') pol = .ok ix) :
    ∃ ix₁ ix₂, buildIndex A R pathColumn contentColumn sources pol = .ok ix₁ ∧
      buildIndex A R pathColumn contentColumn sources' pol = .ok ix₂ ∧
      ∀ q, freshCall R ix q
        = freshCall R (if ix₁.fromSecond pol ix₂ (normalize q.path) then ix₂ else ix₁) q := by
  obtain ⟨ix₁, ix₂, h₁, h₂, -, rfl⟩ := buildIndex_append_iff.mp h
  refine ⟨ix₁, ix₂, h₁, h₂, fun q => ?_⟩
  rw [freshCall_eq, freshCall_eq]
  exact (sameAnswers_beside (inShards_of_buildIndex h₁) q.path).directCall

/-- The two small shards, and both again: the last file of a path counts. -/
theorem freshCall_union_sample :
    ∃ ix, buildIndex sampleAdapters sampleReader none none [[], []] .last = .ok ix ∧
      ∃ ix₁ ix₂, buildIndex sampleAdapters sampleReader none none [[]] .last = .ok ix₁ ∧
        buildIndex sampleAdapters sampleReader none none [[]] .last = .ok ix₂ ∧
        ∀ q, freshCall sampleReader ix q
          = freshCall sampleReader
              (if ix₁.fromSecond .last ix₂ (normalize q.path) then ix₂ else ix₁) q := by
  have hbuild : ∃ ix, buildIndex sampleAdapters sampleReader none none ([[]] ++ [[]]) .last
      = .ok ix := ⟨_, rfl⟩
  obtain ⟨ix, hix⟩ := hbuild
  exact ⟨ix, hix, freshCall_union hix⟩

end Reading

end ParquetFileFs
