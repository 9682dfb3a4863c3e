import ParquetFileFs.Archive.Union
import ParquetFileFs.Archive.Written

/-!
# What an archive shows

To its readers an archive is a map from canonical paths to bytes: the files are the
paths of the map, the directories are what lies above them, and anything else is
not found.  Shards that were written show the rows they were written from, and
several shards show the rows of all of them, of which the last or the first one of
a path counts.

## Main definitions

* `readOf`, `infoOf`, `answer` — what a map of files answers.
* `Shows` — an archive answers as a map of files does.
* `contentOf` — the files of several shards.

## Main results

* `Shows.beside` — indices side by side show the files of both.
* `shards_shown` — **shards that were written open together exactly if the policy
  admits their paths, and show the files of all of them.**
-/

namespace ParquetFileFs

open Segments

/-! ### Maps of files -/

section Maps

variable (content : Str → Option Bytes)

/-- Some file lies below the path, or it is the root. -/
def IsDirOf (norm : Str) : Prop :=
  norm = [] ∨ ∃ k, content k ≠ none ∧ norm ++ ['/'] <+: k

def readOf (path : Str) : Outcome Bytes :=
  match content (normalize path) with
  | some bs => .ok bs
  | none => .error (.err (.notFound (normalize path)))

open Classical in
noncomputable def infoOf (path : Str) : Outcome InfoResult :=
  match content (normalize path) with
  | some bs => .ok (.file bs.length [])
  | none =>
      if IsDirOf content (normalize path) then .ok .dir
      else .error (.err (.notFound (normalize path)))

/-- What a map of files answers. -/
noncomputable def answer : Request → Outcome Response
  | .read path => (readOf content path).bind fun bs => .ok (.bytes bs)
  | .info path => (infoOf content path).bind fun i => .ok (.info i)

end Maps

section Shows

variable {R : ParquetReader} {ix ix₁ ix₂ : Index} {content content' : Str → Option Bytes}
  {path : Str} {pol : DupPolicy}

theorem readOf_congr (h : content (normalize path) = content' (normalize path)) :
    readOf content path = readOf content' path := by
  rw [readOf, readOf, h]

theorem infoOf_congr (h : content (normalize path) = content' (normalize path))
    (hdir : content (normalize path) = none →
      (IsDirOf content (normalize path) ↔ IsDirOf content' (normalize path))) :
    infoOf content path = infoOf content' path := by
  unfold infoOf
  rw [← h]
  cases hfile : content (normalize path) with
  | some bs => rfl
  | none =>
    have hiff := propext (hdir hfile)
    dsimp only
    rw [hiff]

/-- The archive answers as the map of files does. -/
structure Shows (R : ParquetReader) (ix : Index) (content : Str → Option Bytes) : Prop where
  wellFormed : ix.WellFormed
  files : ∀ k, k ∈ ix.files.keys ↔ content k ≠ none
  read : ∀ path, directRead R ix path = readOf content path
  info : ∀ path, directInfo R ix path = infoOf content path

theorem Shows.directCall (h : Shows R ix content) (q : Request) :
    directCall R ix q = answer content q := by
  cases q with
  | read path => rw [ParquetFileFs.directCall, h.read, answer]
  | info path => rw [ParquetFileFs.directCall, h.info, answer]

theorem Shows.contains_iff (h : Shows R ix content) (k : Str) :
    ix.files.contains k = true ↔ content k ≠ none := by
  rw [SortedMap.contains_iff_mem_keys, h.files]

theorem Shows.isDir_iff (h : Shows R ix content) (norm : Str) :
    ix.isDir norm = true ↔ IsDirOf content norm := by
  rw [h.wellFormed.isDir_iff, IsDirOf]
  simp only [h.files]

theorem directRead_normalize (path : Str) :
    directRead R ix (normalize path) = directRead R ix path := by
  rw [directRead, directRead, normalize_normalize]

theorem directInfo_normalize (path : Str) :
    directInfo R ix (normalize path) = directInfo R ix path := by
  rw [directInfo, directInfo, normalize_normalize]

/-- An archive shows its files once it answers for these. -/
theorem shows_of_files (hwf : ix.WellFormed) (hfiles : ∀ k, k ∈ ix.files.keys ↔ content k ≠ none)
    (hread : ∀ k bs, content k = some bs → directRead R ix k = .ok bs ∧
      directInfo R ix k = .ok (.file bs.length [])) : Shows R ix content := by
  have hnone : ∀ path, content (normalize path) = none →
      ix.files.find? (normalize path) = none := by
    intro path hpath
    rw [find?_eq_none_iff, hfiles, hpath]
    exact not_not.mpr rfl
  refine ⟨hwf, hfiles, fun path => ?_, fun path => ?_⟩
  · unfold readOf
    cases hpath : content (normalize path) with
    | some bs => rw [← directRead_normalize, (hread _ bs hpath).1]
    | none => rw [directRead, hnone path hpath]
  · unfold infoOf
    cases hpath : content (normalize path) with
    | some bs => rw [← directInfo_normalize, (hread _ bs hpath).2]
    | none =>
      have hdir : ix.isDir (normalize path) = true ↔ IsDirOf content (normalize path) := by
        rw [hwf.isDir_iff, IsDirOf]
        simp only [hfiles]
      rw [directInfo_of_notFile (hnone path hpath)]
      by_cases h : IsDirOf content (normalize path)
      · simp only [hdir.mpr h, h, if_true]
      · simp only [mt hdir.mp h, h, if_false, Bool.false_eq_true]

/-! ### Indices side by side -/

/-- The files of one map and of another, of which the policy says which counts. -/
def mergeContent (pol : DupPolicy) (content content' : Str → Option Bytes) (k : Str) :
    Option Bytes :=
  if pol = .last then (content' k).or (content k) else (content k).or (content' k)

theorem mergeContent_eq_none_iff {k : Str} :
    mergeContent pol content content' k = none ↔ content k = none ∧ content' k = none := by
  unfold mergeContent
  split
  · rw [Option.or_eq_none_iff, and_comm]
  · rw [Option.or_eq_none_iff]

theorem isDirOf_mergeContent {norm : Str} : IsDirOf (mergeContent pol content content') norm ↔
    IsDirOf content norm ∨ IsDirOf content' norm := by
  simp only [IsDirOf, ne_eq, mergeContent_eq_none_iff, not_and_or, or_and_right, exists_or]
  rw [← or_or_distrib_left]

theorem Shows.contains (h : Shows R ix content) (k : Str) :
    ix.files.contains k = (content k).isSome := by
  rw [Bool.eq_iff_iff, h.contains_iff, Option.isSome_iff_ne_none]

/-- What counts of a path is in the index the path is taken from. -/
theorem mergeContent_fromSecond (h₁ : Shows R ix₁ content) (h₂ : Shows R ix₂ content')
    (norm : Str) : mergeContent pol content content' norm
      = (if ix₁.fromSecond pol ix₂ norm then content' else content) norm := by
  unfold mergeContent Index.fromSecond
  rw [h₁.contains, h₂.contains]
  cases hc : content norm with
  | some bs => by_cases hlast : pol = .last <;> cases hc' : content' norm <;> simp [hlast, hc, hc']
  | none =>
    cases hc' : content' norm with
    | some bs => simp [hc']
    | none =>
      -- whichever is asked, neither has the file
      have hnone : ∀ b : Bool, (if b then content' else content) norm = none := by
        intro b
        cases b with
        | true => exact hc'
        | false => exact hc
      rw [Option.none_or, ite_self, hnone]

/-- Where neither has a file, the directories of both are those of the one that is asked. -/
theorem isDirOf_fromSecond (h₁ : Shows R ix₁ content) (h₂ : Shows R ix₂ content') {norm : Str}
    (hnone : mergeContent pol content content' norm = none) :
    IsDirOf (mergeContent pol content content') norm ↔
      IsDirOf (if ix₁.fromSecond pol ix₂ norm then content' else content) norm := by
  obtain ⟨hc, hc'⟩ := mergeContent_eq_none_iff.mp hnone
  rw [isDirOf_mergeContent, Index.fromSecond, h₁.contains, h₂.contains, hc, hc']
  by_cases hdir : IsDirOf content' norm
  · have htrue : ix₂.isDir norm = true := (h₂.isDir_iff norm).mpr hdir
    simp [htrue, hdir]
  · have hfalse : ¬ix₂.isDir norm = true := fun h => hdir ((h₂.isDir_iff norm).mp h)
    simp [hfalse, hdir]

theorem Shows.beside (h₁ : Shows R ix₁ content) (h₂ : Shows R ix₂ content')
    (hin : InShards ix₁.shards.length ix₁.files) (hwf : (ix₁.beside pol ix₂).WellFormed) :
    Shows R (ix₁.beside pol ix₂) (mergeContent pol content content') := by
  have hasked : ∀ norm, Shows R (if ix₁.fromSecond pol ix₂ norm then ix₂ else ix₁)
      (if ix₁.fromSecond pol ix₂ norm then content' else content) := by
    intro norm
    split
    · exact h₂
    · exact h₁
  constructor
  · exact hwf
  · intro k
    have hkeys : k ∈ (ix₁.beside pol ix₂).files.keys ↔ k ∈ ix₁.files.keys ∨ k ∈ ix₂.files.keys :=
      mem_keys_mergeFiles
    rw [hkeys, h₁.files, h₂.files, ← not_iff_not, not_or, not_not, not_not, not_not,
      mergeContent_eq_none_iff]
  · intro path
    rw [(sameAnswers_beside hin path).read, (hasked (normalize path)).read]
    exact (readOf_congr (mergeContent_fromSecond h₁ h₂ (normalize path))).symm
  · intro path
    rw [(sameAnswers_beside hin path).info, (hasked (normalize path)).info]
    exact (infoOf_congr (mergeContent_fromSecond h₁ h₂ (normalize path))
      (isDirOf_fromSecond h₁ h₂)).symm

end Shows

/-! ### Shards that were written -/

/-- What the rows hold under a path. -/
def rowContent (rows : List Row) (k : Str) : Option Bytes :=
  (rows.find? fun r => r.1 = k).map Prod.snd

/-- What the shards with these rows hold under a path: in each shard a path is there
once, and of several shards the policy says which counts. -/
def contentOf (pol : DupPolicy) (shards : List (List Row)) (k : Str) : Option Bytes :=
  match pol with
  | .last => shards.reverse.findSome? fun rows => rowContent rows k
  | _ => shards.findSome? fun rows => rowContent rows k

/-- A shard that was written: the source it is opened by, its URL, and the groups of
its rows. -/
structure WrittenShard where
  source : Str
  url : Str
  compression : PackCompression
  groups : List (List Row)

def WrittenShard.rows (sh : WrittenShard) : List Row := sh.groups.flatten

def WrittenShard.paths (sh : WrittenShard) : List Str := sh.rows.map Prod.fst

/-- The shard is served as it was written, and reads back; its paths are canonical
and distinct. -/
structure WrittenShard.Opens (A : Adapters) (R : ParquetReader) (W : ParquetWriter)
    (sch : Schema) (sh : WrittenShard) : Prop where
  serves : Serves A sh.source sh.url (W.fileBytes sch sh.compression sh.groups)
  readsBack : ReadsBack R W sch sh.compression sh.groups
  canonical : ∀ r ∈ sh.rows, Canonical '/' r.1 ∧ r.1 ≠ []
  nodup : sh.paths.Nodup

section Written

variable {A : Adapters} {R : ParquetReader} {W : ParquetWriter} {sch : Schema}
  {pathColumn contentColumn : Option Str} {pol : DupPolicy} {sh : WrittenShard}
  {shards : List WrittenShard} {rows : List Row} {files : List (List Row)} {ix : Index}

theorem rowContent_eq_none_iff {k : Str} : rowContent rows k = none ↔ k ∉ rows.map Prod.fst := by
  simp only [rowContent, Option.map_eq_none_iff, List.find?_eq_none, decide_eq_true_eq,
    List.mem_map, not_exists, not_and]

theorem mem_of_rowContent {k : Str} {bs : Bytes} (h : rowContent rows k = some bs) :
    (k, bs) ∈ rows := by
  obtain ⟨r, hr, rfl⟩ := Option.map_eq_some_iff.mp h
  have hk : r.1 = k := by simpa using List.find?_some hr
  subst hk
  exact List.mem_of_find?_eq_some hr

theorem contentOf_cons (k : Str) : contentOf pol (rows :: files) k
    = mergeContent pol (rowContent rows) (contentOf pol files) k := by
  cases pol with
  | last => simp [contentOf, mergeContent, List.findSome?_append]
  | first => cases h : rowContent rows k <;> simp [contentOf, mergeContent, h]
  | error => cases h : rowContent rows k <;> simp [contentOf, mergeContent, h]

theorem contentOf_eq_none_iff {k : Str} :
    contentOf pol files k = none ↔ ∀ rows ∈ files, k ∉ rows.map Prod.fst := by
  induction files with
  | nil => cases pol <;> simp [contentOf]
  | cons rows files ih =>
    rw [contentOf_cons, mergeContent_eq_none_iff, rowContent_eq_none_iff, ih, List.forall_mem_cons]

theorem rowContent_rows_ne_none_iff {k : Str} :
    rowContent sh.rows k ≠ none ↔ k ∈ sh.paths := by
  rw [ne_eq, rowContent_eq_none_iff, not_not, WrittenShard.paths]

theorem contentOf_rows_ne_none_iff {k : Str} :
    contentOf pol (shards.map WrittenShard.rows) k ≠ none ↔
      k ∈ shards.flatMap WrittenShard.paths := by
  rw [ne_eq, contentOf_eq_none_iff, List.forall_mem_map, List.mem_flatMap]
  simp only [WrittenShard.paths, not_forall, not_not, exists_prop]

/-- A shard that was written shows its rows. -/
theorem shows_written (hselects : Selects sch pathColumn contentColumn)
    (h : sh.Opens A R W sch) (pol : DupPolicy) :
    ∃ ix, buildIndex A R pathColumn contentColumn [sh.source] pol = .ok ix ∧
      Shows R ix (rowContent sh.rows) := by
  obtain ⟨ix, hbuild, hkeys, hread⟩ :=
    archive_written hselects h.serves h.readsBack h.canonical h.nodup pol
  have hwf := wellFormed_of_buildIndex hbuild
  have hfiles : ∀ k, k ∈ ix.files.keys ↔ rowContent sh.rows k ≠ none := by
    intro k
    rw [hkeys, (List.perm_insertionSort _ _).mem_iff, rowContent_rows_ne_none_iff]
    rfl
  exact ⟨ix, hbuild, shows_of_files hwf hfiles fun k bs hk => hread _ (mem_of_rowContent hk)⟩

theorem shows_empty : Shows R Index.empty fun _ => none := by
  have hwf : Index.empty.WellFormed := wellFormed_of_buildIndex
    (show buildIndex sampleAdapters R none none [] .error = .ok Index.empty from rfl)
  exact shows_of_files hwf (fun k => by simp [Index.empty]) fun k bs h => by cases h

theorem addedPaths_cons : (sh :: shards).flatMap WrittenShard.paths
    = sh.paths ++ shards.flatMap WrittenShard.paths := List.flatMap_cons

/-- **Shards that open together show the files of all of them**, and only the policy
`error` objects to paths. -/
theorem shows_shards (hselects : Selects sch pathColumn contentColumn)
    (hshards : ∀ sh ∈ shards, sh.Opens A R W sch)
    (h : buildIndex A R pathColumn contentColumn (shards.map WrittenShard.source) pol = .ok ix) :
    (pol = .error → (shards.flatMap WrittenShard.paths).Nodup) ∧
      Shows R ix (contentOf pol (shards.map WrittenShard.rows)) := by
  induction shards generalizing ix with
  | nil =>
    cases h
    refine ⟨fun _ => List.nodup_nil, ?_⟩
    have hnone : contentOf pol ([] : List (List Row)) = fun _ => none := by
      cases pol <;> rfl
    rw [List.map_nil, hnone]
    exact shows_empty
  | cons sh shards ih =>
    rw [List.map_cons, ← List.singleton_append] at h
    obtain ⟨ix₁, ix₂, h₁, h₂, hcompat, rfl⟩ := buildIndex_append_iff.mp h
    obtain ⟨hnodup, hshows⟩ := ih (fun sh' hsh' => hshards sh' (List.mem_cons_of_mem sh hsh')) h₂
    have hsh := hshards sh List.mem_cons_self
    obtain ⟨ix', hix', hshows'⟩ := shows_written hselects hsh pol
    obtain rfl : ix' = ix₁ := Except.ok.inj (hix'.symm.trans h₁)
    constructor
    · intro hpol
      rw [addedPaths_cons, List.nodup_append']
      refine ⟨hsh.nodup, hnodup hpol, fun k hk hk' => ?_⟩
      refine hcompat hpol k ((hshows.files k).mpr ?_) ((hshows'.files k).mpr ?_)
      · exact contentOf_rows_ne_none_iff.mpr hk'
      · exact rowContent_rows_ne_none_iff.mpr hk
    · have hcontent : contentOf pol ((sh :: shards).map WrittenShard.rows)
          = mergeContent pol (rowContent sh.rows) (contentOf pol (shards.map WrittenShard.rows)) :=
        funext contentOf_cons
      rw [hcontent]
      exact hshows'.beside hshows (inShards_of_buildIndex h₁) (wellFormed_of_buildIndex h)

/-- They open if the policy does not object. -/
theorem exists_buildIndex_shards (hselects : Selects sch pathColumn contentColumn)
    (hshards : ∀ sh ∈ shards, sh.Opens A R W sch)
    (hpol : pol = .error → (shards.flatMap WrittenShard.paths).Nodup) :
    ∃ ix, buildIndex A R pathColumn contentColumn (shards.map WrittenShard.source) pol
      = .ok ix := by
  induction shards with
  | nil => exact ⟨_, rfl⟩
  | cons sh shards ih =>
    have hsh := hshards sh List.mem_cons_self
    have hrest : ∀ sh' ∈ shards, sh'.Opens A R W sch :=
      fun sh' hsh' => hshards sh' (List.mem_cons_of_mem sh hsh')
    rw [addedPaths_cons] at hpol
    obtain ⟨ix₁, h₁, hshows₁⟩ := shows_written hselects hsh pol
    obtain ⟨ix₂, h₂⟩ := ih hrest fun herror => (List.nodup_append'.mp (hpol herror)).2.1
    obtain ⟨-, hshows₂⟩ := shows_shards hselects hrest h₂
    refine ⟨ix₁.beside pol ix₂, ?_⟩
    rw [List.map_cons, ← List.singleton_append]
    refine buildIndex_append_iff.mpr ⟨ix₁, ix₂, h₁, h₂, fun herror k hk hk' => ?_, rfl⟩
    have hdisjoint := (List.nodup_append'.mp (hpol herror)).2.2
    have hpath : k ∈ sh.paths := rowContent_rows_ne_none_iff.mp ((hshows₁.files k).mp hk')
    exact hdisjoint hpath (contentOf_rows_ne_none_iff.mp ((hshows₂.files k).mp hk))

/-- **Shards that were written open together exactly if the policy admits their paths,
and then show the files of all of them.**  Under `error` no path may be there twice.
Every request is answered as the map of their files answers it, in which the last
shard of a path counts under `last`, and the first one under `first`. -/
theorem shards_shown (hselects : Selects sch pathColumn contentColumn)
    (hshards : ∀ sh ∈ shards, sh.Opens A R W sch) (pol : DupPolicy) :
    ((∃ ix, buildIndex A R pathColumn contentColumn (shards.map WrittenShard.source) pol = .ok ix) ↔
      (pol = .error → (shards.flatMap WrittenShard.paths).Nodup)) ∧
    ∀ ix, buildIndex A R pathColumn contentColumn (shards.map WrittenShard.source) pol = .ok ix →
      (∀ k, k ∈ ix.files.keys ↔ k ∈ shards.flatMap WrittenShard.paths) ∧
      ∀ q, freshCall R ix q = answer (contentOf pol (shards.map WrittenShard.rows)) q := by
  refine ⟨⟨fun ⟨ix, h⟩ => (shows_shards hselects hshards h).1,
    exists_buildIndex_shards hselects hshards⟩, fun ix h => ?_⟩
  obtain ⟨-, hshows⟩ := shows_shards hselects hshards h
  refine ⟨fun k => ?_, fun q => ?_⟩
  · rw [hshows.files, contentOf_rows_ne_none_iff]
  · rw [freshCall_eq, hshows.directCall]

end Written

/-! ### Two shards with a path in common -/

def sampleShards : List WrittenShard :=
  [⟨"o".toList, "o".toList, .zstd, [[("a".toList, [1])]]⟩,
    ⟨"p".toList, "p".toList, .zstd, [[("a".toList, [2]), ("b/c".toList, [3])]]⟩]

/-- A directory that holds the shards. -/
def shardFiles : FileSystem Str UInt8 :=
  sampleShards.foldl (fun fs sh => fs.put sh.url
    (plainWriter.fileBytes packSchema sh.compression sh.groups)) FileSystem.empty

def shardAdapters : Adapters :=
  let os : Os := ⟨fun _ _ => .ok [], fun _ => 0, fun _ => []⟩
  ⟨fun _ => none, localAdapter os shardFiles, localAdapter os shardFiles⟩

theorem opens_sampleShards :
    ∀ sh ∈ sampleShards, sh.Opens shardAdapters plainReader plainWriter packSchema := by
  intro sh hsh
  have hrows : ∀ sh ∈ sampleShards, (∀ r ∈ sh.rows, Canonical '/' r.1 ∧ r.1 ≠ []) ∧
      sh.paths.Nodup := by
    decide
  have hchars : ∀ sh ∈ sampleShards, ∀ g ∈ sh.groups, ∀ r ∈ g, ∀ ch ∈ r.1, ch.toNat < 256 := by
    simp [sampleShards, or_imp, forall_and]
  obtain ⟨hcanon, hnodup⟩ := hrows sh hsh
  refine ⟨?_, readsBack_plain sh.compression (hchars sh hsh), hcanon, hnodup⟩
  simp only [sampleShards, List.mem_cons, List.not_mem_nil, or_false] at hsh
  rcases hsh with rfl | rfl
  · exact serves_localAdapter rfl rfl (by decide) rfl rfl
  · exact serves_localAdapter rfl rfl (by decide) rfl rfl

theorem shards_shown_sample :
    ∃ ix, buildIndex shardAdapters plainReader none none ["o".toList, "p".toList] .last = .ok ix ∧
      freshCall plainReader ix (.read "/a".toList) = .ok (.bytes [2]) ∧
      freshCall plainReader ix (.read "b/c".toList) = .ok (.bytes [3]) := by
  obtain ⟨hopens, hanswers⟩ := shards_shown selects_packSchema opens_sampleShards .last
  obtain ⟨ix, hix⟩ := hopens.mpr fun h => by cases h
  obtain ⟨-, hcalls⟩ := hanswers ix hix
  refine ⟨ix, hix, ?_, ?_⟩
  · rw [hcalls]
    rfl
  · rw [hcalls]
    rfl

end ParquetFileFs
