import ParquetFileFs.Pack.Containment
import ParquetFileFs.Pack.RoundTrip

/-!
# Writer and reader agree on paths

The paths under which something is stored are fixed points of the reader's
normalization, so the writer's textual comparison of stored paths and the
index's comparison of normalized ones find the same duplicates.

## Main definitions

* `entrySegments` — the segments of an entry's name, cut at separators of both kinds.
* `appendRows` — a new writer, taken through rows.

## Main results

* `IsStored.notMem_splitOn` — stored paths have no segment `.` or `..`.
* `entryStoredPath_isError_iff`, `entryStoredPath_idem` — the names of entries
  that are rejected, and those that stay as they are.
* `buildIndex_stored` — an index of stored paths fails for duplicates only.
* `writer_reader_agree` — **the writer finds a duplicate exactly where the index does.**
-/

namespace ParquetFileFs

open Program Segments

/-! ### The names of entries -/

/-- The segments of an entry's name: `/` and `\` both separate. -/
def entrySegments (raw : Str) : List Str := raw.splitOnP fun c => c = '/' ∨ c = '\\'

/-- Cutting at both separators is cutting after `\` has been replaced. -/
theorem splitOn_map_backslash (raw : Str) :
    (raw.map fun c => if c = '\\' then '/' else c).splitOn '/' = entrySegments raw := by
  unfold entrySegments List.splitOn
  induction raw with
  | nil => rfl
  | cons c cs ih =>
    rw [List.map_cons, List.splitOnP_cons_eq_if_modifyHead, List.splitOnP_cons_eq_if_modifyHead, ih]
    by_cases hb : c = '\\'
    · simp [hb]
    · by_cases hs : c = '/'
      · simp [hs]
      · simp [hb, hs]

theorem sep_notMem_of_mem_entrySegments {raw s : Str} (h : s ∈ entrySegments raw) :
    '/' ∉ s ∧ '\\' ∉ s := by
  constructor
  · intro hmem
    have hsep := not_of_mem_splitOnP h '/' hmem
    simp at hsep
  · intro hmem
    have hsep := not_of_mem_splitOnP h '\\' hmem
    simp at hsep

/-- The segments of an entry's name that count. -/
def keptSegments (raw : Str) : List Str :=
  (entrySegments raw).filter fun s => s ≠ [] ∧ s ≠ ".".toList

/-- An accepted entry is stored under the names that count. -/
theorem entryStoredPath_ok_iff {raw s : Str} : entryStoredPath raw = .ok s ↔
    "..".toList ∉ entrySegments raw ∧ keptSegments raw ≠ [] ∧ s = join '/' (keptSegments raw) := by
  unfold entryStoredPath keptSegments
  simp only [splitOn_map_backslash]
  split
  · next hdots =>
    constructor
    · intro h
      cases h
    · rintro ⟨hno, -⟩
      exact absurd hdots hno
  · next hdots =>
    split
    · next hnil =>
      constructor
      · intro h
        cases h
      · rintro ⟨-, hne, -⟩
        exact absurd hnil hne
    · next t ts hkept =>
      rw [hkept]
      constructor
      · intro h
        cases h
        exact ⟨hdots, List.cons_ne_nil t ts, rfl⟩
      · rintro ⟨-, -, rfl⟩
        rfl

theorem isName_of_mem_keptSegments {raw s : Str} (hdots : "..".toList ∉ entrySegments raw)
    (h : s ∈ keptSegments raw) : IsName s := by
  rw [keptSegments, List.mem_filter, decide_eq_true_eq] at h
  obtain ⟨hmem, hne, hdot⟩ := h
  refine ⟨hne, (sep_notMem_of_mem_entrySegments hmem).1, hdot, ?_⟩
  rintro rfl
  exact hdots hmem

/-- The names of entries that are rejected. -/
theorem entryStoredPath_isError_iff {raw : Str} : (∃ e, entryStoredPath raw = .error e) ↔
    "..".toList ∈ entrySegments raw ∨ ∀ s ∈ entrySegments raw, s = [] ∨ s = ".".toList := by
  have herr : (∃ e, entryStoredPath raw = .error e) ↔ ¬∃ s, entryStoredPath raw = .ok s := by
    cases entryStoredPath raw <;> simp
  have hnil : keptSegments raw = [] ↔ ∀ s ∈ entrySegments raw, s = [] ∨ s = ".".toList := by
    rw [keptSegments, List.filter_eq_nil_iff]
    refine forall₂_congr fun s _ => ?_
    rw [decide_eq_true_eq]
    tauto
  rw [herr, ← hnil]
  constructor
  · intro h
    by_contra hno
    rw [not_or] at hno
    exact h ⟨_, entryStoredPath_ok_iff.mpr ⟨hno.1, hno.2, rfl⟩⟩
  · rintro h ⟨s, hs⟩
    obtain ⟨hdots, hne, -⟩ := entryStoredPath_ok_iff.mp hs
    exact h.elim hdots hne

/-! ### Stored paths are names joined by separators -/

theorem IsStored.exists_names {s : Str} (h : IsStored s) :
    ∃ names : List Str, names ≠ [] ∧ (∀ n ∈ names, IsName n) ∧ s = join '/' names := by
  rcases h with ⟨file, root, h⟩ | ⟨raw, h⟩
  · obtain ⟨names, hne, hfile, rfl⟩ := storedPath_ok_iff.mp h
    exact ⟨names, hne, isName_of_clean_eq hfile, rfl⟩
  · obtain ⟨hdots, hne, rfl⟩ := entryStoredPath_ok_iff.mp h
    exact ⟨_, hne, fun n hn => isName_of_mem_keptSegments hdots hn, rfl⟩

/-- Stored paths have no segment `.` or `..`. -/
theorem IsStored.notMem_splitOn {s : Str} (h : IsStored s) :
    ".".toList ∉ s.splitOn '/' ∧ "..".toList ∉ s.splitOn '/' := by
  obtain ⟨names, hne, hnames, rfl⟩ := h.exists_names
  have hsplit : (join '/' names).splitOn '/' = names :=
    List.splitOn_intercalate '/' (fun n hn => (hnames n hn).2.1) hne
  rw [hsplit]
  exact ⟨fun hdot => (hnames _ hdot).2.2.1 rfl, fun hdots => (hnames _ hdots).2.2.2 rfl⟩

theorem entrySegments_join {names : List Str} (hne : names ≠ [])
    (h : ∀ n ∈ names, '/' ∉ n ∧ '\\' ∉ n) : entrySegments (join '/' names) = names := by
  -- without `\` there is nothing to replace
  have hmap : ((join '/' names).map fun c => if c = '\\' then '/' else c) = join '/' names := by
    conv_rhs => rw [← List.map_id (join '/' names)]
    apply List.map_congr_left
    intro c hc
    rw [if_neg, id]
    rintro rfl
    rcases mem_join hc with hc | ⟨n, hn, hc⟩
    · cases hc
    · exact (h n hn).2 hc
  rw [← splitOn_map_backslash, hmap]
  exact List.splitOn_intercalate '/' (fun n hn => (h n hn).1) hne

/-- Stored paths of entries stay as they are. -/
theorem entryStoredPath_idem {raw s : Str} (h : entryStoredPath raw = .ok s) :
    entryStoredPath s = .ok s := by
  obtain ⟨hdots, hne, rfl⟩ := entryStoredPath_ok_iff.mp h
  have hsegs : entrySegments (join '/' (keptSegments raw)) = keptSegments raw := by
    apply entrySegments_join hne
    intro n hn
    exact sep_notMem_of_mem_entrySegments (List.mem_of_mem_filter hn)
  have hnames : keptSegments (join '/' (keptSegments raw)) = keptSegments raw := by
    rw [keptSegments, hsegs, keptSegments, List.filter_filter]
    simp
  rw [entryStoredPath_ok_iff, hsegs, hnames]
  exact ⟨fun hmem => hdots (List.mem_of_mem_filter hmem), hne, rfl⟩

/-! ### The reader's duplicates -/

section Agree

variable {A : Adapters} {R : ParquetReader} {W : ParquetWriter}
  {pathColumn contentColumn : Option Str}
  {sources : List Str} {url out : Str} {groups : List (List Str)} {shard : Shard}
  {opts : PackOptions} {w : PackWriter} {rows : List Row} {fs₀ fs : Files}
  {expand : Files → Str → Except Str (List (Except (Str × Str) Str))}

/-- **An index of stored paths fails for duplicates only**, and where they are an
error it fails exactly when some path occurs twice. -/
theorem buildIndex_stored (hsrc : expandSources A sources = .ok [url])
    (hsh : ShardHolds A R pathColumn contentColumn url groups shard)
    (hstored : ∀ p ∈ groups.flatten, IsStored p) :
    (∀ pol, (∃ ix, buildIndex A R pathColumn contentColumn sources pol = .ok ix) ∨
        ∃ k a b, buildIndex A R pathColumn contentColumn sources pol
          = .error (.err (.duplicate k a b))) ∧
      ((∃ k a b, buildIndex A R pathColumn contentColumn sources .error
          = .error (.err (.duplicate k a b))) ↔ ¬groups.flatten.Nodup) := by
  have hsrc' : expandSources A sources = .ok ([(url, groups)].map Prod.fst) := hsrc
  obtain ⟨hkeys, hne⟩ := shardRows_keys fun p hp =>
    ⟨(hstored p hp).canonical, (hstored p hp).ne_nil⟩
  have hok : ∀ pol, (pol = .error → groups.flatten.Nodup) →
      ∃ ix, buildIndex A R pathColumn contentColumn sources pol = .ok ix := by
    intro pol hnd
    obtain ⟨files, -, hbuild⟩ := buildIndex_of_merged pol hsrc' (.cons hsh .nil) hne fun hpol => by
      rw [List.map_singleton, hkeys]
      exact hnd hpol
    exact ⟨_, hbuild⟩
  have hdup : ¬groups.flatten.Nodup → ∃ k a b, buildIndex A R pathColumn contentColumn sources
      .error = .error (.err (.duplicate k a b)) := by
    intro hnd
    apply buildIndex_duplicate hsrc' (.cons hsh .nil) hne
    rw [List.map_singleton, hkeys]
    exact hnd
  constructor
  · intro pol
    by_cases hpol : pol = .error → groups.flatten.Nodup
    · exact Or.inl (hok pol hpol)
    · obtain ⟨rfl, hnd⟩ := Classical.not_imp.mp hpol
      exact Or.inr (hdup hnd)
  · refine ⟨fun ⟨k, a, b, herr⟩ hnd => ?_, hdup⟩
    obtain ⟨ix, hix⟩ := hok .error fun _ => hnd
    rw [hix] at herr
    cases herr

/-! ### The writer's duplicates -/

/-- The error for a path that was appended before. -/
def duplicateInput (stored : Str) : Failure :=
  .err (.pack ("duplicate path '".toList ++ stored ++ "' in input".toList))

/-- Create a writer and append rows to it. -/
def appendRows (W : ParquetWriter) (rows : List Row) (out : Str) (opts : PackOptions) :
    FileM PackWriter :=
  (PackWriter.create W out opts).andThen fun w =>
    packEach (fun w r => w.append W r.1 r.2) w rows

/-- The writer that a run leaves stands for the rows, whatever failed on the way
without stopping it. -/
theorem packingRows_of_run {es : List FileEvent}
    (hrun : Run (fsWorld expand) fs₀ (appendRows W rows out opts) es fs (.ret (.ok w))) :
    PackingRows W fs₀ out opts rows w fs := by
  have hwp : wp (fsWorld expand) (KeepsOthers out) (appendRows W rows out opts)
      (fun r _ fs' => ∀ w, r = .ok w → PackingRows W fs₀ out opts rows w fs') fs₀ := by
    unfold appendRows
    apply wp_andThen
    refine wp_mono (fun r es' fs' hr => ?_) wp_create
    cases r with
    | error e =>
      intro w hw
      cases hw
    | ok w' =>
      refine wp_mono (fun r'' es'' fs'' hr'' => ?_) (wp_packEach_append rows hr.2)
      intro w hw
      subst hw
      exact hr''
  exact wp_sound hwp hrun w rfl

/-- The check of `append` fires exactly for the paths of the rows before. -/
theorem append_duplicate_iff (hw : PackingRows W fs₀ out opts rows w fs) (stored : Str)
    (content : Bytes) :
    w.append W stored content = .ret (.error (duplicateInput stored)) ↔
      stored ∈ rows.map Prod.fst := by
  obtain ⟨h, hbuf, -⟩ := hw.buffers
  rw [← hbuf.mem_seen]
  constructor
  · intro happend
    by_contra hnew
    -- a new path leads to a panic, to a write, or to a writer with one row more
    unfold PackWriter.append PackWriter.flushRowGroup at happend
    rw [if_neg hnew] at happend
    have hpush : (w.push stored content).writer = some _ := hbuf.writer
    have hlen : (w.push stored content).paths.length ≠ 0 := by simp [PackWriter.push]
    rw [hpush, if_neg hlen] at happend
    split_ifs at happend <;> cases happend
  · intro hseen
    rw [PackWriter.append, if_pos hseen]
    rfl

variable (expand) in
/-- **Writer and reader agree on what a path is.**  Stored paths are fixed points
of the reader's normalization without `.` and `..`; the entries rejected are
those with `..` or without any name, and the stored path of an entry stays as it
is.  Whatever rows a writer has accepted, its check of the next one fires
exactly if the index of a shard with all these rows reports a duplicate, and the
index of such a shard reports nothing else. -/
theorem writer_reader_agree :
    (∀ s, IsStored s →
        s ≠ [] ∧ normalize s = s ∧ ".".toList ∉ s.splitOn '/' ∧ "..".toList ∉ s.splitOn '/') ∧
      (∀ raw, (∃ e, entryStoredPath raw = .error e) ↔
        "..".toList ∈ entrySegments raw ∨ ∀ s ∈ entrySegments raw, s = [] ∨ s = ".".toList) ∧
      (∀ raw s, entryStoredPath raw = .ok s → entryStoredPath s = .ok s) ∧
      ∀ (W : ParquetWriter) (rows : List Row) (row : Row) (out : Str) (opts : PackOptions)
        (fs₀ fs : Files) (es : List FileEvent) (w : PackWriter),
        (∀ r ∈ rows ++ [row], IsStored r.1) →
        Run (fsWorld expand) fs₀ (appendRows W rows out opts) es fs (.ret (.ok w)) →
        ∀ (A : Adapters) (R : ParquetReader) (pathColumn contentColumn : Option Str)
          (sources : List Str) (url : Str) (groups : List (List Str)) (shard : Shard),
          expandSources A sources = .ok [url] →
          ShardHolds A R pathColumn contentColumn url groups shard →
          groups.flatten = (rows ++ [row]).map Prod.fst →
          (w.append W row.1 row.2 = .ret (.error (duplicateInput row.1)) ↔
            ∃ k a b, buildIndex A R pathColumn contentColumn sources .error
              = .error (.err (.duplicate k a b))) ∧
          ∀ pol, (∃ ix, buildIndex A R pathColumn contentColumn sources pol = .ok ix) ∨
            ∃ k a b, buildIndex A R pathColumn contentColumn sources pol
              = .error (.err (.duplicate k a b)) := by
  refine ⟨fun s hs => ⟨hs.ne_nil, normalize_eq_self_iff.mpr hs.canonical, hs.notMem_splitOn⟩,
    fun raw => entryStoredPath_isError_iff, fun raw s => entryStoredPath_idem, ?_⟩
  intro W rows row out opts fs₀ fs es w hstored hrun A R pathColumn contentColumn sources url groups
    shard hsrc hsh hflat
  have hgroups : ∀ p ∈ groups.flatten, IsStored p := by
    rw [hflat]
    exact List.forall_mem_map.mpr hstored
  obtain ⟨hresult, hdup⟩ := buildIndex_stored hsrc hsh hgroups
  refine ⟨?_, hresult⟩
  -- the rows before have distinct paths, so only the new one can occur twice
  have hw := packingRows_of_run hrun
  obtain ⟨h, hbuf, -⟩ := hw.buffers
  rw [append_duplicate_iff hw, hdup, hflat, List.map_append, List.map_singleton,
    List.nodup_append]
  constructor
  · intro hmem hnd
    exact hnd.2.2 row.1 hmem row.1 (List.mem_singleton_self _) rfl
  · intro hnd
    by_contra hnew
    refine hnd ⟨hbuf.nodup, List.nodup_singleton _, fun a ha b hb => ?_⟩
    rw [List.mem_singleton.mp hb]
    rintro rfl
    exact hnew ha

end Agree

/-- A file with the path `a` twice. -/
def sampleTwice : Files :=
  FileSystem.empty.put "o".toList (plainWriter.fileBytes packSchema .zstd
    [[("a".toList, [1]), ("a".toList, [2])]])

theorem writer_reader_agree_sample :
    ∃ w : PackWriter, w.append plainWriter "a".toList [2]
        = .ret (.error (duplicateInput "a".toList)) ∧
      ∃ k a b, buildIndex (localOnly sampleTwice) plainReader none none ["o".toList] .error
        = .error (.err (.duplicate k a b)) := by
  have hserves : Serves (localOnly sampleTwice) "o".toList "o".toList
      (plainWriter.fileBytes packSchema .zstd [[("a".toList, [1]), ("a".toList, [2])]]) :=
    serves_localAdapter rfl rfl (by decide) rfl rfl
  obtain ⟨⟨a, hresolve, hlist⟩, a', hresolve', hholds⟩ := hserves
  have hback : ReadsBack plainReader plainWriter packSchema .zstd
      [[("a".toList, [1]), ("a".toList, [2])]] := by
    apply readsBack_plain
    intro g hg r hr
    rw [List.mem_singleton.mp hg] at hr
    rcases List.mem_pair.mp hr with rfl | rfl <;> simp
  obtain ⟨rgs, shard, hflat, hsh, -⟩ := openShard_written selects_packSchema hresolve' hholds
    hback
  have hstored : IsStored "a".toList := Or.inr ⟨"a".toList, rfl⟩
  obtain ⟨es, hrun⟩ := run_exec (fsWorld_fsHandler expandNothing)
    (appendRows plainWriter [("a".toList, [1])] "p".toList {}) sampleTwice
  obtain ⟨w, hw⟩ : ∃ w, (exec (fsHandler expandNothing)
      (appendRows plainWriter [("a".toList, [1])] "p".toList {}) sampleTwice).1 = .ok w := ⟨_, rfl⟩
  rw [hw] at hrun
  have hagree := ((writer_reader_agree expandNothing).2.2.2 plainWriter [("a".toList, [1])]
    ("a".toList, [2]) "p".toList {} _ _ es w (by simpa using hstored) hrun _ _ none none
    ["o".toList] "o".toList _ shard (expandSources_singleton hresolve hlist) hsh (by
      rw [← List.map_flatten, hflat]
      rfl)).1
  have hfires : w.append plainWriter "a".toList [2]
      = .ret (.error (duplicateInput "a".toList)) := by
    rw [append_duplicate_iff (packingRows_of_run hrun)]
    simp
  exact ⟨w, hfires, hagree.mp hfires⟩

end ParquetFileFs
