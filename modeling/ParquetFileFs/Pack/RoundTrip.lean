import ParquetFileFs.Archive.Written
import ParquetFileFs.Pack.Calls

/-!
# Packing and opening again

Where nothing fails that need not, a writer accepts rows with distinct paths one
after another and finishes, and the shard it leaves opens with exactly these
rows.

## Main definitions

* `packRows` — a writer is created, given rows one after another, and finished.

## Main results

* `exec_packRows` — **packing distinct paths succeeds.**
* `pack_roundtrip` — **what was packed is what is read**, however the rows fall
  into row groups.
-/

namespace ParquetFileFs

open Program Segments

/-- Give rows to a new writer one after another, and finish it. -/
def packRows (W : ParquetWriter) (rows : List Row) (out : Str) (opts : PackOptions) :
    FileM PackSummary :=
  (PackWriter.create W out opts).andThen fun w =>
    ((packEach (fun w r => w.append W r.1 r.2) w rows).onError (dropWriter w)).andThen
      (PackWriter.finish W)

section RoundTrip

variable {W : ParquetWriter} {fs fs₀ : Files} {out : Str} {opts : PackOptions} {w : PackWriter}
  {rows : List Row} {expand : Files → Str → Except Str (List (Except (Str × Str) Str))}

/-! ### Every step succeeds -/

/-- No run makes or removes a directory. -/
theorem isDir_exec {α : Type} (p : FileM α) (fs : Files) :
    (exec (fsHandler expand) p fs).2.isDir = fs.isDir := by
  have hstep : ∀ (o : FsOp Str UInt8) (s : Files), s.isDir = fs.isDir →
      (fsHandler expand o s).2.isDir = fs.isDir := by
    intro o s hs
    rw [isDir_fsHandler, hs]
  exact exec_preserves (P := fun s : Files => s.isDir = fs.isDir) hstep p rfl

theorem exec_create_ok (h : fs₀.isDir (tmpName out) = false) :
    ∃ w, (exec (fsHandler expand) (PackWriter.create W out opts) fs₀).1 = .ok w := by
  obtain ⟨i, fs, hcreate⟩ := FileSystem.exists_create h
  have hfs : fsHandler expand (.create (tmpName out)) fs₀ = (.ok i, fs) := by
    simp only [fsHandler, hcreate]
  unfold PackWriter.create
  rw [exec_call, hfs]
  exact ⟨_, rfl⟩

/-- A new writer stands for no rows. -/
theorem packingRows_of_exec_create
    (hcreate : (exec (fsHandler expand) (PackWriter.create W out opts) fs₀).1 = .ok w) :
    PackingRows W fs₀ out opts [] w
      (exec (fsHandler expand) (PackWriter.create W out opts) fs₀).2 := by
  have hwp : wp (fsWorld expand) (KeepsOthers out) (PackWriter.create W out opts)
      (Begins W fs₀ out opts) fs₀ := wp_create
  obtain ⟨es, hbegins⟩ := wp_exec (fsWorld_fsHandler expand) hwp
  rw [hcreate] at hbegins
  exact hbegins.2

variable (W opts expand) in
/-- What is not a directory can be written. -/
theorem exec_create_packing (h : fs₀.isDir (tmpName out) = false) :
    ∃ w, (exec (fsHandler expand) (PackWriter.create W out opts) fs₀).1 = .ok w ∧
      PackingRows W fs₀ out opts [] w
        (exec (fsHandler expand) (PackWriter.create W out opts) fs₀).2 := by
  have hcreated : ∃ w, (exec (fsHandler expand) (PackWriter.create W out opts) fs₀).1 = .ok w :=
    exec_create_ok h
  obtain ⟨w, hcreate⟩ := hcreated
  exact ⟨w, hcreate, packingRows_of_exec_create hcreate⟩

theorem exec_flushRowGroup_ok {aw : ArrowWriter} (hw : w.writer = some aw) :
    ∃ w', (exec (fsHandler expand) (w.flushRowGroup W) fs).1 = .ok w' := by
  unfold PackWriter.flushRowGroup
  split
  · exact ⟨w, rfl⟩
  · rw [hw]
    exact ⟨_, rfl⟩

theorem exec_append_ok {stored : Str} {content : Bytes} {aw : ArrowWriter}
    (hw : w.writer = some aw) (hnew : stored ∉ w.seen)
    (hfits : textBytes (w.paths ++ [stored]) ≤ maxTextBytes) :
    ∃ w', (exec (fsHandler expand) (w.append W stored content) fs).1 = .ok w' := by
  unfold PackWriter.append
  rw [if_neg hnew, if_neg (Nat.not_lt.mpr hfits)]
  split
  · exact exec_flushRowGroup_ok (w := w.push stored content) hw
  · exact ⟨_, rfl⟩

theorem exec_close_ok {aw : ArrowWriter} (hw : w.writer = some aw) :
    exec (fsHandler expand) (w.close W) fs = (.ok { w with writer := none },
      fs.append aw.handle (W.close w.schema w.compression aw.written)) := by
  unfold PackWriter.close
  rw [hw]
  rfl

theorem exec_publish_ok {i : ℕ} (htmp : fs.names w.tmp = some i)
    (hout : fs.isDir w.out = false) :
    ∃ sum, (exec (fsHandler expand) w.publish fs).1 = .ok sum := by
  obtain ⟨fs', hrename⟩ := FileSystem.exists_rename htmp hout
  have hfs : fsHandler expand (.rename w.tmp w.out) fs = (.ok (), fs') := by
    simp only [fsHandler, hrename]
  rw [PackWriter.publish, exec_call, hfs]
  exact ⟨_, rfl⟩

/-! ### A whole run succeeds -/

theorem textBytes_mono {vs vs' : List Str} (h : vs <+: vs') :
    textBytes vs ≤ textBytes vs' := by
  obtain ⟨t, rfl⟩ := h
  simp [textBytes]

/-- Among distinct paths, that of a row is not one of those before. -/
theorem notMem_of_nodup_append {r : Row} {new : List Row}
    (h : ((rows ++ [r] ++ new).map Prod.fst).Nodup) : r.1 ∉ rows.map Prod.fst := by
  rw [List.map_append, List.map_append] at h
  have hdisjoint := (List.nodup_append.mp h.of_append_left).2.2
  intro hmem
  exact hdisjoint r.1 hmem r.1 (by simp) rfl

/-- Whatever follows, a row fits in the group it joins if all groups fit. -/
theorem textBytes_le_of_fits {limit : ℕ} {r : Row} {new : List Row}
    (hfits : ∀ g ∈ flushGroups limit (rows ++ [r] ++ new),
      textBytes (g.map Prod.fst) ≤ maxTextBytes) :
    textBytes (((Grouping.cut rowSize limit rows).2 ++ [r]).map Prod.fst) ≤ maxTextBytes := by
  obtain ⟨g, hg, hpre⟩ := Grouping.exists_prefix_mem_groups rowSize limit rows r new
  exact (textBytes_mono (hpre.map Prod.fst)).trans (hfits g hg)

variable (expand) in
/-- The row is accepted, and the writer stands for one row more. -/
theorem exec_append_packing (hw : PackingRows W fs₀ out opts rows w fs) {r : Row}
    (hnew : r.1 ∉ rows.map Prod.fst)
    (hfits : textBytes (((Grouping.cut rowSize (max opts.maxRowGroupBytes 1) rows).2 ++ [r]).map
      Prod.fst) ≤ maxTextBytes) :
    ∃ w', (exec (fsHandler expand) (w.append W r.1 r.2) fs).1 = .ok w' ∧
      PackingRows W fs₀ out opts (rows ++ [r]) w'
        (exec (fsHandler expand) (w.append W r.1 r.2) fs).2 := by
  obtain ⟨h, hbuf, -⟩ := hw.buffers
  have hseen : r.1 ∉ w.seen := by rwa [hbuf.mem_seen]
  have htext : textBytes (w.paths ++ [r.1]) ≤ maxTextBytes := by
    rw [hbuf.paths]
    simpa using hfits
  have happend : ∃ w', (exec (fsHandler expand) (w.append W r.1 r.2) fs).1 = .ok w' :=
    exec_append_ok hbuf.writer hseen htext
  obtain ⟨w', hok⟩ := happend
  -- the step succeeds, so it is one that takes the writer on
  obtain ⟨es, hsteps⟩ := wp_exec (fsWorld_fsHandler expand) (wp_append hw r.1 r.2)
  rw [hok] at hsteps
  exact ⟨w', hok, hsteps⟩

variable (expand) in
/-- Rows with distinct paths are all accepted. -/
theorem exec_packEach_packing (hw : PackingRows W fs₀ out opts rows w fs) (new : List Row)
    (hnodup : ((rows ++ new).map Prod.fst).Nodup)
    (hfits : ∀ g ∈ flushGroups (max opts.maxRowGroupBytes 1) (rows ++ new),
      textBytes (g.map Prod.fst) ≤ maxTextBytes) :
    ∃ w', (exec (fsHandler expand) (packEach (fun w r => w.append W r.1 r.2) w new) fs).1 = .ok w' ∧
      PackingRows W fs₀ out opts (rows ++ new) w'
        (exec (fsHandler expand) (packEach (fun w r => w.append W r.1 r.2) w new) fs).2 := by
  induction new generalizing rows w fs with
  | nil => exact ⟨w, rfl, by rwa [List.append_nil]⟩
  | cons r new ih =>
    have hsplit : rows ++ r :: new = rows ++ [r] ++ new := by simp
    rw [hsplit] at hnodup hfits ⊢
    -- the open group with the new row becomes part of a group that fits
    have happend : ∃ w', (exec (fsHandler expand) (w.append W r.1 r.2) fs).1 = .ok w' ∧
        PackingRows W fs₀ out opts (rows ++ [r]) w'
          (exec (fsHandler expand) (w.append W r.1 r.2) fs).2 :=
      exec_append_packing expand hw (notMem_of_nodup_append hnodup) (textBytes_le_of_fits hfits)
    obtain ⟨w', hok, hw'⟩ := happend
    rw [packEach, exec_andThen _ hok]
    exact ih hw' hnodup hfits

variable (expand) in
theorem exec_finish_ok (hw : PackingRows W fs₀ out opts rows w fs) (hout : fs.isDir out = false) :
    ∃ sum, (exec (fsHandler expand) (w.finish W) fs).1 = .ok sum := by
  obtain ⟨h, hbuf, -⟩ := hw.buffers
  have hflush : ∃ w', (exec (fsHandler expand) (w.flushRowGroup W) fs).1 = .ok w' :=
    exec_flushRowGroup_ok hbuf.writer
  obtain ⟨w', hok⟩ := hflush
  obtain ⟨es, hsteps⟩ := wp_exec (fsWorld_fsHandler expand) (wp_flushRowGroup hw)
  rw [hok] at hsteps
  obtain ⟨h', hbuf', hnames⟩ := hsteps.buffers
  obtain ⟨bs, hclose⟩ : ∃ bs, exec (fsHandler expand)
      ((w.flushRowGroup W).andThen (PackWriter.close W)) fs = (.ok { w' with writer := none },
        (exec (fsHandler expand) (w.flushRowGroup W) fs).2.append h' bs) :=
    ⟨_, by rw [exec_andThen _ hok, exec_close_ok hbuf'.writer]⟩
  have hclosed : (exec (fsHandler expand) ((w.flushRowGroup W).andThen (PackWriter.close W)) fs).1
      = .ok { w' with writer := none } := by rw [hclose]
  unfold PackWriter.finish
  -- removing the temporary file afterwards does not change the result
  rw [exec_andFinally, exec_andThen _ (by rw [exec_onError _ hclosed, hclosed]),
    exec_onError _ hclosed, hclose]
  refine exec_publish_ok (by rw [hsteps.tmp_eq]; exact hnames) ?_
  rw [hsteps.out_eq]
  show (exec (fsHandler expand) (w.flushRowGroup W) fs).2.isDir out = false
  rw [isDir_exec]
  exact hout

/-- A writer that is created, taken through steps that append the rows, and
finished leaves the shard of the rows. -/
theorem exec_createWith_ok {α : Type} {step : PackWriter → α → FileM PackWriter} {as : List α}
    (htmp : fs₀.isDir (tmpName out) = false) (hout : fs₀.isDir out = false)
    (heach : ∀ w fs, PackingRows W fs₀ out opts [] w fs →
      ∃ w', (exec (fsHandler expand) (packEach step w as) fs).1 = .ok w' ∧
        PackingRows W fs₀ out opts rows w' (exec (fsHandler expand) (packEach step w as) fs).2) :
    ∃ fs, exec (fsHandler expand) ((PackWriter.create W out opts).andThen fun w =>
        ((packEach step w as).onError (dropWriter w)).andThen (PackWriter.finish W)) fs₀
          = (.ok ⟨rows.length, Grouping.total rowSize rows⟩, fs) ∧
      PublishedRows W fs₀ out opts rows fs := by
  obtain ⟨w, hcreate, hw⟩ := exec_create_packing W opts expand htmp
  obtain ⟨w', heach, hw'⟩ := heach w _ hw
  obtain ⟨sum, hfinish⟩ := exec_finish_ok expand hw' (by rw [isDir_exec, isDir_exec]; exact hout)
  obtain ⟨es', hends⟩ := wp_exec (fsWorld_fsHandler expand) (wp_finish hw')
  rw [hfinish] at hends
  obtain ⟨rfl, hpub⟩ := hends
  refine ⟨_, ?_, hpub⟩
  rw [exec_andThen _ hcreate, exec_andThen _ (by rw [exec_onError _ heach, heach]),
    exec_onError _ heach]
  exact Prod.ext hfinish rfl

/-- **Packing distinct paths succeeds**, and the output is the shard of the rows. -/
theorem exec_packRows (hnodup : (rows.map Prod.fst).Nodup)
    (hfits : ∀ g ∈ flushGroups (max opts.maxRowGroupBytes 1) rows,
      textBytes (g.map Prod.fst) ≤ maxTextBytes)
    (htmp : fs₀.isDir (tmpName out) = false) (hout : fs₀.isDir out = false) :
    ∃ fs, exec (fsHandler expand) (packRows W rows out opts) fs₀
        = (.ok ⟨rows.length, Grouping.total rowSize rows⟩, fs) ∧
      PublishedRows W fs₀ out opts rows fs :=
  exec_createWith_ok htmp hout fun _ _ hw => exec_packEach_packing expand hw rows hnodup hfits

variable (expand) in
/-- **What was packed is what is read.**  Given rows with distinct stored paths,
every append and the finish succeed, with whatever limit the row groups are
flushed at, and the summary counts the rows and their bytes.  The shard opens
under every policy, its paths are those of the rows in order, and each path
gives the bytes packed with it, and their number. -/
theorem pack_roundtrip {R : ParquetReader} (c : PackCompression)
    (maxRowGroupBytes : ℕ) (hstored : ∀ r ∈ rows, IsStored r.1)
    (hnodup : (rows.map Prod.fst).Nodup)
    (hfits : ∀ g ∈ flushGroups (max maxRowGroupBytes 1) rows,
      textBytes (g.map Prod.fst) ≤ maxTextBytes)
    (hback : ReadsBack R W packSchema c (flushGroups (max maxRowGroupBytes 1) rows))
    (htmp : fs₀.isDir (tmpName out) = false) (hout : fs₀.isDir out = false) :
    ∃ fs bytes, exec (fsHandler expand)
        (packRows W rows out { compression := c, maxRowGroupBytes := maxRowGroupBytes }) fs₀
          = (.ok ⟨rows.length, (rows.map fun r => r.2.length).sum⟩, fs) ∧
      fs.read out = some bytes ∧
      ∀ A s url, Serves A s url bytes → ∀ pol, ∃ ix,
        buildIndex A R none none [s] pol = .ok ix ∧
        ix.files.keys = (rows.map Prod.fst).insertionSort (· ≤ ·) ∧
        ∀ r ∈ rows, freshCall R ix (.read r.1) = .ok (.bytes r.2) ∧
          freshCall R ix (.info r.1) = .ok (.info (.file r.2.length [])) := by
  have hpacked : ∃ fs, exec (fsHandler expand)
      (packRows W rows out { compression := c, maxRowGroupBytes := maxRowGroupBytes }) fs₀
        = (.ok ⟨rows.length, Grouping.total rowSize rows⟩, fs) ∧
      PublishedRows W fs₀ out { compression := c, maxRowGroupBytes := maxRowGroupBytes } rows fs :=
    exec_packRows hnodup hfits htmp hout
  obtain ⟨fs, hexec, hpub⟩ := hpacked
  refine ⟨fs, _, hexec, hpub.output, fun A s url hserves pol => ?_⟩
  have hflat : (flushGroups (max maxRowGroupBytes 1) rows).flatten = rows :=
    Grouping.flatten_groups rowSize _ rows
  -- stored paths are canonical, so each is filed under itself
  have hcanon : ∀ r ∈ (flushGroups (max maxRowGroupBytes 1) rows).flatten,
      Canonical '/' r.1 ∧ r.1 ≠ [] := by
    intro r hr
    rw [hflat] at hr
    exact ⟨(hstored r hr).canonical, (hstored r hr).ne_nil⟩
  obtain ⟨ix, hbuild, hkeys, hread⟩ := archive_written selects_packSchema hserves hback
    hcanon (by rwa [hflat]) pol
  rw [hflat] at hkeys hread
  refine ⟨ix, hbuild, hkeys, fun r hr => ?_⟩
  obtain ⟨hbytes, hinfo⟩ := hread r hr
  constructor
  · rw [freshCall_eq, directCall, hbytes]
    rfl
  · rw [freshCall_eq, directCall, hinfo]
    rfl

end RoundTrip

/-! ### Three small files -/

/-- Three files, the second of them empty. -/
def sampleRows : List Row := [("a".toList, [1, 2]), ("d".toList, []), ("b/c".toList, [3])]

/-- Local files, on a machine without patterns. -/
def sampleOs : Os := ⟨expandNothing, fun _ => 0, fun _ => "No such file or directory".toList⟩

def localOnly (fs : Files) : Adapters :=
  ⟨fun _ => none, localAdapter sampleOs fs, localAdapter sampleOs fs⟩

/-- With a limit of no bytes, the empty file shares the group of the one after it. -/
theorem flushGroups_sampleRows : flushGroups (max 0 1) sampleRows
    = [[("a".toList, [1, 2])], [("d".toList, []), ("b/c".toList, [3])]] := rfl

theorem isStored_sampleRows : ∀ r ∈ sampleRows, IsStored r.1 := by
  intro r hr
  simp only [sampleRows, List.mem_cons, List.not_mem_nil, or_false] at hr
  rcases hr with rfl | rfl | rfl
  · exact Or.inr ⟨"a".toList, rfl⟩
  · exact Or.inr ⟨"d".toList, rfl⟩
  · exact Or.inr ⟨"b/c".toList, rfl⟩

theorem pack_roundtrip_sample :
    ∃ fs ix, exec (fsHandler expandNothing) (packRows plainWriter sampleRows "o".toList
        { compression := .zstd, maxRowGroupBytes := 0 }) sampleFiles = (.ok ⟨3, 3⟩, fs) ∧
      buildIndex (localOnly fs) plainReader none none ["o".toList] .error = .ok ix ∧
      ix.files.keys = ["a".toList, "b/c".toList, "d".toList] ∧
      freshCall plainReader ix (.read "b/c".toList) = .ok (.bytes [3]) ∧
      freshCall plainReader ix (.info "d".toList) = .ok (.info (.file 0 [])) := by
  have hfits : ∀ g ∈ flushGroups (max 0 1) sampleRows,
      textBytes (g.map Prod.fst) ≤ maxTextBytes := by
    intro g hg
    rw [flushGroups_sampleRows] at hg
    rcases List.mem_pair.mp hg with rfl | rfl <;> decide
  have hback : ReadsBack plainReader plainWriter packSchema .zstd
      (flushGroups (max 0 1) sampleRows) := by
    apply readsBack_plain
    intro g hg r hr
    have hmem : r ∈ sampleRows := by
      rw [← Grouping.flatten_groups rowSize (max 0 1) sampleRows]
      exact List.mem_flatten.mpr ⟨g, hg, hr⟩
    simp only [sampleRows, List.mem_cons, List.not_mem_nil, or_false] at hmem
    rcases hmem with rfl | rfl | rfl <;> simp
  have htmp : sampleFiles.isDir (tmpName "o".toList) = false := rfl
  have hout : sampleFiles.isDir "o".toList = false := rfl
  obtain ⟨fs, bytes, hexec, hread, hopen⟩ := pack_roundtrip expandNothing .zstd 0
    isStored_sampleRows (by decide) hfits hback htmp hout
  have hserves : Serves (localOnly fs) "o".toList "o".toList bytes :=
    serves_localAdapter rfl rfl (by decide) rfl hread
  obtain ⟨ix, hbuild, hkeys, hrows⟩ := hopen (localOnly fs) _ _ hserves .error
  refine ⟨fs, ix, hexec, hbuild, hkeys, ?_, ?_⟩
  · exact (hrows ("b/c".toList, [3]) (by simp [sampleRows])).1
  · exact (hrows ("d".toList, []) (by simp [sampleRows])).2

end ParquetFileFs
