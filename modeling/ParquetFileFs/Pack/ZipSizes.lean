import ParquetFileFs.Pack.RoundTrip
import ParquetFileFs.Pack.Partition

/-!
# Declared sizes in a zip

Before the data of a zip entry is read, a vector is made of the size that the
entry declares.  A vector takes no capacity beyond `maxCapacity`, so an entry
that is reached and declares more makes the packer panic; and where there is no
memory for the vector, the process is aborted.

## Main definitions

* `undeclaredSizes` — the same libraries, with all declared sizes zero.
* `SizesHarmless` — the packer does not panic, asks for no more memory than there
  is, and does what it would do if no sizes were declared.
* `CapacitiesFit` — no entry that is reached asks for too much.

## Main results

* `wp_packZipEntry_fits` — what becomes of one entry that does not ask for too much.
* `harmed_packEach_zip` — an entry that asks for too much is reached.
* `sizesHarmless_iff` — **declared sizes do no harm exactly when no entry that is
  reached asks for too much.**
-/

namespace ParquetFileFs

open Program

/-- The entry, with no size declared. -/
def ZipEntry.undeclared (e : ZipEntry) : ZipEntry := { e with size := 0 }

/-- The libraries, with no size declared in a zip. -/
def undeclaredSizes (libs : ArchiveLibs) : ArchiveLibs :=
  { libs with zip := fun bs =>
      (libs.zip bs).map fun entries => entries.map fun e => e.map ZipEntry.undeclared }

/-- The call, with no memory asked for. -/
def forgetSize : FileEvent → FileEvent
  | ⟨.alloc _, _⟩ => ⟨.alloc 0, ()⟩
  | e => e

/-- A call that asks for memory asks for no more than `mem`. -/
def TakesAtMost (mem : ℕ) : World (FsOp Str UInt8) (FsOp.Res Str) Files :=
  fun o _ _ _ => ∀ n, o = .alloc n → n ≤ mem

/-- A call that asks for no memory. -/
def TakesNone : World (FsOp Str UInt8) (FsOp.Res Str) Files :=
  fun o _ _ _ => ∀ n, o ≠ .alloc n

/-- Packing the entries of a zip, where memory for `mem` bytes can be had: no run,
finished or not, asks for more, and no finished run panics or differs from what it
is without declared sizes. -/
def SizesHarmless (W : ParquetWriter)
    (expand : Files → Str → Except Str (List (Except (Str × Str) Str))) (mem : ℕ)
    (libs : ArchiveLibs) (archive : Str) (w : PackWriter) (fs : Files) : Prop :=
  (∀ es fs' p, Run (fsWorld expand) fs (packZipEntries W libs archive w) es fs' p →
    ∀ n, ⟨.alloc n, ()⟩ ∈ es → n ≤ mem) ∧
  ∀ es fs' r, Run (fsWorld expand) fs (packZipEntries W libs archive w) es fs' (.ret r) →
    r ≠ .error .panic ∧
      Run (fsWorld expand) fs (packZipEntries W (undeclaredSizes libs) archive w)
        (es.map forgetSize) fs' (.ret r)

/-- A regular file with an acceptable name declares what a vector takes and memory
can be had for, and its path fits in the column of the row group, if it is a new one. -/
def EntryFits (limit mem : ℕ) (rows : List Row) (e : ZipEntry) : Prop :=
  ∀ stored, e.isFile = true → entryStoredPath e.name = .ok stored →
    e.size ≤ maxCapacity ∧ e.size ≤ mem ∧
      ∀ data, e.data = .ok data → stored ∉ rows.map Prod.fst →
        textBytes (((Grouping.cut rowSize limit rows).2 ++ [(stored, data)]).map Prod.fst) ≤
          maxTextBytes

/-- Every entry that is reached fits: those before it can be read, and give new rows. -/
def CapacitiesFit (limit mem : ℕ) (rows : List Row) (entries : List (Except Str ZipEntry)) :
    Prop :=
  ∀ pre e post new, entries = pre ++ .ok e :: post →
    allRows (fun e => e.toOption.bind zipRows) pre = some new →
    ((rows ++ new).map Prod.fst).Nodup → EntryFits limit mem (rows ++ new) e

/-- The run without faults panics, or asks for more memory than there is. -/
def Harmed (expand : Files → Str → Except Str (List (Except (Str × Str) Str))) (mem : ℕ)
    (p : FileM PackWriter) (fs : Files) : Prop :=
  (exec (fsHandler expand) p fs).1 = .error .panic ∨
    ∃ n, mem < n ∧ ⟨.alloc n, ()⟩ ∈ trace (fsHandler expand) p fs

section Zip

variable {W : ParquetWriter} {out : Str} {opts : PackOptions} {fs fs' fs₀ : Files} {w : PackWriter}
  {rows : List Row} {es : List FileEvent} {archive : Str} {mem : ℕ}
  {expand : Files → Str → Except Str (List (Except (Str × Str) Str))}

/-! ### One entry -/

/-- An entry that can be read is skipped, or is a file with a name and data. -/
theorem zipRows_eq_some {e : ZipEntry} {n : List Row} (h : zipRows e = some n) :
    (¬e.isFile = true ∧ n = []) ∨ ∃ stored data, e.isFile = true ∧
      entryStoredPath e.name = .ok stored ∧ e.data = .ok data ∧ n = [(stored, data)] := by
  rcases of_entryRows h with ⟨hfile, rfl⟩ | ⟨hfile, n, stored, d, hname, hstored, hdata, rfl⟩
  · exact Or.inl ⟨by simp [hfile], rfl⟩
  · cases hname
    exact Or.inr ⟨stored, d, hfile, hstored, hdata, rfl⟩

theorem capacitiesFit_head {limit : ℕ} {e : ZipEntry} {entries : List (Except Str ZipEntry)}
    (h : CapacitiesFit limit mem rows (.ok e :: entries)) (hnodup : (rows.map Prod.fst).Nodup) :
    EntryFits limit mem rows e := by
  have hfits := h [] e entries [] rfl rfl (by simpa using hnodup)
  rwa [List.append_nil] at hfits

theorem capacitiesFit_tail {limit : ℕ} {e : ZipEntry} {entries : List (Except Str ZipEntry)}
    {n : List Row} (h : CapacitiesFit limit mem rows (.ok e :: entries)) (hn : zipRows e = some n) :
    CapacitiesFit limit mem (rows ++ n) entries := by
  intro pre e' post new hsplit hnew hnodup
  rw [List.append_assoc] at hnodup ⊢
  exact h (.ok e :: pre) e' post (n ++ new) (by rw [hsplit]; rfl)
    (allRows_cons (f := fun e : Except Str ZipEntry => e.toOption.bind zipRows) hn hnew) hnodup

/-- Calls that ask for no memory are the same without sizes. -/
theorem map_forgetSize (h : Chain TakesNone fs es fs') : es.map forgetSize = es := by
  have hnone := h.forall_mem (P := fun e => forgetSize e = e) fun o s r s' hstep => by
    cases o with
    | alloc n => exact absurd rfl (hstep n)
    | _ => rfl
  rw [List.map_congr_left hnone, List.map_id']

/-- What the library gave is used, or the whole fails with an error. -/
theorem wp_fromLibrary_andThen {α β : Type} {G : World (FsOp Str UInt8) (FsOp.Res Str) Files}
    {bad : Str → FsError} {x : Except Str α} {f : α → FileM β} {P : Outcome β → Prop}
    (hG : ∀ s r s', G .poll s r s') (herr : ∀ e, P (.error (.err e)))
    (hok : ∀ a, x = .ok a → wp (fsWorld expand) G (f a) (fun r _ _ => P r) fs) :
    wp (fsWorld expand) G ((fromLibrary bad x).andThen f) (fun r _ _ => P r) fs := by
  intro r s' hW
  have hsame : s' = fs := hW
  subst hsame
  refine ⟨hG _ _ _, ?_⟩
  cases r with
  | error e => exact herr _
  | ok u =>
    cases x with
    | error e => exact herr _
    | ok a => exact hok a rfl

theorem wp_flushRowGroup_ne_panic :
    wp (fsWorld expand) TakesNone (w.flushRowGroup W) (fun r _ _ => r ≠ .error .panic) fs := by
  rw [PackWriter.flushRowGroup]
  split
  · simp
  · cases w.writer with
    | none => simp
    | some aw =>
      intro r fs₁ _
      refine ⟨by simp [TakesNone], ?_⟩
      cases r with
      | error e => exact fun h => by cases h
      | ok u =>
        intro r fs₂ _
        refine ⟨by simp [TakesNone], ?_⟩
        cases r <;> exact fun h => by cases h

/-- An append of a path that fits does not panic. -/
theorem wp_append_ne_panic {stored : Str} {content : Bytes}
    (hfits : stored ∉ w.seen → textBytes (w.paths ++ [stored]) ≤ maxTextBytes) :
    wp (fsWorld expand) TakesNone (w.append W stored content) (fun r _ _ => r ≠ .error .panic)
      fs := by
  rw [PackWriter.append]
  split
  · simp
  · next hnew =>
    rw [if_neg (not_lt.mpr (hfits hnew))]
    split
    · exact wp_flushRowGroup_ne_panic
    · simp

/-- The data of an entry whose path fits is packed without a panic. -/
theorem wp_data_ne_panic {bad : Str → FsError} {stored : Str} {data : Except Str Bytes}
    (hfits : ∀ content, data = .ok content → stored ∉ w.seen →
      textBytes (w.paths ++ [stored]) ≤ maxTextBytes) :
    wp (fsWorld expand) TakesNone
      ((fromLibrary bad data).andThen fun content => w.append W stored content)
      (fun r _ _ => r ≠ .error .panic) fs :=
  wp_fromLibrary_andThen (fun _ _ _ n h => by cases h) (by simp) fun content hdata =>
    wp_append_ne_panic (hfits content hdata)

/-- What an entry that fits says in the terms of the writer. -/
theorem EntryFits.seen {limit : ℕ} {h : ℕ} {e : ZipEntry} {stored : Str}
    (hfits : EntryFits limit mem rows e)
    (hbuf : w.Buffers h (Grouping.cut rowSize limit rows).1 (Grouping.cut rowSize limit rows).2
      rows) (hfile : e.isFile = true) (hstored : entryStoredPath e.name = .ok stored)
    (data : Bytes) (hdata : e.data = .ok data) (hnew : stored ∉ w.seen) :
    textBytes (w.paths ++ [stored]) ≤ maxTextBytes := by
  rw [hbuf.mem_seen] at hnew
  have hle := (hfits stored hfile hstored).2.2 data hdata hnew
  rwa [List.map_append, ← hbuf.paths] at hle

theorem wp_packZipEntry_ne_panic {entry : Except Str ZipEntry} {i : ℕ}
    (hw : PackingRows W fs₀ out opts rows w fs)
    (hfits : ∀ e, entry = .ok e → EntryFits (max opts.maxRowGroupBytes 1) mem rows e) :
    wp (fsWorld expand) (TakesAtMost mem) (packZipEntry W archive w (entry, i))
      (fun r _ _ => r ≠ .error .panic) fs := by
  obtain ⟨h, hbuf, -⟩ := hw.buffers
  refine wp_fromLibrary_andThen (fun _ _ _ n h => by cases h) (by simp) fun e he => ?_
  by_cases hfile : e.isFile = true
  · rw [if_neg (by simpa using hfile)]
    cases hstored : entryStoredPath e.name with
    | error err => exact fun h => by cases h
    | ok stored =>
      obtain ⟨hcap, hmem, -⟩ := hfits e he stored hfile hstored
      rw [lift_ok, ret_ok_andThen, if_neg (not_lt.mpr hcap)]
      intro r fs₁ hW
      have hsame : fs₁ = fs := hW
      subst hsame
      refine ⟨fun n hn => by cases hn; exact hmem, ?_⟩
      exact wp_weaken (fun o s r s' hnone n hn => absurd hn (hnone n))
        (wp_data_ne_panic fun data hdata hnew =>
          (hfits e he).seen hbuf hfile hstored data hdata hnew)
  · rw [if_pos (by simpa using hfile)]
    simp

/-- **What becomes of an entry that fits**: it is packed, or fails without a panic. -/
theorem wp_packZipEntry_fits {entry : Except Str ZipEntry} {i : ℕ}
    (hw : PackingRows W fs₀ out opts rows w fs)
    (hfits : ∀ e, entry = .ok e → EntryFits (max opts.maxRowGroupBytes 1) mem rows e) :
    wp (fsWorld expand) (TakesAtMost mem) (packZipEntry W archive w (entry, i))
      (fun r _ fs' => r ≠ .error .panic ∧ ∀ w', r = .ok w' → ∃ e n, entry = .ok e ∧
        zipRows e = some n ∧ PackingRows W fs₀ out opts (rows ++ n) w' fs') fs := by
  obtain ⟨h, hpacking⟩ := (packing_iff expand).mp hw
  refine wp_mono ?_ (wp_and (wp_packZipEntry_ne_panic hw hfits)
    (Stages.wp_packZipEntry (entry, i) hpacking))
  intro r es fs' ⟨hne, hr⟩
  refine ⟨hne, fun w' hok => ?_⟩
  subst hok
  obtain ⟨n, hn, hw'⟩ := hr
  cases entry with
  | error err => cases hn
  | ok e => exact ⟨e, n, rfl, hn, (packing_iff expand).mpr ⟨h, hw'⟩⟩

/-- What a library gave, and what it would have given. -/
theorem mimics_fromLibrary {α β : Type} {bad : Str → FsError} {x : Except Str α} (g : α → α)
    {f f' : α → FileM β}
    (hok : ∀ a, x = .ok a → Mimics (fsWorld expand) forgetSize (f a) (f' (g a)) fs) :
    Mimics (fsWorld expand) forgetSize ((fromLibrary bad x).andThen f)
      ((fromLibrary bad (x.map g)).andThen f') fs := by
  refine .call fun r s' hW => ⟨r, rfl, hW, ?_⟩
  have hsame : s' = fs := hW
  subst hsame
  cases r with
  | error e => exact .ret _ _ _
  | ok u =>
    cases x with
    | error e => exact .ret _ _ _
    | ok a => exact hok a rfl

/-- Without its declared size an entry that fits is packed the same. -/
theorem mimics_packZipEntry {entry : Except Str ZipEntry} {i : ℕ}
    (hw : PackingRows W fs₀ out opts rows w fs)
    (hfits : ∀ e, entry = .ok e → EntryFits (max opts.maxRowGroupBytes 1) mem rows e) :
    Mimics (fsWorld expand) forgetSize (packZipEntry W archive w (entry, i))
      (packZipEntry W archive w (entry.map ZipEntry.undeclared, i)) fs := by
  obtain ⟨h, hbuf, -⟩ := hw.buffers
  refine mimics_fromLibrary ZipEntry.undeclared fun e he => ?_
  by_cases hfile : e.isFile = true
  · rw [if_neg (by simpa using hfile), if_neg (by simpa [ZipEntry.undeclared] using hfile)]
    change Mimics _ _ ((Program.ret (lift (entryStoredPath e.name))).andThen _)
      ((Program.ret (lift (entryStoredPath e.name))).andThen _) fs
    cases hstored : entryStoredPath e.name with
    | error err => exact .ret _ _ _
    | ok stored =>
      rw [lift_ok, ret_ok_andThen, ret_ok_andThen,
        if_neg (not_lt.mpr (hfits e he stored hfile hstored).1),
        if_neg (by simp [ZipEntry.undeclared])]
      refine .call fun r s' hW => ⟨(), rfl, hW, .refl fun es fs' r hrun => ?_⟩
      exact map_forgetSize (chain_of_run (wp_data_ne_panic fun data hdata hnew =>
        (hfits e he).seen hbuf hfile hstored data hdata hnew) hrun)
  · rw [if_pos (by simpa using hfile), if_pos (by simpa [ZipEntry.undeclared] using hfile)]
    exact .ret _ _ _

/-! ### All entries -/

/-- Where every entry that is reached fits, nothing panics. -/
theorem wp_packEach_zip {entries : List (Except Str ZipEntry)} {i : ℕ}
    (hw : PackingRows W fs₀ out opts rows w fs)
    (hfits : CapacitiesFit (max opts.maxRowGroupBytes 1) mem rows entries) :
    wp (fsWorld expand) (TakesAtMost mem) (packEach (packZipEntry W archive) w (entries.zipIdx i))
      (fun r _ _ => r ≠ .error .panic) fs := by
  induction entries generalizing w rows fs i with
  | nil => simp [packEach]
  | cons entry entries ih =>
    rw [List.zipIdx_cons, packEach]
    obtain ⟨h, hbuf, -⟩ := hw.buffers
    have hhead : ∀ e, entry = .ok e → EntryFits (max opts.maxRowGroupBytes 1) mem rows e := by
      rintro e rfl
      exact capacitiesFit_head hfits hbuf.nodup
    apply wp_andThen
    refine wp_mono (fun r es fs' hr => ?_) (wp_packZipEntry_fits hw hhead)
    cases r with
    | error e => exact hr.1
    | ok w' =>
      obtain ⟨e, n, rfl, hn, hw'⟩ := hr.2 w' rfl
      exact ih hw' (capacitiesFit_tail hfits hn)

/-- Where every entry that is reached fits, the declared sizes make no difference. -/
theorem mimics_packEach_zip {entries : List (Except Str ZipEntry)} {i : ℕ}
    (hw : PackingRows W fs₀ out opts rows w fs)
    (hfits : CapacitiesFit (max opts.maxRowGroupBytes 1) mem rows entries) :
    Mimics (fsWorld expand) forgetSize (packEach (packZipEntry W archive) w (entries.zipIdx i))
      (packEach (packZipEntry W archive) w
        ((entries.map fun e => e.map ZipEntry.undeclared).zipIdx i)) fs := by
  induction entries generalizing w rows fs i with
  | nil => exact .ret _ _ _
  | cons entry entries ih =>
    rw [List.map_cons, List.zipIdx_cons, List.zipIdx_cons, packEach, packEach]
    obtain ⟨h, hbuf, -⟩ := hw.buffers
    have hhead : ∀ e, entry = .ok e → EntryFits (max opts.maxRowGroupBytes 1) mem rows e := by
      rintro e rfl
      exact capacitiesFit_head hfits hbuf.nodup
    refine (mimics_packZipEntry hw hhead).andThen fun es fs' w' hrun => ?_
    obtain ⟨e, n, rfl, hn, hw'⟩ := (wp_sound (wp_packZipEntry_fits hw hhead) hrun).2 w' rfl
    exact ih hw' (capacitiesFit_tail hfits hn)

/-! ### Harm -/

theorem Harmed.call {o : FsOp Str UInt8} {k : FsOp.Res Str o → FileM PackWriter}
    (h : Harmed expand mem (k (fsHandler expand o fs).1) (fsHandler expand o fs).2) :
    Harmed expand mem (.call o k) fs := by
  refine h.imp (fun hpanic => ?_) fun ⟨n, hn, hmem⟩ => ⟨n, hn, ?_⟩
  · rw [exec_call, hpanic]
  · rw [trace_call]
    exact List.mem_cons_of_mem _ hmem

theorem Harmed.andThen {p : FileM PackWriter} {f : PackWriter → FileM PackWriter}
    (h : Harmed expand mem p fs) : Harmed expand mem (p.andThen f) fs := by
  refine h.imp (fun hpanic => ?_) fun ⟨n, hn, hmem⟩ => ⟨n, hn, ?_⟩
  · rw [exec_andThen_error _ hpanic]
  · rw [Program.andThen, trace_bind]
    exact List.mem_append_left _ hmem

theorem Harmed.after {p : FileM PackWriter} {f : PackWriter → FileM PackWriter} {w' : PackWriter}
    (hp : (exec (fsHandler expand) p fs).1 = .ok w')
    (h : Harmed expand mem (f w') (exec (fsHandler expand) p fs).2) :
    Harmed expand mem (p.andThen f) fs := by
  refine h.imp (fun hpanic => ?_) fun ⟨n, hn, hmem⟩ => ⟨n, hn, ?_⟩
  · rw [exec_andThen _ hp, hpanic]
  · rw [trace_andThen _ hp]
    exact List.mem_append_right _ hmem

/-- What is not a regular file is skipped. -/
theorem exec_packZipEntry_skip {e : ZipEntry} {i : ℕ} (hfile : ¬e.isFile = true) :
    exec (fsHandler expand) (packZipEntry W archive w (.ok e, i)) fs = (.ok w, fs) := by
  change exec _ (if ¬e.isFile then _ else _) fs = _
  rw [if_pos (by simpa using hfile), exec_ret]

variable (archive expand) in
/-- An entry that does not fit does harm. -/
theorem harmed_packZipEntry {e : ZipEntry} {i : ℕ} (hw : PackingRows W fs₀ out opts rows w fs)
    (hbad : ¬EntryFits (max opts.maxRowGroupBytes 1) mem rows e) :
    Harmed expand mem (packZipEntry W archive w (.ok e, i)) fs := by
  obtain ⟨h, hbuf, -⟩ := hw.buffers
  unfold EntryFits at hbad
  push Not at hbad
  obtain ⟨stored, hfile, hstored, hbig⟩ := hbad
  apply Harmed.call
  change Harmed expand mem (if ¬e.isFile then _
    else (Program.ret (lift (entryStoredPath e.name))).andThen _) fs
  rw [if_neg (by simpa using hfile), hstored, lift_ok, ret_ok_andThen]
  by_cases hcap : maxCapacity < e.size
  · rw [if_pos hcap]
    exact Or.inl rfl
  rw [if_neg hcap]
  by_cases hmem : mem < e.size
  · exact Or.inr ⟨e.size, hmem, List.mem_cons_self⟩
  · -- the size is harmless, so the path does not fit in the column
    obtain ⟨data, hdata, hnew, htext⟩ := hbig (not_lt.mp hcap) (not_lt.mp hmem)
    rw [List.map_append, List.map_singleton, ← hbuf.paths] at htext
    apply Harmed.call
    rw [hdata]
    apply Harmed.call
    change Harmed expand mem (w.append W stored data) fs
    rw [PackWriter.append, if_neg (by rwa [hbuf.mem_seen]), if_pos htext]
    exact Or.inl rfl

variable (archive expand) in
/-- An entry that fits and gives new rows is packed. -/
theorem exec_packZipEntry_ok {e : ZipEntry} {i : ℕ} {n : List Row}
    (hw : PackingRows W fs₀ out opts rows w fs)
    (hfits : EntryFits (max opts.maxRowGroupBytes 1) mem rows e) (hn : zipRows e = some n)
    (hnodup : ((rows ++ n).map Prod.fst).Nodup) :
    ∃ w', (exec (fsHandler expand) (packZipEntry W archive w (.ok e, i)) fs).1 = .ok w' ∧
      PackingRows W fs₀ out opts (rows ++ n) w'
        (exec (fsHandler expand) (packZipEntry W archive w (.ok e, i)) fs).2 := by
  rcases zipRows_eq_some hn with ⟨hfile, rfl⟩ | ⟨stored, data, hfile, hstored, hdata, rfl⟩
  · rw [exec_packZipEntry_skip hfile, List.append_nil]
    exact ⟨w, rfl, hw⟩
  · obtain ⟨hcap, -, htext⟩ := hfits stored hfile hstored
    have hexec : exec (fsHandler expand) (packZipEntry W archive w (.ok e, i)) fs =
        exec (fsHandler expand) (w.append W stored data) fs := by
      change exec _ (if ¬e.isFile then _
        else (Program.ret (lift (entryStoredPath e.name))).andThen _) fs = _
      rw [if_neg (by simpa using hfile), hstored, lift_ok, ret_ok_andThen,
        if_neg (not_lt.mpr hcap), hdata]
      rfl
    rw [← List.append_nil (rows ++ [(stored, data)])] at hnodup
    have hnew : stored ∉ rows.map Prod.fst := notMem_of_nodup_append hnodup
    rw [hexec]
    exact exec_append_packing expand hw hnew (htext data hdata hnew)

variable (archive expand) in
/-- What comes before an entry that does not fit is packed, or does harm itself. -/
theorem harmed_packEach_zip {entries : List (Except Str ZipEntry)} {i : ℕ}
    (hw : PackingRows W fs₀ out opts rows w fs)
    (hbad : ¬CapacitiesFit (max opts.maxRowGroupBytes 1) mem rows entries) :
    Harmed expand mem (packEach (packZipEntry W archive) w (entries.zipIdx i)) fs := by
  unfold CapacitiesFit at hbad
  push Not at hbad
  obtain ⟨pre, e, post, new, rfl, hnew, hnodup, hbad⟩ := hbad
  induction pre generalizing w rows fs new i with
  | nil =>
    obtain rfl : new = [] := (Option.some.inj hnew).symm
    rw [List.append_nil] at hbad
    rw [List.nil_append, List.zipIdx_cons, packEach]
    exact (harmed_packZipEntry archive expand hw hbad).andThen
  | cons a pre ih =>
    obtain ⟨n, rest, hn, hrest, rfl⟩ := allRows_cons_eq_some hnew
    rw [← List.append_assoc] at hnodup hbad
    rw [List.cons_append, List.zipIdx_cons, packEach]
    cases a with
    | error err => cases hn
    | ok a =>
      by_cases hfits : EntryFits (max opts.maxRowGroupBytes 1) mem rows a
      · have hnodup' : ((rows ++ n).map Prod.fst).Nodup := by
          rw [List.map_append] at hnodup
          exact hnodup.of_append_left
        obtain ⟨w', hok, hw'⟩ := exec_packZipEntry_ok (i := i) archive expand hw hfits hn hnodup'
        exact .after hok (ih hw' rest hrest hnodup hbad)
      · exact (harmed_packZipEntry archive expand hw hfits).andThen

/-- **Declared sizes do no harm exactly when no entry that is reached asks for too
much.** -/
theorem sizesHarmless_iff {libs : ArchiveLibs} {bs : Bytes} {entries : List (Except Str ZipEntry)}
    (hw : PackingRows W fs₀ out opts rows w fs) (hread : fs.read archive = some bs)
    (hlist : libs.zip bs = .ok entries) :
    SizesHarmless W expand mem libs archive w fs ↔
      ∀ pre e post new, entries = pre ++ .ok e :: post →
        allRows (fun e => e.toOption.bind zipRows) pre = some new →
        ((rows ++ new).map Prod.fst).Nodup →
        EntryFits (max opts.maxRowGroupBytes 1) mem (rows ++ new) e := by
  change _ ↔ CapacitiesFit (max opts.maxRowGroupBytes 1) mem rows entries
  constructor
  · intro ⟨hmem, hsame⟩
    by_contra hbad
    have hharmed : Harmed expand mem (packZipEntries W libs archive w) fs := by
      apply Harmed.call
      simp only [fsHandler, hread]
      change Harmed expand mem ((fromLibrary _ (libs.zip bs)).andThen _) fs
      rw [hlist]
      exact .call (harmed_packEach_zip archive expand hw hbad)
    have hrun := run_trace (fsWorld_fsHandler expand) (packZipEntries W libs archive w) fs
    rcases hharmed with hpanic | ⟨n, hn, hasked⟩
    · exact (hsame _ _ _ hrun).1 hpanic
    · exact absurd (hmem _ _ _ hrun n hasked) (not_le.mpr hn)
  · intro hfits
    have hwp : wp (fsWorld expand) (TakesAtMost mem) (packZipEntries W libs archive w)
        (fun r _ _ => r ≠ .error .panic) fs := by
      intro r fs₁ hW
      refine ⟨by simp [TakesAtMost], ?_⟩
      cases r with
      | error e => exact fun h => by cases h
      | ok bs' =>
        obtain ⟨hread', rfl⟩ := hW
        cases hread'.symm.trans hread
        refine wp_fromLibrary_andThen (fun _ _ _ n hn => by cases hn) (by simp) fun l hl => ?_
        cases hl.symm.trans hlist
        exact wp_packEach_zip hw hfits
    have hsame : Mimics (fsWorld expand) forgetSize (packZipEntries W libs archive w)
        (packZipEntries W (undeclaredSizes libs) archive w) fs := by
      refine .call fun r fs₁ hW => ⟨r, rfl, hW, ?_⟩
      cases r with
      | error e => exact .ret _ _ _
      | ok bs' =>
        obtain ⟨hread', rfl⟩ := hW
        cases hread'.symm.trans hread
        refine mimics_fromLibrary _ fun l hl => ?_
        cases hl.symm.trans hlist
        exact mimics_packEach_zip hw hfits
    refine ⟨fun es fs' p hrun n hn => ?_, fun es fs' r hrun => ⟨wp_sound hwp hrun, ?_⟩⟩
    · exact (chain_of_run hwp hrun).forall_mem (P := fun e => ∀ n, e.1 = .alloc n → n ≤ mem)
        (fun o s r s' hstep => hstep) _ hn n rfl
    · exact hsame es fs' r hrun

end Zip

/-! ### Two archives

Each has the one file `a` with the content `x`; the second declares a size of
`2 ^ 63`. -/

def plainZip : Bytes :=
  [80, 75, 3, 4, 20, 0, 0, 0, 0, 0, 0, 0, 33, 0, 131, 22, 220, 140, 1, 0, 0, 0, 1, 0, 0, 0, 1, 0,
   0, 0, 97, 120, 80, 75, 1, 2, 20, 0, 20, 0, 0, 0, 0, 0, 0, 0, 33, 0, 131, 22, 220, 140, 1, 0, 0,
   0, 1, 0, 0, 0, 1, 0, 0, 0, 0, 0, 0, 0, 0, 0, 0, 0, 0, 0, 0, 0, 0, 0, 97, 80, 75, 5, 6, 0, 0, 0,
   0, 1, 0, 1, 0, 47, 0, 0, 0, 32, 0, 0, 0, 0, 0]

def lyingZip : Bytes :=
  [80, 75, 3, 4, 20, 0, 0, 0, 0, 0, 0, 0, 33, 0, 131, 22, 220, 140, 1, 0, 0, 0, 1, 0, 0, 0, 1, 0,
   0, 0, 97, 120, 80, 75, 1, 2, 45, 0, 45, 0, 0, 0, 0, 0, 0, 0, 33, 0, 131, 22, 220, 140, 1, 0, 0,
   0, 255, 255, 255, 255, 1, 0, 12, 0, 0, 0, 0, 0, 0, 0, 0, 0, 0, 0, 0, 0, 0, 0, 97, 1, 0, 8, 0, 0,
   0, 0, 0, 0, 0, 0, 128, 80, 75, 5, 6, 0, 0, 0, 0, 1, 0, 1, 0, 59, 0, 0, 0, 32, 0, 0, 0, 0, 0]

/-- Libraries that can read the two. -/
def zipLibs : ArchiveLibs where
  zip bs :=
    if bs = plainZip then .ok [.ok ⟨"a".toList, true, 1, .ok [120]⟩]
    else if bs = lyingZip then .ok [.ok ⟨"a".toList, true, 2 ^ 63, .ok [120]⟩]
    else .error []
  gz bs := ⟨bs, none⟩
  bz2 bs := ⟨bs, none⟩
  xz bs := ⟨bs, none⟩
  zst _ := .error []
  tar _ := .error []
  sevenZ _ := .error []
  rar := none

/-- An archive next to an output, and a new writer at work. -/
def besideZip (bs : Bytes) : Files :=
  (exec (fsHandler expandNothing) (PackWriter.create plainWriter "o".toList smallGroups)
    ((FileSystem.empty.put "a.zip".toList bs).put "o".toList [9])).2

theorem declared_size_panics :
    ¬SizesHarmless plainWriter expandNothing (2 ^ 32) zipLibs "a.zip".toList smallWriter
      (besideZip lyingZip) := by
  intro h
  obtain ⟨es, hrun⟩ := run_exec (fsWorld_fsHandler expandNothing)
    (packZipEntries plainWriter zipLibs "a.zip".toList smallWriter) (besideZip lyingZip)
  exact (h.2 _ _ _ hrun).1 rfl

theorem sizesHarmless_sample :
    SizesHarmless plainWriter expandNothing (2 ^ 32) zipLibs "a.zip".toList smallWriter
      (besideZip plainZip) := by
  have hcreate : wp (fsWorld expandNothing) (KeepsOthers "o".toList)
      (PackWriter.create plainWriter "o".toList smallGroups)
      (Begins plainWriter ((FileSystem.empty.put "a.zip".toList plainZip).put "o".toList [9])
        "o".toList smallGroups)
      ((FileSystem.empty.put "a.zip".toList plainZip).put "o".toList [9]) := wp_create
  obtain ⟨es, -, hw⟩ : ∃ es, Begins plainWriter _ "o".toList smallGroups (.ok smallWriter) es
      (besideZip plainZip) := wp_exec (fsWorld_fsHandler expandNothing) hcreate
  have hlist : zipLibs.zip plainZip = .ok [.ok ⟨"a".toList, true, 1, .ok [120]⟩] := by
    simp only [zipLibs, if_pos]
  refine (sizesHarmless_iff hw (by decide) hlist).mpr fun pre e post new hsplit hnew _ => ?_
  -- the one entry has nothing before it
  cases pre with
  | cons a pre => simp at hsplit
  | nil =>
    cases hsplit
    obtain rfl : new = [] := (Option.some.inj hnew).symm
    rintro stored - hstored
    cases hstored
    exact ⟨by decide, by decide, fun data hdata _ => by cases hdata; decide⟩

end ParquetFileFs
