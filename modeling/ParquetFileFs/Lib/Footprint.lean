import ParquetFileFs.Lib.FileSystem

/-!
# The footprint of a call

A call changes the files of some names only, and what it answers depends on the
names it asks for.  File systems that agree on these names answer alike and still
agree afterwards.

## Main definitions

* `FileSystem.AgreeOff` — two file systems agree off a set of names.
* `FsOp.Changes` — the names whose files a call may change.
* `FsOp.Sets` — the names a call sets, whatever they were.
* `FsOp.Avoids` — what a call asks for is not in a set of names.
* `FileSystem.skip` — the same files, with later bodies for new ones.

## Main results

* `agreeOff_of_fsWorld` — a call is not noticed off the names it changes.
* `AgreeOff.answers` — **a call that avoids a set of names answers alike off it.**
-/

variable {Name β E : Type}

namespace FileSystem

/-- The file systems agree on the names that are not in `D`. -/
structure AgreeOff (D : Name → Prop) (fs ft : FileSystem Name β) : Prop where
  names : ∀ p, ¬D p → ft.names p = fs.names p
  body : ∀ p i, ¬D p → fs.names p = some i → ft.body i = fs.body i
  isDir : ft.isDir = fs.isDir

/-- The same files, and bodies are unused from `n` on. -/
def skip (fs : FileSystem Name β) (n : ℕ) : FileSystem Name β where
  names := fs.names
  body := fs.body
  isDir := fs.isDir
  next := max fs.next n
  names_lt h := Nat.lt_of_lt_of_le (fs.names_lt h) (Nat.le_max_left _ _)
  names_inj := fs.names_inj
  names_isDir := fs.names_isDir

/-- The body that creating a file opens. -/
def handle [DecidableEq Name] (fs : FileSystem Name β) (p : Name) : ℕ := (fs.names p).getD fs.next

section Agree

variable {D : Name → Prop} {fs fs' ft : FileSystem Name β} {p : Name} {i : ℕ} {bs : List β}

theorem agreeOff_skip (n : ℕ) : AgreeOff D fs (fs.skip n) :=
  ⟨fun _ _ => rfl, fun _ _ _ _ => rfl, rfl⟩

/-- A name in `D` is not one that is off it. -/
theorem ne_of_off {q : Name} (hp : D p) (hq : ¬D q) : q ≠ p := by
  rintro rfl
  exact hq hp

theorem AgreeOff.refl : AgreeOff D fs fs := ⟨fun _ _ => rfl, fun _ _ _ _ => rfl, rfl⟩

theorem AgreeOff.symm (h : AgreeOff D fs ft) : AgreeOff D ft fs := by
  refine ⟨fun p hp => (h.names p hp).symm, fun p i hp hi => ?_, h.isDir.symm⟩
  rw [h.names p hp] at hi
  exact (h.body p i hp hi).symm

theorem AgreeOff.trans (h : AgreeOff D fs fs') (h' : AgreeOff D fs' ft) : AgreeOff D fs ft := by
  refine ⟨fun p hp => (h'.names p hp).trans (h.names p hp), fun p i hp hi => ?_,
    h'.isDir.trans h.isDir⟩
  have hi' : fs'.names p = some i := (h.names p hp).trans hi
  exact (h'.body p i hp hi').trans (h.body p i hp hi)

theorem AgreeOff.mono {D' : Name → Prop} (h : AgreeOff D fs ft) (hD : ∀ p, D p → D' p) :
    AgreeOff D' fs ft :=
  ⟨fun p hp => h.names p (mt (hD p) hp), fun p i hp => h.body p i (mt (hD p) hp), h.isDir⟩

theorem AgreeOff.read (h : AgreeOff D fs ft) (hp : ¬D p) : ft.read p = fs.read p := by
  rw [FileSystem.read, FileSystem.read, h.names p hp]
  cases hi : fs.names p with
  | none => rfl
  | some i => rw [Option.map_some, Option.map_some, h.body p i hp hi]

theorem AgreeOff.kind (h : AgreeOff D fs ft) (hp : ¬D p) : ft.kind p = fs.kind p := by
  rw [FileSystem.kind, FileSystem.kind, h.names p hp, h.isDir]

/-! ### What is not noticed -/

theorem agreeOff_append (h : ∀ q, fs.names q = some i → D q) : AgreeOff D fs (fs.append i bs) := by
  refine ⟨fun _ _ => rfl, fun p k hp hk => ?_, rfl⟩
  have hki : k ≠ i := by
    rintro rfl
    exact hp (h p hk)
  rw [body_append, Function.update_of_ne hki]

variable [DecidableEq Name]

theorem agreeOff_create (h : fs.create p = some (i, fs')) (hp : D p) : AgreeOff D fs fs' := by
  refine ⟨fun q hq => ?_, fun q k hq hk => ?_, isDir_create h⟩
  · rw [names_create h, Function.update_of_ne (ne_of_off hp hq)]
  · have hki : k ≠ i := by
      rintro rfl
      exact names_ne_of_create h (ne_of_off hp hq) hk
    rw [body_create h, Function.update_of_ne hki]

theorem agreeOff_remove (hp : D p) : AgreeOff D fs (fs.remove p) :=
  ⟨fun _ hq => Function.update_of_ne (ne_of_off hp hq) .., fun _ _ _ _ => rfl, rfl⟩

theorem names_rename {a b : Name} (h : fs.rename a b = some fs') (q : Name) :
    fs'.names q = if q = b then fs.names a else if q = a then none else fs.names q := by
  unfold rename at h
  split at h
  · cases h
  · split at h
    · cases h
    · next i hi =>
      cases h
      simp only [hi]

theorem body_rename {a b : Name} (h : fs.rename a b = some fs') : fs'.body = fs.body := by
  unfold rename at h
  split at h
  · cases h
  · split at h <;> cases h
    rfl

theorem agreeOff_rename {a b : Name} (h : fs.rename a b = some fs') (ha : D a) (hb : D b) :
    AgreeOff D fs fs' := by
  refine ⟨fun q hq => ?_, fun q k _ _ => by rw [body_rename h], isDir_rename h⟩
  rw [names_rename h, if_neg (ne_of_off hb hq), if_neg (ne_of_off ha hq)]

theorem handle_of_create (h : fs.create p = some (i, fs')) : i = fs.handle p := by
  unfold create at h
  split at h
  · cases h
  · split at h
    · next k hk =>
      cases h
      rw [handle, hk]
      rfl
    · next hk =>
      cases h
      rw [handle, hk]
      rfl

theorem isDir_of_create (h : fs.create p = some (i, fs')) : fs.isDir p = false := by
  by_contra hd
  rw [Bool.not_eq_false] at hd
  rw [create, dif_pos hd] at h
  cases h

theorem isDir_of_rename {a b : Name} (h : fs.rename a b = some fs') : fs.isDir b = false := by
  by_contra hd
  rw [Bool.not_eq_false] at hd
  rw [rename, dif_pos hd] at h
  cases h

/-! ### What is done to both

A name that the call sets is one the file systems agree on afterwards. -/

omit [DecidableEq Name] in
theorem AgreeOff.append (h : AgreeOff D fs ft) (i : ℕ) (bs : List β) :
    AgreeOff D (fs.append i bs) (ft.append i bs) := by
  refine ⟨h.names, fun p k hp hk => ?_, h.isDir⟩
  have hbody := h.body p k hp hk
  rw [body_append, body_append]
  by_cases hki : k = i
  · subst hki
    rw [Function.update_self, Function.update_self, hbody]
  · rw [Function.update_of_ne hki, Function.update_of_ne hki, hbody]

theorem AgreeOff.create (h : AgreeOff D fs ft) (hhandle : ft.handle p = fs.handle p)
    (hcreate : fs.create p = some (i, fs')) :
    ∃ ft', ft.create p = some (i, ft') ∧ AgreeOff (fun q => D q ∧ q ≠ p) fs' ft' := by
  obtain ⟨j, ft', hft⟩ := exists_create (h.isDir ▸ isDir_of_create hcreate)
  obtain rfl : j = i := by rw [handle_of_create hft, handle_of_create hcreate, hhandle]
  refine ⟨ft', hft, fun q hq => ?_, fun q k hq hk => ?_, ?_⟩
  · rw [names_create hft, names_create hcreate]
    by_cases hqp : q = p
    · rw [hqp, Function.update_self, Function.update_self]
    · rw [Function.update_of_ne hqp, Function.update_of_ne hqp, h.names q fun hD => hq ⟨hD, hqp⟩]
  · rw [body_create hft, body_create hcreate]
    by_cases hkj : k = j
    · rw [hkj, Function.update_self, Function.update_self]
    · rw [Function.update_of_ne hkj, Function.update_of_ne hkj]
      rw [names_create hcreate] at hk
      by_cases hqp : q = p
      · rw [hqp, Function.update_self] at hk
        exact absurd (Option.some.inj hk).symm hkj
      · rw [Function.update_of_ne hqp] at hk
        exact h.body q k (fun hD => hq ⟨hD, hqp⟩) hk
  · rw [isDir_create hft, isDir_create hcreate, h.isDir]

theorem AgreeOff.remove (h : AgreeOff D fs ft) (p : Name) :
    AgreeOff (fun q => D q ∧ q ≠ p) (fs.remove p) (ft.remove p) := by
  refine ⟨fun q hq => ?_, fun q k hq hk => ?_, h.isDir⟩
  · by_cases hqp : q = p
    · simp [FileSystem.remove, hqp]
    · simpa [FileSystem.remove, Function.update_of_ne hqp] using h.names q fun hD => hq ⟨hD, hqp⟩
  · by_cases hqp : q = p
    · simp [FileSystem.remove, hqp] at hk
    · have hk' : fs.names q = some k := (Function.update_of_ne hqp ..).symm.trans hk
      exact h.body q k (fun hD => hq ⟨hD, hqp⟩) hk'

theorem AgreeOff.rename (h : AgreeOff D fs ft) {a b : Name} (ha : ¬D a)
    (hrename : fs.rename a b = some fs') :
    ∃ ft', ft.rename a b = some ft' ∧ AgreeOff (fun q => D q ∧ q ≠ b) fs' ft' := by
  obtain ⟨i, hi⟩ := exists_of_rename hrename
  obtain ⟨ft', hft⟩ := exists_rename ((h.names a ha).trans hi) (h.isDir ▸ isDir_of_rename hrename)
  refine ⟨ft', hft, fun q hq => ?_, fun q k hq hk => ?_, ?_⟩
  · rw [names_rename hft, names_rename hrename, h.names a ha]
    by_cases hqb : q = b
    · rw [if_pos hqb, if_pos hqb]
    · rw [if_neg hqb, if_neg hqb, h.names q fun hD => hq ⟨hD, hqb⟩]
  · rw [body_rename hft, body_rename hrename]
    rw [names_rename hrename] at hk
    by_cases hqb : q = b
    · rw [if_pos hqb] at hk
      exact h.body a k ha hk
    · rw [if_neg hqb] at hk
      split_ifs at hk
      exact h.body q k (fun hD => hq ⟨hD, hqb⟩) hk
  · rw [isDir_rename hft, isDir_rename hrename, h.isDir]

end Agree

end FileSystem

/-! ### Calls -/

/-- The names whose files a call may change. -/
def FsOp.Changes (fs : FileSystem Name β) : FsOp Name β → Name → Prop
  | .create p, q => q = p
  | .write i _, q => fs.names q = some i
  | .close i, q => fs.names q = some i
  | .rename a b, q => q = a ∨ q = b
  | .remove p, q => q = p
  | .read _, _ => False
  | .poll, _ => False
  | .alloc _, _ => False
  | .stat _, _ => False
  | .expand _, _ => False

/-- The names that the call sets, whatever they were. -/
def FsOp.Sets : (o : FsOp Name β) → FsOp.Res E o → Name → Prop
  | .create p, .ok _, q => q = p
  | .create _, .error _, _ => False
  | .write _ _, _, _ => False
  | .close _, _, _ => False
  | .rename _ b, .ok _, q => q = b
  | .rename _ _, .error _, _ => False
  | .remove p, _, q => q = p
  | .read _, _, _ => False
  | .poll, _, _ => False
  | .alloc _, _, _ => False
  | .stat _, _, _ => False
  | .expand _, _, _ => False

/-- What the call asks for is not in `D`. -/
def FsOp.Avoids (D : Name → Prop)
    (expand : FileSystem Name β → Name → Except E (List (Except (Name × E) Name)))
    (fs : FileSystem Name β) : FsOp Name β → Prop
  | .create _ => True
  | .write _ _ => True
  | .close _ => True
  | .rename a _ => ¬D a
  | .remove _ => True
  | .read p => ¬D p
  | .poll => True
  | .alloc _ => True
  | .stat p => ¬D p
  | .expand pattern => ∀ ft, fs.AgreeOff D ft → expand ft pattern = expand fs pattern

namespace FileSystem

variable [DecidableEq Name] {D : Name → Prop} {fs fs' ft : FileSystem Name β}
  {expand : FileSystem Name β → Name → Except E (List (Except (Name × E) Name))}
  {o : FsOp Name β} {r : FsOp.Res E o}

/-- A call is not noticed off the names it changes. -/
theorem agreeOff_of_fsWorld (hW : fsWorld expand o fs r fs') (h : ∀ q, o.Changes fs q → D q) :
    AgreeOff D fs fs' := by
  cases o with
  | create p =>
    cases r with
    | ok i => exact agreeOff_create hW (h p rfl)
    | error e => exact hW ▸ .refl
  | write i bs =>
    cases r with
    | ok u => exact (show fs' = fs.append i bs from hW) ▸ agreeOff_append h
    | error e =>
      obtain ⟨bs', -, rfl⟩ := hW
      exact agreeOff_append h
  | close i =>
    obtain ⟨rest, rfl⟩ := hW
    exact agreeOff_append h
  | rename a b =>
    cases r with
    | ok u => exact agreeOff_rename hW (h a (Or.inl rfl)) (h b (Or.inr rfl))
    | error e => exact hW ▸ .refl
  | remove p => exact (show fs' = fs.remove p from hW) ▸ agreeOff_remove (h p rfl)
  | read p =>
    cases r with
    | ok bs => exact hW.2 ▸ .refl
    | error e => exact hW ▸ .refl
  | poll => exact (show fs' = fs from hW) ▸ .refl
  | alloc n => exact (show fs' = fs from hW) ▸ .refl
  | stat p =>
    cases r with
    | ok k => exact hW.2 ▸ .refl
    | error e => exact hW ▸ .refl
  | expand pattern => exact hW.2 ▸ .refl

/-- **A call that avoids a set of names answers alike off it**, if a file that it
creates has the same handle, and the names it sets are no longer in the set. -/
theorem AgreeOff.answers (h : AgreeOff D fs ft) (hW : fsWorld expand o fs r fs')
    (havoids : o.Avoids D expand fs)
    (hhandle : ∀ p i, (⟨o, r⟩ : Event (FsOp Name β) (FsOp.Res E)) = ⟨.create p, .ok i⟩ →
      ft.handle p = fs.handle p) :
    ∃ ft', fsWorld expand o ft r ft' ∧ AgreeOff (fun q => D q ∧ ¬o.Sets r q) fs' ft' := by
  have hsame : ∀ {fs' ft' : FileSystem Name β}, AgreeOff D fs' ft' →
      AgreeOff (fun q => D q ∧ ¬False) fs' ft' :=
    fun hagree => hagree.mono fun q hq => ⟨hq, id⟩
  cases o with
  | create p =>
    cases r with
    | ok i => exact h.create (hhandle p i rfl) hW
    | error e => exact ⟨ft, rfl, (show fs' = fs from hW) ▸ hsame h⟩
  | write i bs =>
    cases r with
    | ok u => exact ⟨_, rfl, (show fs' = fs.append i bs from hW) ▸ hsame (h.append i bs)⟩
    | error e =>
      obtain ⟨bs', hprefix, rfl⟩ := hW
      exact ⟨_, ⟨bs', hprefix, rfl⟩, hsame (h.append i bs')⟩
  | close i =>
    obtain ⟨rest, rfl⟩ := hW
    exact ⟨_, ⟨rest, rfl⟩, hsame (h.append i rest)⟩
  | rename a b =>
    cases r with
    | ok u => exact h.rename havoids hW
    | error e => exact ⟨ft, rfl, (show fs' = fs from hW) ▸ hsame h⟩
  | remove p => exact ⟨_, rfl, (show fs' = fs.remove p from hW) ▸ h.remove p⟩
  | read p =>
    cases r with
    | ok bs => exact ⟨ft, ⟨(h.read havoids).trans hW.1, rfl⟩, hW.2 ▸ hsame h⟩
    | error e => exact ⟨ft, rfl, (show fs' = fs from hW) ▸ hsame h⟩
  | poll => exact ⟨ft, rfl, (show fs' = fs from hW) ▸ hsame h⟩
  | alloc n => exact ⟨ft, rfl, (show fs' = fs from hW) ▸ hsame h⟩
  | stat p =>
    cases r with
    | ok k => exact ⟨ft, ⟨(h.kind havoids).trans hW.1, rfl⟩, hW.2 ▸ hsame h⟩
    | error e => exact ⟨ft, rfl, (show fs' = fs from hW) ▸ hsame h⟩
  | expand pattern =>
    exact ⟨ft, ⟨hW.1.trans (havoids ft h).symm, rfl⟩, hW.2 ▸ hsame h⟩

/-- Bodies in use stay in use. -/
theorem next_le_of_fsWorld (hW : fsWorld expand o fs r fs') : fs.next ≤ fs'.next := by
  cases o with
  | create p =>
    cases r with
    | ok i =>
      have hcreate : fs.create p = some (i, fs') := hW
      unfold create at hcreate
      split at hcreate
      · cases hcreate
      · split at hcreate <;> cases hcreate
        · exact le_rfl
        · exact Nat.le_succ _
    | error e => exact (show fs' = fs from hW) ▸ le_rfl
  | write i bs =>
    cases r with
    | ok u => exact (show fs' = fs.append i bs from hW) ▸ le_rfl
    | error e =>
      obtain ⟨bs', -, rfl⟩ := hW
      exact le_rfl
  | close i =>
    obtain ⟨rest, rfl⟩ := hW
    exact le_rfl
  | rename a b =>
    cases r with
    | ok u =>
      have hrename : fs.rename a b = some fs' := hW
      unfold rename at hrename
      split at hrename
      · cases hrename
      · split at hrename <;> cases hrename
        exact le_rfl
    | error e => exact (show fs' = fs from hW) ▸ le_rfl
  | remove p => exact (show fs' = fs.remove p from hW) ▸ le_rfl
  | read p =>
    cases r with
    | ok bs => exact hW.2 ▸ le_rfl
    | error e => exact (show fs' = fs from hW) ▸ le_rfl
  | poll => exact (show fs' = fs from hW) ▸ le_rfl
  | alloc n => exact (show fs' = fs from hW) ▸ le_rfl
  | stat p =>
    cases r with
    | ok k => exact hW.2 ▸ le_rfl
    | error e => exact (show fs' = fs from hW) ▸ le_rfl
  | expand pattern => exact hW.2 ▸ le_rfl

end FileSystem
