import ParquetFileFs.Lib.Program
import Mathlib.Logic.Function.Basic
import Mathlib.Data.List.Infix

/-!
# A file system of names and file bodies

Names point to file bodies, and an open handle points to a body directly: a
handle keeps writing to its body whatever happens to the name.  No two names
share a body (there are no hard links), so the file system is a map from names
to bytes; `read` is that map.  Directories are names that hold no file and
never change.

Every operation may fail, a failing write having written any initial part of
its bytes; only removing a name, closing a file and taking memory do not answer
with an error.  A successful operation does what its definition on states says.
Closing a file writes what its buffer still holds, as far as that goes: which
bytes these are is not known.  Where there is no memory the process is aborted,
so its run ends there, and is never finished.

## Main definitions

* `FileSystem`, `read`, `kind` — the states, the map from names to bytes, and what
  a name stands for.
* `create`, `append`, `rename`, `remove` — the operations on states.
* `FsOp`, `fsWorld`, `fsHandler` — the calls a program makes, all their
  outcomes, and their outcomes when nothing fails.

## Main results

* `read_create`, `read_append`, `read_rename`, `read_remove` — what each
  operation does to every name.
-/

/-- Names, the bodies they point to, and the names that are directories. -/
structure FileSystem (Name β : Type) where
  /-- The body a name points to. -/
  names : Name → Option ℕ
  /-- The contents of a body. -/
  body : ℕ → List β
  /-- The names that are directories. -/
  isDir : Name → Bool
  /-- Bodies from here on are unused. -/
  next : ℕ
  /-- Names point to bodies in use. -/
  names_lt : ∀ {p i}, names p = some i → i < next
  /-- No two names share a body. -/
  names_inj : ∀ {p q i}, names p = some i → names q = some i → p = q
  /-- A directory is not a file. -/
  names_isDir : ∀ {p i}, names p = some i → isDir p = false

namespace FileSystem

variable {Name β : Type}

/-- The bytes of the file with the given name. -/
def read (fs : FileSystem Name β) (p : Name) : Option (List β) := (fs.names p).map fs.body

/-- Write at the end of an open body. -/
def append (fs : FileSystem Name β) (i : ℕ) (bs : List β) : FileSystem Name β :=
  { fs with body := Function.update fs.body i (fs.body i ++ bs) }

@[simp] theorem names_append (fs : FileSystem Name β) (i : ℕ) (bs : List β) :
    (fs.append i bs).names = fs.names := rfl

@[simp] theorem body_append (fs : FileSystem Name β) (i : ℕ) (bs : List β) :
    (fs.append i bs).body = Function.update fs.body i (fs.body i ++ bs) := rfl

theorem append_nil (fs : FileSystem Name β) (i : ℕ) : fs.append i [] = fs := by
  rw [append, List.append_nil, Function.update_eq_self]

variable [DecidableEq Name]

/-- Empty an existing file, or make a new empty one; the handle is the body.  A
directory cannot be opened for writing. -/
def create (fs : FileSystem Name β) (p : Name) : Option (ℕ × FileSystem Name β) :=
  if hd : fs.isDir p then none
  else match h : fs.names p with
    | some i => some (i, { fs with body := Function.update fs.body i [] })
    | none => some (fs.next,
        { names := Function.update fs.names p (some fs.next)
          body := Function.update fs.body fs.next []
          isDir := fs.isDir
          next := fs.next + 1
          names_lt := by
            intro q i hq
            by_cases hqp : q = p
            · subst hqp
              simp only [Function.update_self, Option.some.injEq] at hq
              omega
            · rw [Function.update_of_ne hqp] at hq
              have := fs.names_lt hq
              omega
          names_inj := by
            intro q q' i hq hq'
            by_cases hqp : q = p <;> by_cases hqp' : q' = p
            · rw [hqp, hqp']
            · rw [hqp, Function.update_self, Option.some.injEq] at hq
              rw [Function.update_of_ne hqp'] at hq'
              have := fs.names_lt hq'
              omega
            · rw [hqp', Function.update_self, Option.some.injEq] at hq'
              rw [Function.update_of_ne hqp] at hq
              have := fs.names_lt hq
              omega
            · rw [Function.update_of_ne hqp] at hq
              rw [Function.update_of_ne hqp'] at hq'
              exact fs.names_inj hq hq'
          names_isDir := by
            intro q i hq
            by_cases hqp : q = p
            · subst hqp; simpa using hd
            · rw [Function.update_of_ne hqp] at hq
              exact fs.names_isDir hq })

/-- The file system without any names. -/
def empty : FileSystem Name β where
  names _ := none
  body _ := []
  isDir _ := false
  next := 0
  names_lt := by simp
  names_inj := by simp
  names_isDir := by simp

/-- The file system in which a name, unless it is a directory, holds the given bytes. -/
def put (fs : FileSystem Name β) (p : Name) (bs : List β) : FileSystem Name β :=
  match fs.create p with
  | some (i, fs') => fs'.append i bs
  | none => fs

/-- Drop a name. -/
def remove (fs : FileSystem Name β) (p : Name) : FileSystem Name β where
  names := Function.update fs.names p none
  body := fs.body
  isDir := fs.isDir
  next := fs.next
  names_lt := by
    intro q i hq
    by_cases hqp : q = p
    · simp [hqp] at hq
    · rw [Function.update_of_ne hqp] at hq
      exact fs.names_lt hq
  names_inj := by
    intro q q' i hq hq'
    by_cases hqp : q = p
    · simp [hqp] at hq
    by_cases hqp' : q' = p
    · simp [hqp'] at hq'
    rw [Function.update_of_ne hqp] at hq
    rw [Function.update_of_ne hqp'] at hq'
    exact fs.names_inj hq hq'
  names_isDir := by
    intro q i hq
    by_cases hqp : q = p
    · simp [hqp] at hq
    · rw [Function.update_of_ne hqp] at hq
      exact fs.names_isDir hq

/-- Move a name onto another in one step, replacing the file that was there. -/
def rename (fs : FileSystem Name β) (a b : Name) : Option (FileSystem Name β) :=
  if hd : fs.isDir b then none
  else match h : fs.names a with
    | none => none
    | some i => some
        { names := fun q => if q = b then some i else if q = a then none else fs.names q
          body := fs.body
          isDir := fs.isDir
          next := fs.next
          names_lt := by
            intro q j hq
            split_ifs at hq with h1 h2
            · cases hq; exact fs.names_lt h
            · exact fs.names_lt hq
          names_inj := by
            intro q q' j hq hq'
            split_ifs at hq hq' with h1 h2 h3 h4 h5
            · rw [h1, h2]
            · cases hq; exact absurd (fs.names_inj hq' h) h3
            · cases hq'; exact absurd (fs.names_inj hq h) h4
            · exact fs.names_inj hq hq'
          names_isDir := by
            intro q j hq
            split_ifs at hq with h1 h2
            · subst h1; simpa using hd
            · exact fs.names_isDir hq }

/-- What a name is. -/
inductive Kind where
  | file
  | dir
  deriving DecidableEq, Repr

/-- What a name is, if it is anything. -/
def kind (fs : FileSystem Name β) (p : Name) : Option Kind :=
  if (fs.names p).isSome then some .file else if fs.isDir p then some .dir else none

omit [DecidableEq Name] in
theorem kind_eq_file_iff {fs : FileSystem Name β} {p : Name} :
    fs.kind p = some .file ↔ fs.read p ≠ none := by
  unfold kind read
  cases fs.names p with
  | none => by_cases hd : fs.isDir p <;> simp [hd]
  | some i => simp

/-! ### What the operations do to every name -/

omit [DecidableEq Name] in
/-- A file is not a directory. -/
theorem isDir_of_read {fs : FileSystem Name β} {p : Name} (h : fs.read p ≠ none) :
    fs.isDir p = false := by
  unfold read at h
  cases hi : fs.names p with
  | none => simp [hi] at h
  | some i => exact fs.names_isDir hi

/-- What is not a directory can be created, anew if it is there. -/
theorem exists_create {fs : FileSystem Name β} {p : Name} (h : fs.isDir p = false) :
    ∃ i fs', fs.create p = some (i, fs') := by
  unfold create
  rw [dif_neg (by simp [h])]
  split <;> exact ⟨_, _, rfl⟩

/-- A file can be moved onto what is not a directory. -/
theorem exists_rename {fs : FileSystem Name β} {a b : Name} {i : ℕ} (ha : fs.names a = some i)
    (hb : fs.isDir b = false) : ∃ fs', fs.rename a b = some fs' := by
  unfold rename
  rw [dif_neg (by simp [hb])]
  split
  · next hnone =>
    rw [hnone] at ha
    cases ha
  · exact ⟨_, rfl⟩

theorem isDir_create {fs fs' : FileSystem Name β} {p : Name} {i : ℕ}
    (h : fs.create p = some (i, fs')) : fs'.isDir = fs.isDir := by
  unfold create at h
  split at h
  · cases h
  · split at h <;> cases h <;> rfl

theorem isDir_rename {fs fs' : FileSystem Name β} {a b : Name} (h : fs.rename a b = some fs') :
    fs'.isDir = fs.isDir := by
  unfold rename at h
  split at h
  · cases h
  · split at h <;> cases h
    rfl

/-- What is moved was there. -/
theorem exists_of_rename {fs fs' : FileSystem Name β} {a b : Name} (h : fs.rename a b = some fs') :
    ∃ i, fs.names a = some i := by
  unfold rename at h
  split at h
  · cases h
  · split at h
    · cases h
    · next i hi => exact ⟨i, hi⟩

theorem names_create {fs fs' : FileSystem Name β} {p : Name} {i : ℕ}
    (h : fs.create p = some (i, fs')) : fs'.names = Function.update fs.names p (some i) := by
  unfold create at h
  split at h
  · exact absurd h (by simp)
  · split at h
    · next j hj =>
      simp only [Option.some.injEq, Prod.mk.injEq] at h
      obtain ⟨rfl, rfl⟩ := h
      rw [← hj, Function.update_eq_self]
    · simp only [Option.some.injEq, Prod.mk.injEq] at h
      obtain ⟨rfl, rfl⟩ := h
      rfl

theorem body_create {fs fs' : FileSystem Name β} {p : Name} {i : ℕ}
    (h : fs.create p = some (i, fs')) : fs'.body = Function.update fs.body i [] := by
  unfold create at h
  split at h
  · exact absurd h (by simp)
  · split at h
    all_goals
      simp only [Option.some.injEq, Prod.mk.injEq] at h
      obtain ⟨rfl, rfl⟩ := h
      rfl

/-- A name other than the created one does not point to the created body. -/
theorem names_ne_of_create {fs fs' : FileSystem Name β} {p q : Name} {i : ℕ}
    (h : fs.create p = some (i, fs')) (hq : q ≠ p) : fs.names q ≠ some i := by
  intro hi
  have hq' : fs'.names q = some i := by rw [names_create h, Function.update_of_ne hq, hi]
  exact hq (fs'.names_inj hq' (by rw [names_create h, Function.update_self]))

theorem read_create {fs fs' : FileSystem Name β} {p : Name} {i : ℕ}
    (h : fs.create p = some (i, fs')) (q : Name) :
    fs'.read q = if q = p then some [] else fs.read q := by
  rw [read, names_create h, body_create h]
  by_cases hq : q = p
  · simp [hq]
  · rw [if_neg hq, Function.update_of_ne hq, read]
    cases hj : fs.names q with
    | none => rfl
    | some j =>
      have hji : j ≠ i := fun e => names_ne_of_create h hq (e ▸ hj)
      rw [Option.map_some, Option.map_some, Function.update_of_ne hji]

theorem read_append {fs : FileSystem Name β} {p : Name} {i : ℕ} (h : fs.names p = some i)
    (bs : List β) (q : Name) :
    (fs.append i bs).read q = if q = p then (fs.read p).map (· ++ bs) else fs.read q := by
  rw [read, names_append, body_append]
  by_cases hq : q = p
  · simp [hq, read, h]
  · rw [if_neg hq, read]
    cases hj : fs.names q with
    | none => rfl
    | some j =>
      have hji : j ≠ i := fun e => hq (fs.names_inj hj (e ▸ h))
      rw [Option.map_some, Option.map_some, Function.update_of_ne hji]

omit [DecidableEq Name] in
/-- Writing through a handle leaves alone what is not the handle's file. -/
theorem read_append_of_ne {fs : FileSystem Name β} {i : ℕ} {q : Name} (h : fs.names q ≠ some i)
    (bs : List β) : (fs.append i bs).read q = fs.read q := by
  rw [read, names_append, body_append, read]
  cases hj : fs.names q with
  | none => rfl
  | some j =>
    have hji : j ≠ i := fun e => h (e ▸ hj)
    rw [Option.map_some, Option.map_some, Function.update_of_ne hji]

theorem read_remove (fs : FileSystem Name β) (p q : Name) :
    (fs.remove p).read q = if q = p then none else fs.read q := by
  by_cases hq : q = p <;> simp [read, remove, hq]

theorem read_rename {fs fs' : FileSystem Name β} {a b : Name} (h : fs.rename a b = some fs')
    (q : Name) : fs'.read q = if q = b then fs.read a else if q = a then none else fs.read q := by
  unfold rename at h
  split at h
  · exact absurd h (by simp)
  · split at h
    · exact absurd h (by simp)
    · next i hi =>
      simp only [Option.some.injEq] at h
      subst h
      simp only [read]
      split_ifs
      · rw [hi]
      · rfl
      · rfl

theorem isDir_put (fs : FileSystem Name β) (p : Name) (bs : List β) :
    (fs.put p bs).isDir = fs.isDir := by
  unfold put
  split
  · next i fs' h =>
    rw [append, isDir_create h]
  · rfl

theorem read_put {fs : FileSystem Name β} {p : Name} (h : fs.isDir p = false) (bs : List β)
    (q : Name) : (fs.put p bs).read q = if q = p then some bs else fs.read q := by
  obtain ⟨i, fs', hcreate⟩ := exists_create h
  have hp : fs'.names p = some i := by rw [names_create hcreate, Function.update_self]
  rw [put, hcreate]
  dsimp only
  rw [read_append hp, read_create hcreate, read_create hcreate]
  split
  · rw [if_pos rfl]
    rfl
  · rfl

end FileSystem

/-! ### Calls on a file system -/

/-- The calls a program makes on a file system. -/
inductive FsOp (Name β : Type) : Type
  /-- Open a file for writing, emptying it. -/
  | create (p : Name)
  /-- Write at the end of an open file. -/
  | write (h : ℕ) (bs : List β)
  /-- Close an open file, writing what is left in its buffer. -/
  | close (h : ℕ)
  /-- Open a file and read all of it. -/
  | read (p : Name)
  /-- Read further from a source that is already open. -/
  | poll
  /-- Take memory for so many bytes. -/
  | alloc (n : ℕ)
  /-- Move a name onto another. -/
  | rename (a b : Name)
  /-- Drop a name. -/
  | remove (p : Name)
  /-- Ask what a name is. -/
  | stat (p : Name)
  /-- Expand a pattern into names. -/
  | expand (pattern : Name)

/-- The response to each call; `E` is the type of errors. -/
def FsOp.Res (E : Type) {Name β : Type} : FsOp Name β → Type
  | .create _ => Except E ℕ
  | .write _ _ => Except E Unit
  | .close _ => Unit
  | .read _ => Except E (List β)
  | .poll => Except E Unit
  | .alloc _ => Unit
  | .rename _ _ => Except E Unit
  | .remove _ => Unit
  | .stat _ => Except E FileSystem.Kind
  | .expand _ => Except E (List (Except (Name × E) Name))

section World

variable {Name β E : Type} [DecidableEq Name]
  (expand : FileSystem Name β → Name → Except E (List (Except (Name × E) Name)))

/-- All outcomes of the calls: success as the operation on states says, or an
error that leaves the state alone, except that a failed write may have written
an initial part of its bytes. -/
def fsWorld : World (FsOp Name β) (FsOp.Res E) (FileSystem Name β)
  | .create p, fs, .ok i, fs' => fs.create p = some (i, fs')
  | .create _, fs, .error _, fs' => fs' = fs
  | .write i bs, fs, .ok _, fs' => fs' = fs.append i bs
  | .write i bs, fs, .error _, fs' => ∃ bs', bs' <+: bs ∧ fs' = fs.append i bs'
  | .close i, fs, _, fs' => ∃ rest, fs' = fs.append i rest
  | .read p, fs, .ok bs, fs' => fs.read p = some bs ∧ fs' = fs
  | .read _, fs, .error _, fs' => fs' = fs
  | .poll, fs, _, fs' => fs' = fs
  | .alloc _, fs, _, fs' => fs' = fs
  | .rename a b, fs, .ok _, fs' => fs.rename a b = some fs'
  | .rename _ _, fs, .error _, fs' => fs' = fs
  | .remove p, fs, _, fs' => fs' = fs.remove p
  | .stat p, fs, .ok k, fs' => fs.kind p = some k ∧ fs' = fs
  | .stat _, fs, .error _, fs' => fs' = fs
  | .expand p, fs, r, fs' => r = expand fs p ∧ fs' = fs

/-- The outcome of each call when nothing fails that need not fail. -/
def fsHandler [Inhabited E] : (o : FsOp Name β) → FileSystem Name β →
    FsOp.Res E o × FileSystem Name β
  | .create p, fs => match fs.create p with
    | some (i, fs') => (.ok i, fs')
    | none => (.error default, fs)
  | .write i bs, fs => (.ok (), fs.append i bs)
  | .close _, fs => ((), fs)
  | .read p, fs => match fs.read p with
    | some bs => (.ok bs, fs)
    | none => (.error default, fs)
  | .poll, fs => (.ok (), fs)
  | .alloc _, fs => ((), fs)
  | .rename a b, fs => match fs.rename a b with
    | some fs' => (.ok (), fs')
    | none => (.error default, fs)
  | .remove p, fs => ((), fs.remove p)
  | .stat p, fs => match fs.kind p with
    | some k => (.ok k, fs)
    | none => (.error default, fs)
  | .expand p, fs => (expand fs p, fs)

theorem fsWorld_fsHandler [Inhabited E] (o : FsOp Name β) (fs : FileSystem Name β) :
    fsWorld expand o fs (fsHandler expand o fs).1 (fsHandler expand o fs).2 := by
  cases o with
  | create p => cases h : fs.create p <;> simp [fsHandler, fsWorld, h]
  | write i bs => simp [fsHandler, fsWorld]
  | close i => exact ⟨[], (fs.append_nil i).symm⟩
  | read p => cases h : fs.read p <;> simp [fsHandler, fsWorld, h]
  | poll => simp [fsHandler, fsWorld]
  | alloc n => simp [fsHandler, fsWorld]
  | rename a b => cases h : fs.rename a b <;> simp [fsHandler, fsWorld, h]
  | remove p => simp [fsHandler, fsWorld]
  | stat p => cases h : fs.kind p <;> simp [fsHandler, fsWorld, h]
  | expand p => exact ⟨rfl, rfl⟩

/-- No call makes or removes a directory. -/
theorem isDir_fsHandler [Inhabited E] (o : FsOp Name β) (fs : FileSystem Name β) :
    (fsHandler expand o fs).2.isDir = fs.isDir := by
  cases o with
  | create p =>
    cases h : fs.create p with
    | none => simp only [fsHandler, h]
    | some r => simpa only [fsHandler, h] using FileSystem.isDir_create h
  | rename a b =>
    cases h : fs.rename a b with
    | none => simp only [fsHandler, h]
    | some fs' => simpa only [fsHandler, h] using FileSystem.isDir_rename h
  | read p => cases h : fs.read p <;> simp only [fsHandler, h]
  | stat p => cases h : fs.kind p <;> simp only [fsHandler, h]
  | write i bs => rfl
  | close i => rfl
  | poll => rfl
  | alloc n => rfl
  | remove p => rfl
  | expand p => rfl

end World
