import ParquetFileFs.Pack.Archives

/-!
# The calls that pack, and the rows of archives

A call that packs is a program that makes calls to the file system.  What becomes
of it can be told from the answers: whether it has created its temporary file, and
which rows an archive it has read consists of.

## Main definitions

* `PackCall` — the calls that pack.
* `Creates` — a call has created its temporary file.
* `archiveRows` — the rows of an archive, if all of it can be read and named.
-/

namespace ParquetFileFs

open Program

/-! ### Calls -/

/-- The calls that pack. -/
inductive PackCall
  | ofPairs (pairs : List (Str × Str))
  | ofFiles (paths : List Str) (root : Str)
  | ofGlob (pattern : Str) (root : Option Str)
  | ofArchive (libs : ArchiveLibs) (archive : Str) (format : Option ArchiveFormat)

def PackCall.program (W : ParquetWriter) (out : Str) (opts : PackOptions) :
    PackCall → FileM PackSummary
  | .ofPairs pairs => writePairs W pairs out opts
  | .ofFiles paths root => packFiles W paths root out opts
  | .ofGlob pattern root => packGlob W pattern root out opts
  | .ofArchive libs archive format => packArchive W libs archive format out opts

/-- The calls made along a run. -/
abbrev FileEvent := Event (FsOp Str UInt8) (FsOp.Res Str)

/-! ### The temporary file -/

theorem ne_tmpName (out : Str) : out ≠ tmpName out := by
  intro h
  have hlen := congrArg List.length h
  rw [tmpName, List.length_append] at hlen
  have hpos : 0 < ".tmp".toList.length := by decide
  omega

/-- Some call of the list created the temporary file. -/
def Creates (out : Str) (es : List FileEvent) : Prop :=
  ∃ h : ℕ, (⟨.create (tmpName out), .ok h⟩ : FileEvent) ∈ es

section Creates

variable {out : Str} {es es' : List FileEvent}

theorem creates_append :
    Creates out (es ++ es') ↔ Creates out es ∨ Creates out es' := by
  simp [Creates, exists_or]

theorem not_creates_nil : ¬Creates out [] := by simp [Creates]

theorem not_creates_append (h : ¬Creates out es)
    (h' : ¬Creates out es') : ¬Creates out (es ++ es') := by
  rw [creates_append]
  exact not_or.mpr ⟨h, h'⟩

/-- One call other than a creation creates nothing. -/
theorem not_creates_singleton {e : FileEvent} (h : ∀ p, e.1 ≠ .create p) : ¬Creates out [e] := by
  rintro ⟨i, hmem⟩
  rw [List.mem_singleton] at hmem
  exact h (tmpName out) (by rw [← hmem])

end Creates

/-! ### The rows of an archive -/

/-- The row of an entry, if it is a regular file. -/
def entryRows (isFile : Bool) (name : Except Str Str) (data : Except Str Bytes) :
    Option (List Row) :=
  if isFile then
    match name with
    | .error _ => none
    | .ok n =>
        match entryStoredPath n, data with
        | .ok stored, .ok d => some [(stored, d)]
        | _, _ => none
  else some []

def zipRows (e : ZipEntry) : Option (List Row) := entryRows e.isFile (.ok e.name) e.data

def tarRows (e : TarEntry) : Option (List Row) := entryRows e.isFile e.name e.data

/-- An entry that cannot be read is an error even if it is skipped. -/
def sevenZRows (e : SevenZEntry) : Option (List Row) :=
  e.data.toOption.bind fun d => entryRows (!e.isDirectory) (.ok e.name) (.ok d)

def rarRows (e : RarEntry) : Option (List Row) :=
  e.data.toOption.bind fun d => entryRows e.isFile (.ok e.name) (.ok d)

/-- A file has one row, and anything else has none. -/
theorem of_entryRows {isFile : Bool} {name : Except Str Str} {data : Except Str Bytes}
    {new : List Row} (h : entryRows isFile name data = some new) :
    isFile = false ∧ new = [] ∨
      isFile = true ∧ ∃ n stored d, name = .ok n ∧ entryStoredPath n = .ok stored ∧
        data = .ok d ∧ new = [(stored, d)] := by
  unfold entryRows at h
  cases isFile with
  | false => exact Or.inl ⟨rfl, (Option.some.inj h).symm⟩
  | true =>
    refine Or.inr ⟨rfl, ?_⟩
    cases name with
    | error e => cases h
    | ok n =>
      rcases hstored : entryStoredPath n with e | stored <;> rcases data with e | d <;>
        simp only [hstored, if_true, reduceCtorEq, Option.some.injEq] at h
      exact ⟨n, stored, d, rfl, hstored, rfl, h.symm⟩

/-- What takes a value has one. -/
theorem of_toOption_bind {α β : Type} {x : Except Str α} {f : α → Option β} {b : β}
    (h : x.toOption.bind f = some b) : ∃ a, x = .ok a ∧ f a = some b := by
  cases x with
  | error e => cases h
  | ok a => exact ⟨a, rfl, h⟩

/-- The rows of all entries, if none of them fails. -/
def allRows {α : Type} (rows : α → Option (List Row)) (as : List α) : Option (List Row) :=
  (as.mapM rows).map List.flatten

/-- The rows of what a library lists, if nothing of it fails. -/
def listedRows {α : Type} (rows : α → Option (List Row))
    (entries : Except Str (List (Except Str α))) : Option (List Row) :=
  entries.toOption.bind (allRows fun e => e.toOption.bind rows)

/-- The rows of an archive, if all of it can be read and named. -/
def archiveRows (libs : ArchiveLibs) (fmt : ArchiveFormat) (bs : Bytes) : Option (List Row) :=
  match fmt with
  | .zip => listedRows zipRows (libs.zip bs)
  | .tar => listedRows tarRows (libs.tar ⟨bs, none⟩)
  | .tarGz => listedRows tarRows (libs.tar (libs.gz bs))
  | .tarBz2 => listedRows tarRows (libs.tar (libs.bz2 bs))
  | .tarXz => listedRows tarRows (libs.tar (libs.xz bs))
  | .tarZst => (libs.zst bs).toOption.bind fun reader => listedRows tarRows (libs.tar reader)
  | .rar => libs.rar.bind fun rar => listedRows rarRows (rar bs)
  | .sevenZ => (libs.sevenZ bs).toOption.bind
      (allRows fun block => block.toOption.bind (allRows sevenZRows))

theorem allRows_of_forall₂ {α : Type} {rows : α → Option (List Row)} {as : List α}
    {news : List (List Row)} (h : List.Forall₂ (fun a n => rows a = some n) as news) :
    allRows rows as = some news.flatten := by
  have hmap : as.mapM rows = some news := by
    induction h with
    | nil => rfl
    | cons ha _ ih => simp [List.mapM_cons, ha, ih]
  rw [allRows, hmap]
  rfl

theorem allRows_cons_eq_some {α : Type} {f : α → Option (List Row)} {a : α} {as : List α}
    {rows : List Row} (h : allRows f (a :: as) = some rows) :
    ∃ new rest, f a = some new ∧ allRows f as = some rest ∧ rows = new ++ rest := by
  rw [allRows, Option.map_eq_some_iff] at h
  obtain ⟨news, hnews, rfl⟩ := h
  rw [List.mapM_cons] at hnews
  cases ha : f a with
  | none => simp [ha] at hnews
  | some new =>
    cases has : as.mapM f with
    | none => simp [ha, has] at hnews
    | some rest =>
      simp only [ha, has, Option.bind_eq_bind, Option.bind_some, Option.pure_def,
        Option.some.injEq] at hnews
      subst hnews
      exact ⟨new, rest.flatten, rfl, by rw [allRows, has]; rfl, rfl⟩

theorem allRows_map {α β : Type} (f : α → Option (List Row)) (g : β → α) (bs : List β) :
    allRows f (bs.map g) = allRows (fun b => f (g b)) bs := by
  rw [allRows, allRows, List.mapM_map]
  rfl

/-- The rows of what comes first, and of the rest. -/
theorem allRows_cons {α : Type} {f : α → Option (List Row)} {a : α} {as : List α}
    {n new : List Row} (ha : f a = some n) (has : allRows f as = some new) :
    allRows f (a :: as) = some (n ++ new) := by
  rw [allRows, Option.map_eq_some_iff] at has ⊢
  obtain ⟨news, hnews, rfl⟩ := has
  exact ⟨n :: news, by rw [List.mapM_cons, ha, hnews]; rfl, rfl⟩

/-- Where each contributes one row, the rows are those of each in turn. -/
theorem forall₂_flatten {α : Type} {R : α → Row → Prop} {as : List α} {news : List (List Row)}
    (h : List.Forall₂ (fun a new => ∃ row, new = [row] ∧ R a row) as news) :
    List.Forall₂ R as news.flatten := by
  induction h with
  | nil => exact .nil
  | cons hrow _ ih =>
    obtain ⟨row, rfl, hrow⟩ := hrow
    exact .cons hrow ih

/-- Whatever is related to a list has a partner in it. -/
theorem exists_of_forall₂ {α β : Type} {R : α → β → Prop} {as : List α} {bs : List β}
    (h : List.Forall₂ R as bs) {b : β} (hb : b ∈ bs) : ∃ a ∈ as, R a b := by
  induction h with
  | nil => cases hb
  | cons hr _ ih =>
    rcases List.mem_cons.mp hb with rfl | hb
    · exact ⟨_, List.mem_cons_self, hr⟩
    · obtain ⟨a, ha, hr⟩ := ih hb
      exact ⟨a, List.mem_cons_of_mem _ ha, hr⟩

end ParquetFileFs
