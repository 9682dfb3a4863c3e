import ParquetFileFs.Pack.Partition

/-!
# Unpacking 7z archives in order

The library hands out the entries of a 7z archive block by block and calls back
for each.  A callback that answers `false` ends its block only, so an error of
an entry leaves through the error of the callback, and travels in a variable
beside it.  What this comes to is a loop over all entries in order that stops at
the first error.

## Main definitions

* `pack7zEntryMut`, `pack7zEntriesMut` — the callback and the function, as they
  change the writer in place.
* `inOrder`, `visitEntry` — one after the other up to the first error, and what
  is done with one entry.
* `everythingRead` — reading from a source that is open succeeds.

## Main results

* `pack7zEntries_eq` — in place or not, the function does the same.
* `supply_forEachEntries` — the blocks make no difference.
* `run_pack7zEntriesMut_iff` — **unpacking a 7z archive is visiting its entries in
  order, up to the first error.**
-/

namespace ParquetFileFs

open Program

/-! ### In place -/

/-- The error that ends the library's loops. -/
def carrier : Str := "stopping after entry error".toList

/-- What is called for each entry, as it changes the writer and the first error. -/
def pack7zEntryMut (W : ParquetWriter) (st : PackWriter × Option FsError) (entry : SevenZEntry) :
    FileM ((PackWriter × Option FsError) × Except Str Bool) :=
  .call .poll fun
    | .error e => .ret (.ok (st, .error e))
    | .ok _ =>
        match entry.data with
        | .error e => .ret (.ok (st, .error e))
        | .ok data =>
            if entry.isDirectory then .ret (.ok (st, .ok true))
            else
              match entryStoredPath entry.name with
              | .error e => .ret (.ok ((st.1, some e), .error carrier))
              | .ok stored => (st.1.appendMut W stored data).andThen fun
                  | (w, .ok _) => .ret (.ok ((w, st.2), .ok true))
                  | (w, .error e) => .ret (.ok ((w, some e), .error carrier))

/-- What follows once the archive is open. -/
def extract7z (W : ParquetWriter) (archive : Str) (w : PackWriter)
    (listing : Except Str (List (Except Str (List SevenZEntry)))) : WriterM :=
  attempt (fromLibrary (bad7z archive) listing) (fun e => (w, .error e)) fun blocks =>
    (forEachEntries (pack7zEntryMut W) (w, none) blocks).andThen fun
      -- the error of an entry goes before the one that carried it
      | ((w', some e), _) => .ret (.ok (w', .error e))
      | ((w', none), .error e) => .ret (.ok (w', .error (bad7z archive e)))
      | ((w', none), .ok _) => .ret (.ok (w', .ok ()))

def pack7zEntriesMut (W : ParquetWriter) (libs : ArchiveLibs) (archive : Str) (w : PackWriter) :
    WriterM :=
  .call (.read archive) fun
    | .error e => .ret (.ok (w, .error (bad7z archive e)))
    | .ok bs => extract7z W archive w (libs.sevenZ bs)

/-! ### In order -/

/-- Take a writer through each, up to the first error. -/
def inOrder {α : Type} (step : PackWriter → α → WriterM) : PackWriter → List α → WriterM
  | w, [] => .ret (.ok (w, .ok ()))
  | w, a :: as => (step w a).andThen fun
      | (w', .ok _) => inOrder step w' as
      | (w', .error e) => .ret (.ok (w', .error e))

/-- An entry whose data can be read. -/
structure ReadableEntry where
  name : Str
  isDirectory : Bool
  bytes : Bytes
  deriving DecidableEq, Repr

def ReadableEntry.entry (e : ReadableEntry) : SevenZEntry := ⟨e.name, e.isDirectory, .ok e.bytes⟩

/-- Directories are skipped; other entries are appended under their stored paths. -/
def visitEntry (W : ParquetWriter) (w : PackWriter) (e : ReadableEntry) : WriterM :=
  if e.isDirectory then .ret (.ok (w, .ok ()))
  else
    match entryStoredPath e.name with
    | .error err => .ret (.ok (w, .error err))
    | .ok stored => w.appendMut W stored e.bytes

/-- Reading from a source that is open succeeds. -/
def everythingRead : (o : FsOp Str UInt8) → Option (FsOp.Res Str o)
  | .poll => some (.ok ())
  | _ => none

theorem inOrder_append {α : Type} {step : PackWriter → α → WriterM} (w : PackWriter)
    (as bs : List α) : inOrder step w (as ++ bs) = (inOrder step w as).andThen fun
      | (w', .ok _) => inOrder step w' bs
      | (w', .error e) => .ret (.ok (w', .error e)) := by
  induction as generalizing w with
  | nil => rfl
  | cons a as ih =>
    rw [List.cons_append, inOrder, inOrder, andThen_assoc]
    refine congrArg _ (funext fun res => ?_)
    obtain ⟨w', e | u⟩ := res
    · rfl
    · exact ih w'

/-! ### The callback, where everything is read -/

variable {W : ParquetWriter}

theorem supply_attempt {α β : Type} (p : FileM α) (fail : FsError → β) (next : α → FileM β) :
    supply everythingRead (attempt p fail next) =
      attempt (supply everythingRead p) fail fun a => supply everythingRead (next a) := by
  refine (supply_bind p _).trans (congrArg _ (funext fun r => ?_))
  rcases r with (e | _) | a <;> rfl

/-- Appending reads nothing. -/
theorem supply_appendMut (w : PackWriter) (stored : Str) (content : Bytes) :
    supply everythingRead (w.appendMut W stored content) = w.appendMut W stored content := by
  have hwrite : ∀ out h bs, supply everythingRead (writeBytes out h bs) = writeBytes out h bs := by
    intro out h bs
    refine congrArg (Program.call _) (funext fun r => ?_)
    cases r <;> rfl
  have hflush : ∀ w : PackWriter,
      supply everythingRead (w.flushRowGroupMut W) = w.flushRowGroupMut W := by
    intro w
    rw [PackWriter.flushRowGroupMut]
    split
    · rfl
    · cases w.writer with
      | none => rfl
      | some aw =>
        simp only
        rw [supply_attempt, hwrite]
        refine congrArg _ (funext fun _ => ?_)
        rw [supply_attempt, hwrite]
        rfl
  rw [PackWriter.appendMut]
  split
  · rfl
  split
  · rfl
  split
  · exact hflush _
  · rfl

/-- What the loops make of the result of a visit. -/
def carried {β : Type} (b : β) : PackWriter × Except FsError Unit →
    (PackWriter × Option FsError) × Except Str β
  | (w, .ok _) => ((w, none), .ok b)
  | (w, .error e) => ((w, some e), .error carrier)

theorem supply_pack7zEntryMut (w : PackWriter) (e : ReadableEntry) :
    supply everythingRead (pack7zEntryMut W (w, none) e.entry) =
      (visitEntry W w e).andThen fun res => .ret (.ok (carried true res)) := by
  rw [pack7zEntryMut, supply_call_of_some (show everythingRead .poll = some (.ok ()) from rfl),
    visitEntry]
  obtain ⟨name, isDirectory, bytes⟩ := e
  cases isDirectory with
  | true => rfl
  | false =>
    simp only [ReadableEntry.entry, Bool.false_eq_true, if_false]
    cases entryStoredPath name with
    | error err => rfl
    | ok stored =>
      simp only
      rw [supply_andThen, supply_appendMut]
      refine congrArg _ (funext fun res => ?_)
      obtain ⟨w', e | u⟩ := res <;> rfl

/-- One block is visited in order. -/
theorem supply_forEachInBlock (w : PackWriter) (es : List ReadableEntry) :
    supply everythingRead
        (forEachInBlock (pack7zEntryMut W) (w, none) (es.map ReadableEntry.entry)) =
      (inOrder (visitEntry W) w es).andThen fun res => .ret (.ok (carried () res)) := by
  induction es generalizing w with
  | nil => rfl
  | cons e es ih =>
    rw [List.map_cons, forEachInBlock, supply_andThen, supply_pack7zEntryMut, inOrder,
      andThen_assoc, andThen_assoc]
    refine congrArg _ (funext fun res => ?_)
    obtain ⟨w', err | u⟩ := res
    · rfl
    · exact ih w'

/-- **The blocks make no difference.** -/
theorem supply_forEachEntries (w : PackWriter) (blocks : List (List ReadableEntry)) :
    supply everythingRead (forEachEntries (pack7zEntryMut W) (w, none)
        (blocks.map fun b => .ok (b.map ReadableEntry.entry))) =
      (inOrder (visitEntry W) w blocks.flatten).andThen fun res =>
        .ret (.ok (carried () res)) := by
  induction blocks generalizing w with
  | nil => rfl
  | cons b blocks ih =>
    rw [List.map_cons, forEachEntries,
      supply_call_of_some (show everythingRead .poll = some (.ok ()) from rfl)]
    simp only
    rw [supply_andThen, supply_forEachInBlock, List.flatten_cons, inOrder_append, andThen_assoc,
      andThen_assoc]
    refine congrArg _ (funext fun res => ?_)
    obtain ⟨w', err | u⟩ := res
    · rfl
    · exact ih w'

/-! ### The whole function -/

variable {libs : ArchiveLibs} {archive : Str} {bs : Bytes} {blocks : List (List ReadableEntry)}
  {fs fs' : Files} {w : PackWriter}
  {expand : Files → Str → Except Str (List (Except (Str × Str) Str))}

/-- Once the archive is open, its entries are visited in order. -/
theorem supply_extract7z (archive : Str) :
    supply everythingRead (extract7z W archive w
        (.ok (blocks.map fun b => .ok (b.map ReadableEntry.entry)))) =
      inOrder (visitEntry W) w blocks.flatten := by
  rw [extract7z, supply_attempt]
  change supply everythingRead (Program.andThen _ _) = _
  rw [supply_andThen, supply_forEachEntries, andThen_assoc]
  refine Eq.trans ?_ (andThen_ret _)
  refine congrArg _ (funext fun res => ?_)
  obtain ⟨w', e | u⟩ := res <;> rfl

/-- The calls that were not answers to reading further from an open source. -/
def otherCalls (es : List FileEvent) : List FileEvent :=
  es.filter fun e => (everythingRead e.1).isNone

theorem given_everythingRead_iff {es : List FileEvent} :
    (∀ e ∈ es, Given everythingRead e) ↔ ∀ e, (⟨.poll, .error e⟩ : FileEvent) ∉ es := by
  constructor
  · intro h e hmem
    cases h _ hmem (.ok ()) rfl
  · intro h e hmem r hr
    obtain ⟨o, res⟩ := e
    cases o <;> cases hr
    cases res with
    | ok u => rfl
    | error e => exact absurd hmem (h e)

/-- **Unpacking a 7z archive is visiting its entries in order, up to the first
error**: where all entries can be read, the function leaves the same writer,
returns the same result and makes the same calls, however the entries are split
into blocks. -/
theorem run_pack7zEntriesMut_iff (hread : fs.read archive = some bs)
    (hlist : libs.sevenZ bs = .ok (blocks.map fun b => .ok (b.map ReadableEntry.entry)))
    {r : Outcome (PackWriter × Except FsError Unit)} {es' : List FileEvent} :
    (∃ es, Run (fsWorld expand) fs (pack7zEntriesMut W libs archive w)
        (⟨.read archive, .ok bs⟩ :: es) fs' (.ret r) ∧
        (∀ e, (⟨.poll, .error e⟩ : FileEvent) ∉ es) ∧ otherCalls es = es') ↔
      Run (fsWorld expand) fs (inOrder (visitEntry W) w blocks.flatten) es' fs' (.ret r) := by
  have hgiven : ∀ o r, everythingRead o = some r → ∀ s s' : Files,
      fsWorld expand o s r s' ↔ s' = s := by
    intro o r hr s s'
    cases o <;> cases hr
    exact Iff.rfl
  rw [← supply_extract7z archive, run_supply_iff hgiven]
  simp only [given_everythingRead_iff, otherCalls]
  -- the archive is opened first, and what follows has its bytes
  have hopen : ∀ es, Run (fsWorld expand) fs (pack7zEntriesMut W libs archive w)
      (⟨.read archive, .ok bs⟩ :: es) fs' (.ret r) ↔
      Run (fsWorld expand) fs (extract7z W archive w (libs.sevenZ bs)) es fs' (.ret r) := by
    intro es
    constructor
    · intro hrun
      cases hrun with
      | step hW hrest =>
        rw [hW.2] at hrest
        exact hrest
    · intro hrun
      exact .step ⟨hread, rfl⟩ hrun
  simp only [hopen, hlist]

/-- A 7z archive of two blocks, with the file `a` in the first, and a file whose
name is rejected in the second. -/
def twoBlocks : Bytes :=
  [55, 122, 188, 175, 39, 28, 0, 4, 126, 7, 146, 190, 2, 0, 0, 0, 0, 0, 0, 0, 53, 0, 0, 0, 0, 0, 0,
   0, 85, 112, 243, 159, 120, 121, 1, 4, 6, 0, 2, 9, 1, 1, 0, 7, 11, 2, 0, 1, 1, 0, 1, 1, 0, 12, 1,
   1, 0, 8, 10, 1, 131, 22, 220, 140, 21, 38, 219, 251, 0, 0, 5, 2, 17, 11, 0, 97, 0, 0, 0, 46, 0,
   46, 0, 0, 0, 0, 0]

/-- Its entries. -/
def twoBlocksEntries : List (List ReadableEntry) :=
  [[⟨"a".toList, false, [120]⟩], [⟨"..".toList, false, [121]⟩]]

/-- Libraries that can read this archive. -/
def twoBlocksLibs : ArchiveLibs where
  zip _ := .error []
  gz bs := ⟨bs, none⟩
  bz2 bs := ⟨bs, none⟩
  xz bs := ⟨bs, none⟩
  zst _ := .error []
  tar _ := .error []
  sevenZ bs :=
    if bs = twoBlocks then .ok (twoBlocksEntries.map fun b => .ok (b.map ReadableEntry.entry))
    else .error []
  rar := none

theorem run_pack7zEntriesMut_sample : ∃ es fs',
    Run (fsWorld expandNothing) (FileSystem.empty.put "a.7z".toList twoBlocks)
      (pack7zEntriesMut plainWriter twoBlocksLibs "a.7z".toList smallWriter)
      (⟨.read "a.7z".toList, .ok twoBlocks⟩ :: es) fs'
      (.ret (.ok (smallWriter.push "a".toList [120],
        .error (.pack "archive entry '..' contains a '..' component".toList)))) := by
  have hread : (FileSystem.empty.put "a.7z".toList twoBlocks : Files).read "a.7z".toList =
      some twoBlocks := by decide
  have hlist : twoBlocksLibs.sevenZ twoBlocks =
      .ok (twoBlocksEntries.map fun b => .ok (b.map ReadableEntry.entry)) := by
    simp only [twoBlocksLibs, if_pos]
  have hvisit : inOrder (visitEntry plainWriter) smallWriter twoBlocksEntries.flatten =
      .ret (.ok (smallWriter.push "a".toList [120],
        .error (.pack "archive entry '..' contains a '..' component".toList))) := rfl
  have hrun : Run (fsWorld expandNothing) (FileSystem.empty.put "a.7z".toList twoBlocks)
      (inOrder (visitEntry plainWriter) smallWriter twoBlocksEntries.flatten) []
      (FileSystem.empty.put "a.7z".toList twoBlocks) (.ret (.ok (smallWriter.push "a".toList [120],
        .error (.pack "archive entry '..' contains a '..' component".toList)))) := by
    rw [hvisit]
    exact .refl _ _
  obtain ⟨es, hsame, -⟩ := (run_pack7zEntriesMut_iff hread hlist).mpr hrun
  exact ⟨es, _, hsame⟩

/-! ### In place or not -/

/-- What the callback tells the library's loop of an append. -/
def told (w : PackWriter) (o : Option FsError) :
    Outcome PackWriter → FileM ((PackWriter × Option FsError) × Except Str Bool)
  | .ok w' => .ret (.ok ((w', o), .ok true))
  | .error (.err e) => .ret (.ok ((w, some e), .error carrier))
  | .error .panic => .ret (.error .panic)

/-- The same of an append in place. -/
def toldMut (o : Option FsError) : PackWriter × Except FsError Unit →
    FileM ((PackWriter × Option FsError) × Except Str Bool)
  | (w, .ok _) => .ret (.ok ((w, o), .ok true))
  | (w, .error e) => .ret (.ok ((w, some e), .error carrier))

/-- What follows does not look at the writer once there is an error. -/
def Blind {β γ : Type} (N : (PackWriter × Option FsError) × Except Str β → FileM γ) : Prop :=
  ∀ w w' e c, N ((w, some e), .error c) = N ((w', some e), .error c)

section Blind

variable {γ : Type} {N : (PackWriter × Option FsError) × Except Str Bool → FileM γ}

theorem flushRowGroup_told (hN : Blind N) (w₀ w : PackWriter) (o : Option FsError) :
    Program.andThen (Program.bind (w.flushRowGroup W) (told w₀ o)) N =
      Program.andThen ((w.flushRowGroupMut W).andThen (toldMut o)) N := by
  rw [PackWriter.flushRowGroup, PackWriter.flushRowGroupMut]
  split
  · rfl
  · cases w.writer with
    | none => exact hN _ _ _ _
    | some aw =>
      refine congrArg (Program.call _) (funext fun r => ?_)
      cases r with
      | error e => exact hN _ _ _ _
      | ok u =>
        refine congrArg (Program.call _) (funext fun r => ?_)
        cases r with
        | error e => exact hN _ _ _ _
        | ok u => rfl

theorem append_told (hN : Blind N) (w : PackWriter) (o : Option FsError) (stored : Str)
    (content : Bytes) :
    Program.andThen (Program.bind (w.append W stored content) (told w o)) N =
      Program.andThen ((w.appendMut W stored content).andThen (toldMut o)) N := by
  rw [PackWriter.append, PackWriter.appendMut]
  split
  · rfl
  split
  · rfl
  split
  · exact flushRowGroup_told hN w _ o
  · rfl

theorem pack7zEntry_told (hN : Blind N) (st : PackWriter × Option FsError) (entry : SevenZEntry) :
    Program.andThen (pack7zEntry W st entry) N = Program.andThen (pack7zEntryMut W st entry) N := by
  refine congrArg (Program.call _) (funext fun r => ?_)
  cases r with
  | error e => rfl
  | ok u =>
    obtain ⟨name, isDirectory, data⟩ := entry
    cases data with
    | error e => rfl
    | ok data =>
      cases isDirectory with
      | true => rfl
      | false =>
        simp only [Bool.false_eq_true, if_false]
        cases entryStoredPath name with
        | error e => rfl
        | ok stored => exact append_told hN st.1 st.2 stored data

end Blind

theorem forEachInBlock_told {γ : Type}
    {N : (PackWriter × Option FsError) × Except Str Unit → FileM γ} (hN : Blind N)
    (st : PackWriter × Option FsError) (es : List SevenZEntry) :
    Program.andThen (forEachInBlock (pack7zEntry W) st es) N =
      Program.andThen (forEachInBlock (pack7zEntryMut W) st es) N := by
  induction es generalizing st with
  | nil => rfl
  | cons e es ih =>
    rw [forEachInBlock, forEachInBlock, andThen_assoc, andThen_assoc]
    -- the loop goes on from a writer and looks at no writer of an error
    refine Eq.trans (pack7zEntry_told (fun w w' e c => ?_) st e)
      (congrArg _ (funext fun res => ?_))
    · exact hN w w' e c
    · obtain ⟨st', e | b⟩ := res
      · rfl
      · cases b
        · rfl
        · exact ih st'

theorem forEachEntries_told {γ : Type}
    {N : (PackWriter × Option FsError) × Except Str Unit → FileM γ} (hN : Blind N)
    (st : PackWriter × Option FsError) (blocks : List (Except Str (List SevenZEntry))) :
    Program.andThen (forEachEntries (pack7zEntry W) st blocks) N =
      Program.andThen (forEachEntries (pack7zEntryMut W) st blocks) N := by
  induction blocks generalizing st with
  | nil => rfl
  | cons block blocks ih =>
    refine congrArg (Program.call _) (funext fun r => ?_)
    cases r with
    | error e => rfl
    | ok u =>
      cases block with
      | error e => rfl
      | ok es =>
        change Program.andThen (Program.andThen _ _) N = Program.andThen (Program.andThen _ _) N
        rw [andThen_assoc, andThen_assoc]
        refine Eq.trans (forEachInBlock_told (fun w w' e c => ?_) st es)
          (congrArg _ (funext fun res => ?_))
        · exact hN w w' e c
        · obtain ⟨st', e | u⟩ := res
          · rfl
          · exact ih st'

/-- **In place or not, the function does the same.** -/
theorem pack7zEntries_eq (libs : ArchiveLibs) (archive : Str) (w : PackWriter) :
    pack7zEntries W libs archive w = (pack7zEntriesMut W libs archive w).andThen taken := by
  refine congrArg (Program.call _) (funext fun r => ?_)
  cases r with
  | error e => rfl
  | ok bs =>
    change _ = Program.andThen (extract7z W archive w (libs.sevenZ bs)) taken
    rw [extract7z, attempt_andThen (f := taken) _ _ _ fun e => rfl]
    refine congrArg (Program.andThen (fromLibrary (bad7z archive) (libs.sevenZ bs)))
      (funext fun blocks => ?_)
    rw [andThen_assoc]
    refine Eq.trans (forEachEntries_told (fun w w' e c => ?_) (w, none) blocks)
      (congrArg _ (funext fun res => ?_))
    · rfl
    · obtain ⟨⟨w', _ | e⟩, c | u⟩ := res <;> rfl

end ParquetFileFs
