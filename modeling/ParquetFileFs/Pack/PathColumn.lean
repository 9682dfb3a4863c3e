import ParquetFileFs.Pack.Partition
import ParquetFileFs.Pack.Permuted

/-!
# The column of paths

A writer holds the paths of its rows in one column of text, whose offsets have
32 bits.  It writes a row group once the *contents* are large enough, so nothing
keeps the paths small: rows without contents are held until `append` panics.
Which calls end so depends only on the rows they are given.

## Main definitions

* `newRows` — the rows whose paths are not those of rows before them.
* `AppendCalls` — calls of `append` one after the other, whatever they return.
* `NeverOverflows` — such calls never bring more text into the column than fits.
* `BlocksFit` — the paths of all rows that can be held together fit.
* `Holding`, `NewStep` — the rows a writer was given and those of them that it holds,
  and what becomes of these with one row more.
* `HoldsBlock`, `CanHold` — the rows held after some calls, and the rows that some
  calls lead to.

## Main results

* `holding_cut_of_calls`, `exists_block_of_calls` — what a writer holds after
  calls in which no write failed, and after any calls.
* `neverOverflows_iff` — **the column overflows exactly when the paths of some
  row group do not fit.**
-/

namespace ParquetFileFs

open Program

/-! ### Rows with new paths -/

/-- One more row, unless its path is there already. -/
def addNew (rows : List Row) (r : Row) : List Row :=
  if r.1 ∈ rows.map Prod.fst then rows else rows ++ [r]

/-- The rows whose paths are not those of rows before them. -/
def newRows (rows : List Row) : List Row := rows.foldl addNew []

@[simp] theorem newRows_nil : newRows [] = [] := rfl

theorem newRows_append_singleton (rows : List Row) (r : Row) :
    newRows (rows ++ [r]) = addNew (newRows rows) r := by
  simp [newRows]

theorem newRows_of_mem {rows : List Row} {r : Row} (h : r.1 ∈ (newRows rows).map Prod.fst) :
    newRows (rows ++ [r]) = newRows rows := by
  rw [newRows_append_singleton, addNew, if_pos h]

theorem newRows_of_notMem {rows : List Row} {r : Row} (h : r.1 ∉ (newRows rows).map Prod.fst) :
    newRows (rows ++ [r]) = newRows rows ++ [r] := by
  rw [newRows_append_singleton, addNew, if_neg h]

/-- The new rows of the first calls come first. -/
theorem newRows_prefix {rows rows' : List Row} (h : rows <+: rows') :
    newRows rows <+: newRows rows' := by
  obtain ⟨more, rfl⟩ := h
  induction more using List.reverseRecOn with
  | nil => rw [List.append_nil]
  | append_singleton more r ih =>
    rw [← List.append_assoc, newRows_append_singleton, addNew]
    split
    · exact ih
    · exact ih.trans (List.prefix_append _ [r])

/-- Where a new row comes from. -/
theorem exists_prefix_of_newRows {rows a post : List Row} {r : Row}
    (h : newRows rows = a ++ [r] ++ post) :
    ∃ done, done ++ [r] <+: rows ∧ newRows done = a ∧ r.1 ∉ a.map Prod.fst := by
  induction rows using List.reverseRecOn generalizing post with
  | nil => simp at h
  | append_singleton rows x ih =>
    by_cases hmem : x.1 ∈ (newRows rows).map Prod.fst
    · rw [newRows_of_mem hmem] at h
      obtain ⟨done, hpre, hdone⟩ := ih h
      exact ⟨done, hpre.trans (List.prefix_append _ _), hdone⟩
    · rw [newRows_of_notMem hmem] at h
      rcases List.eq_nil_or_concat post with rfl | ⟨post, y, rfl⟩
      · -- the row is the last one
        rw [List.append_nil] at h
        obtain ⟨rfl, hx⟩ := List.append_inj' h rfl
        obtain rfl := List.singleton_inj.mp hx
        exact ⟨rows, List.prefix_rfl, rfl, hmem⟩
      · rw [List.concat_eq_append, ← List.append_assoc] at h
        obtain ⟨done, hpre, hdone⟩ := ih (List.append_inj' h rfl).1
        exact ⟨done, hpre.trans (List.prefix_append _ _), hdone⟩

theorem newRows_of_nodup {rows : List Row} (h : (rows.map Prod.fst).Nodup) :
    newRows rows = rows := by
  induction rows using List.reverseRecOn with
  | nil => rfl
  | append_singleton rows r ih =>
    have hrows := ih (by rw [List.map_append] at h; exact h.of_append_left)
    have hnew : r.1 ∉ rows.map Prod.fst := by
      rw [← List.append_nil (rows ++ [r])] at h
      exact notMem_of_nodup_append h
    rw [newRows_of_notMem (by rwa [hrows]), hrows]

/-! ### Calls -/

/-- Calls of `append` one after the other that return, whatever they return.  The
events of each call are of the given kind. -/
inductive AppendCalls (E : List FileEvent → Prop) (W : ParquetWriter)
    (expand : Files → Str → Except Str (List (Except (Str × Str) Str))) :
    PackWriter → Files → List Row → PackWriter → Files → Prop
  | nil (w : PackWriter) (fs : Files) : AppendCalls E W expand w fs [] w fs
  | snoc {w w' w'' : PackWriter} {fs fs' fs'' : Files} {rows : List Row} {row : Row}
      {es : List FileEvent} {r : Except FsError Unit} : AppendCalls E W expand w fs rows w' fs' →
      Run (fsWorld expand) fs' (w'.appendMut W row.1 row.2) es fs'' (.ret (.ok (w'', r))) →
      E es → AppendCalls E W expand w fs (rows ++ [row]) w'' fs''

/-- Any events. -/
def AnyEvents (_ : List FileEvent) : Prop := True

/-- However far a new writer has come in calls of `append` with the given rows, the
paths it holds fit in a column, those the next call adds fit as well, and this
call does not panic. -/
def NeverOverflows (E : List FileEvent → Prop) (W : ParquetWriter)
    (expand : Files → Str → Except Str (List (Except (Str × Str) Str))) (out : Str)
    (opts : PackOptions) (rows : List Row) : Prop :=
  ∀ fs₀ es₀ fs₁ w₀,
    Run (fsWorld expand) fs₀ (PackWriter.create W out opts) es₀ fs₁ (.ret (.ok w₀)) →
  ∀ done w fs, AppendCalls E W expand w₀ fs₁ done w fs → done <+: rows →
    textBytes w.paths ≤ maxTextBytes ∧
    ∀ row, done ++ [row] <+: rows →
      (row.1 ∉ w.seen → textBytes (w.paths ++ [row.1]) ≤ maxTextBytes) ∧
      ∀ es fs' r, Run (fsWorld expand) fs (w.appendMut W row.1 row.2) es fs' (.ret r) →
        ∃ w' res, r = .ok (w', res) ∧ textBytes w'.paths ≤ maxTextBytes

/-- Rows can be held together if they come first, or after contents that are
enough for a row group, and their own contents are not enough before the last of
them.  The paths of such rows fit. -/
def BlocksFit (limit : ℕ) (rows : List Row) : Prop :=
  ∀ before block after, rows = before ++ block ++ after →
    before = [] ∨ limit ≤ Grouping.total rowSize before →
    Grouping.total rowSize block.dropLast < limit →
    textBytes (block.map Prod.fst) ≤ maxTextBytes

/-! ### What a writer holds -/

/-- The writer was given the new rows `rows` and holds the rows `block` of them. -/
structure Holding (limit : ℕ) (rows block : List Row) (w : PackWriter) : Prop where
  writer : ∃ aw, w.writer = some aw
  paths : w.paths = block.map Prod.fst
  mem_seen : ∀ s, s ∈ w.seen ↔ s ∈ rows.map Prod.fst
  maxPending : w.maxPending = limit
  textBytes_le : textBytes w.paths ≤ maxTextBytes

/-- What a call with a new path leaves: the row is held, or a row group is written
with it, or could not be written and is lost. -/
inductive NewStep (limit : ℕ) (rows block : List Row) (w : PackWriter) (row : Row)
    (es : List FileEvent) (w' : PackWriter) (r : Except FsError Unit) : Prop
  | held : Holding limit (rows ++ [row]) (block ++ [row]) w' →
      w'.pending = w.pending + row.2.length → w'.pending < limit →
      NewStep limit rows block w row es w' r
  | written : Holding limit (rows ++ [row]) [] w' → limit ≤ w.pending + row.2.length →
      r = .ok () → w'.pending = 0 → NewStep limit rows block w row es w' r
  | lost : Holding limit (rows ++ [row]) [] w' → limit ≤ w.pending + row.2.length →
      (∃ e, r = .error e) → ¬WritesOk es → w'.pending = w.pending + row.2.length →
      NewStep limit rows block w row es w' r

section Runs

variable {E : List FileEvent → Prop} {W : ParquetWriter} {out : Str} {opts : PackOptions}
  {fs fs' fs₀ fs₁ : Files} {w w' w₀ : PackWriter} {rows done block : List Row} {row : Row}
  {es : List FileEvent} {limit : ℕ} {r : Except FsError Unit}
  {expand : Files → Str → Except Str (List (Except (Str × Str) Str))}

/-- A new writer holds nothing. -/
theorem holding_of_create
    (hrun : Run (fsWorld expand) fs₀ (PackWriter.create W out opts) es fs₁ (.ret (.ok w₀))) :
    Holding (max opts.maxRowGroupBytes 1) [] [] w₀ ∧ w₀.pending = 0 := by
  have hpacking : PackingRows W fs₀ out opts [] w₀ fs₁ := (wp_sound wp_create hrun).2
  obtain ⟨h, hbuf, -⟩ := hpacking.buffers
  refine ⟨⟨⟨_, hbuf.writer⟩, hbuf.paths, hbuf.mem_seen, hpacking.maxPending_eq, ?_⟩, hbuf.pending⟩
  rw [hbuf.paths]
  exact Nat.zero_le _

namespace Holding

theorem textBytes_append (hw : Holding limit rows block w) (row : Row) :
    textBytes (w.paths ++ [row.1]) = textBytes ((block ++ [row]).map Prod.fst) := by
  rw [hw.paths, List.map_append, List.map_singleton]

theorem push (hw : Holding limit rows block w)
    (hfits : textBytes (w.paths ++ [row.1]) ≤ maxTextBytes) :
    Holding limit (rows ++ [row]) (block ++ [row]) (w.push row.1 row.2) where
  writer := hw.writer
  paths := by simp [PackWriter.push, hw.paths]
  mem_seen := PackWriter.mem_seen_push hw.mem_seen row
  maxPending := hw.maxPending
  textBytes_le := hfits

theorem flush (hw : Holding limit rows block w) (hflush : Flushed w es w' r) :
    Holding limit rows [] w' where
  writer := hflush.writer
  paths := hflush.paths
  mem_seen s := by rw [hflush.seen, hw.mem_seen]
  maxPending := hflush.maxPending.trans hw.maxPending
  textBytes_le := by
    rw [hflush.paths]
    exact Nat.zero_le _

/-- A call whose path fits, if it is a new one, does not panic. -/
theorem exists_ok {res : Outcome (PackWriter × Except FsError Unit)}
    (hw : Holding limit rows block w)
    (hfits : row.1 ∉ w.seen → textBytes (w.paths ++ [row.1]) ≤ maxTextBytes)
    (hrun : Run (fsWorld expand) fs (w.appendMut W row.1 row.2) es fs' (.ret res)) :
    ∃ w' r, res = .ok (w', r) ∧ textBytes w'.paths ≤ maxTextBytes := by
  obtain ⟨aw, haw⟩ := hw.writer
  cases appendStep_of_run haw hrun with
  | duplicate => exact ⟨_, _, rfl, hw.textBytes_le⟩
  | overflow hnew htext => exact absurd (hfits hnew) (not_le.mpr htext)
  | held hnew htext => exact ⟨_, _, rfl, htext⟩
  | flushed hnew htext _ hflush => exact ⟨_, _, rfl, ((hw.push htext).flush hflush).textBytes_le⟩

theorem step_of_mem (hw : Holding limit rows block w) (hmem : row.1 ∈ rows.map Prod.fst)
    (hrun : Run (fsWorld expand) fs (w.appendMut W row.1 row.2) es fs' (.ret (.ok (w', r)))) :
    w' = w := by
  obtain ⟨hres, -⟩ := run_appendMut_of_mem ((hw.mem_seen row.1).mpr hmem) hrun
  cases hres
  rfl

/-- **What a call that returns does with a row whose path is new.** -/
theorem step_of_notMem (hw : Holding limit rows block w) (hmem : row.1 ∉ rows.map Prod.fst)
    (hrun : Run (fsWorld expand) fs (w.appendMut W row.1 row.2) es fs' (.ret (.ok (w', r)))) :
    NewStep limit rows block w row es w' r := by
  obtain ⟨aw, haw⟩ := hw.writer
  have hlimit := hw.maxPending
  cases appendStep_of_run haw hrun with
  | duplicate hseen => exact absurd ((hw.mem_seen row.1).mp hseen) hmem
  | held hnew htext hopen =>
    rw [hlimit] at hopen
    exact .held (hw.push htext) rfl hopen
  | flushed hnew htext hfull hflush =>
    rw [hlimit] at hfull
    have hempty := (hw.push htext).flush hflush
    rcases hflush.outcome with ⟨hr, hzero⟩ | ⟨herr, hbad, hcount⟩
    · exact .written hempty hfull hr hzero
    · exact .lost hempty hfull herr hbad hcount

end Holding

/-- **After calls in which no write failed** the writer holds the open group of the
new rows. -/
theorem holding_cut_of_calls (hw : Holding limit [] [] w₀) (hpending : w₀.pending = 0)
    (hcalls : AppendCalls WritesOk W expand w₀ fs₁ done w fs) :
    Holding limit (newRows done) (Grouping.cut rowSize limit (newRows done)).2 w ∧
      w.pending = Grouping.total rowSize (Grouping.cut rowSize limit (newRows done)).2 := by
  induction hcalls with
  | nil => exact ⟨hw, hpending⟩
  | @snoc w w' fs₁ fs fs' done row es r _ hrun hok ih =>
    obtain ⟨hheld, hcount⟩ := ih
    by_cases hmem : row.1 ∈ (newRows done).map Prod.fst
    · obtain rfl := hheld.step_of_mem hmem hrun
      rw [newRows_of_mem hmem]
      exact ⟨hheld, hcount⟩
    have htotal := Grouping.total_append_singleton rowSize
      (Grouping.cut rowSize limit (newRows done)).2 row
    rw [← hcount, rowSize] at htotal
    rw [newRows_of_notMem hmem, Grouping.cut_append_singleton, Grouping.push, htotal]
    cases hheld.step_of_notMem hmem hrun with
    | held hheld' hcount' hopen =>
      rw [if_neg (by omega)]
      exact ⟨hheld', by rw [htotal, hcount']⟩
    | written hheld' hfull _ hzero =>
      rw [if_pos hfull]
      exact ⟨hheld', hzero⟩
    | lost _ _ _ hbad => exact absurd hok hbad

/-- The writer holds the rows `block` of `before ++ block`.  Their contents are what
it counts, or it holds nothing after a write that failed and will try again. -/
structure HoldsBlock (limit : ℕ) (before block : List Row) (w : PackWriter) : Prop where
  holding : Holding limit (before ++ block) block w
  begins : before = [] ∨ limit ≤ Grouping.total rowSize before
  counted : (w.pending = Grouping.total rowSize block ∧ w.pending < limit) ∨
    (block = [] ∧ limit ≤ w.pending ∧ limit ≤ Grouping.total rowSize before)

/-- A new row joins the block, or the next block begins after it. -/
theorem HoldsBlock.step {before : List Row} (hblock : HoldsBlock limit before block w)
    (hlimit : 0 < limit) (hmem : row.1 ∉ (before ++ block).map Prod.fst)
    (hrun : Run (fsWorld expand) fs (w.appendMut W row.1 row.2) es fs' (.ret (.ok (w', r)))) :
    ∃ before' block', before ++ block ++ [row] = before' ++ block' ∧
      HoldsBlock limit before' block' w' := by
  have htotal := Grouping.total_append rowSize (before ++ block) [row]
  have hsum := Grouping.total_append rowSize before block
  have hrow : Grouping.total rowSize [row] = row.2.length := Nat.add_zero _
  -- contents that are enough for a row group are enough for the next block to begin
  have hreached : limit ≤ w.pending + row.2.length →
      limit ≤ Grouping.total rowSize (before ++ block ++ [row]) := by
    rcases hblock.counted with ⟨hcount, -⟩ | ⟨-, -, hbegins⟩ <;> omega
  cases hblock.holding.step_of_notMem hmem hrun with
  | held hw' hcount' hopen =>
    rw [List.append_assoc] at hw'
    refine ⟨before, block ++ [row], List.append_assoc _ _ _, hw', hblock.begins,
      Or.inl ⟨?_, hopen⟩⟩
    rw [Grouping.total_append, hrow]
    rcases hblock.counted with ⟨hcount, -⟩ | ⟨-, hfull, -⟩ <;> omega
  | written hw' hfull _ hzero =>
    rw [← List.append_nil (before ++ block ++ [row])] at hw'
    exact ⟨_, [], (List.append_nil _).symm, hw', Or.inr (hreached hfull),
      Or.inl ⟨hzero, by omega⟩⟩
  | lost hw' hfull _ _ hcount' =>
    rw [← List.append_nil (before ++ block ++ [row])] at hw'
    exact ⟨_, [], (List.append_nil _).symm, hw', Or.inr (hreached hfull),
      Or.inr ⟨rfl, by omega, hreached hfull⟩⟩

/-- **After any calls** the writer holds a block of the new rows. -/
theorem exists_block_of_calls (hlimit : 0 < limit) (hw : Holding limit [] [] w₀)
    (hpending : w₀.pending = 0) (hcalls : AppendCalls E W expand w₀ fs₁ done w fs) :
    ∃ before block, newRows done = before ++ block ∧ HoldsBlock limit before block w := by
  induction hcalls with
  | nil => exact ⟨[], [], rfl, hw, Or.inl rfl, Or.inl ⟨hpending, by omega⟩⟩
  | @snoc w w' fs₁ fs fs' done row es r _ hrun _ ih =>
    obtain ⟨before, block, hsplit, hblock⟩ := ih
    by_cases hmem : row.1 ∈ (newRows done).map Prod.fst
    · rw [newRows_of_mem hmem, hsplit]
      rw [hsplit] at hmem
      obtain rfl := hblock.holding.step_of_mem hmem hrun
      exact ⟨before, block, rfl, hblock⟩
    · rw [newRows_of_notMem hmem, hsplit]
      rw [hsplit] at hmem
      exact hblock.step hlimit hmem hrun

/-! ### Rows that fit -/

/-- Nothing overflows if the rows that are held always fit with the next new row. -/
theorem neverOverflows_of_holding
    (h : ∀ fs₁ w₀, Holding (max opts.maxRowGroupBytes 1) [] [] w₀ → w₀.pending = 0 →
      ∀ done w fs, AppendCalls E W expand w₀ fs₁ done w fs →
        ∃ block, Holding (max opts.maxRowGroupBytes 1) (newRows done) block w ∧
          ∀ row, newRows done ++ [row] <+: newRows rows →
            textBytes ((block ++ [row]).map Prod.fst) ≤ maxTextBytes) :
    NeverOverflows E W expand out opts rows := by
  intro fs₀ es₀ fs₁ w₀ hcreate done w fs hcalls _
  obtain ⟨hw₀, hpending⟩ := holding_of_create hcreate
  obtain ⟨block, hw, hnext⟩ := h fs₁ w₀ hw₀ hpending done w fs hcalls
  refine ⟨hw.textBytes_le, fun row hrow => ?_⟩
  have hfits : row.1 ∉ w.seen → textBytes (w.paths ++ [row.1]) ≤ maxTextBytes := by
    intro hnew
    rw [hw.textBytes_append]
    apply hnext
    rw [← newRows_of_notMem (mt (hw.mem_seen row.1).mpr hnew)]
    exact newRows_prefix hrow
  exact ⟨hfits, fun es fs' r hrun => hw.exists_ok hfits hrun⟩

theorem neverOverflows_of_pathsFit
    (hfit : PathsFit (max opts.maxRowGroupBytes 1) (newRows rows)) :
    NeverOverflows WritesOk W expand out opts rows := by
  refine neverOverflows_of_holding fun fs₁ w₀ hw₀ hpending done w fs hcalls => ?_
  refine ⟨_, (holding_cut_of_calls hw₀ hpending hcalls).1, fun row hrow => ?_⟩
  obtain ⟨more, hmore⟩ := hrow
  rw [← hmore] at hfit
  exact textBytes_le_of_fits hfit

theorem neverOverflows_of_blocksFit
    (hfit : BlocksFit (max opts.maxRowGroupBytes 1) (newRows rows)) :
    NeverOverflows E W expand out opts rows := by
  have hlimit : 0 < max opts.maxRowGroupBytes 1 := by omega
  refine neverOverflows_of_holding fun fs₁ w₀ hw₀ hpending done w fs hcalls => ?_
  obtain ⟨before, block, hsplit, hblock⟩ := exists_block_of_calls hlimit hw₀ hpending hcalls
  refine ⟨block, hsplit ▸ hblock.holding, fun row hrow => ?_⟩
  obtain ⟨more, hmore⟩ := hrow
  refine hfit before (block ++ [row]) more (by rw [← hmore, hsplit, List.append_assoc before])
    hblock.begins ?_
  rw [List.dropLast_concat]
  rcases hblock.counted with ⟨hcount, hopen⟩ | ⟨rfl, -, -⟩
  · omega
  · exact hlimit

/-! ### Rows that do not fit -/

/-- Where nothing overflows, the next call can be made and succeed in writing. -/
theorem exists_run_of_neverOverflows (h : NeverOverflows E W expand out opts rows)
    (hcreate : Run (fsWorld expand) fs₀ (PackWriter.create W out opts) es fs₁ (.ret (.ok w₀)))
    (hcalls : AppendCalls E W expand w₀ fs₁ done w fs) (hrow : done ++ [row] <+: rows) :
    ∃ es' fs' w' r, WritesOk es' ∧
      Run (fsWorld expand) fs (w.appendMut W row.1 row.2) es' fs' (.ret (.ok (w', r))) := by
  obtain ⟨es', fs', res, hrun, hok, -⟩ := exists_run_writesOk expand
    (w.appendMut W row.1 row.2) fs
  obtain ⟨-, hnext⟩ := h _ _ _ _ hcreate done w fs hcalls ((List.prefix_append _ _).trans hrow)
  obtain ⟨w', r, rfl, -⟩ := (hnext row hrow).2 es' fs' res hrun
  exact ⟨es', fs', w', r, hok, hrun⟩

theorem exists_calls (h : NeverOverflows WritesOk W expand out opts rows)
    (hcreate : Run (fsWorld expand) fs₀ (PackWriter.create W out opts) es fs₁ (.ret (.ok w₀)))
    (hdone : done <+: rows) : ∃ w fs, AppendCalls WritesOk W expand w₀ fs₁ done w fs := by
  induction done using List.reverseRecOn with
  | nil => exact ⟨w₀, fs₁, .nil w₀ fs₁⟩
  | append_singleton done row ih =>
    obtain ⟨w, fs, hcalls⟩ := ih ((List.prefix_append done [row]).trans hdone)
    obtain ⟨es', fs', w', r, hok, hrun⟩ := exists_run_of_neverOverflows h hcreate hcalls hdone
    exact ⟨w', fs', hcalls.snoc hrun hok⟩

variable (W expand out opts) in
/-- A writer can be created. -/
theorem exists_create : ∃ es fs₁ w₀, Run (fsWorld expand) FileSystem.empty
    (PackWriter.create W out opts) es fs₁ (.ret (.ok w₀)) := by
  have hcreated : ∃ w, (exec (fsHandler expand) (PackWriter.create W out opts)
      FileSystem.empty).1 = .ok w := exec_create_ok rfl
  obtain ⟨w₀, hok⟩ := hcreated
  obtain ⟨es, hrun⟩ := run_exec (fsWorld_fsHandler expand) (PackWriter.create W out opts)
    FileSystem.empty
  rw [hok] at hrun
  exact ⟨es, _, w₀, hrun⟩

theorem pathsFit_of_neverOverflows (h : NeverOverflows WritesOk W expand out opts rows) :
    PathsFit (max opts.maxRowGroupBytes 1) (newRows rows) := by
  obtain ⟨es, fs₁, w₀, hcreate⟩ := exists_create W out opts expand
  obtain ⟨hw₀, hpending⟩ := holding_of_create hcreate
  have hall : ∀ done, done <+: rows → PathsFit (max opts.maxRowGroupBytes 1) (newRows done) := by
    intro done hdone
    induction done using List.reverseRecOn with
    | nil => exact pathsFit_nil _
    | append_singleton done row ih =>
      have hpre := (List.prefix_append done [row]).trans hdone
      by_cases hmem : row.1 ∈ (newRows done).map Prod.fst
      · rw [newRows_of_mem hmem]
        exact ih hpre
      · obtain ⟨w, fs, hcalls⟩ := exists_calls h hcreate hpre
        have hw := (holding_cut_of_calls hw₀ hpending hcalls).1
        obtain ⟨-, hnext⟩ := h _ _ _ _ hcreate done w fs hcalls hpre
        rw [newRows_of_notMem hmem]
        refine pathsFit_append_singleton (ih hpre) ?_
        rw [← hw.textBytes_append]
        exact (hnext row hdone).1 (mt (hw.mem_seen row.1).mp hmem)
  exact hall rows List.prefix_rfl

variable (W fs expand) in
/-- A call that flushes may fail to write. -/
theorem exists_run_fails {aw : ArrowWriter} (hw : w.writer = some aw) (hnew : row.1 ∉ w.seen)
    (hfits : textBytes (w.paths ++ [row.1]) ≤ maxTextBytes)
    (hfull : w.maxPending ≤ w.pending + row.2.length) :
    ∃ es fs' w' e, Run (fsWorld expand) fs (w.appendMut W row.1 row.2) es fs'
      (.ret (.ok (w', .error e))) := by
  have hpush : (w.push row.1 row.2).writer = some aw := hw
  have hne : (w.push row.1 row.2).paths.length ≠ 0 := by simp [PackWriter.push]
  have hfull' : w.maxPending ≤ (w.push row.1 row.2).pending := hfull
  rw [PackWriter.appendMut, if_neg hnew, if_neg (not_lt.mpr hfits), if_pos hfull',
    PackWriter.flushRowGroupMut, if_neg hne, hpush]
  exact ⟨[⟨.write aw.handle _, .error []⟩], _, _, _,
    .step ⟨[], List.nil_prefix, rfl⟩ (.refl _ _)⟩

/-- Some calls with the rows `done` leave a writer that holds the rows `block` and
counts contents of `pending` bytes. -/
def CanHold (W : ParquetWriter)
    (expand : Files → Str → Except Str (List (Except (Str × Str) Str))) (limit : ℕ)
    (w₀ : PackWriter) (fs₁ : Files) (done block : List Row) (pending : ℕ) : Prop :=
  ∃ w fs, AppendCalls AnyEvents W expand w₀ fs₁ done w fs ∧
    Holding limit (newRows done) block w ∧ w.pending = pending

namespace CanHold

variable {pending : ℕ}

/-- A path that is there already changes nothing. -/
theorem of_mem (hold : CanHold W expand limit w₀ fs₁ done block pending)
    (hmem : row.1 ∈ (newRows done).map Prod.fst) :
    CanHold W expand limit w₀ fs₁ (done ++ [row]) block pending := by
  obtain ⟨w, fs, hcalls, hw, hcount⟩ := hold
  have hrun : Run (fsWorld expand) fs (w.appendMut W row.1 row.2) [] fs (.ret (.ok (w, .error
      (.pack ("duplicate path '".toList ++ row.1 ++ "' in input".toList))))) := by
    rw [PackWriter.appendMut, if_pos ((hw.mem_seen row.1).mpr hmem)]
    exact .refl fs _
  exact ⟨w, fs, hcalls.snoc hrun trivial, by rwa [newRows_of_mem hmem], hcount⟩

/-- A row joins the rows that are held. -/
theorem join (hold : CanHold W expand limit w₀ fs₁ done block pending)
    (h : NeverOverflows AnyEvents W expand out opts rows)
    (hcreate : Run (fsWorld expand) fs₀ (PackWriter.create W out opts) es fs₁ (.ret (.ok w₀)))
    (hdone : done ++ [row] <+: rows) (hmem : row.1 ∉ (newRows done).map Prod.fst)
    (hopen : pending + row.2.length < limit) :
    CanHold W expand limit w₀ fs₁ (done ++ [row]) (block ++ [row]) (pending + row.2.length) := by
  obtain ⟨w, fs, hcalls, hw, rfl⟩ := hold
  obtain ⟨es', fs', w', r, hok, hrun⟩ := exists_run_of_neverOverflows h hcreate hcalls hdone
  refine ⟨w', fs', hcalls.snoc hrun trivial, ?_⟩
  rw [newRows_of_notMem hmem]
  cases hw.step_of_notMem hmem hrun with
  | held hw' hcount => exact ⟨hw', hcount⟩
  | written _ hfull => omega
  | lost _ hfull => omega

/-- A row group is written. -/
theorem written (hold : CanHold W expand limit w₀ fs₁ done block pending)
    (h : NeverOverflows AnyEvents W expand out opts rows)
    (hcreate : Run (fsWorld expand) fs₀ (PackWriter.create W out opts) es fs₁ (.ret (.ok w₀)))
    (hdone : done ++ [row] <+: rows) (hmem : row.1 ∉ (newRows done).map Prod.fst)
    (hfull : limit ≤ pending + row.2.length) :
    CanHold W expand limit w₀ fs₁ (done ++ [row]) [] 0 := by
  obtain ⟨w, fs, hcalls, hw, rfl⟩ := hold
  obtain ⟨es', fs', w', r, hok, hrun⟩ := exists_run_of_neverOverflows h hcreate hcalls hdone
  refine ⟨w', fs', hcalls.snoc hrun trivial, ?_⟩
  rw [newRows_of_notMem hmem]
  cases hw.step_of_notMem hmem hrun with
  | held _ hcount hopen => omega
  | written hw' _ _ hzero => exact ⟨hw', hzero⟩
  | lost _ _ _ hbad => exact absurd hok hbad

/-- A row group could not be written, and its rows are lost. -/
theorem lost (hold : CanHold W expand limit w₀ fs₁ done block pending)
    (h : NeverOverflows AnyEvents W expand out opts rows)
    (hcreate : Run (fsWorld expand) fs₀ (PackWriter.create W out opts) es fs₁ (.ret (.ok w₀)))
    (hdone : done ++ [row] <+: rows) (hmem : row.1 ∉ (newRows done).map Prod.fst)
    (hfull : limit ≤ pending + row.2.length) :
    CanHold W expand limit w₀ fs₁ (done ++ [row]) [] (pending + row.2.length) := by
  obtain ⟨w, fs, hcalls, hw, rfl⟩ := hold
  obtain ⟨aw, haw⟩ := hw.writer
  have hseen : row.1 ∉ w.seen := mt (hw.mem_seen row.1).mp hmem
  obtain ⟨-, hnext⟩ := h _ _ _ _ hcreate done w fs hcalls ((List.prefix_append _ _).trans hdone)
  obtain ⟨es', fs', w', e, hrun⟩ := exists_run_fails W fs expand haw hseen
    ((hnext row hdone).1 hseen) (by rwa [hw.maxPending])
  refine ⟨w', fs', hcalls.snoc hrun trivial, ?_⟩
  rw [newRows_of_notMem hmem]
  cases hw.step_of_notMem hmem hrun with
  | held _ hcount hopen => omega
  | written _ _ hok => cases hok
  | lost hw' _ _ _ hcount => exact ⟨hw', hcount⟩

end CanHold

/-- **Every block can be held**: a write that fails defers the beginning of the next
block, and a writer that failed to write tries again with each row. -/
theorem canHold_block (h : NeverOverflows AnyEvents W expand out opts rows)
    (hcreate : Run (fsWorld expand) fs₀ (PackWriter.create W out opts) es fs₁ (.ret (.ok w₀)))
    (hlimit : 0 < limit) (hw₀ : Holding limit [] [] w₀) (hpending : w₀.pending = 0)
    (hdone : done <+: rows) :
    (∀ before block, newRows done = before ++ block →
      before = [] ∨ limit ≤ Grouping.total rowSize before →
      Grouping.total rowSize block < limit →
      CanHold W expand limit w₀ fs₁ done block (Grouping.total rowSize block)) ∧
    (limit ≤ Grouping.total rowSize (newRows done) →
      ∃ pending, limit ≤ pending ∧ CanHold W expand limit w₀ fs₁ done [] pending) := by
  induction done using List.reverseRecOn with
  | nil =>
    refine ⟨fun before block hsplit _ _ => ?_, fun hreached => absurd hreached (not_le.mpr hlimit)⟩
    obtain ⟨rfl, rfl⟩ := List.append_eq_nil_iff.mp hsplit.symm
    exact ⟨w₀, fs₁, .nil w₀ fs₁, hw₀, hpending⟩
  | append_singleton done row ih =>
    obtain ⟨hblock, hlost⟩ := ih ((List.prefix_append done [row]).trans hdone)
    by_cases hmem : row.1 ∈ (newRows done).map Prod.fst
    · rw [newRows_of_mem hmem]
      refine ⟨fun before block hsplit hbegins hlt => ?_, fun hreached => ?_⟩
      · exact (hblock before block hsplit hbegins hlt).of_mem hmem
      · obtain ⟨pending, hfull, hold⟩ := hlost hreached
        exact ⟨pending, hfull, hold.of_mem hmem⟩
    rw [newRows_of_notMem hmem]
    -- some writer has a row group to write with this row
    have hready : limit ≤ Grouping.total rowSize (newRows done ++ [row]) → ∃ block pending,
        limit ≤ pending + row.2.length ∧ CanHold W expand limit w₀ fs₁ done block pending := by
      intro hreached
      rw [Grouping.total_append_singleton, rowSize] at hreached
      rcases Nat.lt_or_ge (Grouping.total rowSize (newRows done)) limit with hlt | hge
      · exact ⟨_, _, hreached, hblock [] (newRows done) rfl (Or.inl rfl) hlt⟩
      · obtain ⟨pending, hfull, hold⟩ := hlost hge
        exact ⟨[], pending, by omega, hold⟩
    refine ⟨fun before block hsplit hbegins hlt => ?_, fun hreached => ?_⟩
    · rcases List.eq_nil_or_concat block with rfl | ⟨block, x, rfl⟩
      · -- the next block begins after the row
        rw [List.append_nil] at hsplit
        have hne : before ≠ [] := by
          rw [← hsplit]
          simp
        obtain ⟨block, pending, hfull, hold⟩ := hready (hsplit ▸ hbegins.resolve_left hne)
        exact hold.written h hcreate hdone hmem hfull
      · rw [List.concat_eq_append, ← List.append_assoc] at hsplit
        obtain ⟨hrest, hx⟩ := List.append_inj' hsplit rfl
        obtain rfl := List.singleton_inj.mp hx
        rw [List.concat_eq_append, Grouping.total_append_singleton, rowSize] at hlt ⊢
        exact (hblock before block hrest hbegins (by omega)).join h hcreate hdone hmem hlt
    · obtain ⟨block, pending, hfull, hold⟩ := hready hreached
      exact ⟨_, hfull, hold.lost h hcreate hdone hmem hfull⟩

theorem blocksFit_of_neverOverflows (h : NeverOverflows AnyEvents W expand out opts rows) :
    BlocksFit (max opts.maxRowGroupBytes 1) (newRows rows) := by
  have hlimit : 0 < max opts.maxRowGroupBytes 1 := by omega
  obtain ⟨es, fs₁, w₀, hcreate⟩ := exists_create W out opts expand
  obtain ⟨hw₀, hpending⟩ := holding_of_create hcreate
  intro before block after hsplit hbegins hlt
  rcases List.eq_nil_or_concat block with rfl | ⟨block, row, rfl⟩
  · exact Nat.zero_le _
  rw [List.concat_eq_append] at hsplit hlt ⊢
  rw [List.dropLast_concat] at hlt
  -- the calls up to the last row of the block
  rw [← List.append_assoc before] at hsplit
  obtain ⟨done, hdone, hbefore, hmem⟩ := exists_prefix_of_newRows hsplit
  have hpre := (List.prefix_append done [row]).trans hdone
  obtain ⟨w, fs, hcalls, hw, -⟩ :=
    (canHold_block h hcreate hlimit hw₀ hpending hpre).1 before block hbefore hbegins hlt
  rw [← hbefore, ← hw.mem_seen] at hmem
  obtain ⟨-, hnext⟩ := h _ _ _ _ hcreate done w fs hcalls hpre
  rw [← hw.textBytes_append]
  exact (hnext row hdone).1 hmem

variable (W expand out opts rows) in
/-- **The column overflows exactly when the paths of some row group do not fit**, as
long as no write fails.  If calls go on after writes that failed, row groups may
begin elsewhere, and the column overflows exactly when some block does not fit. -/
theorem neverOverflows_iff :
    (NeverOverflows WritesOk W expand out opts rows ↔
      ∀ g ∈ flushGroups (max opts.maxRowGroupBytes 1) (newRows rows),
        textBytes (g.map Prod.fst) ≤ maxTextBytes) ∧
    (NeverOverflows AnyEvents W expand out opts rows ↔
      BlocksFit (max opts.maxRowGroupBytes 1) (newRows rows)) :=
  ⟨⟨pathsFit_of_neverOverflows, neverOverflows_of_pathsFit⟩,
    ⟨blocksFit_of_neverOverflows, neverOverflows_of_blocksFit⟩⟩

end Runs

/-! ### A million rows without contents -/

/-- Rows without contents, with long paths. -/
def deepRows (n : ℕ) : List Row := (deepPaths n).map fun p => (p, [])

theorem newRows_deepRows (n : ℕ) : newRows (deepRows n) = deepRows n := by
  apply newRows_of_nodup
  rw [deepRows, List.map_map]
  exact (List.map_id (deepPaths n)).symm ▸ List.nodup_range.map deepPath_injective

theorem not_pathsFit_deepRows {limit n : ℕ} (hlimit : 0 < limit) (hn : maxTextBytes < n * 2049) :
    ¬PathsFit limit (deepRows n) := by
  refine not_pathsFit_of_empty (k := 2049) hlimit (fun r hr => ?_) ?_
  · obtain ⟨p, hp, rfl⟩ := List.mem_map.mp hr
    obtain ⟨i, rfl⟩ := mem_deepPaths hp
    exact ⟨rfl, length_deepPath i⟩
  · rwa [deepRows, List.length_map, deepPaths, List.length_map, List.length_range]

/-- **The column of paths overflows**, although no write fails: rows without contents
are all held, however many there are. -/
theorem path_column_overflows :
    ¬NeverOverflows WritesOk plainWriter expandNothing "o".toList {} (deepRows (2 ^ 20)) := by
  intro h
  have hfit := pathsFit_of_neverOverflows h
  rw [newRows_deepRows] at hfit
  exact not_pathsFit_deepRows (by decide) (by decide) hfit

end ParquetFileFs
