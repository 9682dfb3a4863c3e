import ParquetFileFs.Pack.RoundTrip
import ParquetFileFs.Pack.Containment

/-!
# The order of a list of files

The files of a list are packed in the order of their stored paths, so whichever
order they are listed in, the same shard is written.  The paths of an open row
group are held in one column of text, which does not go beyond `maxTextBytes`;
where it would, packing fails for no reason that the files show.

## Main definitions

* `packedRows` — the rows of a list of files, in the order of packing.
* `Rejected` — the reasons for which a list of files should not be packed.
* `OrderIrrelevant` — every order has the same outcome, a failure exactly where
  there is a reason for it.
* `PathsFit` — the paths of every row group fit in a column.

## Main results

* `sortPairs_eq_of_perm` — sorting forgets the order of pairs with distinct paths.
* `exec_packEach_appendFile` — a writer takes files exactly when their paths
  are distinct and fit.
* `orderIrrelevant_iff` — **the order is irrelevant exactly when the list is
  rejected or the paths fit.**
-/

namespace ParquetFileFs

open Program Segments

/-! ### The rows of a list of files -/

section Rows

variable (W : ParquetWriter) (fs₀ : Files) (out : Str) (opts : PackOptions)

/-- What a source is read as when the given rows have been packed.  The temporary
file then holds the row groups that are full. -/
def contentAfter (rows : List Row) (src : Str) : Bytes :=
  if src = tmpName out then
    W.start opts.schema opts.compression ++ W.groupsBytes opts.schema opts.compression []
      (Grouping.cut rowSize (max opts.maxRowGroupBytes 1) rows).1
  else (fs₀.read src).getD []

/-- The rows of pairs of a stored path and a source, packed after the given rows. -/
def rowsAfter (rows : List Row) : List (Str × Str) → List Row
  | [] => []
  | pair :: pairs =>
      (pair.1, contentAfter W fs₀ out opts rows pair.2) ::
        rowsAfter (rows ++ [(pair.1, contentAfter W fs₀ out opts rows pair.2)]) pairs

/-- A file, with its stored path if it lies below the root. -/
def listedPair (root p : Str) : Option (Str × Str) :=
  (storedPath p root).toOption.map fun s => (s, p)

/-- The files of a list that lie below the root, with their stored paths. -/
def listedPairs (root : Str) (paths : List Str) : List (Str × Str) :=
  paths.filterMap (listedPair root)

/-- The rows of a list of files, in the order of packing. -/
def packedRows (root : Str) (paths : List Str) : List Row :=
  rowsAfter W fs₀ out opts [] (sortPairs (listedPairs root paths))

end Rows

/-! ### What is expected of the order -/

/-- The paths of every row group fit in a column of text. -/
def PathsFit (limit : ℕ) (rows : List Row) : Prop :=
  ∀ g ∈ flushGroups limit rows, textBytes (g.map Prod.fst) ≤ maxTextBytes

/-- The list is empty, a file of it is not a regular file below the root, or two
files of it have the same stored path. -/
def Rejected (fs₀ : Files) (root : Str) (paths : List Str) : Prop :=
  paths = [] ∨ (∃ p ∈ paths, ¬∃ pair, FileBelow fs₀ root p pair) ∨
    ∃ p q s, [p, q].Sublist paths ∧ storedPath p root = .ok s ∧ storedPath q root = .ok s

section Order

variable (W : ParquetWriter) (expand : Files → Str → Except Str (List (Except (Str × Str) Str)))
  (fs₀ : Files) (root out : Str) (opts : PackOptions)

/-- Packing the list fails, though every source can be read and the output written. -/
def PackFails (paths : List Str) : Prop :=
  ∃ e, (exec (fsHandler expand) (packFiles W paths root out opts) fs₀).1 = .error e

/-- Packing the list succeeds with the given rows: they are those of its files, the
summary counts them, and the output is their shard. -/
def PacksRows (paths : List Str) (rows : List Row) : Prop :=
  (∃ pairs, List.Forall₂ (FileBelow fs₀ root) paths pairs ∧
    List.Forall₂ (fun pair row => row.1 = pair.1 ∧
      (pair.2 ≠ tmpName out → fs₀.read pair.2 = some row.2)) (sortPairs pairs) rows) ∧
  ∃ fs, exec (fsHandler expand) (packFiles W paths root out opts) fs₀
      = (.ok ⟨rows.length, Grouping.total rowSize rows⟩, fs) ∧
    PublishedRows W fs₀ out opts rows fs

/-- Every order of the list fails, or every order writes the same rows in the same
row groups, with increasing paths; and it fails exactly when it is rejected. -/
def OrderIrrelevant (paths : List Str) : Prop :=
  (∀ paths', paths'.Perm paths →
    (PackFails W expand fs₀ root out opts paths ∧ PackFails W expand fs₀ root out opts paths') ∨
    ∃ rows, PacksRows W expand fs₀ root out opts paths rows ∧
      PacksRows W expand fs₀ root out opts paths' rows ∧
      (rows.map Prod.fst).Pairwise (· < ·)) ∧
  (PackFails W expand fs₀ root out opts paths ↔ Rejected fs₀ root paths)

end Order

/-! ### Sorting -/

theorem sortPairs_perm (pairs : List (Str × Str)) : (sortPairs pairs).Perm pairs :=
  List.perm_insertionSort _ pairs

theorem pairwise_sortPairs (pairs : List (Str × Str)) :
    (sortPairs pairs).Pairwise fun a b => pairKey a ≤ pairKey b := by
  have htotal : Std.Total fun a b : Str × Str => pairKey a ≤ pairKey b :=
    ⟨fun a b => le_total (pairKey a) (pairKey b)⟩
  have htrans : IsTrans (Str × Str) fun a b => pairKey a ≤ pairKey b :=
    ⟨fun a b c => le_trans⟩
  exact List.pairwise_insertionSort _ pairs

theorem fst_le_of_pairKey_le {a b : Str × Str} (h : pairKey a ≤ pairKey b) : a.1 ≤ b.1 := by
  rcases Prod.Lex.toLex_le_toLex.mp h with hlt | ⟨heq, -⟩
  · exact le_of_lt hlt
  · exact le_of_eq heq

/-- Pairs that are sorted have increasing paths, if these are distinct. -/
theorem pairwise_lt_sortPairs {pairs : List (Str × Str)} (hnodup : (pairs.map Prod.fst).Nodup) :
    ((sortPairs pairs).map Prod.fst).Pairwise (· < ·) := by
  have hne : ((sortPairs pairs).map Prod.fst).Nodup :=
    ((sortPairs_perm pairs).map Prod.fst).nodup_iff.mpr hnodup
  rw [List.Nodup, List.pairwise_map] at hne
  rw [List.pairwise_map]
  refine ((pairwise_sortPairs pairs).and hne).imp fun h => ?_
  exact lt_of_le_of_ne (fst_le_of_pairKey_le h.1) h.2

/-- **Sorting forgets the order of pairs with distinct paths.** -/
theorem sortPairs_eq_of_perm {pairs pairs' : List (Str × Str)} (hperm : pairs'.Perm pairs)
    (hnodup : (pairs.map Prod.fst).Nodup) : sortPairs pairs' = sortPairs pairs := by
  have hsame : (sortPairs pairs').Perm (sortPairs pairs) :=
    (sortPairs_perm pairs').trans (hperm.trans (sortPairs_perm pairs).symm)
  refine hsame.eq_of_pairwise ?_ (pairwise_sortPairs pairs') (pairwise_sortPairs pairs)
  intro a b ha hb hab hba
  have ha' : a ∈ pairs := ((sortPairs_perm pairs').trans hperm).mem_iff.mp ha
  have hb' : b ∈ pairs := (sortPairs_perm pairs).mem_iff.mp hb
  exact List.inj_on_of_nodup_map hnodup ha' hb'
    (le_antisymm (fst_le_of_pairKey_le hab) (fst_le_of_pairKey_le hba))

/-! ### The listed files -/

section Listed

variable {fs₀ : Files} {root : Str} {paths paths' : List Str}
  {expand : Files → Str → Except Str (List (Except (Str × Str) Str))}

theorem listedPair_eq_some_iff {p : Str} {pair : Str × Str} :
    listedPair root p = some pair ↔ pair.2 = p ∧ storedPath p root = .ok pair.1 := by
  unfold listedPair
  cases hstored : storedPath p root with
  | error e => simp [Except.toOption]
  | ok s =>
    simp only [Except.toOption, Option.map_some, Option.some.injEq, Except.ok.injEq]
    constructor
    · rintro rfl
      exact ⟨rfl, rfl⟩
    · rintro ⟨rfl, rfl⟩
      rfl

theorem listedPairs_cons {p : Str} {pair : Str × Str} (h : FileBelow fs₀ root p pair) :
    listedPairs root (p :: paths) = pair :: listedPairs root paths := by
  rw [listedPairs, List.filterMap_cons_some (listedPair_eq_some_iff.mpr ⟨h.1, h.2.1⟩)]
  rfl

theorem listedPairs_perm (h : paths'.Perm paths) :
    (listedPairs root paths').Perm (listedPairs root paths) :=
  h.filterMap _

theorem forall₂_listedPairs (h : ∀ p ∈ paths, ∃ pair, FileBelow fs₀ root p pair) :
    List.Forall₂ (FileBelow fs₀ root) paths (listedPairs root paths) := by
  induction paths with
  | nil => exact .nil
  | cons p paths ih =>
    obtain ⟨pair, hpair⟩ := h p List.mem_cons_self
    rw [listedPairs_cons hpair]
    exact .cons hpair (ih fun q hq => h q (List.mem_cons_of_mem p hq))

/-- What is listed is a regular file. -/
theorem read_of_mem_listedPairs (h : ∀ p ∈ paths, ∃ pair, FileBelow fs₀ root p pair)
    {pair : Str × Str} (hpair : pair ∈ listedPairs root paths) : fs₀.read pair.2 ≠ none := by
  obtain ⟨p, hp, hsome⟩ := List.mem_filterMap.mp hpair
  obtain ⟨_, _, -, hkind⟩ := h p hp
  rw [(listedPair_eq_some_iff.mp hsome).1]
  exact FileSystem.kind_eq_file_iff.mp hkind

/-- Files of the list with one stored path are those whose pairs share it. -/
theorem exists_same_stored_iff :
    (∃ p q s, [p, q].Sublist paths ∧ storedPath p root = .ok s ∧ storedPath q root = .ok s) ↔
      ¬((listedPairs root paths).map Prod.fst).Nodup := by
  rw [List.nodup_iff_pairwise_ne, List.pairwise_map, listedPairs, List.pairwise_filterMap,
    List.pairwise_iff_forall_sublist]
  constructor
  · rintro ⟨p, q, s, hsub, hp, hq⟩ h
    exact h hsub (s, p) (listedPair_eq_some_iff.mpr ⟨rfl, hp⟩) (s, q)
      (listedPair_eq_some_iff.mpr ⟨rfl, hq⟩) rfl
  · intro h
    by_contra hno
    refine h fun {p q} hsub a ha b hb hab => hno ⟨p, q, a.1, hsub, ?_, ?_⟩
    · exact (listedPair_eq_some_iff.mp ha).2
    · rw [hab]
      exact (listedPair_eq_some_iff.mp hb).2

/-- A list is not rejected if its files are regular files below the root, at least
one, with distinct stored paths. -/
theorem not_rejected_iff : ¬Rejected fs₀ root paths ↔ paths ≠ [] ∧
    (∀ p ∈ paths, ∃ pair, FileBelow fs₀ root p pair) ∧
    ((listedPairs root paths).map Prod.fst).Nodup := by
  rw [Rejected, exists_same_stored_iff]
  push Not
  rfl

theorem rejected_of_perm (h : paths'.Perm paths) (hrej : Rejected fs₀ root paths) :
    Rejected fs₀ root paths' := by
  by_contra hno
  obtain ⟨hne, hbelow, hnodup⟩ := not_rejected_iff.mp hno
  refine not_rejected_iff.mpr ⟨?_, ?_, ?_⟩ hrej
  · intro hnil
    exact hne (List.perm_nil.mp (hnil ▸ h))
  · exact fun p hp => hbelow p (h.mem_iff.mpr hp)
  · exact ((listedPairs_perm h).map Prod.fst).nodup_iff.mp hnodup

variable (expand) in
theorem exec_checkFile_ok {p : Str} {pair : Str × Str} (h : FileBelow fs₀ root p pair) :
    exec (fsHandler expand) (checkFile root p) fs₀ = (.ok pair, fs₀) := by
  obtain ⟨rfl, hstored, hkind⟩ := h
  have hstat : fsHandler expand (.stat pair.2) fs₀ = (.ok .file, fs₀) := by
    simp only [fsHandler, hkind]
  unfold checkFile
  rw [exec_call, hstat, hstored]
  rfl

variable (expand) in
theorem exec_checkFile_error {p : Str} (h : ¬∃ pair, FileBelow fs₀ root p pair) :
    ∃ e, (exec (fsHandler expand) (checkFile root p) fs₀).1 = .error e := by
  unfold checkFile
  rw [exec_call]
  cases hkind : fs₀.kind p with
  | none =>
    simp only [fsHandler, hkind]
    exact ⟨_, rfl⟩
  | some kind =>
    simp only [fsHandler, hkind]
    cases kind with
    | dir => exact ⟨_, rfl⟩
    | file =>
      cases hstored : storedPath p root with
      | error e => exact ⟨_, rfl⟩
      | ok s => exact absurd ⟨(s, p), rfl, hstored, hkind⟩ h

variable (expand) in
/-- The files of a list are checked one after another. -/
theorem exec_checkFiles_ok (h : ∀ p ∈ paths, ∃ pair, FileBelow fs₀ root p pair) :
    exec (fsHandler expand) (mapEach (checkFile root) paths) fs₀
      = (.ok (listedPairs root paths), fs₀) := by
  induction paths with
  | nil => rfl
  | cons p paths ih =>
    obtain ⟨pair, hpair⟩ := h p List.mem_cons_self
    have hhead := exec_checkFile_ok expand hpair
    have htail := ih fun q hq => h q (List.mem_cons_of_mem p hq)
    rw [mapEach, exec_andThen _ (congrArg Prod.fst hhead), hhead,
      exec_andThen _ (congrArg Prod.fst htail), htail, listedPairs_cons hpair]
    rfl

variable (expand) in
theorem exec_checkFiles_error (h : ∃ p ∈ paths, ¬∃ pair, FileBelow fs₀ root p pair) :
    ∃ e, (exec (fsHandler expand) (mapEach (checkFile root) paths) fs₀).1 = .error e := by
  induction paths with
  | nil =>
    obtain ⟨p, hp, -⟩ := h
    cases hp
  | cons p paths ih =>
    rw [mapEach]
    by_cases hhead : ∃ pair, FileBelow fs₀ root p pair
    · obtain ⟨pair, hpair⟩ := hhead
      have hok := exec_checkFile_ok expand hpair
      obtain ⟨q, hq, hbad⟩ := h
      rcases List.mem_cons.mp hq with rfl | hq
      · exact absurd ⟨pair, hpair⟩ hbad
      obtain ⟨e, he⟩ := ih ⟨q, hq, hbad⟩
      rw [exec_andThen _ (congrArg Prod.fst hok), hok, exec_andThen_error _ he]
      exact ⟨e, rfl⟩
    · obtain ⟨e, he⟩ := exec_checkFile_error expand hhead
      rw [exec_andThen_error _ he]
      exact ⟨e, rfl⟩

end Listed

/-! ### Row groups whose paths fit -/

theorem length_le_length_utf8Bytes (s : Str) : s.length ≤ (utf8Bytes s).length := by
  induction s with
  | nil => exact Nat.le_refl 0
  | cons c s ih =>
    have hpos : 0 < (String.utf8EncodeChar c).length :=
      List.length_pos_iff.mpr String.utf8EncodeChar_ne_nil
    rw [utf8Bytes, List.flatMap_cons, List.length_append, List.length_cons]
    rw [utf8Bytes] at ih
    omega

/-- Texts of some length take up at least as many bytes each. -/
theorem le_textBytes {vs : List Str} {k : ℕ} (h : ∀ s ∈ vs, k ≤ s.length) :
    vs.length * k ≤ textBytes vs := by
  have hsum := List.card_nsmul_le_sum (vs.map fun s => (utf8Bytes s).length) k fun m hm => by
    obtain ⟨s, hs, rfl⟩ := List.mem_map.mp hm
    exact (h s hs).trans (length_le_length_utf8Bytes s)
  rwa [List.length_map, smul_eq_mul] at hsum

section Writing

variable {W : ParquetWriter} {fs fs₀ : Files} {root out : Str} {opts : PackOptions}
  {w : PackWriter} {rows : List Row}
  {expand : Files → Str → Except Str (List (Except (Str × Str) Str))}

theorem pathsFit_nil (limit : ℕ) : PathsFit limit [] := by
  intro g hg
  cases hg

/-- With one row more, only the group it joins is a new one. -/
theorem pathsFit_append_singleton {limit : ℕ} {r : Row} (h : PathsFit limit rows)
    (hr : textBytes (((Grouping.cut rowSize limit rows).2 ++ [r]).map Prod.fst) ≤ maxTextBytes) :
    PathsFit limit (rows ++ [r]) := by
  intro g hg
  rcases Grouping.of_mem_groups_append_singleton rowSize limit hg with hg | rfl
  · exact h g hg
  · exact hr

/-! ### Files that are packed -/

variable (W fs₀ out opts) in
theorem fst_rowsAfter (rows : List Row) (pairs : List (Str × Str)) :
    (rowsAfter W fs₀ out opts rows pairs).map Prod.fst = pairs.map Prod.fst := by
  induction pairs generalizing rows with
  | nil => rfl
  | cons pair pairs ih =>
    rw [rowsAfter, List.map_cons, List.map_cons, ih]

variable (W fs₀ out opts) in
theorem length_packedRows (root : Str) (paths : List Str) :
    (packedRows W fs₀ out opts root paths).length = (listedPairs root paths).length := by
  rw [← List.length_map (f := Prod.fst), packedRows, fst_rowsAfter, List.length_map,
    (sortPairs_perm _).length_eq]

/-- A source is read as it is when its turn comes. -/
theorem forall₂_rowsAfter (rows : List Row) {pairs : List (Str × Str)}
    (h : ∀ pair ∈ pairs, fs₀.read pair.2 ≠ none) :
    List.Forall₂ (fun pair row => row.1 = pair.1 ∧
      (pair.2 ≠ tmpName out → fs₀.read pair.2 = some row.2)) pairs
        (rowsAfter W fs₀ out opts rows pairs) := by
  induction pairs generalizing rows with
  | nil => exact .nil
  | cons pair pairs ih =>
    rw [rowsAfter]
    refine .cons ⟨rfl, fun htmp => ?_⟩ (ih _ fun q hq => h q (List.mem_cons_of_mem pair hq))
    obtain ⟨bs, hbs⟩ := Option.ne_none_iff_exists'.mp (h pair List.mem_cons_self)
    rw [contentAfter, if_neg htmp, hbs]
    rfl

/-- A file that was there at the start is read while a writer is at work. -/
theorem read_of_packing (hw : PackingRows W fs₀ out opts rows w fs) {src : Str}
    (h : fs₀.read src ≠ none) : fs.read src = some (contentAfter W fs₀ out opts rows src) := by
  unfold contentAfter
  split
  · next htmp =>
    rw [htmp]
    exact hw.contents
  · next htmp =>
    obtain ⟨bs, hbs⟩ := Option.ne_none_iff_exists'.mp h
    rw [hw.untouched src htmp, hbs]
    rfl

theorem exec_appendFile (hw : PackingRows W fs₀ out opts rows w fs) {pair : Str × Str}
    (h : fs₀.read pair.2 ≠ none) :
    exec (fsHandler expand) (appendFile W w pair) fs =
      exec (fsHandler expand)
        (w.append W pair.1 (contentAfter W fs₀ out opts rows pair.2)) fs := by
  have hread : fsHandler expand (.read pair.2) fs =
      (.ok (contentAfter W fs₀ out opts rows pair.2), fs) := by
    simp only [fsHandler, read_of_packing hw h]
  unfold appendFile readFile
  rw [call_andThen, exec_call, hread]
  rfl

variable (expand) in
/-- A row is accepted exactly when its path is new and fits. -/
theorem exec_append_ok_iff (hw : PackingRows W fs₀ out opts rows w fs) (r : Row) :
    (∃ w', (exec (fsHandler expand) (w.append W r.1 r.2) fs).1 = .ok w') ↔
      r.1 ∉ rows.map Prod.fst ∧
      textBytes (((Grouping.cut rowSize (max opts.maxRowGroupBytes 1) rows).2 ++ [r]).map
        Prod.fst) ≤ maxTextBytes := by
  obtain ⟨h, hbuf, -⟩ := hw.buffers
  constructor
  · rintro ⟨w', hok⟩
    rw [List.map_append, List.map_singleton, ← hbuf.paths, ← hbuf.mem_seen]
    unfold PackWriter.append at hok
    split at hok
    · cases hok
    · next hnew =>
      split at hok
      · cases hok
      · next htext => exact ⟨hnew, not_lt.mp htext⟩
  · rintro ⟨hnew, htext⟩
    obtain ⟨w', hok, -⟩ := exec_append_packing expand hw hnew htext
    exact ⟨w', hok⟩

/-- The paths of the rows are distinct, and fit. -/
def Packable (opts : PackOptions) (rows : List Row) : Prop :=
  (rows.map Prod.fst).Nodup ∧ PathsFit (max opts.maxRowGroupBytes 1) rows

variable (expand) in
/-- **A writer takes files exactly when their rows are packable.** -/
theorem exec_packEach_appendFile {pairs : List (Str × Str)}
    (hw : PackingRows W fs₀ out opts rows w fs)
    (hfit : PathsFit (max opts.maxRowGroupBytes 1) rows)
    (hread : ∀ pair ∈ pairs, fs₀.read pair.2 ≠ none) :
    (Packable opts (rows ++ rowsAfter W fs₀ out opts rows pairs) ∧
      ∃ w', (exec (fsHandler expand) (packEach (appendFile W) w pairs) fs).1 = .ok w' ∧
        PackingRows W fs₀ out opts (rows ++ rowsAfter W fs₀ out opts rows pairs) w'
          (exec (fsHandler expand) (packEach (appendFile W) w pairs) fs).2) ∨
    (¬Packable opts (rows ++ rowsAfter W fs₀ out opts rows pairs) ∧
      ∃ e, (exec (fsHandler expand) (packEach (appendFile W) w pairs) fs).1 = .error e) := by
  induction pairs generalizing rows w fs with
  | nil =>
    obtain ⟨h, hbuf, -⟩ := hw.buffers
    rw [rowsAfter, List.append_nil]
    exact Or.inl ⟨⟨hbuf.nodup, hfit⟩, w, rfl, hw⟩
  | cons pair pairs ih =>
    rw [rowsAfter, List.append_cons]
    set r : Row := (pair.1, contentAfter W fs₀ out opts rows pair.2)
    have hstep : exec (fsHandler expand) (appendFile W w pair) fs =
        exec (fsHandler expand) (w.append W r.1 r.2) fs :=
      exec_appendFile hw (hread pair List.mem_cons_self)
    rw [packEach]
    rcases hres : (exec (fsHandler expand) (w.append W r.1 r.2) fs).1 with e | w'
    · -- the row is not accepted, so it is not packable with what follows either
      refine Or.inr ⟨fun hacc => ?_, e, ?_⟩
      · obtain ⟨w', hok⟩ := (exec_append_ok_iff expand hw r).mpr
          ⟨notMem_of_nodup_append hacc.1, textBytes_le_of_fits hacc.2⟩
        rw [hres] at hok
        cases hok
      · rw [exec_andThen_error _ (by rw [hstep, hres])]
    · obtain ⟨hnew, htext⟩ := (exec_append_ok_iff expand hw r).mp ⟨w', hres⟩
      obtain ⟨w'', hok, hw'⟩ := exec_append_packing expand hw hnew htext
      rw [hok] at hres
      cases hres
      rw [exec_andThen _ (by rw [hstep, hok]), hstep]
      exact ih hw' (pathsFit_append_singleton hfit htext) fun q hq =>
        hread q (List.mem_cons_of_mem pair hq)

/-! ### Lists that are packed -/

variable (expand) in
/-- Files with packable rows are packed. -/
theorem exec_writePairs_ok {pairs : List (Str × Str)} (htmp : fs₀.isDir (tmpName out) = false)
    (hout : fs₀.isDir out = false) (hread : ∀ pair ∈ sortPairs pairs, fs₀.read pair.2 ≠ none)
    (hacc : Packable opts (rowsAfter W fs₀ out opts [] (sortPairs pairs))) :
    ∃ fs, exec (fsHandler expand) (writePairs W pairs out opts) fs₀
        = (.ok ⟨(rowsAfter W fs₀ out opts [] (sortPairs pairs)).length,
            Grouping.total rowSize (rowsAfter W fs₀ out opts [] (sortPairs pairs))⟩, fs) ∧
      PublishedRows W fs₀ out opts (rowsAfter W fs₀ out opts [] (sortPairs pairs)) fs := by
  refine exec_createWith_ok htmp hout fun w fs hw => ?_
  rcases exec_packEach_appendFile expand hw (pathsFit_nil _) hread with ⟨-, hok⟩ | ⟨hno, -⟩
  · exact hok
  · exact absurd hacc hno

variable (expand) in
/-- Files with other rows are not packed. -/
theorem exec_writePairs_error {pairs : List (Str × Str)} (htmp : fs₀.isDir (tmpName out) = false)
    (hread : ∀ pair ∈ sortPairs pairs, fs₀.read pair.2 ≠ none)
    (hacc : ¬Packable opts (rowsAfter W fs₀ out opts [] (sortPairs pairs))) :
    ∃ e, (exec (fsHandler expand) (writePairs W pairs out opts) fs₀).1 = .error e := by
  obtain ⟨w, hcreate, hw⟩ := exec_create_packing W opts expand htmp
  rcases exec_packEach_appendFile expand hw (pathsFit_nil _) hread with ⟨hyes, -⟩ | ⟨-, e, he⟩
  · exact absurd hyes hacc
  · rw [writePairs, exec_andThen _ hcreate, exec_andThen_error _ (exec_onError_error _ he)]
    exact ⟨e, rfl⟩

theorem read_of_mem_sortPairs {paths : List Str}
    (h : ∀ p ∈ paths, ∃ pair, FileBelow fs₀ root p pair) :
    ∀ pair ∈ sortPairs (listedPairs root paths), fs₀.read pair.2 ≠ none := by
  intro pair hpair
  exact read_of_mem_listedPairs h ((sortPairs_perm _).mem_iff.mp hpair)

theorem packFiles_of_ne_nil {paths : List Str} (hne : paths ≠ [])
    (h : ∀ p ∈ paths, ∃ pair, FileBelow fs₀ root p pair) :
    exec (fsHandler expand) (packFiles W paths root out opts) fs₀ =
      exec (fsHandler expand) (writePairs W (listedPairs root paths) out opts) fs₀ := by
  have hcheck := exec_checkFiles_ok expand h
  rw [packFiles, if_neg hne, exec_andThen _ (congrArg Prod.fst hcheck), hcheck]

variable (expand) in
/-- A list that is not rejected is packed if its paths fit. -/
theorem packsRows_of_fits {paths : List Str} (htmp : fs₀.isDir (tmpName out) = false)
    (hout : fs₀.isDir out = false) (hok : ¬Rejected fs₀ root paths)
    (hfit : PathsFit (max opts.maxRowGroupBytes 1) (packedRows W fs₀ out opts root paths)) :
    PacksRows W expand fs₀ root out opts paths (packedRows W fs₀ out opts root paths) ∧
      ((packedRows W fs₀ out opts root paths).map Prod.fst).Pairwise (· < ·) := by
  obtain ⟨hne, hbelow, hnodup⟩ := not_rejected_iff.mp hok
  have hread := read_of_mem_sortPairs hbelow
  have hlt : ((packedRows W fs₀ out opts root paths).map Prod.fst).Pairwise (· < ·) := by
    rw [packedRows, fst_rowsAfter]
    exact pairwise_lt_sortPairs hnodup
  refine ⟨⟨⟨_, forall₂_listedPairs hbelow, forall₂_rowsAfter [] hread⟩, ?_⟩, hlt⟩
  rw [packFiles_of_ne_nil hne hbelow]
  exact exec_writePairs_ok expand htmp hout hread ⟨hlt.imp fun h => ne_of_lt h, hfit⟩

variable (expand) in
/-- A list is not packed if it is rejected, or if its paths do not fit. -/
theorem packFails_of_not_fits {paths : List Str} (htmp : fs₀.isDir (tmpName out) = false)
    (h : Rejected fs₀ root paths ∨
      ¬PathsFit (max opts.maxRowGroupBytes 1) (packedRows W fs₀ out opts root paths)) :
    PackFails W expand fs₀ root out opts paths := by
  unfold PackFails
  by_cases hne : paths = []
  · rw [packFiles, if_pos hne]
    exact ⟨_, rfl⟩
  by_cases hbelow : ∀ p ∈ paths, ∃ pair, FileBelow fs₀ root p pair
  · rw [packFiles_of_ne_nil hne hbelow]
    refine exec_writePairs_error expand htmp (read_of_mem_sortPairs hbelow) fun hacc => ?_
    -- packable rows have distinct paths that fit
    rcases h with hrej | hfit
    · refine not_rejected_iff.mpr ⟨hne, hbelow, ?_⟩ hrej
      have hnodup := hacc.1
      rw [fst_rowsAfter] at hnodup
      exact ((sortPairs_perm _).map Prod.fst).nodup_iff.mp hnodup
    · exact hfit hacc.2
  · push Not at hbelow
    obtain ⟨p, hp, hbad⟩ := hbelow
    obtain ⟨e, he⟩ := exec_checkFiles_error expand ⟨p, hp, not_exists.mpr hbad⟩
    rw [packFiles, if_neg hne, exec_andThen_error _ he]
    exact ⟨e, rfl⟩

/-- A list in another order has the same rows, if none of its files is rejected. -/
theorem packedRows_eq_of_perm {paths paths' : List Str} (hperm : paths'.Perm paths)
    (hok : ¬Rejected fs₀ root paths) :
    packedRows W fs₀ out opts root paths' = packedRows W fs₀ out opts root paths := by
  rw [packedRows, sortPairs_eq_of_perm (listedPairs_perm hperm) (not_rejected_iff.mp hok).2.2]
  rfl

variable (W expand) in
/-- Every order of a list has the same outcome, whether the paths fit or not. -/
theorem sameOutcome_of_perm {paths paths' : List Str} (htmp : fs₀.isDir (tmpName out) = false)
    (hout : fs₀.isDir out = false) (hperm : paths'.Perm paths) :
    (PackFails W expand fs₀ root out opts paths ∧ PackFails W expand fs₀ root out opts paths') ∨
    ∃ rows, PacksRows W expand fs₀ root out opts paths rows ∧
      PacksRows W expand fs₀ root out opts paths' rows ∧
      (rows.map Prod.fst).Pairwise (· < ·) := by
  by_cases hrej : Rejected fs₀ root paths
  · exact Or.inl ⟨packFails_of_not_fits expand htmp (Or.inl hrej),
      packFails_of_not_fits expand htmp (Or.inl (rejected_of_perm hperm hrej))⟩
  have hrows : packedRows W fs₀ out opts root paths' = packedRows W fs₀ out opts root paths :=
    packedRows_eq_of_perm hperm hrej
  by_cases hfit : PathsFit (max opts.maxRowGroupBytes 1) (packedRows W fs₀ out opts root paths)
  · have hrej' : ¬Rejected fs₀ root paths' := fun h => hrej (rejected_of_perm hperm.symm h)
    have hpacks := packsRows_of_fits expand htmp hout hrej hfit
    have hpacks' := packsRows_of_fits expand htmp hout hrej' (by rwa [hrows])
    rw [hrows] at hpacks'
    exact Or.inr ⟨_, hpacks.1, hpacks'.1, hpacks.2⟩
  · exact Or.inl ⟨packFails_of_not_fits expand htmp (Or.inr hfit),
      packFails_of_not_fits expand htmp (Or.inr (by rwa [hrows]))⟩

variable (W expand) in
/-- **The order is irrelevant exactly when the list is rejected or the paths fit.**
Whichever order the files are listed in, the same rows are written in the same row
groups, or every order fails; and a list that is not rejected fails where the
paths of a row group are too many for its column. -/
theorem orderIrrelevant_iff {paths : List Str} (htmp : fs₀.isDir (tmpName out) = false)
    (hout : fs₀.isDir out = false) :
    OrderIrrelevant W expand fs₀ root out opts paths ↔
      Rejected fs₀ root paths ∨
      ∀ g ∈ flushGroups (max opts.maxRowGroupBytes 1) (packedRows W fs₀ out opts root paths),
        textBytes (g.map Prod.fst) ≤ maxTextBytes := by
  change _ ↔ _ ∨ PathsFit _ _
  constructor
  · intro h
    by_contra hno
    obtain ⟨hrej, hfit⟩ := not_or.mp hno
    exact hrej (h.2.mp (packFails_of_not_fits expand htmp (Or.inr hfit)))
  · intro h
    refine ⟨fun paths' hperm => sameOutcome_of_perm W expand htmp hout hperm, ?_,
      fun hrej => packFails_of_not_fits expand htmp (Or.inl hrej)⟩
    rintro ⟨e, he⟩
    rcases h with hrej | hfit
    · exact hrej
    · by_contra hrej
      obtain ⟨⟨-, fs, hok, -⟩, -⟩ := packsRows_of_fits expand htmp hout hrej hfit
      rw [hok] at he
      cases he

end Writing

/-- Two files. -/
def twoFiles : Files := (FileSystem.empty.put "b".toList [3]).put "a".toList [1, 2]

theorem packedRows_twoFiles :
    packedRows plainWriter twoFiles "o".toList {} ".".toList ["b".toList, "a".toList]
      = [("a".toList, [1, 2]), ("b".toList, [3])] := by
  decide

theorem orderIrrelevant_sample :
    OrderIrrelevant plainWriter expandNothing twoFiles ".".toList "o".toList {}
      ["b".toList, "a".toList] := by
  refine (orderIrrelevant_iff plainWriter expandNothing rfl rfl).mpr (Or.inr fun g hg => ?_)
  rw [packedRows_twoFiles] at hg
  have hgroups : flushGroups (max ({} : PackOptions).maxRowGroupBytes 1)
      [("a".toList, [1, 2]), ("b".toList, [3])] = [[("a".toList, [1, 2]), ("b".toList, [3])]] :=
    rfl
  rw [hgroups, List.mem_singleton] at hg
  rw [hg]
  decide

/-! ### A million empty files with long paths -/

/-- Eight directories with long names. -/
def deepDirs : List Str := List.replicate 8 (List.replicate 255 'd')

def deepPath (i : ℕ) : Str := join '/' (deepDirs ++ [natStr i])

def deepPaths (n : ℕ) : List Str := (List.range n).map deepPath

/-- Empty files with the given names. -/
def emptyFiles : List Str → Files
  | [] => FileSystem.empty
  | p :: ps => (emptyFiles ps).put p []

theorem isDir_emptyFiles (ps : List Str) (p : Str) : (emptyFiles ps).isDir p = false := by
  induction ps with
  | nil => rfl
  | cons q ps ih => rw [emptyFiles, FileSystem.isDir_put, ih]

theorem read_emptyFiles {ps : List Str} {p : Str} (h : p ∈ ps) :
    (emptyFiles ps).read p = some [] := by
  induction ps with
  | nil => cases h
  | cons q ps ih =>
    rw [emptyFiles, FileSystem.read_put (isDir_emptyFiles ps q)]
    split
    · rfl
    · next hne => exact ih ((List.mem_cons.mp h).resolve_left hne)

theorem natStr_injective : Function.Injective natStr := by
  intro m n h
  have hdigits := congrArg (fun s => Nat.ofDigitChars 10 s 0) h
  simpa [natStr] using hdigits

theorem isName_natStr (n : ℕ) : IsName (natStr n) := by
  have hdigit : ∀ c ∈ natStr n, c.isDigit = true := fun c hc =>
    Nat.isDigit_of_mem_toDigits (by decide) (by decide) hc
  refine ⟨Nat.toDigits_ne_nil, fun h => ?_, fun h => ?_, fun h => ?_⟩
  · exact absurd (hdigit _ h) (by decide)
  · exact absurd (hdigit '.' (by rw [h]; decide)) (by decide)
  · exact absurd (hdigit '.' (by rw [h]; decide)) (by decide)

theorem isName_of_mem_deepDirs {i : ℕ} {s : Str} (h : s ∈ deepDirs ++ [natStr i]) : IsName s := by
  rcases List.mem_append.mp h with h | h
  · rw [List.eq_of_mem_replicate h]
    refine ⟨by decide, fun hmem => ?_, by decide, by decide⟩
    exact absurd (List.eq_of_mem_replicate hmem) (by decide)
  · rw [List.mem_singleton.mp h]
    exact isName_natStr i

theorem storedPath_deepPath (i : ℕ) : storedPath (deepPath i) ".".toList = .ok (deepPath i) := by
  refine storedPath_ok_iff.mpr ⟨_, List.concat_ne_nil (natStr i) deepDirs, ?_, rfl⟩
  rw [deepPath, clean_join fun s hs => isName_of_mem_deepDirs hs]
  rfl

theorem deepPath_injective : Function.Injective deepPath := by
  intro i j h
  have hnames := congrArg nameSegs h
  rw [deepPath, deepPath, nameSegs_join fun s hs => isName_of_mem_deepDirs hs,
    nameSegs_join fun s hs => isName_of_mem_deepDirs hs] at hnames
  exact natStr_injective (List.singleton_inj.mp (List.append_cancel_left hnames))

theorem length_deepPath (i : ℕ) : 2049 ≤ (deepPath i).length := by
  have hdirs : (join '/' deepDirs).length = 2047 := by decide +kernel
  have hpos : 0 < (natStr i).length := List.length_pos_iff.mpr (isName_natStr i).1
  have hne : deepDirs ≠ [] := List.cons_ne_nil _ _
  rw [deepPath, join_append hne (List.cons_ne_nil _ _), join_singleton, List.length_append,
    List.length_cons, hdirs]
  omega

theorem mem_deepPaths {n : ℕ} {p : Str} (h : p ∈ deepPaths n) : ∃ i, p = deepPath i := by
  obtain ⟨i, -, rfl⟩ := List.mem_map.mp h
  exact ⟨i, rfl⟩

theorem fileBelow_deepPaths {n : ℕ} {p : Str} (h : p ∈ deepPaths n) :
    FileBelow (emptyFiles (deepPaths n)) ".".toList p (p, p) := by
  have hread := read_emptyFiles h
  obtain ⟨i, rfl⟩ := mem_deepPaths h
  refine ⟨rfl, storedPath_deepPath i, FileSystem.kind_eq_file_iff.mpr ?_⟩
  rw [hread]
  exact nofun

theorem listedPairs_deepPaths (n : ℕ) :
    listedPairs ".".toList (deepPaths n) = (deepPaths n).map fun p => (p, p) := by
  have hsome : ∀ p ∈ deepPaths n, listedPair ".".toList p = some (p, p) := fun p hp =>
    listedPair_eq_some_iff.mpr ⟨rfl, (fileBelow_deepPaths hp).2.1⟩
  rw [listedPairs, List.filterMap_congr hsome]
  exact congrFun (List.filterMap_eq_map (f := fun p : Str => (p, p))) (deepPaths n)

/-- Nothing is wrong with the files. -/
theorem not_rejected_deepPaths {n : ℕ} (hn : 0 < n) :
    ¬Rejected (emptyFiles (deepPaths n)) ".".toList (deepPaths n) := by
  refine not_rejected_iff.mpr ⟨?_, fun p hp => ⟨_, fileBelow_deepPaths hp⟩, ?_⟩
  · intro hnil
    have hlen := congrArg List.length hnil
    rw [deepPaths, List.length_map, List.length_range] at hlen
    exact absurd hlen (Nat.ne_of_gt hn)
  · rw [listedPairs_deepPaths, List.map_map]
    exact (List.map_id (deepPaths n)).symm ▸ List.nodup_range.map deepPath_injective

/-- Every row is an empty file with a long path. -/
theorem of_mem_packedRows_deepPaths {n : ℕ} {r : Row}
    (hr : r ∈ packedRows plainWriter (emptyFiles (deepPaths n)) "o".toList {} ".".toList
      (deepPaths n)) : r.2 = [] ∧ 2049 ≤ r.1.length := by
  have hread := read_of_mem_sortPairs fun p (hp : p ∈ deepPaths n) => ⟨_, fileBelow_deepPaths hp⟩
  obtain ⟨pair, hpair, hrow, hcontent⟩ :=
    exists_of_forall₂ (forall₂_rowsAfter [] hread) hr
  rw [(sortPairs_perm _).mem_iff, listedPairs_deepPaths] at hpair
  obtain ⟨p, hp, rfl⟩ := List.mem_map.mp hpair
  obtain ⟨i, hi⟩ := mem_deepPaths hp
  have hlen : 2049 ≤ p.length := by
    rw [hi]
    exact length_deepPath i
  have hne : p ≠ tmpName "o".toList := by
    rintro rfl
    exact absurd hlen (by decide)
  rw [hrow]
  refine ⟨?_, hlen⟩
  exact (Option.some.inj ((read_emptyFiles hp).symm.trans (hcontent hne))).symm

theorem length_packedRows_deepPaths (n : ℕ) :
    (packedRows plainWriter (emptyFiles (deepPaths n)) "o".toList {} ".".toList
      (deepPaths n)).length = n := by
  rw [length_packedRows, listedPairs_deepPaths, List.length_map, deepPaths, List.length_map,
    List.length_range]

/-- Without contents all paths are in one row group. -/
theorem not_pathsFit_of_empty {limit k : ℕ} {rows : List Row} (hlimit : 0 < limit)
    (h : ∀ r ∈ rows, r.2 = [] ∧ k ≤ r.1.length) (hbig : maxTextBytes < rows.length * k) :
    ¬PathsFit limit rows := by
  intro hfit
  have hne : rows ≠ [] := by
    rintro rfl
    rw [List.length_nil, Nat.zero_mul] at hbig
    exact absurd hbig (Nat.not_lt_zero _)
  have htotal : Grouping.total rowSize rows = 0 := by
    refine List.sum_eq_zero fun m hm => ?_
    obtain ⟨r, hr, rfl⟩ := List.mem_map.mp hm
    rw [rowSize, (h r hr).1, List.length_nil]
  have hgroups : flushGroups limit rows = [rows] :=
    Grouping.groups_of_total_lt rowSize _ hne (by rw [htotal]; exact hlimit)
  have hle := hfit rows (by rw [hgroups]; exact List.mem_singleton_self rows)
  have hge : (rows.map Prod.fst).length * k ≤ textBytes (rows.map Prod.fst) := by
    refine le_textBytes fun s hs => ?_
    obtain ⟨r, hr, rfl⟩ := List.mem_map.mp hs
    exact (h r hr).2
  rw [List.length_map] at hge
  omega

theorem not_pathsFit_deepPaths {n : ℕ} (hn : maxTextBytes < n * 2049) :
    ¬PathsFit (max ({} : PackOptions).maxRowGroupBytes 1)
      (packedRows plainWriter (emptyFiles (deepPaths n)) "o".toList {} ".".toList
        (deepPaths n)) := by
  refine not_pathsFit_of_empty (by decide) (fun r => of_mem_packedRows_deepPaths) ?_
  rwa [length_packedRows_deepPaths]

/-- **A list may fail that nothing is wrong with**: with a million empty files whose
paths are long, the column of paths is full before the row group is. -/
theorem long_paths_fail :
    ¬OrderIrrelevant plainWriter expandNothing (emptyFiles (deepPaths (2 ^ 20))) ".".toList
      "o".toList {} (deepPaths (2 ^ 20)) := by
  intro h
  have hfails : PackFails plainWriter expandNothing (emptyFiles (deepPaths (2 ^ 20))) ".".toList
      "o".toList {} (deepPaths (2 ^ 20)) :=
    packFails_of_not_fits expandNothing (isDir_emptyFiles _ _)
      (Or.inr (not_pathsFit_deepPaths (by decide)))
  exact not_rejected_deepPaths (by decide) (h.2.mp hfails)

end ParquetFileFs
