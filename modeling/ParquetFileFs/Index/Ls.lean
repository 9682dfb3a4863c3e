import ParquetFileFs.Index.Dirs
import Mathlib.Data.List.Sort

/-!
# Listing a directory

`ls` scans the ordered file keys from the directory's prefix to the first key
without it, keeps files directly in the directory, and gives every other key's
first segment once as a directory, unless a file has that name.

## Main definitions

* `Index.isDir`, `Index.ls` — the queries on the index.
* `LsInv` — what the scan has collected from the keys it has passed.
* `Index.IsName` — the files and directories of an index, the root among them.

## Main results

* `lsStep_inv` — one step of the scan keeps the invariant.
* `Index.WellFormed.ls_dir` — the listing of a directory.
* `ls_of_buildIndex` — **a listing is exact**, for every index that is built.
-/

namespace ParquetFileFs

open Segments

def Index.isDir (ix : Index) (norm : Str) : Bool := norm = [] ∨ ix.dirs.contains norm

/-- One key of the scan: the entries so far, and the directories seen so far by
their last segment. -/
def lsStep (files : SortedMap Str FileEntry) (prefixSlash : Str) (st : List DirEntry × List Str)
    (k : Str) : List DirEntry × List Str :=
  match splitOnce '/' (k.drop prefixSlash.length) with
  | none => (st.1 ++ [⟨k, false⟩], st.2)
  | some (d, _) =>
      -- a path can be both a file and a directory: it is listed once, as the file
      if d ∉ st.2 ∧ ¬files.contains (prefixSlash ++ d) then
        (st.1 ++ [⟨prefixSlash ++ d, true⟩], st.2.insert d)
      else (st.1, st.2.insert d)

def Index.ls (ix : Index) (path : Str) : Except FsError (List DirEntry) :=
  if normalize path ≠ [] ∧ ix.files.contains (normalize path) then
    .ok [⟨normalize path, false⟩]
  else if ¬ix.isDir (normalize path) then .error (.notFound (normalize path))
  else
    let prefixSlash := if normalize path = [] then [] else normalize path ++ ['/']
    let scanned := (ix.files.keysFrom prefixSlash).takeWhile (prefixSlash <+: ·)
    .ok ((scanned.foldl (lsStep ix.files prefixSlash) ([], [])).1.insertionSort
      fun a b => a.name ≤ b.name)

/-! ### The scan -/

/-- What the scan of the directory `n` has collected after the keys `ks`. -/
structure LsInv (files : SortedMap Str FileEntry) (n : Str) (ks : List Str)
    (st : List DirEntry × List Str) : Prop where
  mem_files : ∀ {x}, ⟨x, false⟩ ∈ st.1 ↔ x ∈ ks ∧ IsChild '/' n x
  mem_dirs : ∀ {x}, ⟨x, true⟩ ∈ st.1 ↔ (∃ d ∈ st.2, x = stem '/' n ++ d) ∧ x ∉ files.keys
  mem_seen : ∀ {d}, d ∈ st.2 ↔
    IsChild '/' n (stem '/' n ++ d) ∧ ∃ k ∈ ks, stem '/' n ++ d ++ ['/'] <+: k
  nodup : (st.1.map DirEntry.name).Nodup

theorem isChild_stem_append {n s : Str} : IsChild '/' n (stem '/' n ++ s) ↔ s ≠ [] ∧ '/' ∉ s := by
  constructor
  · rintro ⟨s', hne, hsep, heq⟩
    rw [List.append_cancel_left heq]
    exact ⟨hne, hsep⟩
  · rintro ⟨hne, hsep⟩
    exact ⟨s, hne, hsep, rfl⟩

theorem mem_map_name {es : List DirEntry} {x : Str} :
    x ∈ es.map DirEntry.name ↔ ⟨x, false⟩ ∈ es ∨ ⟨x, true⟩ ∈ es := by
  rw [List.mem_map]
  constructor
  · rintro ⟨⟨x, b⟩, h, rfl⟩
    cases b <;> simp [h]
  · rintro (h | h)
    · exact ⟨_, h, rfl⟩
    · exact ⟨_, h, rfl⟩

variable {files : SortedMap Str FileEntry} {n k : Str} {ks : List Str}
  {st : List DirEntry × List Str}

/-- A key directly in the directory is listed as a file. -/
theorem lsStep_inv_file (h : LsInv files n ks st) (hk : k ∈ files.keys) (hnew : k ∉ ks)
    (hchild : IsChild '/' n k) : LsInv files n (ks ++ [k]) (st.1 ++ [⟨k, false⟩], st.2) := by
  -- what follows the stem has no separator, so the key is below no child
  have hbelow : ∀ d, ¬stem '/' n ++ d ++ ['/'] <+: k := by
    obtain ⟨s, -, hsep, rfl⟩ := hchild
    intro d hd
    rw [List.append_assoc, List.prefix_append_right_inj] at hd
    exact hsep (hd.subset (by simp))
  refine ⟨fun {x} => ?_, fun {x} => ?_, fun {d} => ?_, ?_⟩
  · simp only [List.mem_append, List.mem_singleton, h.mem_files, DirEntry.mk.injEq, and_true]
    constructor
    · rintro (hx | rfl)
      · exact ⟨Or.inl hx.1, hx.2⟩
      · exact ⟨Or.inr rfl, hchild⟩
    · rintro ⟨hx | rfl, hc⟩
      · exact Or.inl ⟨hx, hc⟩
      · exact Or.inr rfl
  · simp [h.mem_dirs]
  · simp only [h.mem_seen, List.mem_append, List.mem_singleton, or_and_right, exists_or,
      exists_eq_left, hbelow, or_false]
  · rw [List.map_append, List.map_singleton, ← List.concat_eq_append]
    -- the keys are distinct, and no directory entry has the name of a file
    refine h.nodup.concat fun hmem => ?_
    rcases mem_map_name.mp hmem with hx | hx
    · exact hnew (h.mem_files.mp hx).1
    · exact (h.mem_dirs.mp hx).2 hk

/-- A key below a child of the directory makes that child seen. -/
theorem mem_seen_insert {d : Str} (h : LsInv files n ks st)
    (hchild : IsChild '/' n (stem '/' n ++ d)) (hbelow : stem '/' n ++ d ++ ['/'] <+: k)
    {d' : Str} :
    d' ∈ st.2.insert d ↔
      IsChild '/' n (stem '/' n ++ d') ∧ ∃ k' ∈ ks ++ [k], stem '/' n ++ d' ++ ['/'] <+: k' := by
  rw [List.mem_insert_iff, h.mem_seen]
  constructor
  · rintro (rfl | ⟨hc, k', hk', hd'⟩)
    · exact ⟨hchild, k, by simp, hbelow⟩
    · exact ⟨hc, k', by simp [hk'], hd'⟩
  · rintro ⟨hc, k', hk', hd'⟩
    rcases List.mem_append.mp hk' with hk' | hk'
    · exact Or.inr ⟨hc, k', hk', hd'⟩
    · rw [List.mem_singleton] at hk'
      subst hk'
      exact Or.inl (List.append_cancel_left (child_unique hc hchild (Or.inr hd') (Or.inr hbelow)))

/-- A key deeper in the directory is listed as the child above it, once, unless
a file has that name. -/
theorem lsStep_inv_dir {d : Str} (h : LsInv files n ks st) (hks : ∀ x ∈ ks, x ∈ files.keys)
    (hchild : IsChild '/' n (stem '/' n ++ d)) (hbelow : stem '/' n ++ d ++ ['/'] <+: k) :
    LsInv files n (ks ++ [k])
      (if d ∉ st.2 ∧ ¬files.contains (stem '/' n ++ d) then
        (st.1 ++ [⟨stem '/' n ++ d, true⟩], st.2.insert d) else (st.1, st.2.insert d)) := by
  have hk : ¬IsChild '/' n k := by
    obtain ⟨t, rfl⟩ := hbelow
    rw [List.append_assoc, List.append_assoc, isChild_stem_append]
    simp
  -- the key is no child itself, so it adds no file
  have hfiles : ∀ {x}, (x ∈ ks ++ [k] ∧ IsChild '/' n x) ↔ x ∈ ks ∧ IsChild '/' n x := by
    intro x
    constructor
    · rintro ⟨hx, hc⟩
      rcases List.mem_append.mp hx with hx | hx
      · exact ⟨hx, hc⟩
      · rw [List.mem_singleton] at hx
        exact absurd (hx ▸ hc) hk
    · rintro ⟨hx, hc⟩
      exact ⟨List.mem_append_left _ hx, hc⟩
  simp only [SortedMap.contains_iff_mem_keys]
  split
  · next hnew =>
    refine ⟨fun {x} => ?_, fun {x} => ?_, mem_seen_insert h hchild hbelow, ?_⟩
    · rw [hfiles, ← h.mem_files]
      simp
    · simp only [List.mem_append, List.mem_singleton, h.mem_dirs, DirEntry.mk.injEq, and_true,
        List.mem_insert_iff, exists_eq_or_imp]
      constructor
      · rintro (⟨hx, hxf⟩ | rfl)
        · exact ⟨Or.inr hx, hxf⟩
        · exact ⟨Or.inl rfl, hnew.2⟩
      · rintro ⟨rfl | hx, hxf⟩
        · exact Or.inr rfl
        · exact Or.inl ⟨hx, hxf⟩
    · rw [List.map_append, List.map_singleton, ← List.concat_eq_append]
      refine h.nodup.concat fun hmem => ?_
      rcases mem_map_name.mp hmem with hx | hx
      · -- the name is neither that of a file nor seen before
        exact hnew.2 (hks _ (h.mem_files.mp hx).1)
      · obtain ⟨⟨d', hd', heq⟩, -⟩ := h.mem_dirs.mp hx
        exact hnew.1 (List.append_cancel_left heq ▸ hd')
  · next hold =>
    refine ⟨fun {x} => ?_, fun {x} => ?_, mem_seen_insert h hchild hbelow, h.nodup⟩
    · rw [hfiles, ← h.mem_files]
    · simp only [h.mem_dirs, List.mem_insert_iff, exists_eq_or_imp]
      constructor
      · rintro ⟨hx, hxf⟩
        exact ⟨Or.inr hx, hxf⟩
      · rintro ⟨rfl | hx, hxf⟩
        · rw [not_and_not_right] at hold
          by_cases hd : d ∈ st.2
          · exact ⟨⟨d, hd, rfl⟩, hxf⟩
          · exact absurd (hold hd) hxf
        · exact ⟨hx, hxf⟩

/-- **One step of the scan keeps the invariant.** -/
theorem lsStep_inv (hfiles : CanonicalKeys files) (hn : n ∉ files.keys) (h : LsInv files n ks st)
    (hks : ∀ x ∈ ks, x ∈ files.keys) (hk : k ∈ files.keys) (hnew : k ∉ ks)
    (hbelow : stem '/' n <+: k) :
    LsInv files n (ks ++ [k]) (lsStep files (stem '/' n) st k) := by
  obtain ⟨r, rfl⟩ := hbelow
  obtain ⟨hcanon, hr⟩ := canonical_of_stem_append (hfiles _ hk).1 fun e => hn (e ▸ hk)
  rw [lsStep, List.drop_left]
  cases hcut : splitOnce '/' r with
  | none =>
    exact lsStep_inv_file h hk hnew (isChild_stem_append.mpr ⟨hr, splitOnce_eq_none_iff.mp hcut⟩)
  | some p =>
    obtain ⟨d, t⟩ := p
    obtain ⟨hd, rfl⟩ := splitOnce_eq_some_iff.mp hcut
    have hne : d ≠ [] := (canonical_append_sep.mp hcanon).1.2
    exact lsStep_inv_dir h hks (isChild_stem_append.mpr ⟨hne, hd⟩) ⟨t, by simp⟩

theorem lsInv_nil : LsInv files n [] ([], []) := by
  constructor <;> simp

theorem foldl_lsStep_inv (ks pre : List Str) (hfiles : CanonicalKeys files) (hn : n ∉ files.keys)
    (h : LsInv files n pre st) (hnd : (pre ++ ks).Nodup)
    (hks : ∀ x ∈ pre ++ ks, x ∈ files.keys ∧ stem '/' n <+: x) :
    LsInv files n (pre ++ ks) (ks.foldl (lsStep files (stem '/' n)) st) := by
  induction ks generalizing pre st with
  | nil => simpa using h
  | cons k ks ih =>
    have hsplit : pre ++ k :: ks = pre ++ [k] ++ ks := by simp
    have hk := hks k (by simp)
    have hnew : k ∉ pre := by
      rw [List.nodup_append] at hnd
      exact fun hmem => hnd.2.2 k hmem k (by simp) rfl
    have h₁ := lsStep_inv hfiles hn h (fun x hx => (hks x (by simp [hx])).1) hk.1 hnew hk.2
    rw [hsplit] at hnd hks ⊢
    exact ih (pre ++ [k]) h₁ hnd hks

/-! ### Listings -/

/-- The names of the entries of a directory: the children of `n` at or above
some file. -/
def IsEntryName (ix : Index) (n name : Str) : Prop :=
  IsChild '/' n name ∧ ∃ k ∈ ix.files.keys, AtOrBelow '/' name k

/-- A list of all entries of the directory `n`, in order. -/
structure IsListing (ix : Index) (n : Str) (es : List DirEntry) : Prop where
  /-- The names strictly increase, so each occurs once. -/
  sorted : (es.map DirEntry.name).Pairwise (· < ·)
  /-- The names are those of the directory. -/
  mem_names : ∀ {x}, x ∈ es.map DirEntry.name ↔ IsEntryName ix n x
  /-- An entry is a directory unless it is a file. -/
  isDir_iff : ∀ {e}, e ∈ es → (e.isDir = true ↔ e.name ∉ ix.files.keys)

/-- The canonical names of the files and directories of an index. -/
def Index.IsName (ix : Index) (x : Str) : Prop :=
  Canonical '/' x ∧ (x = [] ∨ x ∈ ix.files.keys ∨ x ∈ ix.dirs.keys)

namespace Index.WellFormed

variable {ix : Index}

theorem isDir_iff (h : ix.WellFormed) {n : Str} :
    ix.isDir n ↔ n = [] ∨ ∃ k ∈ ix.files.keys, n ++ ['/'] <+: k := by
  rw [← h.mem_dirs, ← SortedMap.contains_iff_mem_keys]
  simp [Index.isDir]

theorem canonicalKeys (h : ix.WellFormed) : CanonicalKeys ix.files :=
  fun _ hk => ⟨h.canonical hk, h.ne_nil hk⟩

/-- The scan of a directory collects its listing. -/
theorem isListing_scan (h : ix.WellFormed) (hn : n ∉ ix.files.keys) :
    IsListing ix n ((((ix.files.keysFrom (stem '/' n)).takeWhile (stem '/' n <+: ·)).foldl
      (lsStep ix.files (stem '/' n)) ([], [])).1.insertionSort fun a b => a.name ≤ b.name) := by
  rw [SortedMap.takeWhile_prefix_keysFrom]
  have hinv := foldl_lsStep_inv (ix.files.keys.filter (stem '/' n <+: ·)) [] h.canonicalKeys hn
    lsInv_nil (by simpa using ix.files.nodup_keys.filter _)
    (fun x hx => by simpa using hx)
  rw [List.nil_append] at hinv
  generalize (ix.files.keys.filter (stem '/' n <+: ·)).foldl
    (lsStep ix.files (stem '/' n)) ([], []) = st at hinv
  have hperm := List.perm_insertionSort (fun a b : DirEntry => a.name ≤ b.name) st.1
  have hdir : ∀ {x}, ⟨x, true⟩ ∈ st.1 → IsEntryName ix n x ∧ x ∉ ix.files.keys := by
    intro x hx
    obtain ⟨⟨d, hd, rfl⟩, hxf⟩ := hinv.mem_dirs.mp hx
    obtain ⟨hc, k, hk, hdk⟩ := hinv.mem_seen.mp hd
    exact ⟨⟨hc, k, (List.mem_filter.mp hk).1, Or.inr hdk⟩, hxf⟩
  have hfile : ∀ {x}, ⟨x, false⟩ ∈ st.1 → IsEntryName ix n x ∧ x ∈ ix.files.keys := by
    intro x hx
    obtain ⟨hk, hc⟩ := hinv.mem_files.mp hx
    exact ⟨⟨hc, x, (List.mem_filter.mp hk).1, Or.inl rfl⟩, (List.mem_filter.mp hk).1⟩
  refine ⟨?_, fun {x} => ?_, fun {e} he => ?_⟩
  · -- sorted, and without repetitions, so strictly sorted
    have hle := List.pairwise_map.mpr
      (List.pairwise_insertionSort (fun a b : DirEntry => a.name ≤ b.name) st.1)
    have hnd : ((st.1.insertionSort fun a b => a.name ≤ b.name).map DirEntry.name).Nodup :=
      ((hperm.map DirEntry.name).nodup_iff).mpr hinv.nodup
    exact (hle.and hnd).imp fun h => lt_of_le_of_ne h.1 h.2
  · rw [(hperm.map DirEntry.name).mem_iff, mem_map_name]
    constructor
    · rintro (hx | hx)
      · exact (hfile hx).1
      · exact (hdir hx).1
    · rintro ⟨hc, k, hk, hkx⟩
      -- an entry is listed as the file of this name, if there is one
      by_cases hxf : x ∈ ix.files.keys
      · exact Or.inl (hinv.mem_files.mpr
          ⟨List.mem_filter.mpr ⟨hxf, by simpa using hc.stem_isPrefix⟩, hc⟩)
      · obtain ⟨d, hd, hsep, rfl⟩ := hc
        have hkx' : stem '/' n ++ d ++ ['/'] <+: k := hkx.resolve_left fun e => hxf (e ▸ hk)
        have hkn : stem '/' n <+: k := (List.prefix_append _ _).trans
          ((List.prefix_append _ _).trans hkx')
        exact Or.inr (hinv.mem_dirs.mpr ⟨⟨d, hinv.mem_seen.mpr
          ⟨⟨d, hd, hsep, rfl⟩, k, List.mem_filter.mpr ⟨hk, by simpa using hkn⟩, hkx'⟩, rfl⟩, hxf⟩)
  · rw [hperm.mem_iff] at he
    obtain ⟨x, b⟩ := e
    cases b with
    | false => simpa using (hfile he).2
    | true => simpa using (hdir he).2

theorem ls_file (h : ix.WellFormed) {path : Str} (hmem : normalize path ∈ ix.files.keys) :
    ix.ls path = .ok [⟨normalize path, false⟩] := by
  rw [Index.ls, if_pos ⟨h.ne_nil hmem, SortedMap.contains_iff_mem_keys.mpr hmem⟩]

theorem ls_dir (h : ix.WellFormed) {path : Str} (hmem : normalize path ∉ ix.files.keys)
    (hdir : normalize path = [] ∨ ∃ k ∈ ix.files.keys, normalize path ++ ['/'] <+: k) :
    ∃ es, ix.ls path = .ok es ∧ IsListing ix (normalize path) es := by
  have hstem : (if normalize path = [] then [] else normalize path ++ ['/'])
      = stem '/' (normalize path) := by
    split
    · next hnil => rw [hnil, stem_nil]
    · next hne => rw [stem_of_ne_nil hne]
  refine ⟨_, ?_, h.isListing_scan hmem⟩
  rw [Index.ls, if_neg fun hf => hmem (SortedMap.contains_iff_mem_keys.mp hf.2),
    if_neg (not_not.mpr (h.isDir_iff.mpr hdir))]
  simp only [hstem]

theorem ls_notFound (h : ix.WellFormed) {path : Str} (hmem : normalize path ∉ ix.files.keys)
    (hdir : ¬(normalize path = [] ∨ ∃ k ∈ ix.files.keys, normalize path ++ ['/'] <+: k)) :
    ix.ls path = .error (.notFound (normalize path)) := by
  rw [Index.ls, if_neg fun hf => hmem (SortedMap.contains_iff_mem_keys.mp hf.2),
    if_pos fun hd => hdir (h.isDir_iff.mp hd)]

/-! ### Names of an index -/

theorem canonical_of_below (h : ix.WellFormed) {x k : Str} (hk : k ∈ ix.files.keys)
    (hx : x ++ ['/'] <+: k) : Canonical '/' x ∧ x ≠ [] := by
  obtain ⟨t, rfl⟩ := hx
  have hcanon : Canonical '/' (x ++ '/' :: t) := by simpa using h.canonical hk
  exact (canonical_append_sep.mp hcanon).1

theorem canonical_dir (h : ix.WellFormed) {d : Str} (hd : d ∈ ix.dirs.keys) :
    Canonical '/' d ∧ d ≠ [] := by
  obtain ⟨k, hk, hdk⟩ := h.mem_dirs.mp hd
  exact h.canonical_of_below hk hdk

theorem isName_file (h : ix.WellFormed) {k : Str} (hk : k ∈ ix.files.keys) : ix.IsName k :=
  ⟨h.canonical hk, Or.inr (Or.inl hk)⟩

theorem isName_dir (h : ix.WellFormed) {d : Str} (hd : d ∈ ix.dirs.keys) : ix.IsName d :=
  ⟨(h.canonical_dir hd).1, Or.inr (Or.inr hd)⟩

theorem isDir_iff_mem (_ : ix.WellFormed) {n : Str} : ix.isDir n ↔ n = [] ∨ n ∈ ix.dirs.keys := by
  rw [← SortedMap.contains_iff_mem_keys]
  simp [Index.isDir]

/-- The entries of a listing are names. -/
theorem isName_of_mem_ls (h : ix.WellFormed) {path : Str} {es : List DirEntry}
    (hls : ix.ls path = .ok es) {e : DirEntry} (he : e ∈ es) : ix.IsName e.name := by
  by_cases hmem : normalize path ∈ ix.files.keys
  · rw [h.ls_file hmem] at hls
    cases hls
    rw [List.mem_singleton.mp he]
    exact h.isName_file hmem
  · by_cases hdir : normalize path = [] ∨ ∃ k ∈ ix.files.keys, normalize path ++ ['/'] <+: k
    · obtain ⟨es', hes, hlist⟩ := h.ls_dir hmem hdir
      rw [hes] at hls
      cases hls
      obtain ⟨-, k, hk, hat⟩ := hlist.mem_names.mp (List.mem_map_of_mem he)
      rcases hat with rfl | hbelow
      · exact h.isName_file hk
      · exact h.isName_dir (h.mem_dirs.mpr ⟨k, hk, hbelow⟩)
    · rw [h.ls_notFound hmem hdir] at hls
      cases hls

end Index.WellFormed

/-- **A listing is exact.**  A file is listed as itself, a directory with
exactly its children, and nothing else is found. -/
theorem ls_of_buildIndex {A : Adapters} {R : ParquetReader} {pathColumn contentColumn : Option Str}
    {sources : List Str} {pol : DupPolicy} {ix : Index}
    (h : buildIndex A R pathColumn contentColumn sources pol = .ok ix) (path : Str) :
    (normalize path ∈ ix.files.keys → ix.ls path = .ok [⟨normalize path, false⟩]) ∧
      (normalize path ∉ ix.files.keys →
        (normalize path = [] ∨ ∃ k ∈ ix.files.keys, normalize path ++ ['/'] <+: k) →
          ∃ es, ix.ls path = .ok es ∧ IsListing ix (normalize path) es) ∧
      (normalize path ∉ ix.files.keys →
        ¬(normalize path = [] ∨ ∃ k ∈ ix.files.keys, normalize path ++ ['/'] <+: k) →
          ix.ls path = .error (.notFound (normalize path))) :=
  have hwf := wellFormed_of_buildIndex h
  ⟨hwf.ls_file, hwf.ls_dir, hwf.ls_notFound⟩

theorem ls_of_buildIndex_sample :
    ∃ ix, buildIndex sampleAdapters sampleReader none none [[]] .first = .ok ix ∧
      ix.ls "/a/".toList = .ok [⟨"a".toList, false⟩] ∧
      (∃ es, ix.ls [] = .ok es ∧ IsListing ix [] es) ∧
      ix.ls "b//d".toList = .error (.notFound "b/d".toList) := by
  have h : buildIndex sampleAdapters sampleReader none none [[]] .first = .ok sampleIndex := rfl
  refine ⟨sampleIndex, h, ?_, ?_, ?_⟩
  · exact (ls_of_buildIndex h "/a/".toList).1 (by decide)
  · exact (ls_of_buildIndex h []).2.1 (by decide) (by decide)
  · exact (ls_of_buildIndex h "b//d".toList).2.2 (by decide) (by decide)

end ParquetFileFs
