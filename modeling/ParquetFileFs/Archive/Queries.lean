import ParquetFileFs.Archive.Caching

/-!
# All queries classify a path the same way

Reading and asking for information consult the file table and then the set of
directories, listing consults them in its own order, and `exists` asks for
either.  A path is a file, a directory, or not there, and each query says which.

## Main definitions

* `Archive.exists_`, `Archive.isDir` — the queries of an archive.
* `callFrom` — reading and asking for information in a state of the caches.
* `DecodesAt` — the content of a path decodes, if it is a file.

## Main results

* `rowInfo_of_decodes` — a file whose content decodes has a size and metadata.
* `queries_agree` — **every query gives the same answer to what a path is.**
-/

namespace ParquetFileFs

open Segments

/-! ### Queries -/

def Archive.exists_ (ix : Index) (path : Str) : Bool :=
  ix.files.contains (normalize path) || ix.isDir (normalize path)

def Archive.isDir (ix : Index) (path : Str) : Bool := ix.isDir (normalize path)

/-- What a request gives in a state of the caches, when every decode works. -/
def callFrom (R : ParquetReader) (ix : Index) (s : Caches) (q : Request) : Outcome Response :=
  ((serve ix q).exec (cacheHandler R ix) s).1

/-- The content of a path decodes, if it is a file. -/
def DecodesAt (R : ParquetReader) (ix : Index) (path : Str) : Prop :=
  ∀ entry, ix.files.find? (normalize path) = some entry →
    (∃ col bs, decodeChunk R ix (entry.loc.shard, entry.loc.rowGroup) = .ok col ∧
      binaryValue col entry.loc.row = .ok bs) ∧
    ∃ d, decodeDetail R ix (entry.loc.shard, entry.loc.rowGroup) = .ok d

/-! ### Sizes and metadata of a row -/

theorem length_of_mapM_ok {ε α β : Type} {f : α → Except ε β} {as : List α} {bs : List β}
    (h : as.mapM f = .ok bs) : bs.length = as.length := by
  induction as generalizing bs with
  | nil =>
    cases h
    rfl
  | cons a as ih =>
    rw [List.mapM_cons] at h
    cases ha : f a with
    | error e => rw [ha] at h; cases h
    | ok b =>
      cases has : as.mapM f with
      | error e => rw [ha, has] at h; cases h
      | ok bs' =>
        rw [ha, has] at h
        cases h
        rw [List.length_cons, List.length_cons, ih has]

theorem exists_mapM_ok {ε α β : Type} {f : α → Except ε β} {as : List α}
    (h : ∀ a ∈ as, ∃ b, f a = .ok b) : ∃ bs, as.mapM f = .ok bs := by
  induction as with
  | nil => exact ⟨[], rfl⟩
  | cons a as ih =>
    obtain ⟨b, hb⟩ := h a List.mem_cons_self
    obtain ⟨bs, hbs⟩ := ih fun a' ha' => h a' (List.mem_cons_of_mem a ha')
    refine ⟨b :: bs, ?_⟩
    rw [List.mapM_cons, hb, hbs]
    rfl

/-- What a successful run over a list made of each of its elements. -/
theorem getElem?_of_mapM_ok {α β : Type} {f : α → Outcome β} {as : List α} {bs : List β}
    (h : as.mapM f = .ok bs) {i : ℕ} {a : α} (ha : as[i]? = some a) :
    ∃ b, bs[i]? = some b ∧ f a = .ok b := by
  have hlt := (List.getElem?_eq_some_iff.mp ha).1
  rw [← length_of_mapM_ok h] at hlt
  obtain ⟨a', ha', hb⟩ := mapM_ok_getElem? h (List.getElem?_eq_getElem hlt)
  rw [ha, Option.some.injEq] at ha'
  exact ⟨bs[i], List.getElem?_eq_getElem hlt, ha' ▸ hb⟩

theorem Column.length_binaryCells {col : Column} {cells : List (Cell Bytes)}
    (h : col.binaryCells = some cells) : cells.length = col.length := by
  obtain ⟨type, cells'⟩ := col
  cases type <;> cases h
  -- bytes are taken as they are, texts one by one
  all_goals first | rfl | exact List.length_map _

/-- A value that can be taken is one of the column's. -/
theorem lt_length_of_binaryValue {col : Column} {i : ℕ} {bs : Bytes}
    (h : binaryValue col i = .ok bs) : i < col.length := by
  unfold binaryValue at h
  split at h
  · next cells hcells =>
    rw [← Column.length_binaryCells hcells]
    by_contra hle
    have hnone : cells[i]? = none := List.getElem?_eq_none_iff.mpr (by omega)
    simp only [cellAt, hnone] at h
    cases h
  · cases h

/-- There are as many sizes and metadata as rows. -/
theorem lengths_of_detailOf {R : ParquetReader} {ix : Index} {key : ℕ × ℕ} {content : Column}
    {d : RgDetail} (h : detailOf R ix key content = .ok d) :
    d.sizes.length = content.length ∧ d.metas.length = content.length := by
  constructor
  · have hsizes := length_of_mapM_ok (sizes_of_detailOf h)
    rwa [List.length_range] at hsizes
  · rcases (of_detailOf h).2 with hnone | ⟨names, cols, hmetas⟩
    · rw [hnone, List.length_replicate]
    · have hlen := length_of_mapM_ok hmetas
      rwa [List.length_range] at hlen

/-- **A file whose content decodes has a size and metadata.** -/
theorem rowInfo_of_decodes {R : ParquetReader} {ix : Index} {key : ℕ × ℕ} {col : Column}
    {d : RgDetail} {row : ℕ} {bs : Bytes} (hcol : decodeChunk R ix key = .ok col)
    (hbs : binaryValue col row = .ok bs) (hd : decodeDetail R ix key = .ok d) :
    ∃ size metas, rowInfo d row = .ok (.file size metas) := by
  rw [decodeDetail, hcol] at hd
  obtain ⟨hsizes, hmetas⟩ := lengths_of_detailOf hd
  have hrow := lt_length_of_binaryValue hbs
  have hs : row < d.sizes.length := by omega
  have hm : row < d.metas.length := by omega
  refine ⟨d.sizes[row], d.metas[row], ?_⟩
  rw [rowInfo, List.getElem?_eq_getElem hs, List.getElem?_eq_getElem hm]

/-! ### What a path is -/

section Classify

variable {A : Adapters} {R : ParquetReader} {ix : Index} {path : Str}

theorem find?_eq_none_iff : ix.files.find? (normalize path) = none ↔
    normalize path ∉ ix.files.keys := by
  rw [SortedMap.mem_keys_iff_find?]
  cases ix.files.find? (normalize path) <;> simp

/-- Files can be read, and nothing else. -/
theorem directRead_ok_iff (hdec : DecodesAt R ix path) :
    (∃ bs, directRead R ix path = .ok bs) ↔ normalize path ∈ ix.files.keys := by
  cases hfind : ix.files.find? (normalize path) with
  | none =>
    rw [directRead, hfind]
    simpa using find?_eq_none_iff.mp hfind
  | some entry =>
    obtain ⟨⟨col, bs, hcol, hbs⟩, -⟩ := hdec entry hfind
    have hread : directRead R ix path = .ok bs := by
      rw [directRead, hfind]
      dsimp only
      rw [hcol]
      exact hbs
    exact iff_of_true ⟨bs, hread⟩ (SortedMap.mem_keys_iff_find?.mpr ⟨entry, hfind⟩)

theorem directInfo_of_file {entry : FileEntry}
    (hfind : ix.files.find? (normalize path) = some entry)
    (hdec : DecodesAt R ix path) : ∃ size metas, directInfo R ix path = .ok (.file size metas) := by
  obtain ⟨⟨col, bs, hcol, hbs⟩, d, hd⟩ := hdec entry hfind
  obtain ⟨size, metas, hinfo⟩ := rowInfo_of_decodes hcol hbs hd
  refine ⟨size, metas, ?_⟩
  rw [directInfo, hfind]
  dsimp only
  rw [hd]
  exact hinfo

theorem directInfo_of_notFile (hfind : ix.files.find? (normalize path) = none) :
    directInfo R ix path = if ix.isDir (normalize path) then .ok .dir
      else .error (.err (.notFound (normalize path))) := by
  rw [directInfo, hfind]

/-- Information is that of a file for the files. -/
theorem directInfo_file_iff (hdec : DecodesAt R ix path) :
    (∃ size metas, directInfo R ix path = .ok (.file size metas)) ↔
      normalize path ∈ ix.files.keys := by
  cases hfind : ix.files.find? (normalize path) with
  | none =>
    have hno : ¬∃ size metas, directInfo R ix path = .ok (.file size metas) := by
      rw [directInfo_of_notFile hfind]
      split_ifs <;> simp
    exact iff_of_false hno (find?_eq_none_iff.mp hfind)
  | some entry =>
    exact iff_of_true (directInfo_of_file hfind hdec)
      (SortedMap.mem_keys_iff_find?.mpr ⟨entry, hfind⟩)

/-- Information is not found for what is neither a file nor a directory. -/
theorem directInfo_found_iff (hdec : DecodesAt R ix path) :
    (∀ x, directInfo R ix path ≠ .error (.err (.notFound x))) ↔
      normalize path ∈ ix.files.keys ∨ ix.isDir (normalize path) = true := by
  cases hfind : ix.files.find? (normalize path) with
  | none =>
    have hmem := find?_eq_none_iff.mp hfind
    rw [directInfo_of_notFile hfind]
    split_ifs with hdir <;> simp [hdir, hmem]
  | some entry =>
    obtain ⟨size, metas, hinfo⟩ := directInfo_of_file hfind hdec
    refine iff_of_true (fun x => ?_) (Or.inl (SortedMap.mem_keys_iff_find?.mpr ⟨entry, hfind⟩))
    rw [hinfo]
    simp

/-- Information about a file never says that it is a directory. -/
theorem directInfo_eq_dir_iff :
    directInfo R ix path = .ok .dir ↔
      normalize path ∉ ix.files.keys ∧ ix.isDir (normalize path) = true := by
  rw [SortedMap.mem_keys_iff_find?]
  cases hfind : ix.files.find? (normalize path) with
  | none =>
    rw [directInfo_of_notFile hfind]
    split_ifs with hdir <;> simp [hdir]
  | some entry =>
    rw [directInfo, hfind]
    dsimp only
    cases hd : decodeDetail R ix (entry.loc.shard, entry.loc.rowGroup) with
    | error e => simp [Except.bind]
    | ok d =>
      have hfile : rowInfo d entry.loc.row ≠ .ok .dir := by
        unfold rowInfo
        split <;> simp
      simpa [Except.bind] using hfile

theorem directCall_read_eq_iff {bs : Bytes} :
    directCall R ix (.read path) = .ok (.bytes bs) ↔ directRead R ix path = .ok bs := by
  rw [directCall]
  cases directRead R ix path <;> simp [Except.bind]

theorem directCall_info_eq_error_iff {e : Failure} :
    directCall R ix (.info path) = .error e ↔ directInfo R ix path = .error e := by
  rw [directCall]
  cases directInfo R ix path <;> simp [Except.bind]

theorem directCall_info_eq_iff {i : InfoResult} :
    directCall R ix (.info path) = .ok (.info i) ↔ directInfo R ix path = .ok i := by
  rw [directCall]
  cases directInfo R ix path <;> simp [Except.bind]

/-- The entries of a directory are not the directory. -/
theorem IsListing.name_ne {n : Str} {es : List DirEntry} (h : IsListing ix n es) {e : DirEntry}
    (he : e ∈ es) : e.name ≠ n := by
  obtain ⟨⟨s, hs, -, hname⟩, -⟩ := h.mem_names.mp (List.mem_map_of_mem he)
  have hlen : n.length ≤ (stem '/' n).length := by
    cases n with
    | nil => simp
    | cons c n => simp [stem]
  have hpos : 0 < s.length := List.length_pos_of_ne_nil hs
  intro heq
  rw [heq] at hname
  have hsum := congrArg List.length hname
  rw [List.length_append] at hsum
  omega

/-- Files and directories can be listed. -/
theorem ls_ok_iff (hwf : ix.WellFormed) : (∃ es, ix.ls path = .ok es) ↔
    normalize path ∈ ix.files.keys ∨ ix.isDir (normalize path) = true := by
  by_cases hmem : normalize path ∈ ix.files.keys
  · exact iff_of_true ⟨_, hwf.ls_file hmem⟩ (Or.inl hmem)
  · rw [hwf.isDir_iff]
    by_cases hdir : normalize path = [] ∨ ∃ k ∈ ix.files.keys, normalize path ++ ['/'] <+: k
    · obtain ⟨es, hls, -⟩ := hwf.ls_dir hmem hdir
      exact iff_of_true ⟨es, hls⟩ (Or.inr hdir)
    · have hno : ¬∃ es, ix.ls path = .ok es := by
        rw [hwf.ls_notFound hmem hdir]
        simp
      exact iff_of_false hno (not_or.mpr ⟨hmem, hdir⟩)

/-- Only a file is listed as itself. -/
theorem ls_eq_file_iff (hwf : ix.WellFormed) :
    ix.ls path = .ok [⟨normalize path, false⟩] ↔ normalize path ∈ ix.files.keys := by
  refine ⟨fun hls => ?_, hwf.ls_file⟩
  by_contra hmem
  rcases (ls_ok_iff hwf).mp ⟨_, hls⟩ with hfile | hdir
  · exact hmem hfile
  · obtain ⟨es, hes, hlist⟩ := hwf.ls_dir hmem (hwf.isDir_iff.mp hdir)
    rw [hls] at hes
    cases hes
    exact hlist.name_ne List.mem_cons_self rfl

/-- An entry of a listing is a directory unless it is a file. -/
theorem isDir_iff_of_mem_ls (hwf : ix.WellFormed) {es : List DirEntry} (hls : ix.ls path = .ok es)
    {e : DirEntry} (he : e ∈ es) : e.isDir = true ↔ e.name ∉ ix.files.keys := by
  by_cases hmem : normalize path ∈ ix.files.keys
  · rw [hwf.ls_file hmem] at hls
    cases hls
    rw [List.mem_singleton.mp he]
    simpa using hmem
  · by_cases hdir : normalize path = [] ∨ ∃ k ∈ ix.files.keys, normalize path ++ ['/'] <+: k
    · obtain ⟨es', hes, hlist⟩ := hwf.ls_dir hmem hdir
      rw [hes] at hls
      cases hls
      exact hlist.isDir_iff he
    · rw [hwf.ls_notFound hmem hdir] at hls
      cases hls

/-- **All queries classify a path the same way.**  In every state that concurrent
calls can reach: a path exists exactly if it can be listed, and exactly if asking
for information does not say that it is not found; it can be read exactly if the
information is that of a file, and exactly if it is listed as the one file it is;
else it is a directory for one query if it is for the other.  Every entry of a
listing exists, and is listed as a directory exactly if the information says so. -/
theorem queries_agree {pathColumn contentColumn : Option Str} {sources : List Str} {pol : DupPolicy}
    (h : buildIndex A R pathColumn contentColumn sources pol = .ok ix)
    {c : Pool CacheOp CacheOp.Res Request (Outcome Response) Caches}
    (hreach : Reachable (cacheWorld R ix True) evictStep (serve ix) Caches.empty c)
    (hdec : DecodesAt R ix path) :
    (Archive.exists_ ix path ↔ ∃ es, ix.ls path = .ok es) ∧
      ((∃ es, ix.ls path = .ok es) ↔
        ∀ x, callFrom R ix c.state (.info path) ≠ .error (.err (.notFound x))) ∧
      ((∃ bs, callFrom R ix c.state (.read path) = .ok (.bytes bs)) ↔
        ∃ size metas, callFrom R ix c.state (.info path) = .ok (.info (.file size metas))) ∧
      ((∃ size metas, callFrom R ix c.state (.info path) = .ok (.info (.file size metas))) ↔
        ix.ls path = .ok [⟨normalize path, false⟩]) ∧
      ((¬∃ size metas, callFrom R ix c.state (.info path) = .ok (.info (.file size metas))) →
        (callFrom R ix c.state (.info path) = .ok (.info .dir) ↔ Archive.isDir ix path)) ∧
      ∀ es, ix.ls path = .ok es → ∀ e ∈ es, Archive.exists_ ix e.name ∧
        (e.isDir = true ↔ callFrom R ix c.state (.info e.name) = .ok (.info .dir)) := by
  have hwf := wellFormed_of_buildIndex h
  have hcall : ∀ q, callFrom R ix c.state q = directCall R ix q := fun q =>
    exec_serve q (caching_invisible hreach).2.1.1
  simp only [hcall, directCall_info_eq_iff, directCall_read_eq_iff, ne_eq,
    directCall_info_eq_error_iff]
  have hexists : ∀ p, Archive.exists_ ix p ↔
      normalize p ∈ ix.files.keys ∨ ix.isDir (normalize p) = true := by
    intro p
    rw [Archive.exists_, Bool.or_eq_true, SortedMap.contains_iff_mem_keys]
  have hinfo := directInfo_file_iff hdec
  refine ⟨(hexists path).trans (ls_ok_iff hwf).symm,
    (ls_ok_iff hwf).trans (directInfo_found_iff hdec).symm,
    (directRead_ok_iff hdec).trans hinfo.symm, hinfo.trans (ls_eq_file_iff hwf).symm, ?_, ?_⟩
  · intro hno
    rw [directInfo_eq_dir_iff, Archive.isDir]
    exact and_iff_right fun hmem => hno (hinfo.mpr hmem)
  · intro es hls e he
    -- the names of entries are canonical, so they are looked up as they are
    obtain ⟨hcanon, hname⟩ := hwf.isName_of_mem_ls hls he
    rw [or_left_comm, ← hwf.isDir_iff_mem] at hname
    have hself : normalize e.name = e.name := normalize_eq_self_iff.mpr hcanon
    rw [hexists, isDir_iff_of_mem_ls hwf hls he, directInfo_eq_dir_iff, hself]
    exact ⟨hname, fun hfile => ⟨hfile, hname.resolve_left hfile⟩, fun hdir => hdir.1⟩

end Classify

theorem queries_agree_sample :
    ∃ ix, buildIndex sampleAdapters sampleReader none none [[]] .first = .ok ix ∧
      Archive.exists_ ix "/a".toList ∧
      ∃ size metas, callFrom sampleReader ix Caches.empty (.info "/a".toList)
        = .ok (.info (.file size metas)) := by
  have h : buildIndex sampleAdapters sampleReader none none [[]] .first = .ok sampleIndex := rfl
  have hdec : DecodesAt sampleReader sampleIndex "/a".toList := by
    intro entry hfind
    cases hfind
    exact ⟨⟨_, _, rfl, rfl⟩, _, rfl⟩
  obtain ⟨hexists, -, -, hfile, -⟩ :=
    queries_agree h (.refl : Reachable _ evictStep _ _ ⟨_, []⟩) hdec
  have hls : sampleIndex.ls "/a".toList = .ok [⟨normalize "/a".toList, false⟩] := rfl
  exact ⟨sampleIndex, h, hexists.mpr ⟨_, hls⟩, hfile.mpr hls⟩

end ParquetFileFs
