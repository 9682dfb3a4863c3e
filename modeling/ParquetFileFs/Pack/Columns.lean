import ParquetFileFs.Archive.Shown
import ParquetFileFs.Pack.RoundTrip

/-!
# Column names

A writer takes any two names for its columns.  The reader finds columns by their
names and wants two different ones, so a shard opens with the names it was
packed with exactly if they differ.

## Main definitions

* `namedReader` — the plain reader of shards with given column names.

## Main results

* `selects_of_ne`, `buildIndex_same_names` — columns with different names, and
  with one name.
* `isStored_of_accepts` — every call packs stored paths.
* `packed_opens_iff` — **a packed shard opens with its own names if and only if
  they differ.**
-/

namespace ParquetFileFs

open Program Segments

/-! ### Finding the columns -/

theorem detectColumn_of_findIdx? {fields cands : List Str} {name kind url : Str} {i : ℕ}
    (h : fields.findIdx? (· = name) = some i) :
    detectColumn fields cands (some name) kind url = .ok i := by
  simp only [detectColumn, h]

/-- Columns with different names are found by their names. -/
theorem selects_of_ne {sch : Schema} (h : sch.pathColumn ≠ sch.contentColumn) :
    Selects sch (some sch.pathColumn) (some sch.contentColumn) := by
  intro url
  constructor
  · apply detectColumn_of_findIdx?
    rw [List.findIdx?_cons, decide_eq_true rfl, if_pos rfl]
  · apply detectColumn_of_findIdx?
    rw [List.findIdx?_cons, decide_eq_false h, List.findIdx?_cons, decide_eq_true rfl]
    rfl

section Open

variable {A : Adapters} {R : ParquetReader} {W : ParquetWriter} {c : PackCompression}
  {name : Str} {groups : List (List Row)} {s url : Str}

/-- Columns with one name are taken for the same column. -/
theorem openShard_same_names {a : RangeReader} (hresolve : resolve A url = .ok a)
    (hholds : a.Holds url (W.fileBytes ⟨name, name⟩ c groups))
    (hback : ReadsBack R W ⟨name, name⟩ c groups) :
    ∃ e, openShard A R (some name) (some name) url = .error e := by
  let r : AdapterChunkReader := ⟨a, url, (W.fileBytes ⟨name, name⟩ c groups).length⟩
  obtain ⟨rgs, -, htry, -⟩ := hback r ⟨hholds, rfl⟩
  have hmd : (R.tryNew r).mapError (FsError.parquet url)
      = .ok ⟨[name, name], rgs.map List.length⟩ := by
    rw [htry]
    rfl
  have hfirst : ∀ cands kind, detectColumn [name, name] cands (some name) kind url = .ok 0 := by
    intro cands kind
    apply detectColumn_of_findIdx?
    rw [List.findIdx?_cons, decide_eq_true rfl, if_pos rfl]
  rw [openShard, hresolve]
  change ∃ e, (a.size url >>= _ : Except FsError _) = .error e
  rw [hholds.size]
  change ∃ e, ((R.tryNew r).mapError (FsError.parquet url) >>= _ : Except FsError _) = .error e
  rw [hmd]
  change ∃ e, (detectColumn _ pathNames _ "path".toList url >>= _ : Except FsError _) = .error e
  rw [hfirst]
  change ∃ e, (detectColumn _ contentNames _ "content".toList url >>= _ : Except FsError _)
    = .error e
  rw [hfirst]
  exact ⟨_, rfl⟩

theorem buildIndex_same_names (hserves : Serves A s url (W.fileBytes ⟨name, name⟩ c groups))
    (hback : ReadsBack R W ⟨name, name⟩ c groups) (pol : DupPolicy) :
    ∃ e, buildIndex A R (some name) (some name) [s] pol = .error e := by
  obtain ⟨⟨a₀, hresolve₀, hlist⟩, a, hresolve, hholds⟩ := hserves
  obtain ⟨e, hopen⟩ := openShard_same_names hresolve hholds hback
  rw [buildIndex, expandSources_singleton hresolve₀ hlist, lift_ok]
  change ∃ e, ([url].foldlM _ _ >>= _ : Outcome Index) = .error e
  rw [List.foldlM_cons, addShard, hopen]
  exact ⟨_, rfl⟩

end Open

/-! ### What calls pack -/

section Packed

variable {A : Adapters} {R : ParquetReader} {W : ParquetWriter} {fs₀ fs : Files} {s url out : Str}
  {opts : PackOptions} {libs : ArchiveLibs} {es : List FileEvent} {rows : List Row} {bytes : Bytes}
  {expand : Files → Str → Except Str (List (Except (Str × Str) Str))}

theorem isStored_of_entryRows {isFile : Bool} {name : Except Str Str} {data : Except Str Bytes}
    {new : List Row} (h : entryRows isFile name data = some new) : ∀ r ∈ new, IsStored r.1 := by
  rcases of_entryRows h with ⟨-, rfl⟩ | ⟨-, n, stored, d, -, hstored, -, rfl⟩
  · simp
  · intro r hr
    rw [List.mem_singleton.mp hr]
    exact Or.inr ⟨n, hstored⟩

/-- What holds of the rows of each entry holds of all rows. -/
theorem forall_of_allRows {α : Type} {P : Row → Prop} {f : α → Option (List Row)}
    (hf : ∀ a new, f a = some new → ∀ r ∈ new, P r) {as : List α}
    (h : allRows f as = some rows) : ∀ r ∈ rows, P r := by
  induction as generalizing rows with
  | nil =>
    cases h
    simp
  | cons a as ih =>
    obtain ⟨new, rest, hnew, hrest, rfl⟩ := allRows_cons_eq_some h
    intro r hr
    rcases List.mem_append.mp hr with hr | hr
    · exact hf a new hnew r hr
    · exact ih hrest r hr

theorem forall_of_bind {α β : Type} {P : Row → Prop} {x : Except β α} {f : α → Option (List Row)}
    (hf : ∀ a new, f a = some new → ∀ r ∈ new, P r) (h : x.toOption.bind f = some rows) :
    ∀ r ∈ rows, P r := by
  obtain ⟨a, -, ha⟩ := Option.bind_eq_some_iff.mp h
  exact hf a rows ha

theorem forall_of_listedRows {α : Type} {P : Row → Prop} {f : α → Option (List Row)}
    (hf : ∀ a new, f a = some new → ∀ r ∈ new, P r)
    {entries : Except Str (List (Except Str α))} (h : listedRows f entries = some rows) :
    ∀ r ∈ rows, P r :=
  forall_of_bind (fun _ _ => forall_of_allRows fun _ _ => forall_of_bind hf) h

theorem isStored_of_archiveRows {fmt : ArchiveFormat} {bs : Bytes}
    (h : archiveRows libs fmt bs = some rows) : ∀ r ∈ rows, IsStored r.1 := by
  have htar : ∀ reader rows, listedRows tarRows (libs.tar reader) = some rows →
      ∀ r ∈ rows, IsStored r.1 := fun reader rows =>
    forall_of_listedRows fun _ _ => isStored_of_entryRows
  cases fmt with
  | zip => exact forall_of_listedRows (fun _ _ => isStored_of_entryRows) h
  | tar => exact htar _ _ h
  | tarGz => exact htar _ _ h
  | tarBz2 => exact htar _ _ h
  | tarXz => exact htar _ _ h
  | tarZst => exact forall_of_bind (fun reader rows => htar reader rows) h
  | rar =>
    obtain ⟨rar, -, hrows⟩ := Option.bind_eq_some_iff.mp h
    exact forall_of_listedRows (fun _ _ => forall_of_bind fun _ _ => isStored_of_entryRows) hrows
  | sevenZ =>
    exact forall_of_bind (fun _ _ => forall_of_allRows fun _ _ => forall_of_bind fun _ _ =>
      forall_of_allRows fun _ _ => forall_of_bind fun _ _ => isStored_of_entryRows) h

/-- What holds of all on the left, and is handed on, holds of all on the right. -/
theorem forall_of_forall₂ {α β : Type} {T : α → β → Prop} {P : α → Prop} {Q : β → Prop}
    (hT : ∀ a b, T a b → P a → Q b) {as : List α} {bs : List β} (h : List.Forall₂ T as bs)
    (hP : ∀ a ∈ as, P a) : ∀ b ∈ bs, Q b := by
  induction h with
  | nil => simp
  | @cons a b as bs hab _ ih =>
    intro x hx
    rcases List.mem_cons.mp hx with rfl | hx
    · exact hT a x hab (hP a List.mem_cons_self)
    · exact ih (fun y hy => hP y (List.mem_cons_of_mem a hy)) x hx

theorem isStored_of_readsPairs {pairs : List (Str × Str)} (hpairs : ∀ pair ∈ pairs, IsStored pair.1)
    (h : ReadsPairs fs₀ out pairs rows es) : ∀ r ∈ rows, IsStored r.1 := by
  have hsorted : ∀ pair ∈ sortPairs pairs, IsStored pair.1 := fun pair hpair =>
    hpairs pair ((List.perm_insertionSort _ pairs).mem_iff.mp hpair)
  exact forall_of_forall₂ (fun pair row hrow hpair => hrow.1 ▸ hpair) h hsorted

/-- **Every call packs stored paths**, save one that is given the paths. -/
theorem isStored_of_accepts {c : PackCall} (hc : ∀ pairs, c ≠ .ofPairs pairs)
    (h : c.Accepts W expand fs₀ out opts rows es) : ∀ r ∈ rows, IsStored r.1 := by
  cases c with
  | ofPairs pairs => exact absurd rfl (hc pairs)
  | ofFiles paths root =>
    obtain ⟨pairs, hpairs, hrows⟩ := h
    apply isStored_of_readsPairs _ hrows
    exact forall_of_forall₂ (fun p pair (hp : FileBelow fs₀ root p pair) (_ : True) =>
      Or.inl ⟨p, root, hp.2.1⟩) hpairs fun _ _ => trivial
  | ofGlob pattern root =>
    obtain ⟨pattern', root', entries, found, -, -, hfound, hrows⟩ := h
    apply isStored_of_readsPairs _ hrows
    have hall : ∀ f ∈ found, ∀ pair, f = some pair → IsStored pair.1 := by
      refine forall_of_forall₂ (fun e f hf (_ : True) => ?_) hfound fun _ _ => trivial
      rintro pair rfl
      match e, hf with
      | .ok p, hf => exact Or.inl ⟨p, root', hf.2.1⟩
    intro pair hpair
    obtain ⟨f, hf, hpair⟩ := List.mem_filterMap.mp hpair
    exact hall f hf pair hpair
  | ofArchive libs archive format =>
    obtain ⟨-, fmt, -, bs, -, -, -, hrows⟩ := h
    exact isStored_of_archiveRows hrows

/-- The shard that a call leaves when it has accepted the rows. -/
def packedShard (source url : Str) (opts : PackOptions) (rows : List Row) : WrittenShard :=
  ⟨source, url, opts.compression, flushGroups (max opts.maxRowGroupBytes 1) rows⟩

@[simp] theorem rows_packedShard (source url : Str) (opts : PackOptions) (rows : List Row) :
    (packedShard source url opts rows).rows = rows :=
  Grouping.flatten_groups rowSize _ rows

/-- It opens where it is served and the library reads it back. -/
theorem opens_of_accepts {A : Adapters} {R : ParquetReader} {source url : Str} {c : PackCall}
    (hc : ∀ pairs, c ≠ .ofPairs pairs) (h : c.Accepts W expand fs₀ out opts rows es)
    (hnodup : (rows.map Prod.fst).Nodup)
    (hback : ReadsBack R W opts.schema opts.compression
      (flushGroups (max opts.maxRowGroupBytes 1) rows))
    (hserves : Serves A source url (W.fileBytes opts.schema opts.compression
      (flushGroups (max opts.maxRowGroupBytes 1) rows))) :
    (packedShard source url opts rows).Opens A R W opts.schema := by
  have hstored := isStored_of_accepts hc h
  refine ⟨hserves, hback, ?_, ?_⟩
  · rw [rows_packedShard]
    exact fun r hr => ⟨(hstored r hr).canonical, (hstored r hr).ne_nil⟩
  · rw [WrittenShard.paths, rows_packedShard]
    exact hnodup

/-- **A packed shard opens with its own names if and only if they differ**, and
then holds the rows that were packed. -/
theorem packed_opens_iff {c : PackCall} (hc : ∀ pairs, c ≠ .ofPairs pairs) {sum : PackSummary}
    (hrun : Run (fsWorld expand) fs₀ (c.program W out opts) es fs (.ret (.ok sum)))
    (hback : ∀ rows, c.Accepts W expand fs₀ out opts rows es →
      ReadsBack R W opts.schema opts.compression (flushGroups (max opts.maxRowGroupBytes 1) rows))
    (hread : fs.read out = some bytes) (hserves : Serves A s url bytes) (pol : DupPolicy) :
    (∃ ix rows, buildIndex A R (some opts.pathColumn) (some opts.contentColumn) [s] pol = .ok ix ∧
        c.Accepts W expand fs₀ out opts rows es ∧
        ix.files.keys = (rows.map Prod.fst).insertionSort (· ≤ ·) ∧
        ∀ r ∈ rows, freshCall R ix (.read r.1) = .ok (.bytes r.2)) ↔
      opts.pathColumn ≠ opts.contentColumn := by
  obtain ⟨rows, ⟨hrows, hnodup⟩, -, hpub⟩ := wp_sound (wp_program c) hrun
  rw [hpub.output] at hread
  cases hread
  constructor
  · rintro ⟨ix, -, hbuild, -⟩ hsame
    have hschema : opts.schema = ⟨opts.contentColumn, opts.contentColumn⟩ := by
      rw [PackOptions.schema, hsame]
    rw [hschema] at hserves
    have hback' := hback rows hrows
    rw [hschema] at hback'
    obtain ⟨e, he⟩ := buildIndex_same_names hserves hback' pol
    rw [hsame, he] at hbuild
    cases hbuild
  · intro hne
    have hflat : (flushGroups (max opts.maxRowGroupBytes 1) rows).flatten = rows :=
      Grouping.flatten_groups rowSize _ rows
    have hstored := isStored_of_accepts hc hrows
    have hcanon : ∀ r ∈ (flushGroups (max opts.maxRowGroupBytes 1) rows).flatten,
        Canonical '/' r.1 ∧ r.1 ≠ [] := by
      intro r hr
      rw [hflat] at hr
      exact ⟨(hstored r hr).canonical, (hstored r hr).ne_nil⟩
    obtain ⟨ix, hbuild, hkeys, hall⟩ := archive_written (selects_of_ne hne) hserves
      (hback rows hrows) hcanon (by rwa [hflat]) pol
    rw [hflat] at hkeys hall
    refine ⟨ix, rows, hbuild, hrows, hkeys, fun r hr => ?_⟩
    rw [freshCall_eq, directCall, (hall r hr).1]
    rfl

end Packed

/-! ### Shards with other column names -/

/-- The plain reader of shards that were written with the schema. -/
def namedReader (sch : Schema) : ParquetReader where
  tryNew r := (plainReader.tryNew r).map fun md =>
    { md with fields := [sch.pathColumn, sch.contentColumn] }
  build := plainReader.build

/-- Column names leave no trace in the plain format. -/
theorem plainWriter_fileBytes (sch sch' : Schema) (c : PackCompression)
    (groups : List (List Row)) :
    plainWriter.fileBytes sch c groups = plainWriter.fileBytes sch' c groups := by
  have hgroups : ∀ done, plainWriter.groupsBytes sch c done groups
      = plainWriter.groupsBytes sch' c done groups := by
    induction groups with
    | nil => exact fun _ => rfl
    | cons g gs ih =>
      intro done
      rw [ParquetWriter.groupsBytes, ParquetWriter.groupsBytes, ih]
      rfl
  rw [ParquetWriter.fileBytes, ParquetWriter.fileBytes, hgroups]
  rfl

theorem readsBack_named (sch : Schema) (c : PackCompression) {groups : List (List Row)}
    (hchars : ∀ g ∈ groups, ∀ r ∈ g, ∀ ch ∈ r.1, ch.toNat < 256) :
    ReadsBack (namedReader sch) plainWriter sch c groups := by
  intro r hr
  rw [plainWriter_fileBytes sch packSchema] at hr
  obtain ⟨rgs, hrgs, htry, hbuild⟩ := readsBack_plain c hchars r hr
  refine ⟨rgs, hrgs, ?_, hbuild⟩
  show (plainReader.tryNew r).map _ = _
  rw [htry]
  rfl

/-- The call that packs the one sample file. -/
def sampleCall : PackCall := .ofFiles ["a".toList] []

/-- The row groups of the sample shard. -/
theorem flushGroups_sampleCall {opts : PackOptions} {rows : List Row} {es : List FileEvent}
    (h : sampleCall.Accepts plainWriter expandNothing sampleFiles "o".toList opts rows es) :
    ∀ g ∈ flushGroups (max opts.maxRowGroupBytes 1) rows, ∀ r ∈ g, ∀ ch ∈ r.1, ch.toNat < 256 := by
  intro g hg r hr
  have hmem : r ∈ rows := by
    rw [← Grouping.flatten_groups rowSize (max opts.maxRowGroupBytes 1) rows]
    exact List.mem_flatten.mpr ⟨g, hg, hr⟩
  rw [rows_of_sampleFiles h, List.mem_singleton] at hmem
  subst hmem
  simp

theorem serves_localOnly {fs : Files} {bytes : Bytes} (h : fs.read "o".toList = some bytes) :
    Serves (localOnly fs) "o".toList "o".toList bytes :=
  serves_localAdapter rfl rfl (by decide) rfl h

theorem packed_opens_sample :
    ∃ fs, (exec (fsHandler expandNothing) (sampleCall.program plainWriter "o".toList {})
        sampleFiles) = (.ok ⟨1, 2⟩, fs) ∧
      ∃ ix, buildIndex (localOnly fs) (namedReader packSchema) (some "path".toList)
        (some "content".toList) ["o".toList] .error = .ok ix := by
  obtain ⟨es, hrun⟩ := run_exec (fsWorld_fsHandler expandNothing)
    (sampleCall.program plainWriter "o".toList {}) sampleFiles
  have hres : (exec (fsHandler expandNothing)
      (sampleCall.program plainWriter "o".toList {}) sampleFiles).1 = .ok ⟨1, 2⟩ := rfl
  rw [hres] at hrun
  obtain ⟨bytes, hread⟩ : ∃ bytes, (exec (fsHandler expandNothing)
      (sampleCall.program plainWriter "o".toList {}) sampleFiles).2.read "o".toList
        = some bytes := ⟨_, rfl⟩
  have hopens := (packed_opens_iff (fun pairs => by simp [sampleCall]) hrun
    (fun rows hrows => readsBack_named _ _ (flushGroups_sampleCall hrows)) hread
    (serves_localOnly hread) .error).mpr (by decide)
  obtain ⟨ix, -, hbuild, -⟩ := hopens
  exact ⟨_, Prod.ext hres rfl, ix, hbuild⟩

/-- One name for both columns: the call succeeds, the shard reads back as what
was written, and it does not open. -/
theorem packed_same_names :
    ∃ fs bytes, exec (fsHandler expandNothing)
        (sampleCall.program plainWriter "o".toList
          { pathColumn := "x".toList, contentColumn := "x".toList }) sampleFiles
        = (.ok ⟨1, 2⟩, fs) ∧
      fs.read "o".toList = some bytes ∧
      bytes = plainWriter.fileBytes ⟨"x".toList, "x".toList⟩ .zstd [[("a".toList, [1, 2])]] ∧
      ReadsBack (namedReader ⟨"x".toList, "x".toList⟩) plainWriter ⟨"x".toList, "x".toList⟩ .zstd
        [[("a".toList, [1, 2])]] ∧
      ∃ e, buildIndex (localOnly fs) (namedReader ⟨"x".toList, "x".toList⟩) (some "x".toList)
        (some "x".toList) ["o".toList] .error = .error e := by
  have hback : ReadsBack (namedReader ⟨"x".toList, "x".toList⟩) plainWriter
      ⟨"x".toList, "x".toList⟩ .zstd [[("a".toList, [1, 2])]] := by
    apply readsBack_named
    intro g hg r hr
    rw [List.mem_singleton.mp hg, List.mem_singleton] at hr
    subst hr
    simp
  exact ⟨_, _, rfl, rfl, rfl, hback, buildIndex_same_names (serves_localOnly rfl) hback .error⟩

end ParquetFileFs
