import ParquetFileFs.Pack.Protocol

/-!
# What a call sees

The rows that a call packs are those its answers justify: which paths were files,
what a pattern expanded to, and the bytes that were read.

## Main definitions

* `PackCall.Sees` — the rows a call accepted, by the answers it got.

## Main results

* `Stages.wp_program` — **every call keeps to the protocol**, and publishes the
  rows of what it saw.
-/

namespace ParquetFileFs

open Program

/-! ### What a call saw -/

section Sees

variable (W : ParquetWriter) (opts : PackOptions) (T : Option Bytes → FileEvent → Prop)

/-- The answer was given, and what is known of it. -/
def Saw (bs : Option Bytes) (es : List FileEvent) (e : FileEvent) : Prop := e ∈ es ∧ T bs e

/-- The row of a source: the stored path, and the bytes the source was read as. -/
def SeesSource (es : List FileEvent) (pair : Str × Str) (row : Row) : Prop :=
  row.1 = pair.1 ∧ ∃ bs, Saw T (some bs) es ⟨.read pair.2, .ok row.2⟩

/-- The path was that of a regular file below the root, and where it is stored. -/
def SeesFile (root : Str) (es : List FileEvent) (p : Str) (pair : Str × Str) : Prop :=
  pair.2 = p ∧ storedPath p root = .ok pair.1 ∧ Saw T none es ⟨.stat p, .ok .file⟩

/-- What was found for a pattern was a regular file below the root, or was not
seen to be a regular file. -/
def SeesEntry (root : Str) (es : List FileEvent) :
    Except (Str × Str) Str → Option (Str × Str) → Prop
  | .ok p, some pair => SeesFile T root es p pair
  | .ok p, none => ∃ r : Except Str FileSystem.Kind, r ≠ .ok .file ∧ Saw T none es ⟨.stat p, r⟩
  | .error _, _ => False

/-- The pattern that was expanded, and the root. -/
def SeesTarget (es : List FileEvent) (pattern : Str) (root : Option Str) (pattern' root' : Str) :
    Prop :=
  (Saw T none es ⟨.stat pattern, .ok .dir⟩ ∧
    pattern' = pattern.rdropWhile (· = '/') ++ "/**/*".toList ∧
    root' = root.getD (pattern.rdropWhile (· = '/'))) ∨
  ((∃ r : Except Str FileSystem.Kind, r ≠ .ok .dir ∧ Saw T none es ⟨.stat pattern, r⟩) ∧
    pattern' = pattern ∧ root' = root.getD (globFixedPrefix pattern))

/-- The format of an archive: the one given, or the one its first bytes showed. -/
def SeesFormat (es : List FileEvent) (archive : Str) (format : Option ArchiveFormat)
    (fmt : ArchiveFormat) : Prop :=
  format = some fmt ∨ format = none ∧ ∃ bs, Saw T none es ⟨.read archive, .ok bs⟩ ∧
    sniffHead (bs.take 262) archive = .ok fmt

/-- The archive as it was read when the shard had just been started, and its rows. -/
def SeesArchive (libs : ArchiveLibs) (archive : Str) (fmt : ArchiveFormat) (rows : List Row)
    (es : List FileEvent) : Prop :=
  ∃ bs, Saw T (some (W.start opts.schema opts.compression)) es ⟨.read archive, .ok bs⟩ ∧
    archiveRows libs fmt bs = some rows

/-- The rows a call accepted, by the answers to the calls `es`. -/
def PackCall.Sees : PackCall → List Row → List FileEvent → Prop
  | .ofPairs pairs, rows, es => List.Forall₂ (SeesSource T es) (sortPairs pairs) rows
  | .ofFiles paths root, rows, es => ∃ pairs, List.Forall₂ (SeesFile T root es) paths pairs ∧
      List.Forall₂ (SeesSource T es) (sortPairs pairs) rows
  | .ofGlob pattern root, rows, es => ∃ pattern' root' entries found,
      SeesTarget T es pattern root pattern' root' ∧
      Saw T none es ⟨.expand pattern', .ok entries⟩ ∧
      List.Forall₂ (SeesEntry T root' es) entries found ∧
      List.Forall₂ (SeesSource T es) (sortPairs (found.filterMap id)) rows
  | .ofArchive libs archive format, rows, es => rows ≠ [] ∧ ∃ fmt,
      SeesFormat T es archive format fmt ∧ SeesArchive W opts T libs archive fmt rows es

end Sees

section Mono

variable {W : ParquetWriter} {opts : PackOptions} {T : Option Bytes → FileEvent → Prop}
  {es es' : List FileEvent} {rows : List Row}

/-- Only looking matters. -/
theorem Saw.mono {o : FsOp Str UInt8} {r : FsOp.Res Str o} {bs : Option Bytes}
    (hes : ∀ e ∈ es, IsLook e.1 → e ∈ es') (ho : IsLook o) (h : Saw T bs es ⟨o, r⟩) :
    Saw T bs es' ⟨o, r⟩ :=
  ⟨hes _ h.1 ho, h.2⟩

theorem seesSource_mono (hes : ∀ e ∈ es, IsLook e.1 → e ∈ es') {pairs : List (Str × Str)}
    (h : List.Forall₂ (SeesSource T es) pairs rows) :
    List.Forall₂ (SeesSource T es') pairs rows :=
  h.imp fun _ _ ⟨hrow, bs, hsaw⟩ => ⟨hrow, bs, hsaw.mono hes trivial⟩

theorem SeesFile.mono (hes : ∀ e ∈ es, IsLook e.1 → e ∈ es') {root p : Str} {pair : Str × Str}
    (h : SeesFile T root es p pair) : SeesFile T root es' p pair :=
  ⟨h.1, h.2.1, h.2.2.mono hes trivial⟩

theorem SeesEntry.mono (hes : ∀ e ∈ es, IsLook e.1 → e ∈ es') {root : Str}
    {entry : Except (Str × Str) Str} {found : Option (Str × Str)}
    (h : SeesEntry T root es entry found) : SeesEntry T root es' entry found := by
  match entry, found, h with
  | .ok p, some pair, h => exact SeesFile.mono hes h
  | .ok p, none, ⟨r, hr, hsaw⟩ => exact ⟨r, hr, hsaw.mono hes trivial⟩

theorem SeesTarget.mono (hes : ∀ e ∈ es, IsLook e.1 → e ∈ es') {pattern : Str} {root : Option Str}
    {pattern' root' : Str} (h : SeesTarget T es pattern root pattern' root') :
    SeesTarget T es' pattern root pattern' root' := by
  rcases h with ⟨hsaw, hrest⟩ | ⟨⟨r, hr, hsaw⟩, hrest⟩
  · exact Or.inl ⟨hsaw.mono hes trivial, hrest⟩
  · exact Or.inr ⟨⟨r, hr, hsaw.mono hes trivial⟩, hrest⟩

theorem PackCall.Sees.mono {c : PackCall} (hes : ∀ e ∈ es, IsLook e.1 → e ∈ es')
    (h : c.Sees W opts T rows es) : c.Sees W opts T rows es' := by
  match c, h with
  | .ofPairs pairs, h => exact seesSource_mono hes h
  | .ofFiles paths root, ⟨pairs, hpairs, h⟩ =>
    exact ⟨pairs, hpairs.imp fun _ _ hp => hp.mono hes, seesSource_mono hes h⟩
  | .ofGlob pattern root, ⟨pattern', root', entries, found, htarget, hexpand, hfound, h⟩ =>
    exact ⟨pattern', root', entries, found, htarget.mono hes, hexpand.mono hes trivial,
      hfound.imp fun _ _ hf => hf.mono hes, seesSource_mono hes h⟩
  | .ofArchive libs archive format, ⟨hne, fmt, hfmt, bs, hsaw, h⟩ =>
    refine ⟨hne, fmt, ?_, bs, hsaw.mono hes trivial, h⟩
    exact hfmt.imp_right fun ⟨hnone, bs', hsaw', hhead⟩ =>
      ⟨hnone, bs', hsaw'.mono hes trivial, hhead⟩

theorem looks_of_subset (hes : es ⊆ es') : ∀ e ∈ es, IsLook e.1 → e ∈ es' :=
  fun _ he _ => hes he

end Mono

namespace Stages

variable {σ : Type} {V G : World (FsOp Str UInt8) (FsOp.Res Str) σ} {out : Str}
  {T : Option Bytes → FileEvent → Prop} {S : Stages V G out T} {W : ParquetWriter}
  {opts : PackOptions} {h : ℕ} {rows : List Row} {w : PackWriter} {s : σ} {archive : Str}
  {libs : ArchiveLibs}

/-- Reading an archive before any row is written, and packing what was read. -/
theorem wp_readArchive {fmt : ArchiveFormat} {k : Except Str Bytes → FileM PackWriter}
    (hw : S.PackingRows W opts h [] w s) (herr : ∀ e, ∃ f, k (.error e) = .ret (.error f))
    (hok : ∀ bs s', S.PackingRows W opts h [] w s' → wp V G (k (.ok bs))
      (S.StepsBy W opts h [] fun new _ => archiveRows libs fmt bs = some new) s') :
    wp V G (.call (.read archive) k)
      (S.StepsBy W opts h [] (SeesArchive W opts T libs archive fmt)) s := by
  apply wp_look (o := .read archive) trivial hw
  intro r s' hw' hT
  -- the file holds the start of the shard only
  rw [Grouping.cut_nil, ParquetWriter.groupsBytes, List.append_nil] at hT
  cases r with
  | error e =>
    obtain ⟨f, hf⟩ := herr e
    rw [hf]
    exact hw'.failed
  | ok bs =>
    refine wp_mono (fun r es s'' hr => ?_) (hok bs s' hw')
    cases r with
    | error e => exact hr
    | ok w' =>
      obtain ⟨new, hnew, hw''⟩ := hr
      exact ⟨new, ⟨bs, ⟨List.mem_cons_self, hT⟩, hnew⟩, hw''⟩

theorem wp_packEntries (fmt : ArchiveFormat) (hw : S.PackingRows W opts h [] w s) :
    wp V G (packEntries W libs fmt archive w)
      (S.StepsBy W opts h [] (SeesArchive W opts T libs archive fmt)) s := by
  cases fmt with
  -- the tar formats differ in the stream they are read from only
  | tar =>
    exact wp_readArchive hw (fun e => ⟨_, rfl⟩) fun bs _ hw' => wp_packTarEntries ⟨bs, none⟩ hw'
  | tarGz =>
    exact wp_readArchive hw (fun e => ⟨_, rfl⟩) fun bs _ hw' => wp_packTarEntries (libs.gz bs) hw'
  | tarBz2 =>
    exact wp_readArchive hw (fun e => ⟨_, rfl⟩) fun bs _ hw' => wp_packTarEntries (libs.bz2 bs) hw'
  | tarXz =>
    exact wp_readArchive hw (fun e => ⟨_, rfl⟩) fun bs _ hw' => wp_packTarEntries (libs.xz bs) hw'
  | tarZst =>
    apply wp_readArchive hw fun e => ⟨_, rfl⟩
    intro bs s' hw'
    apply wp_andThen
    apply wp_fromLibrary hw'
    · intro reader es s'' hreader hw''
      have hrows : archiveRows libs .tarZst bs = listedRows tarRows (libs.tar reader) := by
        rw [archiveRows, hreader]
        rfl
      refine wp_mono (fun r es' s₃ hr => ?_) (wp_packTarEntries reader hw'')
      simp only [hrows]
      cases r with
      | error e => exact hr
      | ok w' => exact hr
    · exact fun _ _ _ hfailed => hfailed
  | zip =>
    apply wp_readArchive hw fun e => ⟨_, rfl⟩
    intro bs s' hw'
    exact wp_packListed (List.zipIdx_map_fst 0) (fun b _ _ _ hw => wp_packZipEntry b hw) hw'
  | rar =>
    unfold packEntries packRarEntries
    dsimp only
    cases hrar : libs.rar with
    | none => exact hw.failed
    | some rar =>
      apply wp_readArchive hw fun e => ⟨_, rfl⟩
      intro bs s' hw'
      have hrows : archiveRows libs .rar bs = listedRows rarRows (rar bs) := by
        rw [archiveRows, hrar]
        rfl
      simp only [hrows]
      exact wp_packListed List.map_id (fun b _ _ _ hw => wp_packRarEntry b hw) hw'
  | sevenZ =>
    apply wp_readArchive hw fun e => ⟨_, rfl⟩
    intro bs s' hw'
    exact wp_pack7zListed bs hw'

/-! ### Calls -/

theorem wp_appendFile (pair : Str × Str) (hw : S.PackingRows W opts h rows w s) :
    wp V G (appendFile W w pair)
      (S.StepsBy W opts h rows fun new es => ∃ row, new = [row] ∧ SeesSource T es pair row) s := by
  apply wp_look (o := .read pair.2) trivial hw
  intro r s' hw' hT
  cases r with
  | error e => exact hw'.failed
  | ok data =>
    exact wp_append_by hw' fun es => ⟨(pair.1, data), rfl, rfl, _, List.mem_cons_self, hT⟩

theorem wp_writePairs (pairs : List (Str × Str)) (hs : S.Idle s) :
    wp V G (writePairs W pairs out opts)
      (S.Ends W opts fun rows es => List.Forall₂ (SeesSource T es) (sortPairs pairs) rows) s := by
  refine wp_createWith (fun rows es es' hes h => seesSource_mono (looks_of_subset hes) h)
    (fun h w s' hw => ?_) hs
  refine wp_mono (fun r es s'' hr => ?_) (wp_packEach
    (fun _ _ _ _ hes ⟨row, hnew, hrow, bs, hsaw⟩ =>
      ⟨row, hnew, hrow, bs, hsaw.mono (looks_of_subset hes) trivial⟩)
    (fun pair _ w rows s hw => wp_appendFile pair hw) hw)
  cases r with
  | error e => exact hr
  | ok w' =>
    obtain ⟨_, ⟨news, hnews, rfl⟩, hw'⟩ := hr
    exact ⟨news.flatten, forall₂_flatten hnews, hw'⟩

theorem wp_writeEntries (libs : ArchiveLibs) (fmt : ArchiveFormat) (archive : Str)
    (hs : S.Idle s) : wp V G (writeEntries W libs fmt archive out opts)
      (S.Ends W opts fun rows es => rows ≠ [] ∧ SeesArchive W opts T libs archive fmt rows es)
      s := by
  have hmono : ∀ rows es es', es ⊆ es' →
      (rows ≠ [] ∧ SeesArchive W opts T libs archive fmt rows es) →
      rows ≠ [] ∧ SeesArchive W opts T libs archive fmt rows es' := by
    intro rows es es' hes ⟨hne, bs, hsaw, hrows⟩
    exact ⟨hne, bs, hsaw.mono (looks_of_subset hes) trivial, hrows⟩
  refine wp_createWith hmono (fun h w s' hw => ?_) hs
  apply wp_andThen
  refine wp_mono (fun r es s'' hr => ?_) (wp_packEntries fmt hw)
  cases r with
  | error e => exact hr
  | ok w' =>
    obtain ⟨new, hnew, hw'⟩ := hr
    -- the number of files is that of the rows, so an empty archive has none
    have hfiles : w'.files = new.length := by rw [hw'.buffers.files, List.nil_append]
    dsimp only
    rw [requireFiles, hfiles]
    split
    · exact hw'.failed
    · next hne =>
      refine ⟨new, ⟨?_, ?_⟩, hw'⟩
      · rintro rfl
        exact hne rfl
      · rwa [List.append_nil]

/-! ### Before the writer is created -/

/-- Looking at files creates nothing; `R` is what was found. -/
def Looks {β : Type} (S : Stages V G out T) (R : β → List FileEvent → Prop) (r : Outcome β)
    (es : List FileEvent) (s : σ) : Prop :=
  S.Idle s ∧ ¬Creates out es ∧ ∀ b, r = .ok b → R b es

theorem wp_lookFirst {α : Type} {o : FsOp Str UInt8} {k : FsOp.Res Str o → FileM α}
    {Q : Outcome α → List FileEvent → σ → Prop} (ho : IsLook o) (hs : S.Idle s)
    (h : ∀ r s', S.Idle s' → T none ⟨o, r⟩ → ¬Creates out [⟨o, r⟩] →
      wp V G (k r) (fun a es s'' => Q a (⟨o, r⟩ :: es) s'') s') :
    wp V G (.call o k) Q s := by
  intro r s' hV
  obtain ⟨hG, hs', hT⟩ := S.look_idle ho hs hV
  refine ⟨hG, h r s' hs' hT (not_creates_singleton fun p hp => ?_)⟩
  have hop : o = .create p := hp
  rw [hop] at ho
  exact ho

theorem wp_mapEach {α β : Type} {f : α → FileM β} {R : α → β → List FileEvent → Prop}
    (hmono : ∀ a b es es', es ⊆ es' → R a b es → R a b es') {as : List α}
    (hf : ∀ a ∈ as, ∀ s, S.Idle s → wp V G (f a) (S.Looks (R a)) s) (hs : S.Idle s) :
    wp V G (mapEach f as) (S.Looks fun bs es => List.Forall₂ (fun a b => R a b es) as bs) s := by
  induction as generalizing s with
  | nil => exact ⟨hs, not_creates_nil, fun bs h => by cases h; exact .nil⟩
  | cons a as ih =>
    rw [mapEach]
    apply wp_andThen
    refine wp_mono (fun r es s' hr => ?_) (hf a List.mem_cons_self s hs)
    obtain ⟨hs', hes, hR⟩ := hr
    cases r with
    | error e => exact ⟨hs', hes, fun _ h => by cases h⟩
    | ok b =>
      apply wp_andThen
      refine wp_mono (fun r' es' s'' hr' => ?_)
        (ih (fun x hx => hf x (List.mem_cons_of_mem a hx)) hs')
      obtain ⟨hs'', hes', hR'⟩ := hr'
      cases r' with
      | error e => exact ⟨hs'', not_creates_append hes hes', fun _ h => by cases h⟩
      | ok bs =>
        refine ⟨hs'', ?_, fun bs' h => ?_⟩
        · rw [List.append_nil]
          exact not_creates_append hes hes'
        · cases h
          rw [List.append_nil]
          refine .cons (hmono a b es _ (List.subset_append_left es es') (hR b rfl)) ?_
          exact (hR' bs rfl).imp fun x y hxy =>
            hmono x y es' _ (List.subset_append_right es es') hxy

theorem wp_checkFile (root p : Str) (hs : S.Idle s) :
    wp V G (checkFile root p) (S.Looks fun pair es => SeesFile T root es p pair) s := by
  apply wp_lookFirst (o := .stat p) trivial hs
  intro r s' hs' hT hes
  match r, hT, hes with
  | .error e, _, hes => exact ⟨hs', hes, fun _ h => by cases h⟩
  | .ok .dir, _, hes => exact ⟨hs', hes, fun _ h => by cases h⟩
  | .ok .file, hT, hes =>
    refine ⟨hs', hes, fun pair h => ?_⟩
    cases hstored : storedPath p root with
    | error e =>
      rw [hstored] at h
      cases h
    | ok stored =>
      rw [hstored] at h
      cases h
      exact ⟨rfl, hstored, List.mem_cons_self, hT⟩

theorem wp_globEntry (root : Str) (entry : Except (Str × Str) Str) (hs : S.Idle s) :
    wp V G (globEntry root entry) (S.Looks fun found es => SeesEntry T root es entry found) s := by
  cases entry with
  | error pe => exact ⟨hs, not_creates_nil, fun _ h => by cases h⟩
  | ok p =>
    apply wp_lookFirst (o := .stat p) trivial hs
    intro r s' hs' hT hes
    match r, hT, hes with
    | .error e, hT, hes =>
      refine ⟨hs', hes, fun found h => ?_⟩
      cases h
      exact ⟨.error e, by simp, List.mem_cons_self, hT⟩
    | .ok .dir, hT, hes =>
      refine ⟨hs', hes, fun found h => ?_⟩
      cases h
      exact ⟨.ok .dir, by simp, List.mem_cons_self, hT⟩
    | .ok .file, hT, hes =>
      refine ⟨hs', hes, fun found h => ?_⟩
      cases hstored : storedPath p root with
      | error e =>
        rw [hstored] at h
        cases h
      | ok stored =>
        rw [hstored] at h
        cases h
        exact ⟨rfl, hstored, List.mem_cons_self, hT⟩

theorem wp_sniffFormat (archive : Str) (hs : S.Idle s) :
    wp V G (sniffFormat archive) (S.Looks fun fmt es => SeesFormat T es archive none fmt) s := by
  apply wp_lookFirst (o := .read archive) trivial hs
  intro r s' hs' hT hes
  cases r with
  | error e => exact ⟨hs', hes, fun _ h => by cases h⟩
  | ok bs =>
    refine ⟨hs', hes, fun fmt h => ?_⟩
    cases hhead : sniffHead (bs.take 262) archive with
    | error e =>
      have h : lift (sniffHead (bs.take 262) archive) = .ok fmt := h
      rw [hhead] at h
      cases h
    | ok fmt' =>
      have h : lift (sniffHead (bs.take 262) archive) = .ok fmt := h
      rw [hhead] at h
      cases h
      exact Or.inr ⟨rfl, bs, ⟨List.mem_cons_self, hT⟩, hhead⟩

/-- Making more calls before, none of which creates the temporary file. -/
theorem Ends.prepend {A A' : List Row → List FileEvent → Prop} {r : Outcome PackSummary}
    {es : List FileEvent} (pre : List FileEvent) (hpre : ¬Creates out pre)
    (hA : ∀ rows, A rows es → A' rows (pre ++ es)) (h : S.Ends W opts A r es s) :
    S.Ends W opts A' r (pre ++ es) s := by
  have hiff : Creates out (pre ++ es) ↔ Creates out es := by
    rw [creates_append]
    exact or_iff_right hpre
  cases r with
  | ok sum =>
    obtain ⟨rows, ⟨hrows, hnodup⟩, hend⟩ := h
    exact ⟨rows, ⟨hA rows hrows, hnodup⟩, hend⟩
  | error e =>
    rcases h with ⟨hc, hs⟩ | ⟨hc, hs⟩
    · exact Or.inl ⟨hiff.mpr hc, hs⟩
    · exact Or.inr ⟨fun hc' => hc (hiff.mp hc'), hs⟩

/-- A call that first looks at some files. -/
theorem wp_lookThen {β : Type} {p : FileM β} {f : β → FileM PackSummary}
    {R : β → List FileEvent → Prop} {A : β → List Row → List FileEvent → Prop}
    {B : List Row → List FileEvent → Prop} (hp : wp V G p (S.Looks R) s)
    (hf : ∀ b s, S.Idle s → wp V G (f b) (S.Ends W opts (A b)) s)
    (hA : ∀ b rows es es', R b es → A b rows es' → B rows (es ++ es')) :
    wp V G (p.andThen f) (S.Ends W opts B) s := by
  apply wp_andThen
  refine wp_mono (fun r es s' hr => ?_) hp
  obtain ⟨hs', hes, hR⟩ := hr
  cases r with
  | error e => exact Or.inr ⟨hes, hs'⟩
  | ok b =>
    refine wp_mono (fun r' es' s'' hr' => ?_) (hf b s' hs')
    exact hr'.prepend es hes fun rows hrows => hA b rows es es' (hR b rfl) hrows

theorem wp_packFiles (paths : List Str) (root : Str) (hs : S.Idle s) :
    wp V G (packFiles W paths root out opts)
      (S.Ends W opts ((PackCall.ofFiles paths root).Sees W opts T)) s := by
  unfold packFiles
  split
  · exact Or.inr ⟨not_creates_nil, hs⟩
  · refine wp_lookThen (wp_mapEach (R := fun p pair es => SeesFile T root es p pair)
      (fun _ _ _ _ hes h => h.mono (looks_of_subset hes))
      (fun p _ s hs => wp_checkFile root p hs) hs) (fun pairs s hs => wp_writePairs pairs hs)
      fun pairs rows es es' hpairs hrows => ?_
    exact ⟨pairs, hpairs.imp fun _ _ h => h.mono (looks_of_subset (List.subset_append_left es es')),
      seesSource_mono (looks_of_subset (List.subset_append_right es es')) hrows⟩

/-- What is done once it is known what the pattern is. -/
theorem wp_packExpanded {pattern root : Str} {A : List Row → List FileEvent → Prop}
    (hA : ∀ rows es entries found, Saw T none es ⟨.expand pattern, .ok entries⟩ →
      List.Forall₂ (SeesEntry T root es) entries found →
      List.Forall₂ (SeesSource T es) (sortPairs (found.filterMap id)) rows → A rows es)
    (hs : S.Idle s) : wp V G (packExpanded W pattern root out opts) (S.Ends W opts A) s := by
  apply wp_lookFirst (o := .expand pattern) trivial hs
  intro r s' hs' hT hes
  cases r with
  | error e => exact Or.inr ⟨hes, hs'⟩
  | ok entries =>
    refine wp_mono (fun r es s'' hr => hr.prepend [⟨.expand pattern, .ok entries⟩] hes
      fun rows h => h) (wp_lookThen
        (A := fun found rows es =>
          List.Forall₂ (SeesSource T es) (sortPairs (found.filterMap id)) rows)
        (B := fun rows es => A rows (⟨.expand pattern, .ok entries⟩ :: es))
      (wp_mapEach (R := fun entry found es => SeesEntry T root es entry found)
        (fun _ _ _ _ hes h => h.mono (looks_of_subset hes))
        (fun entry _ s hs => wp_globEntry root entry hs) hs') ?_ ?_)
    · intro found s hs
      dsimp only
      split
      · exact Or.inr ⟨not_creates_nil, hs⟩
      · exact wp_writePairs _ hs
    · intro found rows es es' hfound hrows
      have hleft : es ⊆ ⟨.expand pattern, .ok entries⟩ :: (es ++ es') :=
        fun e he => List.mem_cons_of_mem _ (List.mem_append_left es' he)
      have hright : es' ⊆ ⟨.expand pattern, .ok entries⟩ :: (es ++ es') :=
        fun e he => List.mem_cons_of_mem _ (List.mem_append_right es he)
      exact hA rows _ entries found ⟨List.mem_cons_self, hT⟩
        (hfound.imp fun _ _ h => SeesEntry.mono (looks_of_subset hleft) h)
        (seesSource_mono (looks_of_subset hright) hrows)

theorem wp_packGlob (pattern : Str) (root : Option Str) (hs : S.Idle s) :
    wp V G (packGlob W pattern root out opts)
      (S.Ends W opts ((PackCall.ofGlob pattern root).Sees W opts T)) s := by
  -- asking what the pattern is comes first, and creates nothing
  apply wp_lookFirst (o := .stat pattern) trivial hs
  intro k s' hs' hT hes
  have hlast : ∀ {pattern' root' : Str}, (∀ es, SeesTarget T (⟨.stat pattern, k⟩ :: es) pattern root
      pattern' root') → wp V G (packExpanded W pattern' root' out opts) (fun r es s'' =>
        S.Ends W opts ((PackCall.ofGlob pattern root).Sees W opts T) r
          (⟨.stat pattern, k⟩ :: es) s'') s' := by
    intro pattern' root' htarget
    refine wp_mono (fun r es s'' hr => hr.prepend [⟨.stat pattern, k⟩] hes fun rows h => h)
      (wp_packExpanded (A := fun rows es => (PackCall.ofGlob pattern root).Sees W opts T rows
        (⟨.stat pattern, k⟩ :: es)) (fun rows es entries found hexpand hfound hrows => ?_) hs')
    have htail : es ⊆ ⟨.stat pattern, k⟩ :: es := List.subset_cons_self _ es
    exact ⟨pattern', root', entries, found, htarget es,
      hexpand.mono (looks_of_subset htail) trivial,
      hfound.imp fun _ _ h => SeesEntry.mono (looks_of_subset htail) h,
      seesSource_mono (looks_of_subset htail) hrows⟩
  match k, hT with
  | .ok .dir, hT => exact hlast fun es => Or.inl ⟨⟨List.mem_cons_self, hT⟩, rfl, rfl⟩
  | .ok .file, hT =>
    exact hlast fun es => Or.inr ⟨⟨.ok .file, by simp, List.mem_cons_self, hT⟩, rfl, rfl⟩
  | .error e, hT =>
    exact hlast fun es => Or.inr ⟨⟨.error e, by simp, List.mem_cons_self, hT⟩, rfl, rfl⟩

theorem wp_packArchive (libs : ArchiveLibs) (archive : Str) (format : Option ArchiveFormat)
    (hs : S.Idle s) : wp V G (packArchive W libs archive format out opts)
      (S.Ends W opts ((PackCall.ofArchive libs archive format).Sees W opts T)) s := by
  cases format with
  | some fmt =>
    refine wp_mono (fun r es s' hr => ?_) (wp_writeEntries libs fmt archive hs)
    exact hr.prepend [] not_creates_nil fun rows hrows => ⟨hrows.1, fmt, Or.inl rfl, hrows.2⟩
  | none =>
    refine wp_lookThen (wp_sniffFormat archive hs)
      (fun fmt s hs => wp_writeEntries libs fmt archive hs) fun fmt rows es es' hfmt hrows => ?_
    obtain ⟨hne, bs, hsaw, hread⟩ := hrows
    refine ⟨hne, fmt, hfmt.imp_right fun ⟨hnone, bs', hsaw', hhead⟩ => ⟨hnone, bs', ?_, hhead⟩, bs,
      hsaw.mono (looks_of_subset (List.subset_append_right es es')) trivial, hread⟩
    exact hsaw'.mono (looks_of_subset (List.subset_append_left es es')) trivial

/-- **Every call keeps to the protocol**, and publishes the rows of what it saw. -/
theorem wp_program (c : PackCall) (hs : S.Idle s) :
    wp V G (c.program W out opts) (S.Ends W opts (c.Sees W opts T)) s := by
  cases c with
  | ofPairs pairs => exact wp_writePairs pairs hs
  | ofFiles paths root => exact wp_packFiles paths root hs
  | ofGlob pattern root => exact wp_packGlob pattern root hs
  | ofArchive libs archive format => exact wp_packArchive libs archive format hs

end Stages

end ParquetFileFs
