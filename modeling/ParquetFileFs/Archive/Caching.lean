import ParquetFileFs.Archive.Cache

/-!
# Caching is invisible

Every cached value is what decoding its own row group gives.  All steps keep
this, in whatever order they come and whichever decodes fail, so a call that
succeeds gives what it would give without caches.

## Main definitions

* `decodeChunk`, `decodeDetail` — what the caches hold, computed directly.
* `Caches.Valid` — every cached value is what decoding gives.
* `Agrees` — equal results, or an error that a decode may fail with.

## Main results

* `cacheContract_holds` — **every step keeps the caches valid.**
* `serve_meets` — a call agrees with its direct computation.
* `caching_invisible` — **results, later calls and sizes are those of a freshly
  opened archive**, over all runs of concurrent calls.
-/

namespace ParquetFileFs

variable (R : ParquetReader) (ix : Index)

/-! ### Direct computation -/

/-- The content column of a row group. -/
def decodeChunk (key : ℕ × ℕ) : Outcome Column :=
  match ix.shards[key.1]? with
  | none => .error .panic
  | some shard => (readRgColumns R ix key.1 key.2 [shard.contentCol]).bind firstColumn

/-- The details of a row group with the given content column. -/
def detailOf (key : ℕ × ℕ) (content : Column) : Outcome RgDetail :=
  (rgSizes content).bind fun sizes =>
    match ix.shards[key.1]? with
    | none => .error .panic
    | some shard =>
        if shard.extraCols = [] then .ok ⟨sizes, List.replicate content.length []⟩
        else (readRgColumns R ix key.1 key.2 shard.extraCols).bind fun cols =>
          (rgMetas shard.extraNames cols content.length).bind fun metas => .ok ⟨sizes, metas⟩

/-- The details of a row group. -/
def decodeDetail (key : ℕ × ℕ) : Outcome RgDetail :=
  (decodeChunk R ix key).bind (detailOf R ix key)

/-- The bytes of a path. -/
def directRead (path : Str) : Outcome Bytes :=
  match ix.files.find? (normalize path) with
  | none => .error (.err (.notFound (normalize path)))
  | some entry => (decodeChunk R ix (entry.loc.shard, entry.loc.rowGroup)).bind
      fun col => binaryValue col entry.loc.row

/-- What is known of a path. -/
def directInfo (path : Str) : Outcome InfoResult :=
  match ix.files.find? (normalize path) with
  | some entry => (decodeDetail R ix (entry.loc.shard, entry.loc.rowGroup)).bind
      fun d => rowInfo d entry.loc.row
  | none =>
      if ix.isDir (normalize path) then .ok .dir
      else .error (.err (.notFound (normalize path)))

/-- What a request gives, computed directly. -/
def directCall : Request → Outcome Response
  | .read path => (directRead R ix path).bind fun bs => .ok (.bytes bs)
  | .info path => (directInfo R ix path).bind fun i => .ok (.info i)

/-! ### Valid caches -/

/-- Every cached value is what decoding its own row group gives. -/
structure Caches.Valid (s : Caches) : Prop where
  chunks : ∀ {key col}, (key, col) ∈ s.chunks.entries → decodeChunk R ix key = .ok col
  details : ∀ {key d}, s.details key = some d → decodeDetail R ix key = .ok d

theorem Caches.valid_empty : Caches.empty.Valid R ix := by
  constructor <;> simp [Caches.empty]

/-- The same result, or an error that a decode may fail with. -/
def Agrees (F : FsError → Prop) {α : Type} (x r : Outcome α) : Prop :=
  r = x ∨ ∃ e, F e ∧ r = .error (.err e)

theorem agrees_self {F : FsError → Prop} {α : Type} (x : Outcome α) : Agrees F x x :=
  Or.inl rfl

theorem Agrees.ok {F : FsError → Prop} {α : Type} {x : Outcome α} {a : α}
    (h : Agrees F x (.ok a)) : x = .ok a := by
  rcases h with h | ⟨e, -, h⟩
  · exact h.symm
  · cases h

/-- What may be put into the caches, and what lookups and decodes give. -/
def cacheContract (F : FsError → Prop) : Contract CacheOp CacheOp.Res where
  pre
    | .chunksPut key col => decodeChunk R ix key = .ok col
    | .detailsInsert key d => decodeDetail R ix key = .ok d
    | _ => True
  post
    | .chunksGet key, r => ∀ col, r = some col → decodeChunk R ix key = .ok col
    | .detailsGet key, r => ∀ d, r = some d → decodeDetail R ix key = .ok d
    | .decode key cols, r => Agrees F (readRgColumns R ix key.1 key.2 cols) r
    | _, _ => True

variable {R ix}

/-- **Every step keeps the caches valid**, and gives what the contract says. -/
theorem cacheContract_holds {faulty : Prop} :
    (cacheContract R ix fun _ => faulty).Holds (cacheWorld R ix faulty) (Caches.Valid R ix) := by
  intro o s r s' hW hs hpre
  cases o with
  | chunksGet key =>
    obtain ⟨rfl, rfl⟩ := hW
    exact ⟨fun col hcol => hs.chunks (Lru.mem_of_get hcol),
      fun h => hs.chunks (Lru.mem_entries_get h), hs.details⟩
  | chunksPut key col =>
    obtain rfl := hW
    refine ⟨trivial, fun {key' col'} h => ?_, hs.details⟩
    rcases Lru.mem_entries_put h with heq | h
    · cases heq
      exact hpre
    · exact hs.chunks h
  | detailsGet key =>
    obtain ⟨rfl, rfl⟩ := hW
    exact ⟨fun d hd => hs.details hd, hs⟩
  | detailsInsert key d =>
    obtain rfl := hW
    refine ⟨trivial, hs.chunks, fun {key' d'} h => ?_⟩
    change Function.update s.details key (some d) key' = some d' at h
    by_cases hkey : key' = key
    · subst hkey
      rw [Function.update_self, Option.some.injEq] at h
      exact h ▸ hpre
    · rw [Function.update_of_ne hkey] at h
      exact hs.details h
  | decode key cols =>
    obtain ⟨hr, rfl⟩ := hW
    exact ⟨hr.imp_right fun ⟨hfaulty, e, he⟩ => ⟨e, hfaulty, he⟩, hs⟩

theorem evictStep_valid {s s' : Caches} (h : evictStep s s') (hs : s.Valid R ix) :
    s'.Valid R ix := by
  obtain ⟨key, rfl⟩ := h
  exact ⟨fun h => hs.chunks (Lru.mem_entries_evict h), hs.details⟩

/-! ### Calls agree with their direct computation -/

variable {F : FsError → Prop}

theorem meets_andThen_agrees {α β : Type} {p : ArchiveM α} {f : α → ArchiveM β} {x : Outcome α}
    {g : α → Outcome β} (hp : p.Meets (cacheContract R ix F) (Agrees F x))
    (hf : ∀ a, x = .ok a → (f a).Meets (cacheContract R ix F) (Agrees F (g a))) :
    (p.andThen f).Meets (cacheContract R ix F) (Agrees F (x.bind g)) := by
  refine Program.meets_andThen hp (fun e he => ?_) fun a ha => ?_
  · rcases he with rfl | ⟨e', hF, he⟩
    · exact Or.inl rfl
    · exact Or.inr ⟨e', hF, by cases he; rfl⟩
  · -- a success always agrees; only an error may be the fault of a decode
    have hx := ha.ok
    subst hx
    exact hf a rfl

theorem meets_ret_agrees {α : Type} (x : Outcome α) :
    (Program.ret x : ArchiveM α).Meets (cacheContract R ix F) (Agrees F x) :=
  agrees_self x

theorem decodeColumns_meets (key : ℕ × ℕ) (cols : List ℕ) :
    (decodeColumns key cols).Meets (cacheContract R ix F)
      (Agrees F (readRgColumns R ix key.1 key.2 cols)) :=
  ⟨trivial, fun _ hr => hr⟩

theorem loadContentChunk_meets (key : ℕ × ℕ) :
    (loadContentChunk ix key).Meets (cacheContract R ix F)
      (Agrees F (decodeChunk R ix key)) := by
  refine ⟨trivial, fun r hr => ?_⟩
  cases r with
  | some col => exact Or.inl (hr col rfl).symm
  | none =>
    cases hshard : ix.shards[key.1]? with
    | none =>
      have hchunk : decodeChunk R ix key = .error .panic := by simp only [decodeChunk, hshard]
      rw [hchunk]
      exact meets_ret_agrees _
    | some shard =>
      have hchunk : decodeChunk R ix key
          = (readRgColumns R ix key.1 key.2 [shard.contentCol]).bind firstColumn := by
        simp only [decodeChunk, hshard]
      rw [hchunk]
      refine meets_andThen_agrees (decodeColumns_meets key _) fun cols hcols => ?_
      rw [hcols] at hchunk
      -- the column that is stored is what decoding the row group gives
      cases hcol : firstColumn cols with
      | error e => exact meets_ret_agrees _
      | ok col => exact ⟨hchunk.trans hcol, fun _ _ => agrees_self _⟩

theorem insertDetail_meets {key : ℕ × ℕ} {d : RgDetail} (hd : decodeDetail R ix key = .ok d) :
    (insertDetail key d).Meets (cacheContract R ix F) (Agrees F (.ok d)) :=
  ⟨hd, fun _ _ => agrees_self _⟩

theorem buildDetail_meets {key : ℕ × ℕ} {content : Column}
    (hcontent : decodeChunk R ix key = .ok content) :
    (buildDetail ix key content).Meets (cacheContract R ix F)
      (Agrees F (detailOf R ix key content)) := by
  have hdetail : decodeDetail R ix key = detailOf R ix key content := by
    rw [decodeDetail, hcontent]
    rfl
  refine meets_andThen_agrees (meets_ret_agrees _) fun sizes hsizes => ?_
  rw [detailOf, hsizes] at hdetail
  cases hshard : ix.shards[key.1]? with
  | none => exact meets_ret_agrees _
  | some shard =>
    simp only [hshard, Except.bind] at hdetail
    by_cases hextra : shard.extraCols = []
    · simp only [hextra, if_pos] at hdetail ⊢
      exact insertDetail_meets hdetail
    · simp only [if_neg hextra] at hdetail ⊢
      refine meets_andThen_agrees (decodeColumns_meets key _) fun cols hcols => ?_
      refine meets_andThen_agrees (meets_ret_agrees _) fun metas hmetas => insertDetail_meets ?_
      simpa only [hcols, hmetas] using hdetail

theorem loadDetail_meets (key : ℕ × ℕ) :
    (loadDetail ix key).Meets (cacheContract R ix F)
      (Agrees F (decodeDetail R ix key)) := by
  refine ⟨trivial, fun r hr => ?_⟩
  cases r with
  | some d => exact Or.inl (hr d rfl).symm
  | none => exact meets_andThen_agrees (loadContentChunk_meets key) fun _ => buildDetail_meets

theorem read_meets (path : Str) :
    (Archive.read ix path).Meets (cacheContract R ix F)
      (Agrees F (directRead R ix path)) := by
  unfold Archive.read directRead
  cases ix.files.find? (normalize path) with
  | none => exact meets_ret_agrees _
  | some entry =>
    exact meets_andThen_agrees (loadContentChunk_meets _) fun _ _ => meets_ret_agrees _

theorem info_meets (path : Str) :
    (Archive.info ix path).Meets (cacheContract R ix F)
      (Agrees F (directInfo R ix path)) := by
  unfold Archive.info directInfo
  cases ix.files.find? (normalize path) with
  | none =>
    simp only
    split <;> exact meets_ret_agrees _
  | some entry => exact meets_andThen_agrees (loadDetail_meets _) fun _ _ => meets_ret_agrees _

/-- **A call agrees with its direct computation.** -/
theorem serve_meets (q : Request) :
    (serve ix q).Meets (cacheContract R ix F) (Agrees F (directCall R ix q)) := by
  cases q with
  | read path => exact meets_andThen_agrees (read_meets path) fun bs _ => meets_ret_agrees _
  | info path => exact meets_andThen_agrees (info_meets path) fun i _ => meets_ret_agrees _

/-- On its own, from valid caches and with every decode working, a call gives
its direct computation. -/
theorem exec_serve (q : Request) {s : Caches} (hs : s.Valid R ix) :
    ((serve ix q).exec (cacheHandler R ix) s).1 = directCall R ix q :=
  ((serve_meets q).exec cacheContract_holds (cacheWorld_cacheHandler R ix False) hs).1.resolve_right
    fun ⟨_, h, _⟩ => h

theorem freshCall_eq (q : Request) : freshCall R ix q = directCall R ix q :=
  exec_serve q (Caches.valid_empty R ix)

/-! ### Sizes -/

/-- The results of a successful run over a list, one by one. -/
theorem mapM_ok_getElem? {α β : Type} {f : α → Outcome β} {as : List α} {bs : List β}
    (h : as.mapM f = .ok bs) {i : ℕ} {b : β} (hb : bs[i]? = some b) :
    ∃ a, as[i]? = some a ∧ f a = .ok b := by
  induction as generalizing bs i with
  | nil =>
    cases h
    simp at hb
  | cons a as ih =>
    rw [List.mapM_cons] at h
    cases ha : f a with
    | error e => rw [ha] at h; cases h
    | ok b₀ =>
      cases has : as.mapM f with
      | error e => rw [ha, has] at h; cases h
      | ok bs₀ =>
        rw [ha, has] at h
        cases h
        cases i with
        | zero => exact ⟨a, rfl, by simpa [ha] using hb⟩
        | succ i => exact ih has hb

/-- Details have the sizes of the content, and metadata if there are columns for it. -/
theorem of_detailOf {key : ℕ × ℕ} {content : Column} {d : RgDetail}
    (h : detailOf R ix key content = .ok d) :
    rgSizes content = .ok d.sizes ∧ (d.metas = List.replicate content.length [] ∨
      ∃ names cols, rgMetas names cols content.length = .ok d.metas) := by
  unfold detailOf at h
  cases hsizes : rgSizes content with
  | error e => rw [hsizes] at h; cases h
  | ok sizes =>
    simp only [hsizes, Except.bind] at h
    split at h
    · cases h
    split at h
    · cases h
      exact ⟨rfl, Or.inl rfl⟩
    split at h
    · cases h
    split at h
    · cases h
    · next metas hmetas =>
      cases h
      exact ⟨rfl, Or.inr ⟨_, _, hmetas⟩⟩

theorem sizes_of_detailOf {key : ℕ × ℕ} {content : Column} {d : RgDetail}
    (h : detailOf R ix key content = .ok d) : rgSizes content = .ok d.sizes :=
  (of_detailOf h).1

/-- The size in the details of a row is the length of its content. -/
theorem size_of_rowInfo {key : ℕ × ℕ} {content : Column} {d : RgDetail} {row : ℕ} {bytes : Bytes}
    {i : InfoResult} (hd : detailOf R ix key content = .ok d)
    (hbytes : binaryValue content row = .ok bytes) (hi : rowInfo d row = .ok i) :
    ∃ metas, i = .file bytes.length metas := by
  unfold rowInfo at hi
  split at hi
  · next size metas hsize _ =>
    cases hi
    -- the sizes were taken from the same cells, one by one
    obtain ⟨j, hj, hlen⟩ := mapM_ok_getElem? (sizes_of_detailOf hd) hsize
    obtain ⟨hlt, rfl⟩ := List.getElem?_eq_some_iff.mp hj
    rw [List.getElem_range, hbytes] at hlen
    cases hlen
    exact ⟨metas, rfl⟩
  · cases hi

theorem size_of_directCall {path : Str} {bytes : Bytes} {i : InfoResult}
    (hread : directCall R ix (.read path) = .ok (.bytes bytes))
    (hinfo : directCall R ix (.info path) = .ok (.info i)) :
    ∃ metas, i = .file bytes.length metas := by
  simp only [directCall, directRead, directInfo] at hread hinfo
  cases hfind : ix.files.find? (normalize path) with
  | none => rw [hfind] at hread; cases hread
  | some entry =>
    rw [hfind] at hread hinfo
    simp only [decodeDetail] at hread hinfo
    -- both start from the same row group
    cases hchunk : decodeChunk R ix (entry.loc.shard, entry.loc.rowGroup) with
    | error e => rw [hchunk] at hread; cases hread
    | ok content =>
      rw [hchunk] at hread hinfo
      simp only [Except.bind] at hread hinfo
      cases hd : detailOf R ix (entry.loc.shard, entry.loc.rowGroup) content with
      | error e => rw [hd] at hinfo; cases hinfo
      | ok d =>
        rw [hd] at hinfo
        cases hb : binaryValue content entry.loc.row with
        | error e => rw [hb] at hread; cases hread
        | ok bs =>
          cases hr : rowInfo d entry.loc.row with
          | error e => simp only [hr] at hinfo; cases hinfo
          | ok i' =>
            rw [hb] at hread
            simp only [hr] at hinfo
            cases hread
            cases hinfo
            exact size_of_rowInfo hd hb hr

/-! ### All runs -/

/-- **Caching is invisible.**  In every state that concurrent calls can reach,
with evictions at any time and any decodes failing: a call that has succeeded
has the result it has on a freshly opened archive; the caches are valid, and any
later call whose decodes work gives just what it gives on a freshly opened
archive; and where a read and an info of one path have both succeeded, the size
is the length of the content. -/
theorem caching_invisible {c : Pool CacheOp CacheOp.Res Request (Outcome Response) Caches}
    (h : Reachable (cacheWorld R ix True) evictStep (serve ix) Caches.empty c) :
    (∀ t ∈ c.threads, ∀ a, t.program = .ret (.ok a) → freshCall R ix t.request = .ok a) ∧
      (c.state.Valid R ix ∧
        ∀ q, ((serve ix q).exec (cacheHandler R ix) c.state).1 = freshCall R ix q) ∧
      ∀ path bytes i, ⟨.read path, .ret (.ok (.bytes bytes))⟩ ∈ c.threads →
        ⟨.info path, .ret (.ok (.info i))⟩ ∈ c.threads → ∃ metas, i = .file bytes.length metas := by
  have hinv : PoolInv (cacheContract R ix fun _ => True) (Caches.Valid R ix)
      (fun q => Agrees (fun _ => True) (directCall R ix q)) c :=
    pool_invariant cacheContract_holds (fun _ _ => evictStep_valid) serve_meets
      (Caches.valid_empty R ix) h
  have hdone : ∀ t ∈ c.threads, ∀ a, t.program = .ret (.ok a) →
      directCall R ix t.request = .ok a := by
    intro t ht a ha
    have hmeets := hinv.threads t ht
    rw [ha] at hmeets
    exact Agrees.ok hmeets
  refine ⟨fun t ht a ha => (freshCall_eq _).trans (hdone t ht a ha),
    ⟨hinv.state, fun q => (exec_serve q hinv.state).trans (freshCall_eq q).symm⟩, ?_⟩
  intro path bytes i hread hinfo
  exact size_of_directCall (hdone _ hread _ rfl) (hdone _ hinfo _ rfl)

/-- Two reads of one file: the first one's decode fails after the second one
has found the cache empty, and an eviction follows the second one's insertion. -/
theorem caching_invisible_sample :
    freshCall sampleReader sampleIndex (.read "/a".toList) = .ok (.bytes [1]) := by
  have h₀ : Reachable (cacheWorld sampleReader sampleIndex True) evictStep (serve sampleIndex)
    Caches.empty ⟨Caches.empty, []⟩ := .refl
  have h₁ := (h₀.tail (.spawn _ _ (.read "a".toList))).tail (.spawn _ _ (.read "/a".toList))
  have h₂ := (h₁.tail (.call (i := 0) (r := none) rfl ⟨rfl, rfl⟩)).tail
    (.call (i := 1) (r := none) rfl ⟨rfl, rfl⟩)
  have h₃ := h₂.tail (.call (i := 0) (r := .error (.err (.parquet [] []))) rfl
    ⟨Or.inr ⟨trivial, _, rfl⟩, rfl⟩)
  have h₄ := (h₃.tail (.call (i := 1) rfl ⟨Or.inl rfl, rfl⟩)).tail
    (.call (i := 1) (r := ()) rfl rfl)
  have h₅ := h₄.tail (.environment _ ⟨(0, 0), rfl⟩)
  exact (caching_invisible h₅).1 ⟨.read "/a".toList, .ret (.ok (.bytes [1]))⟩
    (List.mem_of_getElem? (i := 1) rfl) _ rfl

end ParquetFileFs
