import ParquetFileFs.Archive.Safety

/-!
# When a call decodes

A call asks the adapter for bytes only where it decodes.  A content column is
decoded unless its row group is one of the last few whose content was used, and
a row group is described once and for all.  Both caches together follow two
lists: the row groups whose content was used, and those that were described.

## Main definitions

* `decodes`, `serveAll` — the decodes among calls, and a session of requests.
* `Usage`, `Usage.serve`, `Usage.decodes` — what a session has used, and what a
  request then decodes.
* `Follows` — the caches hold what the usage says.

## Main results

* `session_decodes` — **a session decodes exactly what its usage says.**
* `infos_decode_once` — **describing files decodes each row group at most once.**
* `few_groups_decode_once` — **nothing that can be decoded is decoded twice while
  at most four row groups are asked for.**
-/

namespace ParquetFileFs

open Program

/-! ### Decodes -/

/-- The row group and the columns that are decoded. -/
abbrev Decode := (ℕ × ℕ) × List ℕ

/-- The decodes among calls. -/
def decodes (es : List (Event CacheOp CacheOp.Res)) : List Decode :=
  es.filterMap fun
    | ⟨.decode key cols, _⟩ => some (key, cols)
    | _ => none

/-- Requests one after another, with all results. -/
def serveAll (ix : Index) : List Request → Program CacheOp CacheOp.Res (List (Outcome Response))
  | [] => .ret []
  | q :: qs => serve ix q >>= fun r => serveAll ix qs >>= fun rs => .ret (r :: rs)

/-- The row group a path is in. -/
def groupOf (ix : Index) (path : Str) : Option (ℕ × ℕ) :=
  (ix.files.find? (normalize path)).map fun entry => (entry.loc.shard, entry.loc.rowGroup)

/-! ### What a session has used -/

/-- The row groups whose content was used, in this order, and those described. -/
structure Usage where
  used : List (ℕ × ℕ)
  described : List (ℕ × ℕ)

/-- The row groups whose content is at hand. -/
def Usage.kept (u : Usage) : List (ℕ × ℕ) := (Lru.recent u.used).take chunkCapacity

section Spec

variable (R : ParquetReader) (ix : Index)

/-- The content of a row group is used, if it can be decoded. -/
def Usage.use (u : Usage) (key : ℕ × ℕ) : Usage :=
  if (decodeChunk R ix key).isOk then { u with used := u.used ++ [key] } else u

/-- A row group is described, if it can be. -/
def Usage.describe (u : Usage) (key : ℕ × ℕ) : Usage :=
  if (decodeDetail R ix key).isOk then { u with described := key :: u.described } else u

def Usage.serve (u : Usage) : Request → Usage
  | .read path =>
      match groupOf ix path with
      | none => u
      | some key => u.use R ix key
  | .info path =>
      match groupOf ix path with
      | none => u
      | some key => if key ∈ u.described then u else (u.use R ix key).describe R ix key

/-- The content column of a row group is decoded unless it is at hand. -/
def contentDecodes (u : Usage) (key : ℕ × ℕ) : List Decode :=
  if key ∈ u.kept then []
  else (ix.shards[key.1]?).toList.map fun shard => (key, [shard.contentCol])

/-- The other columns of a row group are decoded if there are any, and if its
content gives sizes. -/
def extraDecodes (key : ℕ × ℕ) : List Decode :=
  if ((decodeChunk R ix key).bind rgSizes).isOk then
    ((ix.shards[key.1]?).toList.filter fun shard => shard.extraCols ≠ []).map
      fun shard => (key, shard.extraCols)
  else []

/-- What a request decodes. -/
def Usage.decodes (u : Usage) : Request → List Decode
  | .read path =>
      match groupOf ix path with
      | none => []
      | some key => contentDecodes ix u key
  | .info path =>
      match groupOf ix path with
      | none => []
      | some key =>
          if key ∈ u.described then [] else contentDecodes ix u key ++ extraDecodes R ix key

/-- What a session decodes, with what was used before. -/
def Usage.allDecodes (u : Usage) : List Request → List Decode
  | [] => []
  | q :: qs => u.decodes R ix q ++ (u.serve R ix q).allDecodes qs

/-- The caches hold the content that is at hand and the descriptions. -/
structure Follows (u : Usage) (s : Caches) : Prop where
  valid : s.Valid R ix
  chunks : s.chunks.keys = u.kept
  details : ∀ key, (s.details key).isSome ↔ key ∈ u.described

end Spec

variable {R : ParquetReader} {ix : Index} {u : Usage} {s : Caches}

theorem follows_empty : Follows R ix ⟨[], []⟩ Caches.empty where
  valid := Caches.valid_empty R ix
  chunks := rfl
  details key := by simp [Caches.empty]

/-! ### Calls follow the usage -/

/-- A call from valid caches gives its direct computation, and leaves them valid. -/
theorem exec_of_meets {α : Type} {p : ArchiveM α} {x : Outcome α} (hs : s.Valid R ix)
    (h : p.Meets (cacheContract R ix fun _ => False) (Agrees (fun _ => False) x)) :
    (exec (cacheHandler R ix) p s).1 = x ∧ (exec (cacheHandler R ix) p s).2.Valid R ix := by
  obtain ⟨hres, hvalid⟩ := h.exec cacheContract_holds (cacheWorld_cacheHandler R ix False) hs
  exact ⟨hres.resolve_right fun ⟨_, hf, _⟩ => hf, hvalid⟩

theorem decodes_append (es es' : List (Event CacheOp CacheOp.Res)) :
    decodes (es ++ es') = decodes es ++ decodes es' := List.filterMap_append

theorem decodes_decodeColumns (key : ℕ × ℕ) (cols : List ℕ) (s : Caches) :
    decodes (trace (cacheHandler R ix) (decodeColumns key cols) s) = [(key, cols)] := rfl

/-- Decode the content of a row group, and keep it. -/
def decodeContent (key : ℕ × ℕ) (shard : Shard) : ArchiveM Column :=
  (decodeColumns key [shard.contentCol]).andThen fun cols =>
    (Program.ret (firstColumn cols)).andThen fun col =>
      .call (.chunksPut key col) fun _ => .ret (.ok col)

variable (R ix) in
/-- Content that is decoded is kept if it is there. -/
theorem exec_decodeContent (key : ℕ × ℕ) (shard : Shard) (s : Caches) :
    exec (cacheHandler R ix) (decodeContent key shard) s
        = (match (readRgColumns R ix key.1 key.2 [shard.contentCol]).bind firstColumn with
          | .ok col => (.ok col, { s with chunks := s.chunks.put key col })
          | .error e => (.error e, s)) ∧
      decodes (trace (cacheHandler R ix) (decodeContent key shard) s)
        = [(key, [shard.contentCol])] := by
  unfold decodeContent
  cases hcols : readRgColumns R ix key.1 key.2 [shard.contentCol] with
  | error e =>
    have hdecode : (exec (cacheHandler R ix) (decodeColumns key [shard.contentCol]) s).1
        = .error e := hcols
    rw [exec_andThen_error _ hdecode, trace_andThen_error _ hdecode]
    exact ⟨rfl, rfl⟩
  | ok cols =>
    have hdecode : (exec (cacheHandler R ix) (decodeColumns key [shard.contentCol]) s).1
        = .ok cols := hcols
    rw [exec_andThen _ hdecode, trace_andThen _ hdecode, decodes_append, decodes_decodeColumns]
    simp only [Except.bind]
    cases firstColumn cols with
    | error e => exact ⟨rfl, rfl⟩
    | ok col => exact ⟨rfl, rfl⟩

/-- The content of a row group is used. -/
theorem loadContentChunk_follows (h : Follows R ix u s) (key : ℕ × ℕ) :
    Follows R ix (u.use R ix key) (exec (cacheHandler R ix) (loadContentChunk ix key) s).2 ∧
      decodes (trace (cacheHandler R ix) (loadContentChunk ix key) s)
        = contentDecodes ix u key := by
  obtain ⟨hres, hvalid⟩ := exec_of_meets h.valid (loadContentChunk_meets key)
  by_cases hkept : key ∈ u.kept
  · -- the lookup finds the column, which is what decoding gives
    obtain ⟨col, hget, hkeys⟩ := Lru.keys_get_recent h.chunks (h.chunks ▸ hkept)
    have hexec : exec (cacheHandler R ix) (loadContentChunk ix key) s
        = (.ok col, { s with chunks := (s.chunks.get key).2 }) := by
      simp only [loadContentChunk, exec_call, cacheHandler, hget, exec_ret]
    have htrace : decodes (trace (cacheHandler R ix) (loadContentChunk ix key) s) = [] := by
      simp only [loadContentChunk, trace_call, cacheHandler, hget, trace_ret]
      rfl
    rw [hexec] at hres hvalid
    rw [hexec, htrace, Usage.use, ← hres, contentDecodes, if_pos hkept]
    exact ⟨⟨hvalid, hkeys, h.details⟩, rfl⟩
  · have hmiss : key ∉ s.chunks.keys := h.chunks.symm ▸ hkept
    have hget := Lru.get_of_notMem hmiss
    rw [Usage.use, contentDecodes, if_neg hkept]
    cases hshard : ix.shards[key.1]? with
    | none =>
      have hexec : exec (cacheHandler R ix) (loadContentChunk ix key) s = (.error .panic, s) := by
        simp only [loadContentChunk, exec_call, cacheHandler, hget, hshard, exec_ret]
      have htrace : decodes (trace (cacheHandler R ix) (loadContentChunk ix key) s) = [] := by
        simp only [loadContentChunk, trace_call, cacheHandler, hget, hshard, trace_ret]
        rfl
      rw [hexec] at hres
      rw [hexec, htrace, ← hres]
      exact ⟨h, rfl⟩
    | some shard =>
      obtain ⟨hcontent, hdecodes⟩ := exec_decodeContent R ix key shard s
      have hexec : exec (cacheHandler R ix) (loadContentChunk ix key) s
          = exec (cacheHandler R ix) (decodeContent key shard) s := by
        simp only [loadContentChunk, exec_call, cacheHandler, hget, hshard]
        rfl
      have htrace : decodes (trace (cacheHandler R ix) (loadContentChunk ix key) s)
          = decodes (trace (cacheHandler R ix) (decodeContent key shard) s) := by
        simp only [loadContentChunk, trace_call, cacheHandler, hget, hshard]
        rfl
      have hchunk : decodeChunk R ix key
          = (readRgColumns R ix key.1 key.2 [shard.contentCol]).bind firstColumn := by
        simp only [decodeChunk, hshard]
      rw [hexec, hcontent] at hvalid
      rw [hexec, hcontent, htrace, hdecodes, hchunk]
      refine ⟨?_, rfl⟩
      cases hcol : (readRgColumns R ix key.1 key.2 [shard.contentCol]).bind firstColumn with
      | error e => exact h
      | ok col =>
        rw [hcol] at hvalid
        exact ⟨hvalid, Lru.keys_put_recent h.chunks hmiss col, h.details⟩

/-- A description that can be made is kept. -/
theorem exec_buildDetail {key : ℕ × ℕ} {content : Column}
    (hcontent : decodeChunk R ix key = .ok content) (s : Caches) :
    exec (cacheHandler R ix) (buildDetail ix key content) s
        = (match detailOf R ix key content with
          | .ok d => (.ok d, { s with details := Function.update s.details key (some d) })
          | .error e => (.error e, s)) ∧
      decodes (trace (cacheHandler R ix) (buildDetail ix key content) s)
        = extraDecodes R ix key := by
  have hbind : (decodeChunk R ix key).bind rgSizes = rgSizes content := by
    rw [hcontent]
    rfl
  rw [extraDecodes, hbind]
  unfold buildDetail detailOf
  match hsizes : rgSizes content with
  | .error e => exact ⟨rfl, rfl⟩
  | .ok sizes =>
    rw [ret_ok_andThen]
    simp only [Except.isOk, Except.toBool, if_pos, Except.bind]
    cases hshard : ix.shards[key.1]? with
    | none => exact ⟨rfl, rfl⟩
    | some shard =>
      by_cases hextra : shard.extraCols = []
      · simp only [hextra, if_pos]
        exact ⟨rfl, by simp [hextra, insertDetail, decodes]⟩
      · simp only [if_neg hextra]
        have hlist : ((some shard).toList.filter fun shard => shard.extraCols ≠ []).map
            (fun shard => (key, shard.extraCols)) = [(key, shard.extraCols)] := by
          simp [hextra]
        rw [hlist]
        cases hcols : readRgColumns R ix key.1 key.2 shard.extraCols with
        | error e =>
          have hdecode : (exec (cacheHandler R ix) (decodeColumns key shard.extraCols) s).1
              = .error e := hcols
          rw [exec_andThen_error _ hdecode, trace_andThen_error _ hdecode]
          exact ⟨rfl, rfl⟩
        | ok cols =>
          have hdecode : (exec (cacheHandler R ix) (decodeColumns key shard.extraCols) s).1
              = .ok cols := hcols
          rw [exec_andThen _ hdecode, trace_andThen _ hdecode, decodes_append,
            decodes_decodeColumns]
          dsimp only
          cases rgMetas shard.extraNames cols content.length with
          | error e => exact ⟨rfl, rfl⟩
          | ok metas => exact ⟨rfl, rfl⟩

/-- The caches follow when a description is kept. -/
theorem follows_describe (h : Follows R ix u s) {key : ℕ × ℕ} {d : RgDetail}
    (hd : decodeDetail R ix key = .ok d) :
    Follows R ix { u with described := key :: u.described }
      { s with details := Function.update s.details key (some d) } := by
  have hkeeps : (cacheContract R ix fun _ => False).Holds (cacheWorld R ix False)
      (Caches.Valid R ix) := cacheContract_holds
  refine ⟨(hkeeps (.detailsInsert key d) s () _ rfl h.valid hd).2, h.chunks, fun key' => ?_⟩
  by_cases heq : key' = key
  · simp [heq]
  · simp only [Function.update_of_ne heq, h.details, List.mem_cons, heq, false_or]

/-- A row group that is not described yet is described from its content. -/
theorem loadDetail_follows (h : Follows R ix u s) (key : ℕ × ℕ) :
    Follows R ix (if key ∈ u.described then u else (u.use R ix key).describe R ix key)
        (exec (cacheHandler R ix) (loadDetail ix key) s).2 ∧
      decodes (trace (cacheHandler R ix) (loadDetail ix key) s)
        = if key ∈ u.described then [] else contentDecodes ix u key ++ extraDecodes R ix key := by
  by_cases hkey : key ∈ u.described
  · obtain ⟨d, hd⟩ := Option.isSome_iff_exists.mp ((h.details key).mpr hkey)
    have hexec : exec (cacheHandler R ix) (loadDetail ix key) s = (.ok d, s) := by
      simp only [loadDetail, exec_call, cacheHandler, hd, exec_ret]
    have htrace : decodes (trace (cacheHandler R ix) (loadDetail ix key) s) = [] := by
      simp only [loadDetail, trace_call, cacheHandler, hd, trace_ret]
      rfl
    rw [if_pos hkey, if_pos hkey, hexec, htrace]
    exact ⟨h, rfl⟩
  · have hnone : s.details key = none := by
      rw [← Option.not_isSome_iff_eq_none, h.details]
      exact hkey
    have hexec : exec (cacheHandler R ix) (loadDetail ix key) s
        = exec (cacheHandler R ix) ((loadContentChunk ix key).andThen (buildDetail ix key)) s := by
      simp only [loadDetail, exec_call, cacheHandler, hnone]
    have htrace : decodes (trace (cacheHandler R ix) (loadDetail ix key) s)
        = decodes (trace (cacheHandler R ix)
          ((loadContentChunk ix key).andThen (buildDetail ix key)) s) := by
      simp only [loadDetail, trace_call, cacheHandler, hnone]
      rfl
    obtain ⟨hres, -⟩ := exec_of_meets h.valid (loadContentChunk_meets key)
    obtain ⟨hfollows, hdecodes⟩ := loadContentChunk_follows h key
    rw [if_neg hkey, if_neg hkey, hexec, htrace, Usage.describe]
    cases hchunk : decodeChunk R ix key with
    | error e =>
      rw [hchunk] at hres
      have hdetail : decodeDetail R ix key = .error e := by
        rw [decodeDetail, hchunk]
        rfl
      rw [exec_andThen_error _ hres, trace_andThen_error _ hres, hdecodes, extraDecodes, hchunk,
        hdetail]
      exact ⟨hfollows, (List.append_nil _).symm⟩
    | ok content =>
      rw [hchunk] at hres
      have hdetail : decodeDetail R ix key = detailOf R ix key content := by
        rw [decodeDetail, hchunk]
        rfl
      obtain ⟨hbuild, hextra⟩ := exec_buildDetail hchunk
        (exec (cacheHandler R ix) (loadContentChunk ix key) s).2
      rw [exec_andThen _ hres, trace_andThen _ hres, decodes_append, hdecodes, hextra, hbuild,
        hdetail]
      refine ⟨?_, rfl⟩
      cases hd : detailOf R ix key content with
      | error e => exact hfollows
      | ok d => exact follows_describe hfollows (hdetail.trans hd)

/-- **A request decodes what the usage says, and the caches follow.** -/
theorem serve_follows (h : Follows R ix u s) (q : Request) :
    Follows R ix (u.serve R ix q) (exec (cacheHandler R ix) (serve ix q) s).2 ∧
      decodes (trace (cacheHandler R ix) (serve ix q) s) = u.decodes R ix q := by
  cases q with
  | read path =>
    obtain ⟨hstate, htrace⟩ := exec_andThen_ret (cacheHandler R ix) (Archive.read ix path)
      (fun bs => .ok (Response.bytes bs)) s
    have hserve : serve ix (.read path) = (Archive.read ix path).andThen
        fun bs => .ret (.ok (.bytes bs)) := rfl
    rw [hserve, hstate, htrace]
    unfold Archive.read
    cases hfind : ix.files.find? (normalize path) with
    | none =>
      simp only [Usage.serve, Usage.decodes, groupOf, hfind, Option.map_none]
      exact ⟨h, rfl⟩
    | some entry =>
      simp only [Usage.serve, Usage.decodes, groupOf, hfind, Option.map_some]
      obtain ⟨hstate, htrace⟩ := exec_andThen_ret (cacheHandler R ix)
        (loadContentChunk ix (entry.loc.shard, entry.loc.rowGroup))
        (fun col => binaryValue col entry.loc.row) s
      rw [hstate, htrace]
      exact loadContentChunk_follows h _
  | info path =>
    obtain ⟨hstate, htrace⟩ := exec_andThen_ret (cacheHandler R ix) (Archive.info ix path)
      (fun i => .ok (Response.info i)) s
    have hserve : serve ix (.info path) = (Archive.info ix path).andThen
        fun i => .ret (.ok (.info i)) := rfl
    rw [hserve, hstate, htrace]
    unfold Archive.info
    cases hfind : ix.files.find? (normalize path) with
    | none =>
      simp only [Usage.serve, Usage.decodes, groupOf, hfind, Option.map_none]
      split <;> exact ⟨h, rfl⟩
    | some entry =>
      simp only [Usage.serve, Usage.decodes, groupOf, hfind, Option.map_some]
      obtain ⟨hstate, htrace⟩ := exec_andThen_ret (cacheHandler R ix)
        (loadDetail ix (entry.loc.shard, entry.loc.rowGroup))
        (fun d => rowInfo d entry.loc.row) s
      rw [hstate, htrace]
      exact loadDetail_follows h _

/-! ### Sessions -/

/-- What the whole session has used. -/
def Usage.serveAll (R : ParquetReader) (ix : Index) (u : Usage) (qs : List Request) : Usage :=
  qs.foldl (fun u q => u.serve R ix q) u

/-- The caches follow over a whole session. -/
theorem serveAll_follows (h : Follows R ix u s) (qs : List Request) :
    Follows R ix (u.serveAll R ix qs) (exec (cacheHandler R ix) (serveAll ix qs) s).2 ∧
      decodes (trace (cacheHandler R ix) (serveAll ix qs) s) = u.allDecodes R ix qs := by
  induction qs generalizing u s with
  | nil => exact ⟨h, rfl⟩
  | cons q qs ih =>
    obtain ⟨hone, hdecodes⟩ := serve_follows h q
    obtain ⟨hall, hrest⟩ := ih hone
    unfold serveAll
    rw [exec_bind, trace_bind, exec_bind, trace_bind, decodes_append, decodes_append, hdecodes,
      hrest]
    exact ⟨hall, by simp [Usage.allDecodes, decodes]⟩

/-- **A session decodes exactly what its usage says.**  After any session, the
content at hand is that of the row groups used last, the descriptions are those
of the row groups described, and whatever is asked next decodes what is missing. -/
theorem session_decodes (R : ParquetReader) (ix : Index) (qs : List Request) :
    let s := (exec (cacheHandler R ix) (serveAll ix qs) Caches.empty).2
    let u := Usage.serveAll R ix ⟨[], []⟩ qs
    s.chunks.keys = (Lru.recent u.used).take chunkCapacity ∧
      (∀ key, (s.details key).isSome ↔ key ∈ u.described) ∧
      ∀ q, decodes (trace (cacheHandler R ix) (serve ix q) s) = u.decodes R ix q := by
  obtain ⟨h, -⟩ := serveAll_follows (follows_empty : Follows R ix _ _) qs
  exact ⟨h.chunks, h.details, fun q => (serve_follows h q).2⟩

/-! ### Row groups that are decoded once -/

/-- The row group a request asks for. -/
def Request.group (ix : Index) : Request → Option (ℕ × ℕ)
  | .read path => groupOf ix path
  | .info path => groupOf ix path

/-- The row group a request wants described. -/
def Request.described (ix : Index) : Request → Option (ℕ × ℕ)
  | .read _ => none
  | .info path => groupOf ix path

/-- The decodes of one row group. -/
def decodesOf (key : ℕ × ℕ) (ds : List Decode) : List Decode := ds.filter fun d => d.1 = key

/-- Content once, if it was used, and then the other columns once, if they were
described. -/
def onceDecodes (shard : Shard) (key : ℕ × ℕ) (used described : Bool) : List Decode :=
  (if used then [(key, [shard.contentCol])] else [])
    ++ if described ∧ shard.extraCols ≠ [] then [(key, shard.extraCols)] else []

section Once

variable {key : ℕ × ℕ} {shard : Shard} {content : Column} {d : RgDetail} {q : Request}

theorem exists_chunk_of_detail (hd : decodeDetail R ix key = .ok d) :
    ∃ content, decodeChunk R ix key = .ok content ∧ ∃ sizes, rgSizes content = .ok sizes := by
  rw [decodeDetail] at hd
  cases hchunk : decodeChunk R ix key with
  | error e => rw [hchunk] at hd; cases hd
  | ok content =>
    rw [hchunk] at hd
    exact ⟨content, rfl, _, sizes_of_detailOf hd⟩

theorem mem_used_use (hc : decodeChunk R ix key = .ok content) (u : Usage) (key' : ℕ × ℕ) :
    key ∈ (u.use R ix key').used ↔ key ∈ u.used ∨ key' = key := by
  unfold Usage.use
  by_cases hkey : key' = key
  · subst hkey
    simp [hc, Except.isOk, Except.toBool]
  · split <;> simp [hkey, Ne.symm hkey]

theorem described_use (u : Usage) (key' : ℕ × ℕ) :
    (u.use R ix key').described = u.described := by
  unfold Usage.use
  split <;> rfl

theorem used_describe (u : Usage) (key' : ℕ × ℕ) : (u.describe R ix key').used = u.used := by
  unfold Usage.describe
  split <;> rfl

theorem mem_described_describe (hd : decodeDetail R ix key = .ok d) (u : Usage) (key' : ℕ × ℕ) :
    key ∈ (u.describe R ix key').described ↔ key ∈ u.described ∨ key' = key := by
  unfold Usage.describe
  by_cases hkey : key' = key
  · subst hkey
    simp [hd, Except.isOk, Except.toBool]
  · split <;> simp [hkey, Ne.symm hkey]

/-- The row groups used after one more request. -/
theorem mem_used_serve (hc : decodeChunk R ix key = .ok content)
    (hsub : key ∈ u.described → key ∈ u.used) (q : Request) :
    key ∈ (u.serve R ix q).used ↔ key ∈ u.used ∨ q.group ix = some key := by
  cases q with
  | read path =>
    simp only [Usage.serve, Request.group]
    cases groupOf ix path with
    | none => simp
    | some key' => simp [mem_used_use hc]
  | info path =>
    simp only [Usage.serve, Request.group]
    cases groupOf ix path with
    | none => simp
    | some key' =>
      dsimp only
      by_cases hkey : key' ∈ u.described
      · rw [if_pos hkey]
        refine ⟨Or.inl, fun h => h.elim id fun heq => ?_⟩
        cases heq
        exact hsub hkey
      · rw [if_neg hkey, used_describe, mem_used_use hc]
        simp

/-- The row groups described after one more request. -/
theorem mem_described_serve (hd : decodeDetail R ix key = .ok d) (u : Usage) (q : Request) :
    key ∈ (u.serve R ix q).described ↔ key ∈ u.described ∨ q.described ix = some key := by
  cases q with
  | read path =>
    simp only [Usage.serve, Request.described]
    cases groupOf ix path with
    | none => simp
    | some key' => simp [described_use]
  | info path =>
    simp only [Usage.serve, Request.described]
    cases groupOf ix path with
    | none => simp
    | some key' =>
      dsimp only
      by_cases hkey : key' ∈ u.described
      · rw [if_pos hkey]
        refine ⟨Or.inl, fun h => h.elim id fun heq => ?_⟩
        cases heq
        exact hkey
      · rw [if_neg hkey, mem_described_describe hd, described_use]
        simp

/-- What is described was used, also after one more request. -/
theorem used_of_described_serve (hc : decodeChunk R ix key = .ok content)
    (hsub : key ∈ u.described → key ∈ u.used) (q : Request)
    (h : key ∈ (u.serve R ix q).described) : key ∈ (u.serve R ix q).used := by
  rw [mem_used_serve hc hsub]
  cases q with
  | read path =>
    simp only [Usage.serve, Request.group] at h ⊢
    cases hgroup : groupOf ix path with
    | none => rw [hgroup] at h; exact Or.inl (hsub h)
    | some key' =>
      rw [hgroup] at h
      dsimp only at h
      rw [described_use] at h
      exact Or.inl (hsub h)
  | info path =>
    simp only [Usage.serve, Request.group] at h ⊢
    cases hgroup : groupOf ix path with
    | none => rw [hgroup] at h; exact Or.inl (hsub h)
    | some key' =>
      rw [hgroup] at h
      dsimp only at h
      split at h
      · exact Or.inl (hsub h)
      · rw [Usage.describe] at h
        split at h
        · rcases List.mem_cons.mp h with heq | h
          · exact Or.inr (congrArg some heq.symm)
          · rw [described_use] at h
            exact Or.inl (hsub h)
        · rw [described_use] at h
          exact Or.inl (hsub h)

theorem mem_used_of_mem_kept (h : key ∈ u.kept) : key ∈ u.used :=
  Lru.mem_recent.mp (List.mem_of_mem_take h)

/-- The content of one row group is decoded where it is missing. -/
theorem decodesOf_contentDecodes (hshard : ix.shards[key.1]? = some shard) (key' : ℕ × ℕ) :
    decodesOf key (contentDecodes ix u key')
      = if key' = key ∧ key ∉ u.kept then [(key, [shard.contentCol])] else [] := by
  unfold decodesOf contentDecodes
  by_cases hkey : key' = key
  · subst hkey
    by_cases hkept : key' ∈ u.kept <;> simp [hkept, hshard]
  · split
    · simp [hkey]
    · cases ix.shards[key'.1]? <;> simp [hkey]

/-- The other columns of one row group are decoded where there are any. -/
theorem decodesOf_extraDecodes (hshard : ix.shards[key.1]? = some shard)
    (hd : decodeDetail R ix key = .ok d) (key' : ℕ × ℕ) :
    decodesOf key (extraDecodes R ix key')
      = if key' = key ∧ shard.extraCols ≠ [] then [(key, shard.extraCols)] else [] := by
  obtain ⟨content, hchunk, sizes, hsizes⟩ := exists_chunk_of_detail hd
  unfold decodesOf extraDecodes
  by_cases hkey : key' = key
  · subst hkey
    by_cases hextra : shard.extraCols = [] <;>
      simp [hextra, hshard, hchunk, hsizes, Except.bind, Except.isOk, Except.toBool]
  · rw [if_neg (not_and_of_not_left _ hkey), List.filter_eq_nil_iff]
    intro e he
    split at he
    · obtain ⟨_, -, rfl⟩ := List.mem_map.mp he
      simpa using hkey
    · cases he

/-- Where no content is decoded again, one more request decodes what was not yet
decoded. -/
theorem decodesOf_serve (hshard : ix.shards[key.1]? = some shard)
    (hd : decodeDetail R ix key = .ok d) (hsub : key ∈ u.described → key ∈ u.used)
    (hkept : key ∈ u.used → key ∈ u.kept ∨ key ∈ u.described ∧ q.described ix = q.group ix) :
    onceDecodes shard key (key ∈ u.used) (key ∈ u.described)
        ++ decodesOf key (u.decodes R ix q)
      = onceDecodes shard key (key ∈ (u.serve R ix q).used)
        (key ∈ (u.serve R ix q).described) := by
  obtain ⟨content, hc, -⟩ := exists_chunk_of_detail hd
  have hused := mem_used_serve hc hsub q
  have hdescribed := mem_described_serve hd u q
  have hkept_used : key ∈ u.kept → key ∈ u.used := mem_used_of_mem_kept
  have hused' : decide (key ∈ (u.serve R ix q).used)
      = decide (key ∈ u.used ∨ q.group ix = some key) := decide_eq_decide.mpr hused
  have hdescribed' : decide (key ∈ (u.serve R ix q).described)
      = decide (key ∈ u.described ∨ q.described ix = some key) := decide_eq_decide.mpr hdescribed
  rw [hused', hdescribed', onceDecodes, onceDecodes]
  cases q with
  | read path =>
    cases hgroup : groupOf ix path with
    | none => simp [Request.group, Request.described, Usage.decodes, hgroup, decodesOf]
    | some key' =>
      simp only [Request.group, Request.described, Usage.decodes, hgroup,
        decodesOf_contentDecodes hshard, Option.some.injEq] at hkept ⊢
      by_cases hkey : key' = key
      · by_cases hu : key ∈ u.used
        · have hk := (hkept hu).resolve_right fun h => by cases h.2
          simp [hkey, hu, hk]
        · have hk : key ∉ u.kept := fun h => hu (hkept_used h)
          have hnd : key ∉ u.described := fun h => hu (hsub h)
          simp [hkey, hu, hk, hnd]
      · simp [hkey]
  | info path =>
    cases hgroup : groupOf ix path with
    | none => simp [Request.group, Request.described, Usage.decodes, hgroup, decodesOf]
    | some key' =>
      simp only [Request.group, Request.described, Usage.decodes, hgroup,
        Option.some.injEq] at hkept ⊢
      by_cases hkey : key' = key
      · subst hkey
        by_cases hnd : key' ∈ u.described
        · simp [hnd, hsub hnd, decodesOf]
        · rw [if_neg hnd, decodesOf, List.filter_append, ← decodesOf, ← decodesOf,
            decodesOf_contentDecodes hshard, decodesOf_extraDecodes hshard hd]
          by_cases hu : key' ∈ u.used
          · have hk := (hkept hu).resolve_right fun h => hnd h.1
            simp [hu, hk, hnd]
          · have hk : key' ∉ u.kept := fun h => hu (hkept_used h)
            simp [hu, hk, hnd]
      · by_cases hnd : key' ∈ u.described
        · simp [hkey, hnd, decodesOf]
        · rw [if_neg hnd, decodesOf, List.filter_append, ← decodesOf, ← decodesOf,
            decodesOf_contentDecodes hshard, decodesOf_extraDecodes hshard hd]
          simp [hkey]

/-- Where no content is ever decoded again, a session decodes what was not yet
decoded. -/
theorem decodesOf_allDecodes (hshard : ix.shards[key.1]? = some shard)
    (hd : decodeDetail R ix key = .ok d) (Inv : Usage → Prop) (Asks : Request → Prop)
    (hinv : ∀ u q, Inv u → Asks q → Inv (u.serve R ix q))
    (hkept : ∀ u q, Inv u → Asks q → key ∈ u.used →
      key ∈ u.kept ∨ key ∈ u.described ∧ q.described ix = q.group ix)
    {qs : List Request} (hqs : ∀ q ∈ qs, Asks q) (hu : Inv u)
    (hsub : key ∈ u.described → key ∈ u.used) :
    onceDecodes shard key (key ∈ u.used) (key ∈ u.described)
        ++ decodesOf key (u.allDecodes R ix qs)
      = onceDecodes shard key (key ∈ u.used ∨ some key ∈ qs.map (Request.group ix))
        (key ∈ u.described ∨ some key ∈ qs.map (Request.described ix)) := by
  induction qs generalizing u with
  | nil => simp [Usage.allDecodes, decodesOf]
  | cons q qs ih =>
    obtain ⟨hq, hqs⟩ := List.forall_mem_cons.mp hqs
    obtain ⟨content, hc, -⟩ := exists_chunk_of_detail hd
    have hused := mem_used_serve hc hsub q
    have hdescribed := mem_described_serve hd u q
    have hsub' := used_of_described_serve hc hsub q
    have hstep := decodesOf_serve hshard hd hsub (hkept u q hu hq)
    have hrest := ih hqs (hinv u q hu hq) hsub'
    rw [Usage.allDecodes, decodesOf, List.filter_append, ← decodesOf, ← decodesOf,
      ← List.append_assoc, hstep, hrest]
    simp only [hused, hdescribed, List.map_cons, List.mem_cons, or_assoc, eq_comm]

/-- The decodes of a row group along a whole session in which no content is ever
decoded again. -/
theorem decodesOf_session (hshard : ix.shards[key.1]? = some shard)
    (hd : decodeDetail R ix key = .ok d) (Inv : Usage → Prop) (Asks : Request → Prop)
    (hinv : ∀ u q, Inv u → Asks q → Inv (u.serve R ix q))
    (hkept : ∀ u q, Inv u → Asks q → key ∈ u.used →
      key ∈ u.kept ∨ key ∈ u.described ∧ q.described ix = q.group ix)
    {qs : List Request} (hqs : ∀ q ∈ qs, Asks q) (hempty : Inv ⟨[], []⟩) :
    decodesOf key (decodes (trace (cacheHandler R ix) (serveAll ix qs) Caches.empty))
      = onceDecodes shard key (some key ∈ qs.map (Request.group ix))
        (some key ∈ qs.map (Request.described ix)) := by
  obtain ⟨-, hdecodes⟩ := serveAll_follows (follows_empty : Follows R ix _ _) qs
  rw [hdecodes]
  simpa [onceDecodes] using decodesOf_allDecodes hshard hd Inv Asks hinv hkept hqs hempty
    (by simp)

variable (key) in
/-- **Describing files decodes each row group at most once**: a row group that can
be described is decoded for its content and then for its other columns when the
first of its files is described, and never again. -/
theorem infos_decode_once (hshard : ix.shards[key.1]? = some shard)
    (hd : decodeDetail R ix key = .ok d) (paths : List Str) :
    decodesOf key (decodes (trace (cacheHandler R ix) (serveAll ix (paths.map .info))
        Caches.empty))
      = onceDecodes shard key (some key ∈ paths.map (groupOf ix))
        (some key ∈ paths.map (groupOf ix)) := by
  have hmap : (paths.map Request.info).map (Request.group ix) = paths.map (groupOf ix) := by
    simp [Function.comp_def, Request.group]
  have hmap' : (paths.map Request.info).map (Request.described ix) = paths.map (groupOf ix) := by
    simp [Function.comp_def, Request.described]
  -- content is used only in describing, so what was used is described
  have hinv : ∀ (u : Usage) (q : Request), (key ∈ u.used ↔ key ∈ u.described) →
      q.described ix = q.group ix →
      (key ∈ (u.serve R ix q).used ↔ key ∈ (u.serve R ix q).described) := by
    intro u q hu hq
    obtain ⟨content, hc, -⟩ := exists_chunk_of_detail hd
    rw [mem_used_serve hc hu.mpr, mem_described_serve hd, hu, hq]
  have hasks : ∀ q ∈ paths.map Request.info, q.described ix = q.group ix := by
    simp [Request.described, Request.group]
  have h := decodesOf_session hshard hd (fun u => key ∈ u.used ↔ key ∈ u.described)
    (fun q => q.described ix = q.group ix) hinv
    (fun u q hu hq hused => Or.inr ⟨hu.mp hused, hq⟩) hasks (by simp)
  rwa [hmap, hmap'] at h

/-- A request uses the content of no row group but its own. -/
theorem of_mem_used_serve (h : key ∈ (u.serve R ix q).used) :
    key ∈ u.used ∨ q.group ix = some key := by
  have huse : ∀ key', key ∈ (u.use R ix key').used → key ∈ u.used ∨ key' = key := by
    intro key' h
    unfold Usage.use at h
    split at h
    · rcases List.mem_append.mp h with h | h
      · exact Or.inl h
      · exact Or.inr (List.mem_singleton.mp h).symm
    · exact Or.inl h
  cases q with
  | read path =>
    simp only [Usage.serve, Request.group] at h ⊢
    cases hgroup : groupOf ix path with
    | none => rw [hgroup] at h; exact Or.inl h
    | some key' =>
      rw [hgroup] at h
      exact (huse key' h).imp_right (congrArg some)
  | info path =>
    simp only [Usage.serve, Request.group] at h ⊢
    cases hgroup : groupOf ix path with
    | none => rw [hgroup] at h; exact Or.inl h
    | some key' =>
      rw [hgroup] at h
      dsimp only at h
      split at h
      · exact Or.inl h
      · rw [used_describe] at h
        exact (huse key' h).imp_right (congrArg some)

/-! ### Content alone -/

/-- The decodes of the content of one row group. -/
def contentsOf (shard : Shard) (key : ℕ × ℕ) (ds : List Decode) : List Decode :=
  ds.filter fun d => d = (key, [shard.contentCol])

theorem contentsOf_contentDecodes (hshard : ix.shards[key.1]? = some shard) (key' : ℕ × ℕ) :
    contentsOf shard key (contentDecodes ix u key')
      = if key' = key ∧ key ∉ u.kept then [(key, [shard.contentCol])] else [] := by
  unfold contentsOf contentDecodes
  by_cases hkey : key' = key
  · subst hkey
    by_cases hkept : key' ∈ u.kept <;> simp [hkept, hshard]
  · split
    · simp [hkey]
    · cases ix.shards[key'.1]? <;> simp [hkey]

/-- Decoding the other columns decodes no content. -/
theorem contentsOf_extraDecodes (hshard : ix.shards[key.1]? = some shard)
    (hextra : shard.contentCol ∉ shard.extraCols) (key' : ℕ × ℕ) :
    contentsOf shard key (extraDecodes R ix key') = [] := by
  rw [contentsOf, List.filter_eq_nil_iff]
  intro e he
  unfold extraDecodes at he
  split at he
  · obtain ⟨shard', hshard', rfl⟩ := List.mem_map.mp he
    have hmem : ix.shards[key'.1]? = some shard' := by simpa using (List.mem_filter.mp hshard').1
    rw [decide_eq_true_iff, Prod.mk.injEq]
    rintro ⟨rfl, hcols⟩
    obtain rfl : shard = shard' := Option.some.inj (hshard.symm.trans hmem)
    exact hextra (by simp [hcols])
  · cases he

/-- Where the content is at hand once it was used, one more request decodes it if it was
not. -/
theorem contentsOf_serve (hshard : ix.shards[key.1]? = some shard)
    (hextra : shard.contentCol ∉ shard.extraCols) (hc : decodeChunk R ix key = .ok content)
    (hsub : key ∈ u.described → key ∈ u.used) (hkept : key ∈ u.used → key ∈ u.kept)
    (q : Request) :
    onceDecodes shard key (key ∈ u.used) false ++ contentsOf shard key (u.decodes R ix q)
      = onceDecodes shard key (key ∈ (u.serve R ix q).used) false := by
  have hiff : key ∈ u.kept ↔ key ∈ u.used := ⟨mem_used_of_mem_kept, hkept⟩
  have hused : decide (key ∈ (u.serve R ix q).used)
      = decide (key ∈ u.used ∨ q.group ix = some key) :=
    decide_eq_decide.mpr (mem_used_serve hc hsub q)
  rw [hused, onceDecodes, onceDecodes]
  cases q with
  | read path =>
    cases hgroup : groupOf ix path with
    | none => simp [Request.group, Usage.decodes, hgroup, contentsOf]
    | some key' =>
      simp only [Request.group, Usage.decodes, hgroup, contentsOf_contentDecodes hshard,
        Option.some.injEq, hiff]
      by_cases hkey : key' = key <;> by_cases hu : key ∈ u.used <;> simp [hkey, hu]
  | info path =>
    cases hgroup : groupOf ix path with
    | none => simp [Request.group, Usage.decodes, hgroup, contentsOf]
    | some key' =>
      simp only [Request.group, Usage.decodes, hgroup, Option.some.injEq]
      by_cases hnd : key' ∈ u.described
      · -- a row group that is described was used before
        have hu : key' = key → key ∈ u.used := fun hkey => hsub (hkey ▸ hnd)
        by_cases hkey : key' = key
        · simp [hnd, hu hkey, contentsOf]
        · simp [hnd, hkey, contentsOf]
      · rw [if_neg hnd, contentsOf, List.filter_append, ← contentsOf, ← contentsOf,
          contentsOf_contentDecodes hshard, contentsOf_extraDecodes hshard hextra]
        simp only [hiff]
        by_cases hkey : key' = key <;> by_cases hu : key ∈ u.used <;> simp [hkey, hu]

/-- The content decodes of a row group along a session in which its content stays at
hand. -/
theorem contentsOf_allDecodes (hshard : ix.shards[key.1]? = some shard)
    (hextra : shard.contentCol ∉ shard.extraCols) (hc : decodeChunk R ix key = .ok content)
    (Inv : Usage → Prop) (Asks : Request → Prop)
    (hinv : ∀ u q, Inv u → Asks q → Inv (u.serve R ix q))
    (hkept : ∀ u, Inv u → key ∈ u.used → key ∈ u.kept)
    {qs : List Request} (hqs : ∀ q ∈ qs, Asks q) (hu : Inv u)
    (hsub : key ∈ u.described → key ∈ u.used) :
    onceDecodes shard key (key ∈ u.used) false ++ contentsOf shard key (u.allDecodes R ix qs)
      = onceDecodes shard key (key ∈ u.used ∨ some key ∈ qs.map (Request.group ix)) false := by
  induction qs generalizing u with
  | nil => simp [Usage.allDecodes, contentsOf]
  | cons q qs ih =>
    obtain ⟨hq, hqs⟩ := List.forall_mem_cons.mp hqs
    have hstep := contentsOf_serve hshard hextra hc hsub (hkept u hu) q
    have hrest := ih hqs (hinv u q hu hq) (used_of_described_serve hc hsub q)
    rw [Usage.allDecodes, contentsOf, List.filter_append, ← contentsOf, ← contentsOf,
      ← List.append_assoc, hstep, hrest]
    simp only [mem_used_serve hc hsub, List.map_cons, List.mem_cons, or_assoc, eq_comm]

/-! ### Few row groups -/

/-- The content of a shard that is opened is none of its other columns. -/
theorem contentCol_notMem_extraCols {A : Adapters} {pathColumn contentColumn : Option Str}
    {sources : List Str} {pol : DupPolicy}
    (h : buildIndex A R pathColumn contentColumn sources pol = .ok ix) :
    ∀ shard ∈ ix.shards, shard.contentCol ∉ shard.extraCols := by
  unfold buildIndex at h
  obtain ⟨urls, -, h⟩ := exists_of_bind_ok h
  obtain ⟨ix₁, hrun, h⟩ := exists_of_bind_ok h
  cases h
  change ∀ shard ∈ ix₁.shards, shard.contentCol ∉ shard.extraCols
  refine foldlM_ok_preserves
    (P := fun ix : Index => ∀ shard ∈ ix.shards, shard.contentCol ∉ shard.extraCols)
    (fun ix url ix' hadd hix => ?_) hrun (fun shard hmem => by cases hmem)
  unfold addShard at hadd
  obtain ⟨⟨shard, batches⟩, hopen, hadd⟩ := exists_of_bind_ok hadd
  obtain ⟨⟨count, files⟩, -, hadd⟩ := exists_of_bind_ok hadd
  cases hadd
  obtain ⟨md, pathIdx, hopens⟩ := shardOpens_of_openShard (openShard_of_lift hopen)
  intro shard' hmem
  rcases List.mem_append.mp hmem with hold | hnew
  · exact hix shard' hold
  · rw [List.mem_singleton.mp hnew, hopens.extraCols]
    simp

/-- While at most four row groups are used, all of them are at hand. -/
theorem mem_kept_of_few {groups : Finset (ℕ × ℕ)} (hcard : groups.card ≤ chunkCapacity)
    (hu : ∀ g ∈ u.used, g ∈ groups) (hused : key ∈ u.used) : key ∈ u.kept := by
  have hsub : (Lru.recent u.used).toFinset ⊆ groups := by
    intro g hg
    rw [List.mem_toFinset, Lru.mem_recent] at hg
    exact hu g hg
  have hlen : (Lru.recent u.used).length ≤ chunkCapacity := by
    rw [← List.toFinset_card_of_nodup (Lru.nodup_recent u.used)]
    exact (Finset.card_le_card hsub).trans hcard
  rw [Usage.kept, List.take_of_length_le hlen]
  exact Lru.mem_recent.mpr hused

variable (key) in
/-- **Nothing that can be decoded is decoded twice while at most four row groups are
asked for**, in whatever order files of them are read and described.  Content that
can be decoded is decoded once, when it is asked for, whatever becomes of the other
columns; and a row group that can be described is decoded for its content and, if it
is described, for its other columns, each once. -/
theorem few_groups_decode_once {A : Adapters} {pathColumn contentColumn : Option Str}
    {sources : List Str} {pol : DupPolicy}
    (h : buildIndex A R pathColumn contentColumn sources pol = .ok ix)
    (hshard : ix.shards[key.1]? = some shard) {groups : Finset (ℕ × ℕ)}
    (hcard : groups.card ≤ chunkCapacity) {qs : List Request}
    (hqs : ∀ q ∈ qs, ∀ g, q.group ix = some g → g ∈ groups) :
    (∀ content, decodeChunk R ix key = .ok content →
      contentsOf shard key (decodes (trace (cacheHandler R ix) (serveAll ix qs) Caches.empty))
        = onceDecodes shard key (some key ∈ qs.map (Request.group ix)) false) ∧
    ∀ d, decodeDetail R ix key = .ok d →
      decodesOf key (decodes (trace (cacheHandler R ix) (serveAll ix qs) Caches.empty))
        = onceDecodes shard key (some key ∈ qs.map (Request.group ix))
          (some key ∈ qs.map (Request.described ix)) := by
  have hinv : ∀ (u : Usage) (q : Request), (∀ g ∈ u.used, g ∈ groups) →
      (∀ g, q.group ix = some g → g ∈ groups) → ∀ g ∈ (u.serve R ix q).used, g ∈ groups :=
    fun u q hu hq g hg => (of_mem_used_serve hg).elim (hu g) (hq g)
  constructor
  · intro content hc
    obtain ⟨-, hdecodes⟩ := serveAll_follows (follows_empty : Follows R ix _ _) qs
    have hextra := contentCol_notMem_extraCols h shard (List.mem_of_getElem? hshard)
    rw [hdecodes]
    simpa [onceDecodes] using contentsOf_allDecodes hshard hextra hc
      (fun u => ∀ g ∈ u.used, g ∈ groups) (fun q => ∀ g, q.group ix = some g → g ∈ groups) hinv
      (fun u hu => mem_kept_of_few hcard hu) hqs (u := ⟨[], []⟩) (by simp) (by simp)
  · intro d hd
    exact decodesOf_session hshard hd (fun u => ∀ g ∈ u.used, g ∈ groups)
      (fun q => ∀ g, q.group ix = some g → g ∈ groups) hinv
      (fun u q hu _ hused => Or.inl (mem_kept_of_few hcard hu hused)) hqs (by simp)

end Once

/-- Files of one row group, described with one of another in between. -/
theorem infos_decode_once_sample :
    decodesOf (0, 1) (decodes (trace (cacheHandler (tableReader countsTable) countsIndex)
      (serveAll countsIndex (["/b".toList, "a".toList, "c".toList, "b".toList].map .info))
        Caches.empty))
      = [((0, 1), [2]), ((0, 1), [1, 3])] :=
  (infos_decode_once (0, 1) rfl rfl _).trans rfl

/-- Files that are read, described, and read again after another row group. -/
theorem few_groups_decode_once_sample :
    let ds := decodes (trace (cacheHandler (tableReader countsTable) countsIndex)
      (serveAll countsIndex [.read "c".toList, .info "b".toList, .read "a".toList,
        .read "/b/".toList]) Caches.empty)
    (∃ shard, contentsOf shard (0, 1) ds = [((0, 1), [2])]) ∧
      decodesOf (0, 1) ds = [((0, 1), [2]), ((0, 1), [1, 3])] := by
  have hbuild : buildIndex sampleAdapters (tableReader countsTable) none none [[]] .first
      = .ok countsIndex := rfl
  have hgroups : [Request.read "c".toList, .info "b".toList, .read "a".toList,
      .read "/b/".toList].map (Request.group countsIndex)
        = [some (0, 1), some (0, 1), some (0, 0), some (0, 1)] := rfl
  have hasked : ∀ q ∈ [Request.read "c".toList, .info "b".toList, .read "a".toList,
      .read "/b/".toList], ∀ g, q.group countsIndex = some g →
        g ∈ ({(0, 0), (0, 1)} : Finset (ℕ × ℕ)) := by
    intro q hq g hg
    have hmem := List.mem_map_of_mem (f := Request.group countsIndex) hq
    rw [hgroups, hg] at hmem
    simp only [List.mem_cons, Option.some.injEq, List.not_mem_nil, or_false] at hmem
    rw [Finset.mem_insert, Finset.mem_singleton]
    tauto
  obtain ⟨hcontent, hall⟩ := few_groups_decode_once (0, 1) hbuild rfl (by decide) hasked
  exact ⟨⟨_, (hcontent _ rfl).trans rfl⟩, (hall _ rfl).trans rfl⟩

end ParquetFileFs
