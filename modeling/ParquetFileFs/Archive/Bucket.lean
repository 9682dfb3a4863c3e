import ParquetFileFs.Archive.Shown
import ParquetFileFs.Client

/-!
# Shards in a bucket

A pattern of objects is expanded to the URLs of those that match, in order, and each of
them is opened through the client.  Where the libraries leave the keys as they are, the
archive shows what was written into these objects.

## Main definitions

* `nativeAdapter` — a client that has opened no stores, as a range reader.
* `HoldsBytes` — the stores of a bucket answer with the bytes of its objects.
* `matchingKeys` — the objects of a directory that match, in order.

## Main results

* `buildIndex_of_list` — a source opens as the URLs that it is expanded to.
* `holds_nativeAdapter` — the client answers for an object with its bytes.
* `bucket_shown` — **a pattern of objects opens exactly if there are any and the policy
  admits their paths, and then shows the files of all of them.**
-/

namespace ParquetFileFs

open Segments

/-! ### Sources and the URLs they are expanded to -/

section Expanded

variable {A : Adapters} {R : ParquetReader} {pathColumn contentColumn : Option Str}
  {pol : DupPolicy} {s : Str} {urls : List Str} {a : RangeReader}

theorem expandSources_of_list (hresolve : resolve A s = .ok a) (hlist : a.list s = .ok urls)
    (hne : urls ≠ []) : expandSources A [s] = .ok urls := by
  rw [expandSources_eq, List.foldlM_cons,
    expandSource_eq_ok_iff.mpr ⟨a, urls, hresolve, hlist, hne, rfl⟩]
  rfl

/-- URLs that are expanded to themselves. -/
theorem expandSources_self
    (h : ∀ url ∈ urls, ∃ a, resolve A url = .ok a ∧ a.list url = .ok [url]) :
    expandSources A urls = .ok urls := by
  induction urls with
  | nil => rfl
  | cons url urls ih =>
    rw [List.forall_mem_cons] at h
    obtain ⟨⟨a, hresolve, hlist⟩, hrest⟩ := h
    exact expandSources_append_iff.mpr ⟨[url], urls,
      expandSources_of_list hresolve hlist (List.cons_ne_nil _ _), ih hrest, rfl⟩

/-- **A source opens as the URLs that it is expanded to.** -/
theorem buildIndex_of_list (hresolve : resolve A s = .ok a) (hlist : a.list s = .ok urls)
    (hne : urls ≠ [])
    (h : ∀ url ∈ urls, ∃ a, resolve A url = .ok a ∧ a.list url = .ok [url]) :
    buildIndex A R pathColumn contentColumn [s] pol
      = buildIndex A R pathColumn contentColumn urls pol := by
  rw [buildIndex, buildIndex, expandSources_of_list hresolve hlist hne, expandSources_self h]

/-- A source that is expanded to nothing opens nothing. -/
theorem buildIndex_of_list_nil (hresolve : resolve A s = .ok a) (hlist : a.list s = .ok []) :
    ∀ ix, buildIndex A R pathColumn contentColumn [s] pol ≠ .ok ix := by
  intro ix h
  obtain ⟨urls, -, hexpand, -⟩ := buildIndex_eq_ok_iff.mp h
  rw [expandSources_eq, List.foldlM_cons, Mirrors.bind_eq_ok_iff] at hexpand
  obtain ⟨urls', hone, -⟩ := hexpand
  obtain ⟨a', expanded, hresolve', hlist', hne, -⟩ := expandSource_eq_ok_iff.mp hone
  cases hresolve.symm.trans hresolve'
  cases hlist.symm.trans hlist'
  exact hne rfl

end Expanded

/-! ### Objects -/

section Objects

variable (N : NativeLibs) (Q : ObjectReads)

/-- A client that has opened no stores, as a range reader; every client answers as it
does (`client_forgets`). -/
def nativeAdapter : RangeReader where
  size url := (NativeAdapter.size N Q [] url).1
  readRange url offset length := (NativeAdapter.readRange N Q [] url offset length).1
  list pattern := (NativeAdapter.list N [] pattern).1

/-- The stores of a bucket answer for an object with its bytes. -/
def HoldsBytes (data : Str → Str → Option Bytes) : Prop :=
  ∀ bucket store, N.s3 bucket = .ok store → ∀ key bs, data bucket key = some bs →
    Q.head store key = .ok bs.length ∧ ∀ offset length, offset + length ≤ bs.length →
      Q.getRange store key offset length = .ok ((bs.drop offset).take length)

end Objects

section Bucket

variable {N : NativeLibs} {Q : ObjectReads} {S : PathSets} {objects : Str → List Str}
  {data : Str → Str → Option Bytes} {bucket key : Str} {bs : Bytes}

/-- **The client answers for an object with its bytes**, if the libraries leave its key as
it is. -/
theorem holds_nativeAdapter (henc : EncodesPaths N S) (hholds : S3Holds N objects)
    (hdata : HoldsBytes N Q data) (hbucket : NamesBucket N bucket) (hsegs : [] ∉ key.splitOn '/')
    (hkey : S.Unaltered key) (hbytes : data bucket key = some bs) :
    (nativeAdapter N Q).Holds (objectUrl bucket key) bs := by
  obtain ⟨url₀, u₀, hparse₀, hs3₀, hhost₀⟩ := hbucket
  obtain ⟨u, hparse, hs3, hhost, hpath⟩ := henc.parse url₀ u₀ bucket key hparse₀ hs3₀ hhost₀
  obtain ⟨store, hstore, -⟩ := hholds bucket
  have hdir : dirOf N u = key := by
    rw [dirOf, henc.pathFrom, hpath]
    exact (PathSets.objectPath_urlPath_iff hsegs).mpr hkey
  have hfor : (storeFor N [] u).1 = .ok (store, key) := by
    rw [storeFor_nil, openStore_s3 hs3, hhost, hdir]
    simp only [hstore, Except.mapError, Except.map]
  obtain ⟨hhead, hrange⟩ := hdata bucket store hstore key bs hbytes
  constructor
  · show (NativeAdapter.size N Q [] (objectUrl bucket key)).1 = _
    unfold NativeAdapter.size
    rw [hparse]
    dsimp only
    rw [← Prod.mk.eta (p := storeFor N [] u), hfor]
    simp only [hhead, Except.mapError]
  · intro offset length hle
    show (NativeAdapter.readRange N Q [] (objectUrl bucket key) offset length).1 = _
    unfold NativeAdapter.readRange
    rw [hparse]
    dsimp only
    rw [← Prod.mk.eta (p := storeFor N [] u), hfor]
    simp only [hrange offset length hle, Except.mapError]

/-! ### Patterns -/

/-- The keys of a directory whose URLs match, in order. -/
def matchingKeys (matcher : Str → Bool) (bucket dir : Str) (keys : List Str) : List Str :=
  (keys.filter fun key => UnderDir dir key ∧ matcher (objectUrl bucket key) = true).insertionSort
    (· ≤ ·)

theorem objectUrl_le (bucket : Str) {key key' : Str} (h : key ≤ key') :
    objectUrl bucket key ≤ objectUrl bucket key' := by
  rcases h.lt_or_eq with hlt | rfl
  · exact le_of_lt (List.append_left_lt hlt)
  · exact le_rfl

/-- The URLs in order are those of the keys in order. -/
theorem matchingUrls_filter_eq (matcher : Str → Bool) (bucket dir : Str) (keys : List Str) :
    matchingUrls matcher bucket (keys.filter (UnderDir dir))
      = (matchingKeys matcher bucket dir keys).map (objectUrl bucket) := by
  have hfilter : ((keys.filter (UnderDir dir)).map (objectUrl bucket)).filter matcher
      = (keys.filter fun key => UnderDir dir key ∧ matcher (objectUrl bucket key) = true).map
          (objectUrl bucket) := by
    rw [List.filter_map, List.filter_filter]
    congr 1
    refine List.filter_congr fun key _ => ?_
    simp [Bool.and_comm]
  have hperm : (matchingUrls matcher bucket (keys.filter (UnderDir dir))).Perm
      ((matchingKeys matcher bucket dir keys).map (objectUrl bucket)) := by
    rw [matchingUrls, hfilter]
    exact (List.perm_insertionSort (· ≤ ·) _).trans
      ((List.perm_insertionSort (· ≤ ·) _).symm.map _)
  have hsorted : ((matchingKeys matcher bucket dir keys).map (objectUrl bucket)).Pairwise
      (· ≤ ·) :=
    (List.pairwise_insertionSort (· ≤ ·) _).map _ fun _ _ h => objectUrl_le bucket h
  exact hperm.eq_of_pairwise (fun _ _ _ _ hab hba => le_antisymm hab hba)
    (List.pairwise_insertionSort (· ≤ ·) _) hsorted

/-! ### Shards -/

theorem schemeOf_s3 (rest : Str) : schemeOf ("s3://".toList ++ rest) = "s3".toList := by
  simp [schemeOf, splitOnceStr]

theorem resolve_s3 {A : Adapters} (hreg : A.registry "s3".toList = none) (rest : Str) :
    resolve A ("s3://".toList ++ rest) = .ok A.native := by
  rw [resolve, schemeOf_s3, hreg]
  rfl

/-- The stores encode the characters of wildcards. -/
def EncodesGlobs (S : PathSets) : Prop := ∀ c ∈ globChars, S.key c = true

/-- The URL of an object is no pattern. -/
theorem containsAny_objectUrl (hglobs : EncodesGlobs S)
    (hbucket : containsAny bucket globChars = false) (hsegs : [] ∉ key.splitOn '/')
    (hkey : S.Unaltered key) :
    containsAny (objectUrl bucket key) globChars = false := by
  have hplain : containsAny key globChars = false := by
    rw [containsAny, List.any_eq_false]
    intro c hc
    rw [Bool.not_eq_true, List.contains_eq_mem, decide_eq_false_iff_not]
    intro hglob
    -- a character of a key is the separator, or one of a segment
    rw [← (nil_notMem_splitOn_iff.mp hsegs).1] at hc
    rcases mem_join hc with rfl | ⟨s, hs, hcs⟩
    · revert hglob
      decide
    · have hencoded := hglobs c hglob
      rw [((hkey s hs).2.2 c hcs).2.1] at hencoded
      cases hencoded
  rw [objectUrl, containsAny_append, containsAny_append, containsAny_append, hbucket, hplain]
  decide

/-- The shard in an object, with what was written there. -/
def objectShard (bucket : Str) (written : Str → PackCompression × List (List Row)) (key : Str) :
    WrittenShard :=
  ⟨objectUrl bucket key, objectUrl bucket key, (written key).1, (written key).2⟩

/-- The object is a shard that was written, under a key that the libraries leave as it is. -/
structure IsShard (S : PathSets) (R : ParquetReader) (W : ParquetWriter) (sch : Schema)
    (bytes : Option Bytes) (key : Str) (sh : WrittenShard) : Prop where
  unaltered : S.Unaltered key
  segments : [] ∉ key.splitOn '/'
  stored : bytes = some (W.fileBytes sch sh.compression sh.groups)
  readsBack : ReadsBack R W sch sh.compression sh.groups
  canonical : ∀ r ∈ sh.rows, Canonical '/' r.1 ∧ r.1 ≠ []
  nodup : sh.paths.Nodup

variable {A : Adapters} {R : ParquetReader} {W : ParquetWriter} {sch : Schema}
  {pathColumn contentColumn : Option Str} {pattern : Str} {matcher : Str → Bool} {u : Url}
  {written : Str → PackCompression × List (List Row)}

theorem list_objectUrl (hglobs : EncodesGlobs S) (hbucket : containsAny bucket globChars = false)
    (hsegs : [] ∉ key.splitOn '/') (hkey : S.Unaltered key) :
    (nativeAdapter N Q).list (objectUrl bucket key) = .ok [objectUrl bucket key] := by
  have hplain := containsAny_objectUrl hglobs hbucket hsegs hkey
  show (NativeAdapter.list N [] (objectUrl bucket key)).1 = _
  unfold NativeAdapter.list
  rw [globSplit, if_neg (Bool.eq_false_iff.mp hplain)]

theorem resolve_objectUrl (hreg : A.registry "s3".toList = none) (key : Str) :
    resolve A (objectUrl bucket key) = .ok A.native := by
  rw [objectUrl, List.append_assoc, List.append_assoc, resolve_s3 hreg]

/-- Such an object opens as it was written. -/
theorem IsShard.opens (hreg : A.registry "s3".toList = none)
    (hnative : A.native = nativeAdapter N Q) (henc : EncodesPaths N S) (hglobs : EncodesGlobs S)
    (hholds : S3Holds N objects) (hdata : HoldsBytes N Q data) (hnames : NamesBucket N bucket)
    (hbucket : containsAny bucket globChars = false)
    (h : IsShard S R W sch (data bucket key) key (objectShard bucket written key)) :
    (objectShard bucket written key).Opens A R W sch := by
  have hresolve : resolve A (objectUrl bucket key) = .ok (nativeAdapter N Q) := by
    rw [resolve_objectUrl hreg, hnative]
  exact ⟨⟨⟨_, hresolve, list_objectUrl hglobs hbucket h.segments h.unaltered⟩, _, hresolve,
    holds_nativeAdapter henc hholds hdata hnames h.segments h.unaltered h.stored⟩, h.readsBack,
    h.canonical, h.nodup⟩

/-- **A pattern of objects opens exactly if there are any and the policy admits their
paths, and then shows the files of all of them.**  They are the objects that match, of
the directory that is listed, in the order of their keys; they are shards that were
written, under keys that the libraries leave as they are. -/
theorem bucket_shown (hreg : A.registry "s3".toList = none) (hnative : A.native = nativeAdapter N Q)
    (henc : EncodesPaths N S) (hglobs : EncodesGlobs S) (hhosts : HostOfAuthority N)
    (hholds : S3Holds N objects) (hdata : HoldsBytes N Q data)
    (hpattern : "s3://".toList <+: pattern) (hglob : containsAny pattern globChars = true)
    (hcompile : N.compile pattern = some matcher) (hparse : N.parse (listedUrl N pattern) = .ok u)
    (hs3 : u.scheme = "s3".toList) (hhost : u.host = some bucket)
    (hbucket : containsAny bucket globChars = false)
    (hselects : Selects sch pathColumn contentColumn)
    (hshards : ∀ key ∈ matchingKeys matcher bucket (dirOf N u) (objects bucket),
      IsShard S R W sch (data bucket key) key (objectShard bucket written key)) (pol : DupPolicy) :
    let shards := (matchingKeys matcher bucket (dirOf N u) (objects bucket)).map
      (objectShard bucket written)
    ((∃ ix, buildIndex A R pathColumn contentColumn [pattern] pol = .ok ix) ↔
      shards ≠ [] ∧ (pol = .error → (shards.flatMap WrittenShard.paths).Nodup)) ∧
    ∀ ix, buildIndex A R pathColumn contentColumn [pattern] pol = .ok ix →
      (∀ k, k ∈ ix.files.keys ↔ k ∈ shards.flatMap WrittenShard.paths) ∧
      ∀ q, freshCall R ix q = answer (contentOf pol (shards.map WrittenShard.rows)) q := by
  intro shards
  have hnames : NamesBucket N bucket := ⟨_, u, hparse, hs3, hhost⟩
  have hopens : ∀ sh ∈ shards, sh.Opens A R W sch := by
    intro sh hsh
    obtain ⟨key, hkey, rfl⟩ := List.mem_map.mp hsh
    exact (hshards key hkey).opens hreg hnative henc hglobs hholds hdata hnames hbucket
  have hresolve : resolve A pattern = .ok A.native := by
    obtain ⟨rest, rfl⟩ := hpattern
    exact resolve_s3 hreg rest
  have hsources : shards.map WrittenShard.source
      = (matchingKeys matcher bucket (dirOf N u) (objects bucket)).map (objectUrl bucket) := by
    rw [List.map_map]
    rfl
  have hlist : A.native.list pattern = .ok (shards.map WrittenShard.source) := by
    rw [hnative, hsources, ← matchingUrls_filter_eq]
    exact list_s3 hhosts hholds .init hglob hcompile hparse hs3 hhost
  by_cases hne : shards = []
  · rw [hne] at hlist
    have hfails : ∀ ix, buildIndex A R pathColumn contentColumn [pattern] pol ≠ .ok ix :=
      buildIndex_of_list_nil hresolve hlist
    exact ⟨⟨fun ⟨ix, h⟩ => absurd h (hfails ix), fun h => absurd hne h.1⟩,
      fun ix h => absurd h (hfails ix)⟩
  · have hself : ∀ url ∈ shards.map WrittenShard.source,
        ∃ a, resolve A url = .ok a ∧ a.list url = .ok [url] := by
      intro url hurl
      obtain ⟨sh, hsh, rfl⟩ := List.mem_map.mp hurl
      obtain ⟨key, -, rfl⟩ := List.mem_map.mp hsh
      exact (hopens _ hsh).serves.1
    rw [buildIndex_of_list hresolve hlist (by simpa using hne) hself]
    refine ⟨⟨fun ⟨ix, h⟩ => ⟨hne, (shows_shards hselects hopens h).1⟩, fun h =>
      exists_buildIndex_shards hselects hopens h.2⟩, fun ix h => ?_⟩
    obtain ⟨-, hshows⟩ := shows_shards hselects hopens h
    refine ⟨fun k => ?_, fun q => ?_⟩
    · rw [hshows.files, contentOf_rows_ne_none_iff]
    · rw [freshCall_eq, hshows.directCall]

end Bucket

/-! ### Two shards in a bucket -/

/-- The objects of the only bucket, not in order. -/
def bucketObjects (bucket : Str) : List Str :=
  if bucket = "b".toList then ["d/2.p".toList, "d/1.p".toList] else []

/-- Both have one file, with the same path. -/
def bucketWritten (key : Str) : PackCompression × List (List Row) :=
  (.zstd, [[("a".toList, if key = "d/1.p".toList then [1] else [2])]])

def bucketBytes (bucket key : Str) : Option Bytes :=
  if key ∈ bucketObjects bucket then
    some (plainWriter.fileBytes packSchema .zstd (bucketWritten key).2)
  else none

def bucketNative : NativeLibs :=
  { webNative with
    s3 := fun bucket => Except.ok ⟨fun dir => .ok ((bucketObjects bucket).filter (UnderDir dir))⟩ }

def bucketReads : ObjectReads where
  head _ path :=
    match bucketBytes "b".toList path with
    | some bs => .ok bs.length
    | none => .error "not found".toList
  getRange _ path offset length :=
    match bucketBytes "b".toList path with
    | some bs => .ok ((bs.drop offset).take length)
    | none => .error "not found".toList

def bucketAdapters : Adapters :=
  ⟨fun _ => none, sampleRangeReader, nativeAdapter bucketNative bucketReads⟩

theorem s3Holds_bucketNative : S3Holds bucketNative bucketObjects :=
  fun _ => ⟨_, rfl, fun _ => ⟨_, rfl, .refl _⟩⟩

theorem holdsBytes_bucketNative : HoldsBytes bucketNative bucketReads bucketBytes := by
  intro bucket store _ key bs hbytes
  have hb : bucketBytes "b".toList key = some bs := by
    by_cases hbucket : bucket = "b".toList
    · rw [← hbucket, hbytes]
    · rw [bucketBytes, bucketObjects, if_neg hbucket, if_neg List.not_mem_nil] at hbytes
      cases hbytes
  refine ⟨?_, fun offset length _ => ?_⟩
  · simp only [bucketReads, hb]
  · simp only [bucketReads, hb]

theorem isShard_bucketObjects : ∀ key ∈ bucketObjects "b".toList,
    IsShard webSets plainReader plainWriter packSchema (bucketBytes "b".toList key) key
      (objectShard "b".toList bucketWritten key) := by
  intro key hkey
  have hall : ∀ key ∈ bucketObjects "b".toList, [] ∉ key.splitOn '/' ∧
      (∀ r ∈ (objectShard "b".toList bucketWritten key).rows, Canonical '/' r.1 ∧ r.1 ≠ []) ∧
      (objectShard "b".toList bucketWritten key).paths.Nodup := by
    decide
  have hchars : ∀ g ∈ (bucketWritten key).2, ∀ r ∈ g, ∀ ch ∈ r.1, ch.toNat < 256 := by
    simp [bucketWritten]
  obtain ⟨hsegs, hcanon, hnodup⟩ := hall key hkey
  refine ⟨?_, hsegs, if_pos hkey, readsBack_plain _ hchars, hcanon, hnodup⟩
  simp only [bucketObjects, if_pos, List.mem_cons, List.not_mem_nil, or_false] at hkey
  rcases hkey with rfl | rfl
  · have hparts : segs '/' "d/2.p".toList = ["d".toList, "2.p".toList] := rfl
    unfold PathSets.Unaltered
    rw [hparts]
    simp [webSets]
  · have hparts : segs '/' "d/1.p".toList = ["d".toList, "1.p".toList] := rfl
    unfold PathSets.Unaltered
    rw [hparts]
    simp [webSets]

/-- What is parsed of the pattern. -/
def bucketUrl : Url :=
  ⟨"s3://b/d/".toList, "s3".toList, "b".toList, some "b".toList, "/d/".toList⟩

/-- The last object in order counts, in whichever order they are listed. -/
theorem bucket_shown_sample :
    ∃ ix, buildIndex bucketAdapters plainReader none none ["s3://b/d/*.p".toList] .last = .ok ix ∧
      freshCall plainReader ix (.read "/a".toList) = .ok (.bytes [2]) := by
  have henc : EncodesPaths bucketNative webSets :=
    ⟨encodesPaths_webNative.parse, encodesPaths_webNative.pathFrom⟩
  have hglobs : EncodesGlobs webSets := by simp [EncodesGlobs, globChars, webSets]
  have hpattern : "s3://".toList <+: "s3://b/d/*.p".toList := by decide
  have hparse : bucketNative.parse (listedUrl bucketNative "s3://b/d/*.p".toList)
      = .ok bucketUrl := rfl
  have hkeys : matchingKeys (globMatch 100 "s3://b/d/*.p".toList) "b".toList
      (dirOf bucketNative bucketUrl) (bucketObjects "b".toList)
      = ["d/1.p".toList, "d/2.p".toList] := by decide
  have hshards : ∀ key ∈ matchingKeys (globMatch 100 "s3://b/d/*.p".toList) "b".toList
      (dirOf bucketNative bucketUrl) (bucketObjects "b".toList),
      IsShard webSets plainReader plainWriter packSchema (bucketBytes "b".toList key) key
        (objectShard "b".toList bucketWritten key) := by
    rw [hkeys]
    exact fun key hkey => isShard_bucketObjects key (by revert hkey key; decide)
  obtain ⟨hopens, hanswers⟩ := bucket_shown (A := bucketAdapters) rfl rfl henc hglobs
    hostOfAuthority_webNative s3Holds_bucketNative holdsBytes_bucketNative hpattern rfl rfl hparse
    rfl rfl rfl selects_packSchema hshards .last
  rw [hkeys] at hopens hanswers
  obtain ⟨ix, hix⟩ := hopens.mpr ⟨List.cons_ne_nil _ _, fun h => by cases h⟩
  obtain ⟨-, hcalls⟩ := hanswers ix hix
  refine ⟨ix, hix, ?_⟩
  rw [hcalls]
  rfl

end ParquetFileFs
