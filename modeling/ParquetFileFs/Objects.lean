import ParquetFileFs.Native
import ParquetFileFs.Lib.Percent

/-!
# The object that a listed URL names

Listing writes the key of an object into a URL as it is.  Reading the object takes
the URL apart with a library that percent-encodes the path and takes dot segments
out, and hands the path to another that percent-encodes it again, percent signs
included.  The two lead back to the key only where neither finds anything to do.

## Main definitions

* `PathSets` — the characters that the libraries percent-encode.
* `EncodesPaths` — what the libraries make of the URL of an object and of its path.
* `NativeAdapter.size`, `NativeAdapter.readRange` — the requests for one object.
* `PathSets.Unaltered` — the keys that neither library changes.

## Main results

* `objectPath_urlPath_iff` — the libraries lead back to a key exactly if they do
  not change it.
* `listed_name_iff` — **a listed URL names its object exactly if neither library
  changes the key.**
-/

namespace ParquetFileFs

open Segments Percent

/-! ### Libraries -/

/-- The characters that are percent-encoded in the path of a URL and in the path
of a store.  Controls and spaces are, in a URL; percent signs are left there, and
are encoded in a store. -/
structure PathSets where
  url : Char → Bool
  key : Char → Bool
  url_control : ∀ c, c ≤ ' ' → url c = true
  url_alphanum : ∀ c, c.isAlphanum = true → url c = false
  url_percent : url '%' = false
  key_percent : key '%' = true

/-- What is read of a key at the end of a URL: controls and spaces at the end are
dropped, line breaks and tabs left out, and a query or fragment is no part of the
path. -/
def urlText (key : Str) : Str :=
  ((key.rdropWhile (· ≤ ' ')).filter fun c => ¬"\t\n\r".toList.contains c).takeWhile
    fun c => c ≠ '?' ∧ c ≠ '#'

namespace PathSets

variable (S : PathSets)

/-- The path of the URL of an object. -/
def urlPath (key : Str) : Str :=
  '/' :: join '/' (removeDots [] (((urlText key).splitOn '/').map (encode S.url)))

/-- A part of the path of a store. -/
def encodePart (s : Str) : Str :=
  if s = ".".toList then "%2E".toList
  else if s = "..".toList then "%2E%2E".toList
  else encode S.key s

/-- The path of a store. -/
def objectPath (p : Str) : Str := join '/' ((segs '/' p).map S.encodePart)

/-- The keys that neither library changes. -/
def Unaltered (key : Str) : Prop :=
  ∀ s ∈ segs '/' key, s ≠ ".".toList ∧ s ≠ "..".toList ∧
    ∀ c ∈ s, S.url c = false ∧ S.key c = false ∧ c ≠ '?' ∧ c ≠ '#'

end PathSets

/-- The URL of an object, in a bucket that some URL names, has the path that is
made of its key; and the paths of stores are encoded. -/
structure EncodesPaths (N : NativeLibs) (S : PathSets) : Prop where
  parse : ∀ url u bucket key, N.parse url = .ok u → u.scheme = "s3".toList →
    u.host = some bucket → ∃ u', N.parse (objectUrl bucket key) = .ok u' ∧
      u'.scheme = "s3".toList ∧ u'.host = some bucket ∧ u'.path = S.urlPath key
  pathFrom : ∀ p, N.pathFrom p = S.objectPath p

/-- Some URL names the bucket. -/
def NamesBucket (N : NativeLibs) (bucket : Str) : Prop :=
  ∃ url u, N.parse url = .ok u ∧ u.scheme = "s3".toList ∧ u.host = some bucket

/-! ### Requests for one object -/

/-- The requests that a store answers for one object, or why it cannot. -/
structure ObjectReads where
  head : ObjectStore → Str → Except Str ℕ
  getRange : ObjectStore → Str → ℕ → ℕ → Except Str Bytes

def NativeAdapter.size (N : NativeLibs) (Q : ObjectReads) (stores : Stores) (url : Str) :
    Except FsError ℕ × Stores :=
  match N.parse url with
  | .error e => (.error (.adapter url e), stores)
  | .ok u =>
      match storeFor N stores u with
      | (.error e, stores') => (.error e, stores')
      | (.ok (store, path), stores') => ((Q.head store path).mapError (.adapter url), stores')

def NativeAdapter.readRange (N : NativeLibs) (Q : ObjectReads) (stores : Stores) (url : Str)
    (offset length : ℕ) : Except FsError Bytes × Stores :=
  match N.parse url with
  | .error e => (.error (.adapter url e), stores)
  | .ok u =>
      match storeFor N stores u with
      | (.error e, stores') => (.error e, stores')
      | (.ok (store, path), stores') =>
          ((Q.getRange store path offset length).mapError (.adapter url), stores')

/-! ### Back to the key -/

namespace PathSets

variable {S : PathSets} {key : Str}

theorem slash_notMem_encode {set : Char → Bool} {s : Str} (h : '/' ∉ s) : '/' ∉ encode set s := by
  intro hmem
  rcases mem_encode hmem with ⟨hs, -⟩ | heq | halnum
  · exact h hs
  · cases heq
  · cases halnum

theorem mem_encodePart {s : Str} {c : Char} (h : c ∈ S.encodePart s) :
    c ∈ s ∨ c = '%' ∨ c.isAlphanum = true := by
  unfold encodePart at h
  split_ifs at h
  · have hall : ∀ c ∈ "%2E".toList, c = '%' ∨ c.isAlphanum = true := by simp
    exact Or.inr (hall c h)
  · have hall : ∀ c ∈ "%2E%2E".toList, c = '%' ∨ c.isAlphanum = true := by simp
    exact Or.inr (hall c h)
  · exact (mem_encode h).imp_left And.left

theorem encodePart_ne_nil {s : Str} (h : s ≠ []) : S.encodePart s ≠ [] := by
  unfold encodePart
  split_ifs
  · decide
  · decide
  · exact encode_ne_nil h

theorem slash_notMem_encodePart {s : Str} (h : '/' ∉ s) : '/' ∉ S.encodePart s := by
  intro hmem
  rcases mem_encodePart hmem with hs | heq | halnum
  · exact h hs
  · cases heq
  · cases halnum

/-- A part is left as it is exactly if it is not made of dots and nothing in it is
encoded. -/
theorem encodePart_eq_self_iff {s : Str} :
    S.encodePart s = s ↔ s ≠ ".".toList ∧ s ≠ "..".toList ∧ ∀ c ∈ s, S.key c = false := by
  unfold encodePart
  split_ifs with hone htwo
  · subst hone
    simp
  · subst htwo
    simp
  · rw [encode_eq_self_iff]
    exact ⟨fun h => ⟨hone, htwo, h⟩, fun h => h.2.2⟩

/-- The segments of the path of a URL. -/
theorem segs_urlPath (S : PathSets) (key : Str) :
    segs '/' ((S.urlPath key).dropWhile (· = '/'))
      = (removeDots [] (((urlText key).splitOn '/').map (encode S.url))).filter (· ≠ []) := by
  have hsep : ∀ s ∈ removeDots [] (((urlText key).splitOn '/').map (encode S.url)), '/' ∉ s := by
    intro s hs
    rcases mem_removeDots hs with hs | hs | rfl
    · cases hs
    · obtain ⟨t, ht, rfl⟩ := List.mem_map.mp hs
      exact slash_notMem_encode (sep_notMem_of_mem_splitOn ht)
    · exact List.not_mem_nil
  have hcons : segs '/' ([] ++ '/' :: join '/' (removeDots []
        (((urlText key).splitOn '/').map (encode S.url))))
      = segs '/' [] ++ segs '/' (join '/' (removeDots []
        (((urlText key).splitOn '/').map (encode S.url)))) := segs_append_sep _ _
  rw [segs_nil, List.nil_append, List.nil_append, segs_join_eq_filter hsep] at hcons
  rw [segs_dropWhile, urlPath, hcons]

theorem urlText_eq_self (h : ∀ c ∈ key, ¬c ≤ ' ' ∧ c ≠ '?' ∧ c ≠ '#') : urlText key = key := by
  have htrim : key.rdropWhile (· ≤ ' ') = key := by
    refine List.rdropWhile_eq_self_iff.mpr fun hne hlast => ?_
    exact (h _ (List.getLast_mem hne)).1 (by simpa using hlast)
  have hfilter : key.filter (fun c => ¬"\t\n\r".toList.contains c) = key := by
    refine List.filter_eq_self.mpr fun c hc => ?_
    have hall : ∀ d ∈ "\t\n\r".toList, d ≤ ' ' := by simp
    simp only [decide_eq_true_eq, List.contains_iff_mem]
    exact fun hmem => (h c hc).1 (hall c hmem)
  rw [urlText, htrim, hfilter]
  refine List.takeWhile_eq_self_iff.mpr fun c hc => ?_
  simpa using (h c hc).2

/-- Where the URL library encodes nothing and cuts nothing off, the segments of the
path are those of the key, but for the dot segments. -/
theorem segs_urlPath_of_plain (hkey : [] ∉ key.splitOn '/')
    (h : ∀ s ∈ segs '/' key, ∀ c ∈ s, S.url c = false ∧ c ≠ '?' ∧ c ≠ '#') :
    segs '/' ((S.urlPath key).dropWhile (· = '/'))
      = (removeDots [] (segs '/' key)).filter (· ≠ []) := by
  have hsegs : segs '/' key = key.splitOn '/' := by
    rw [segs, List.filter_eq_self]
    intro s hs
    simpa using fun hnil : s = [] => hkey (hnil ▸ hs)
  have hcanon := (nil_notMem_splitOn_iff.mp hkey).1
  have htext : urlText key = key := by
    refine urlText_eq_self fun c hc => ?_
    rw [← hcanon] at hc
    rcases mem_join hc with rfl | ⟨s, hs, hcs⟩
    · decide
    · obtain ⟨hurl, hquery, hfragment⟩ := h s hs c hcs
      refine ⟨fun hle => ?_, hquery, hfragment⟩
      rw [S.url_control c hle] at hurl
      cases hurl
  have hencode : (segs '/' key).map (encode S.url) = segs '/' key := by
    refine (List.map_congr_left fun s hs => ?_).trans (List.map_id _)
    exact encode_eq_self_iff.mpr fun c hc => (h s hs c hc).1
  rw [segs_urlPath, htext, ← hsegs, hencode]

theorem segs_objectPath (S : PathSets) (p : Str) :
    segs '/' (S.objectPath p) = (segs '/' p).map S.encodePart := by
  refine segs_join fun s hs => ?_
  obtain ⟨t, ht, rfl⟩ := List.mem_map.mp hs
  obtain ⟨hne, hslash⟩ := of_mem_segs ht
  exact ⟨encodePart_ne_nil hne, slash_notMem_encodePart hslash⟩

/-- What is read of a key is a part of it, up to a query or fragment. -/
theorem of_mem_urlText {c : Char} (h : c ∈ urlText key) : c ≠ '?' ∧ c ≠ '#' := by
  simpa using List.mem_takeWhile_imp h

/-- The path of a store has no character that the URL library encodes, and none
that ends the path of a URL. -/
theorem plain_of_mem_encodePart {t : Str}
    (ht : t ∈ segs '/' ((S.urlPath key).dropWhile (· = '/'))) {c : Char}
    (hc : c ∈ S.encodePart t) : S.url c = false ∧ c ≠ '?' ∧ c ≠ '#' := by
  have hother : c = '%' ∨ c.isAlphanum = true → S.url c = false ∧ c ≠ '?' ∧ c ≠ '#' := by
    intro h
    rcases h with rfl | halnum
    · exact ⟨S.url_percent, by decide, by decide⟩
    · refine ⟨S.url_alphanum c halnum, ?_, ?_⟩
      · rintro rfl
        cases halnum
      · rintro rfl
        cases halnum
  rw [segs_urlPath, List.mem_filter] at ht
  rcases mem_encodePart hc with hc | hc
  · rcases mem_removeDots ht.1 with hnil | hmem | rfl
    · cases hnil
    · obtain ⟨u, hu, rfl⟩ := List.mem_map.mp hmem
      rcases mem_encode hc with ⟨hcu, hurl⟩ | hc
      · have hjoin : _ ∈ join '/' ((urlText key).splitOn '/') := subset_join hu hcu
        rw [join, List.intercalate_splitOn] at hjoin
        exact ⟨hurl, of_mem_urlText hjoin⟩
      · exact hother hc
    · cases hc
  · exact hother hc

theorem filter_segs_ne_nil (key : Str) : (segs '/' key).filter (· ≠ []) = segs '/' key := by
  simpa using fun s hs => (of_mem_segs hs).1

/-- Where the libraries lead back to a key, nothing of it is encoded in a URL. -/
theorem plain_of_objectPath_urlPath
    (heq : S.objectPath ((S.urlPath key).dropWhile (· = '/')) = key) :
    ∀ s ∈ segs '/' key, ∀ c ∈ s, S.url c = false ∧ c ≠ '?' ∧ c ≠ '#' := by
  intro s hs c hc
  rw [← heq, segs_objectPath] at hs
  obtain ⟨t, ht, rfl⟩ := List.mem_map.mp hs
  exact plain_of_mem_encodePart ht hc

theorem unaltered_of_objectPath_urlPath (hkey : [] ∉ key.splitOn '/')
    (heq : S.objectPath ((S.urlPath key).dropWhile (· = '/')) = key) : S.Unaltered key := by
  have hplain := plain_of_objectPath_urlPath heq
  -- the segments of the key are the encoded parts of the path
  have hparts := congrArg (segs '/') heq
  rw [segs_objectPath, segs_urlPath_of_plain hkey hplain] at hparts
  -- as many parts as segments, so that no segment was taken out
  have hcount := length_removeDots [] (segs '/' key)
  rw [← List.length_map S.encodePart, hparts] at hcount
  have hdots : ∀ s ∈ segs '/' key, isDots s = false := by
    have hall : ((segs '/' key).filter fun s => isDots s = false).length
        = (segs '/' key).length :=
      le_antisymm (List.length_filter_le _ _) (by simpa using hcount)
    simpa using List.length_filter_eq_length_iff.mp hall
  rw [removeDots_of_not hdots, List.nil_append, filter_segs_ne_nil] at hparts
  intro s hs
  have hself : S.encodePart s = s :=
    List.map_eq_map_iff.mp (hparts.trans (List.map_id _).symm) s hs
  obtain ⟨hone, htwo, hkeys⟩ := encodePart_eq_self_iff.mp hself
  exact ⟨hone, htwo, fun c hc => ⟨(hplain s hs c hc).1, hkeys c hc, (hplain s hs c hc).2⟩⟩

/-- No segment of an unaltered key stands for a directory. -/
theorem Unaltered.isDots_eq_false (h : S.Unaltered key) {s : Str} (hs : s ∈ segs '/' key) :
    isDots s = false := by
  obtain ⟨hone, htwo, hchars⟩ := h s hs
  have hpercent : '%' ∉ s := by
    intro hmem
    have hkey := (hchars '%' hmem).2.1
    rw [S.key_percent] at hkey
    cases hkey
  rw [Bool.eq_false_iff, ne_eq, isDots_iff hpercent]
  exact not_or.mpr ⟨hone, htwo⟩

theorem Unaltered.map_encodePart (h : S.Unaltered key) :
    (segs '/' key).map S.encodePart = segs '/' key := by
  refine (List.map_congr_left fun s hs => ?_).trans (List.map_id _)
  obtain ⟨hone, htwo, hchars⟩ := h s hs
  exact encodePart_eq_self_iff.mpr ⟨hone, htwo, fun c hc => (hchars c hc).2.1⟩

/-- **The libraries lead back to a key exactly if they do not change it.** -/
theorem objectPath_urlPath_iff (hkey : [] ∉ key.splitOn '/') :
    S.objectPath ((S.urlPath key).dropWhile (· = '/')) = key ↔ S.Unaltered key := by
  refine ⟨unaltered_of_objectPath_urlPath hkey, fun h => ?_⟩
  have hplain : ∀ s ∈ segs '/' key, ∀ c ∈ s, S.url c = false ∧ c ≠ '?' ∧ c ≠ '#' :=
    fun s hs c hc => ⟨((h s hs).2.2 c hc).1, ((h s hs).2.2 c hc).2.2⟩
  have hdots : ∀ s ∈ segs '/' key, isDots s = false := fun s hs => h.isDots_eq_false hs
  rw [objectPath, segs_urlPath_of_plain hkey hplain, removeDots_of_not hdots, List.nil_append,
    filter_segs_ne_nil, h.map_encodePart]
  exact (nil_notMem_splitOn_iff.mp hkey).1

end PathSets

/-! ### Listed URLs -/

section Listed

variable {N : NativeLibs} {S : PathSets} {Q : ObjectReads} {objects : Str → List Str}
  {stores stores' : Stores} {pattern : Str}

/-- A pattern with wildcards that is expanded names a bucket, and is expanded to
URLs of its objects. -/
theorem bucket_of_list (hhosts : HostOfAuthority N) (hholds : S3Holds N objects)
    (h : Reached N stores) (hglob : containsAny pattern globChars = true)
    {matcher : Str → Bool} (hcompile : N.compile pattern = some matcher) {urls : List Str}
    (hlist : (NativeAdapter.list N stores pattern).1 = .ok urls) :
    ∃ u bucket, N.parse (listedUrl N pattern) = .ok u ∧ u.scheme = "s3".toList ∧
      u.host = some bucket ∧
      ∀ url ∈ urls, ∃ key ∈ objects bucket, url = objectUrl bucket key := by
  have hsplit : globSplit N.compile pattern = (listedUrl N pattern, some matcher) := by
    rw [listedUrl, globSplit, if_pos hglob, hcompile]
  have hrun := hlist
  unfold NativeAdapter.list at hrun
  rw [hsplit] at hrun
  dsimp only at hrun
  cases hparse : N.parse (listedUrl N pattern) with
  | error e => rw [hparse] at hrun; cases hrun
  | ok u =>
    rw [hparse] at hrun
    dsimp only at hrun
    by_cases hs3 : u.scheme = "s3".toList
    · rw [if_neg (not_not.mpr hs3)] at hrun
      rcases storeFor_s3 hhosts hholds h hparse hs3 with ⟨-, e, he⟩ | ⟨bucket, store, hhost, -, -⟩
      · rw [← Prod.mk.eta (p := storeFor N stores u), he] at hrun
        cases hrun
      · refine ⟨u, bucket, rfl, hs3, hhost, fun url hurl => ?_⟩
        rw [list_s3 hhosts hholds h hglob hcompile hparse hs3 hhost, Except.ok.injEq] at hlist
        rw [← hlist, matchingUrls, (List.perm_insertionSort (· ≤ ·) _).mem_iff,
          List.mem_filter] at hurl
        obtain ⟨key, hkey, rfl⟩ := List.mem_map.mp hurl.1
        exact ⟨key, List.mem_of_mem_filter hkey, rfl⟩
    · rw [if_pos hs3] at hrun
      cases hrun

/-- What the URL of an object is taken for: the store is asked for the path that
the libraries make of the key. -/
theorem storeFor_objectUrl (henc : EncodesPaths N S) (hhosts : HostOfAuthority N)
    (hholds : S3Holds N objects) (h : Reached N stores) {bucket : Str}
    (hbucket : NamesBucket N bucket) (key : Str) :
    ∃ u store, N.parse (objectUrl bucket key) = .ok u ∧
      (storeFor N stores u).1
        = .ok (store, S.objectPath ((S.urlPath key).dropWhile (· = '/'))) := by
  obtain ⟨url, u₀, hparse₀, hs3₀, hhost₀⟩ := hbucket
  obtain ⟨u, hparse, hs3, hhost, hpath⟩ := henc.parse url u₀ bucket key hparse₀ hs3₀ hhost₀
  rcases storeFor_s3 hhosts hholds h hparse hs3 with ⟨hnone, -⟩ | ⟨_, store, -, hstore, -⟩
  · cases hnone.symm.trans hhost
  · rw [dirOf, henc.pathFrom, hpath] at hstore
    exact ⟨u, store, hparse, hstore⟩

/-- **A listed URL names its object exactly if neither library changes the key.**
A pattern is listed as URLs of objects of its bucket, and a URL without wildcards
as itself.  Whatever stores were opened since, asking for the size or a range of a
listed URL asks a store for one path, and for a key without empty segments this
path is the key again if and only if neither library changes it. -/
theorem listed_name_iff (henc : EncodesPaths N S) (hhosts : HostOfAuthority N)
    (hholds : S3Holds N objects) (h : Reached N stores) {urls : List Str}
    (hlist : (NativeAdapter.list N stores pattern).1 = .ok urls) (h' : Reached N stores') :
    (containsAny pattern globChars = false → urls = [pattern]) ∧
    (containsAny pattern globChars = true → (N.compile pattern).isSome = true →
      ∃ bucket, NamesBucket N bucket ∧
        ∀ url ∈ urls, ∃ key ∈ objects bucket, url = objectUrl bucket key) ∧
    ∀ bucket key, objectUrl bucket key ∈ urls → NamesBucket N bucket → [] ∉ key.splitOn '/' →
      ∃ u store path, N.parse (objectUrl bucket key) = .ok u ∧
        (storeFor N stores' u).1 = .ok (store, path) ∧
        (NativeAdapter.size N Q stores' (objectUrl bucket key)).1
          = (Q.head store path).mapError (.adapter (objectUrl bucket key)) ∧
        (∀ offset length,
          (NativeAdapter.readRange N Q stores' (objectUrl bucket key) offset length).1
            = (Q.getRange store path offset length).mapError (.adapter (objectUrl bucket key))) ∧
        (path = key ↔ S.Unaltered key) := by
  refine ⟨fun hplain => ?_, ?_, ?_⟩
  · have hsplit : globSplit N.compile pattern = (pattern, none) := by
      rw [globSplit, if_neg (Bool.eq_false_iff.mp hplain)]
    unfold NativeAdapter.list at hlist
    rw [hsplit] at hlist
    exact (Except.ok.inj hlist).symm
  · intro hglob hcompiled
    obtain ⟨matcher, hcompile⟩ := Option.isSome_iff_exists.mp hcompiled
    obtain ⟨u, bucket, hparse, hs3, hhost, hurls⟩ :=
      bucket_of_list hhosts hholds h hglob hcompile hlist
    exact ⟨bucket, ⟨_, u, hparse, hs3, hhost⟩, hurls⟩
  · intro bucket key _ hbucket hsegs
    obtain ⟨u, store, hparse, hstore⟩ := storeFor_objectUrl henc hhosts hholds h' hbucket key
    refine ⟨u, store, _, hparse, hstore, ?_, fun offset length => ?_,
      PathSets.objectPath_urlPath_iff hsegs⟩
    · unfold NativeAdapter.size
      rw [hparse]
      dsimp only
      rw [← Prod.mk.eta (p := storeFor N stores' u), hstore]
    · unfold NativeAdapter.readRange
      rw [hparse]
      dsimp only
      rw [← Prod.mk.eta (p := storeFor N stores' u), hstore]

end Listed

/-! ### A bucket -/

theorem isAlphanum_range {c : Char} (h : c.isAlphanum = true) : ' ' < c ∧ c < '\x7f' := by
  change ((decide ('A'.val ≤ c.val ∧ c.val ≤ 'Z'.val) || (decide ('a'.val ≤ c.val) &&
    decide (c.val ≤ 'z'.val))) || (decide ('0'.val ≤ c.val) && decide (c.val ≤ '9'.val))) = true
    at h
  simp only [Bool.or_eq_true, Bool.and_eq_true, decide_eq_true_eq] at h
  simp only [Char.lt_def, UInt32.lt_iff_toNat_lt, UInt32.le_iff_toNat_le, Char.reduceVal,
    UInt32.reduceToNat] at h ⊢
  omega

/-- What the two libraries encode: controls and what is not ASCII, and the
characters that they reserve. -/
def webSets : PathSets where
  url c := c ≤ ' ' || '\x7f' ≤ c || "\"<>`#?\x7b\x7d".toList.contains c
  key c := c < ' ' || '\x7f' ≤ c || "\\\x7b^\x7d%`]\">[~<#|*?".toList.contains c
  url_control c hc := by simp [hc]
  url_alphanum c hc := by
    obtain ⟨hlow, hhigh⟩ := isAlphanum_range hc
    have hall : ∀ d ∈ "\"<>`#?\x7b\x7d".toList, d.isAlphanum = false := by simp
    have hother : c ∉ "\"<>`#?\x7b\x7d".toList := fun hmem => by simp [hall c hmem] at hc
    simp only [Bool.or_eq_false_iff, decide_eq_false_iff_not, not_le]
    exact ⟨⟨hlow, hhigh⟩, Bool.eq_false_iff.mpr fun hmem => hother (List.contains_iff_mem.mp hmem)⟩
  url_percent := by decide
  key_percent := by decide

/-- Parsing of URLs of objects. -/
def webParse (url : Str) : Except Str Url :=
  if "s3://".toList <+: url then
    let host := (url.drop 5).takeWhile (· ≠ '/')
    .ok ⟨url, "s3".toList, host, if host = [] then none else some host,
      webSets.urlPath ((url.drop 5).dropWhile (· ≠ '/')).tail⟩
  else .error "relative URL without a base".toList

/-- The objects of the only bucket. -/
def webObjects (bucket : Str) : List Str :=
  if bucket = "b".toList then ["d/50%.p".toList, "d/a b.p".toList, "d/x.p".toList] else []

def webNative : NativeLibs where
  compile := globCompile
  parse := webParse
  pathFrom := webSets.objectPath
  s3 bucket := .ok ⟨fun dir => .ok ((webObjects bucket).filter (UnderDir dir))⟩
  http _ _ := .error "unreachable".toList

/-- One object can be read. -/
def webReads : ObjectReads where
  head _ path := if path = "d/x.p".toList then .ok 4 else .error "not found".toList
  getRange _ path offset length :=
    if path = "d/x.p".toList then .ok (([1, 2, 3, 4].drop offset).take length)
    else .error "not found".toList

theorem webParse_spec {url : Str} {u : Url} (h : webParse url = .ok u) :
    '/' ∉ u.authority ∧ u.host = if u.authority = [] then none else some u.authority := by
  unfold webParse at h
  split_ifs at h
  cases h
  refine ⟨fun hmem => ?_, rfl⟩
  simpa using List.mem_takeWhile_imp hmem

theorem webParse_objectUrl {bucket : Str} (hslash : '/' ∉ bucket) (hne : bucket ≠ [])
    (key : Str) : webParse (objectUrl bucket key) = .ok ⟨objectUrl bucket key, "s3".toList, bucket,
      some bucket, webSets.urlPath key⟩ := by
  have hscheme : "s3://".toList <+: objectUrl bucket key := by
    unfold objectUrl
    exact ((List.prefix_append _ _).trans (List.prefix_append _ _)).trans (List.prefix_append _ _)
  have hrest : (objectUrl bucket key).drop 5 = bucket ++ '/' :: key := by
    unfold objectUrl
    simp
  have hbucket : ∀ c ∈ bucket, decide (c ≠ '/') = true := by
    simpa using fun c hc => ne_of_mem_of_not_mem hc hslash
  have htake : (bucket ++ '/' :: key).takeWhile (· ≠ '/') = bucket := by
    rw [List.takeWhile_append_of_pos hbucket]
    simp
  have hdrop : ((bucket ++ '/' :: key).dropWhile (· ≠ '/')).tail = key := by
    rw [List.dropWhile_append_of_pos hbucket]
    simp
  simp only [webParse, if_pos hscheme, hrest, htake, hdrop, if_neg hne]

theorem encodesPaths_webNative : EncodesPaths webNative webSets where
  parse url u bucket key hparse hs3 hhost := by
    obtain ⟨hslash, hhost'⟩ := webParse_spec hparse
    rw [hhost'] at hhost
    split_ifs at hhost with hne
    obtain rfl := Option.some.inj hhost
    exact ⟨_, webParse_objectUrl hslash hne key, rfl, rfl, rfl⟩
  pathFrom _ := rfl

theorem hostOfAuthority_webNative : HostOfAuthority webNative := by
  intro url url' u u' h h' hauthority
  rw [(webParse_spec h).2, (webParse_spec h').2, hauthority]

theorem s3Holds_webNative : S3Holds webNative webObjects :=
  fun _ => ⟨_, rfl, fun _ => ⟨_, rfl, .refl _⟩⟩

theorem listed_name_iff_sample :
    (NativeAdapter.size webNative webReads [] "s3://b/d/x.p".toList).1 = .ok 4 := by
  have hlist : (NativeAdapter.list webNative [] "s3://b/d/x*".toList).1
      = .ok ["s3://b/d/x.p".toList] := by decide
  have hbucket : NamesBucket webNative "b".toList :=
    ⟨"s3://b/d/".toList, _, rfl, rfl, rfl⟩
  have hmem : objectUrl "b".toList "d/x.p".toList ∈ ["s3://b/d/x.p".toList] :=
    List.mem_singleton.mpr rfl
  obtain ⟨u, store, path, -, -, hsize, -, hpath⟩ := (listed_name_iff (Q := webReads)
    encodesPaths_webNative hostOfAuthority_webNative s3Holds_webNative .init hlist .init).2.2
    _ _ hmem hbucket (by decide)
  have hunaltered : webSets.Unaltered "d/x.p".toList := by
    have hsegs : segs '/' "d/x.p".toList = ["d".toList, "x.p".toList] := rfl
    unfold PathSets.Unaltered
    rw [hsegs]
    simp [webSets]
  rw [hpath.mpr hunaltered] at hsize
  exact hsize

/-- Spaces and percent signs are encoded once or twice on the way to the store. -/
theorem listed_names_lost :
    (NativeAdapter.list webNative [] "s3://b/d/*.p".toList).1
        = .ok ["s3://b/d/50%.p".toList, "s3://b/d/a b.p".toList, "s3://b/d/x.p".toList] ∧
      ([] ∉ "d/a b.p".toList.splitOn '/' ∧
        ∃ u store, webNative.parse "s3://b/d/a b.p".toList = .ok u ∧
        (storeFor webNative [] u).1 = .ok (store, "d/a%2520b.p".toList) ∧
        "d/a%2520b.p".toList ≠ "d/a b.p".toList) ∧
      ([] ∉ "d/50%.p".toList.splitOn '/' ∧
        ∃ u store, webNative.parse "s3://b/d/50%.p".toList = .ok u ∧
        (storeFor webNative [] u).1 = .ok (store, "d/50%25.p".toList) ∧
        "d/50%25.p".toList ≠ "d/50%.p".toList) := by
  refine ⟨by decide, ⟨by decide, ?_⟩, by decide, ?_⟩
  · exact ⟨_, _, rfl, rfl, by decide⟩
  · exact ⟨_, _, rfl, rfl, by decide⟩

end ParquetFileFs
