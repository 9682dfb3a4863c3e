import ParquetFileFs.Adapter
import ParquetFileFs.Lib.Segments

/-!
# The native client

Objects in an S3 bucket are addressed by URLs.  A pattern is expanded by listing
the directory that is written out before its first wildcard, and keeping the
objects whose URLs match the pattern.  A client keeps the stores it has opened.

## Main definitions

* `NativeLibs` — what the libraries for patterns, URLs and stores do.
* `globSplit`, `storeFor`, `NativeAdapter.list` — the code.
* `Reached` — the stores a client can have.
* `ListsMatches` — a pattern is expanded to exactly the objects that match.
* `ListsDirOf` — the directory that is listed holds all objects that match.

## Main results

* `reached_stores` — every store of a client lists its bucket.
* `listsMatches_iff` — **a pattern is expanded to exactly the objects that match
  if and only if** it is valid and they lie in the directory that is listed.
-/

namespace ParquetFileFs

open Segments

/-! ### Libraries -/

/-- A parsed URL, with its text. -/
structure Url where
  text : Str
  scheme : Str
  authority : Str
  host : Option Str
  path : Str

/-- The keys of the objects below a directory, or why they cannot be listed. -/
structure ObjectStore where
  list : Str → Except Str (List Str)

/-- What the libraries for patterns, URLs and object stores do.  A store is opened by
its bucket or URL alone: the environment that has its settings stays as it is. -/
structure NativeLibs where
  /-- The matcher of a pattern, if it is valid; wildcards do not match `/`. -/
  compile : Str → Option (Str → Bool)
  parse : Str → Except Str Url
  /-- The path of a store for the path of a URL. -/
  pathFrom : Str → Str
  s3 : Str → Except Str ObjectStore
  /-- A store for a URL, which may be one without encryption. -/
  http : Str → Bool → Except Str ObjectStore

/-! ### The code -/

/-- The text before the first wildcard, up to its last `/`, and the matcher; a
text without wildcards is left as it is. -/
def globSplit (compile : Str → Option (Str → Bool)) (pattern : Str) :
    Str × Option (Str → Bool) :=
  if containsAny pattern globChars then
    ((pattern.takeWhile fun c => ¬globChars.contains c).rdropWhile (· ≠ '/'), compile pattern)
  else (pattern, none)

/-- The stores a client has opened, by scheme and authority. -/
abbrev Stores := List (Str × ObjectStore)

def storeKey (u : Url) : Str := u.scheme ++ "://".toList ++ u.authority

/-- Open a store for a URL. -/
def openStore (N : NativeLibs) (u : Url) : Except FsError ObjectStore :=
  if u.scheme = "s3".toList then
    match u.host with
    | none => .error (.adapter u.text "s3 url missing bucket".toList)
    | some bucket => (N.s3 bucket).mapError (.adapter u.text)
  else if u.scheme = "http".toList ∨ u.scheme = "https".toList then
    (N.http (storeKey u) (u.scheme = "http".toList)).mapError (.adapter u.text)
  else .error (.unknownScheme u.scheme u.text)

/-- The store of a URL and the path in it; a store that was opened is kept. -/
def storeFor (N : NativeLibs) (stores : Stores) (u : Url) :
    Except FsError (ObjectStore × Str) × Stores :=
  let path := N.pathFrom (u.path.dropWhile (· = '/'))
  match stores.lookup (storeKey u) with
  | some store => (.ok (store, path), stores)
  | none =>
      match openStore N u with
      | .error e => (.error e, stores)
      | .ok store => (.ok (store, path), (storeKey u, store) :: stores)

/-- The URL of an object. -/
def objectUrl (bucket key : Str) : Str := "s3://".toList ++ bucket ++ "/".toList ++ key

def NativeAdapter.list (N : NativeLibs) (stores : Stores) (pattern : Str) :
    Except FsError (List Str) × Stores :=
  match globSplit N.compile pattern with
  | (url, none) => (.ok [url], stores)
  | (url, some matcher) =>
      match N.parse url with
      | .error e => (.error (.adapter url e), stores)
      | .ok u =>
          if u.scheme ≠ "s3".toList then
            (.error (.adapter pattern
              ("glob patterns are only supported for s3:// and local paths; "
                ++ "pass concrete URLs for http(s)").toList), stores)
          else
            match storeFor N stores u with
            | (.error e, stores') => (.error e, stores')
            | (.ok (store, path), stores') =>
                match store.list path with
                | .error e => (.error (.adapter pattern e), stores')
                | .ok keys =>
                    (.ok (((keys.map (objectUrl (u.host.getD []))).filter matcher).insertionSort
                      (· ≤ ·)), stores')

/-! ### Stores that list their buckets -/

/-- The key lies below the directory, or the directory is the root. -/
def UnderDir (dir key : Str) : Prop := dir = [] ∨ dir ++ "/".toList <+: key

instance (dir key : Str) : Decidable (UnderDir dir key) := inferInstanceAs (Decidable (_ ∨ _))

/-- The store lists the keys, those below a directory in some order. -/
def ListsKeys (store : ObjectStore) (keys : List Str) : Prop :=
  ∀ dir, ∃ found, store.list dir = .ok found ∧ found.Perm (keys.filter (UnderDir dir))

/-- Buckets can be opened, and hold the objects. -/
def S3Holds (N : NativeLibs) (objects : Str → List Str) : Prop :=
  ∀ bucket, ∃ store, N.s3 bucket = .ok store ∧ ListsKeys store (objects bucket)

/-- The host is a part of the authority. -/
def HostOfAuthority (N : NativeLibs) : Prop :=
  ∀ url url' u u', N.parse url = .ok u → N.parse url' = .ok u' → u.authority = u'.authority →
    u.host = u'.host

/-- The stores a client can have, having looked for the stores of some URLs. -/
inductive Reached (N : NativeLibs) : Stores → Prop
  | init : Reached N []
  | step {stores : Stores} {url : Str} {u : Url} : Reached N stores → N.parse url = .ok u →
      Reached N (storeFor N stores u).2

section Native

variable {N : NativeLibs} {objects : Str → List Str} {stores : Stores} {url pattern : Str} {u : Url}

theorem mem_of_lookup {store : ObjectStore} {k : Str} (h : stores.lookup k = some store) :
    (k, store) ∈ stores := by
  induction stores with
  | nil => cases h
  | cons entry stores ih =>
    obtain ⟨k', store'⟩ := entry
    rw [List.lookup_cons] at h
    cases hk : k == k' with
    | true =>
      rw [hk] at h
      cases h
      rw [eq_of_beq hk]
      exact List.mem_cons_self
    | false =>
      rw [hk] at h
      exact List.mem_cons_of_mem _ (ih h)

theorem storeKey_s3 (h : u.scheme = "s3".toList) : storeKey u = "s3://".toList ++ u.authority := by
  rw [storeKey, h]
  rfl

/-- A store is opened for a bucket. -/
theorem openStore_s3 (hs3 : u.scheme = "s3".toList) : openStore N u = match u.host with
    | none => .error (.adapter u.text "s3 url missing bucket".toList)
    | some bucket => (N.s3 bucket).mapError (.adapter u.text) := by
  rw [openStore, if_pos hs3]

/-- Every store a client has under a key of S3 was opened for the bucket of a URL
with this key, and lists it. -/
theorem reached_mem (hholds : S3Holds N objects) (h : Reached N stores) :
    ∀ entry ∈ stores, "s3://".toList <+: entry.1 →
      ∃ url u bucket, N.parse url = .ok u ∧ u.scheme = "s3".toList ∧ entry.1 = storeKey u ∧
        u.host = some bucket ∧ ListsKeys entry.2 (objects bucket) := by
  induction h with
  | init => simp
  | @step stores url u _ hparse ih =>
    intro entry hentry hkey
    unfold storeFor at hentry
    cases hlookup : stores.lookup (storeKey u) with
    | some store =>
      rw [hlookup] at hentry
      exact ih entry hentry hkey
    | none =>
      rw [hlookup] at hentry
      cases hopen : openStore N u with
      | error e =>
        rw [hopen] at hentry
        exact ih entry hentry hkey
      | ok store =>
        rw [hopen] at hentry
        rcases List.mem_cons.mp hentry with rfl | hentry
        · -- the new store: an S3 key is one of an S3 URL
          have hs3 : u.scheme = "s3".toList := by
            by_contra hno
            rw [openStore, if_neg hno] at hopen
            by_cases hhttp : u.scheme = "http".toList ∨ u.scheme = "https".toList
            · rcases hhttp with h | h
              · rw [storeKey, h] at hkey
                simp at hkey
              · rw [storeKey, h] at hkey
                simp at hkey
            · rw [if_neg hhttp] at hopen
              cases hopen
          rw [openStore_s3 hs3] at hopen
          cases hhost : u.host with
          | none =>
            rw [hhost] at hopen
            cases hopen
          | some bucket =>
            obtain ⟨store', hstore', hlists⟩ := hholds bucket
            simp only [hhost, hstore', Except.mapError, Except.ok.injEq] at hopen
            subst hopen
            exact ⟨url, u, bucket, hparse, hs3, rfl, hhost, hlists⟩
        · exact ih entry hentry hkey

/-- **Every store of a client lists its bucket.** -/
theorem reached_stores (hhosts : HostOfAuthority N) (hholds : S3Holds N objects)
    (h : Reached N stores) (hparse : N.parse url = .ok u) (hs3 : u.scheme = "s3".toList)
    {store : ObjectStore} (hlookup : stores.lookup (storeKey u) = some store) :
    ∃ bucket, u.host = some bucket ∧ ListsKeys store (objects bucket) := by
  have hkey : "s3://".toList <+: storeKey u := by
    rw [storeKey_s3 hs3]
    exact List.prefix_append _ _
  obtain ⟨url', u', bucket, hparse', hs3', hsame, hhost, hlists⟩ :=
    reached_mem hholds h _ (mem_of_lookup hlookup) hkey
  have hauthority : u.authority = u'.authority := by
    have hsame : storeKey u = storeKey u' := hsame
    rw [storeKey_s3 hs3, storeKey_s3 hs3'] at hsame
    exact List.append_cancel_left hsame
  exact ⟨bucket, by rw [hhosts url url' u u' hparse hparse' hauthority, hhost], hlists⟩

/-- The directory a URL leads to. -/
def dirOf (N : NativeLibs) (u : Url) : Str := N.pathFrom (u.path.dropWhile (· = '/'))

/-- Looking for the store of an S3 URL succeeds exactly if it has a bucket. -/
theorem storeFor_s3 (hhosts : HostOfAuthority N) (hholds : S3Holds N objects)
    (h : Reached N stores) (hparse : N.parse url = .ok u) (hs3 : u.scheme = "s3".toList) :
    (u.host = none ∧ ∃ e, (storeFor N stores u).1 = .error e) ∨
      ∃ bucket store, u.host = some bucket ∧ (storeFor N stores u).1 = .ok (store, dirOf N u) ∧
        ListsKeys store (objects bucket) := by
  unfold storeFor
  cases hlookup : stores.lookup (storeKey u) with
  | some store =>
    obtain ⟨bucket, hhost, hlists⟩ := reached_stores hhosts hholds h hparse hs3 hlookup
    exact Or.inr ⟨bucket, store, hhost, rfl, hlists⟩
  | none =>
    rw [openStore_s3 hs3]
    cases hhost : u.host with
    | none => exact Or.inl ⟨rfl, _, rfl⟩
    | some bucket =>
      obtain ⟨store, hstore, hlists⟩ := hholds bucket
      simp only [hstore, Except.mapError]
      exact Or.inr ⟨bucket, store, rfl, rfl, hlists⟩

/-! ### What a pattern is expanded to -/

/-- The URLs of the objects of a bucket that match, in order. -/
def matchingUrls (matcher : Str → Bool) (bucket : Str) (keys : List Str) : List Str :=
  ((keys.map (objectUrl bucket)).filter matcher).insertionSort (· ≤ ·)

/-- The text of a pattern that is listed. -/
def listedUrl (N : NativeLibs) (pattern : Str) : Str := (globSplit N.compile pattern).1

/-- A pattern that is not valid is an error, and one that is valid is expanded to
exactly the objects of its bucket that match, in order. -/
def ListsMatches (N : NativeLibs) (objects : Str → List Str) (stores : Stores) (pattern : Str) :
    Prop :=
  match N.compile pattern with
  | none => ∃ e, (NativeAdapter.list N stores pattern).1 = .error e
  | some matcher => ∃ u bucket, N.parse (listedUrl N pattern) = .ok u ∧ u.host = some bucket ∧
      (NativeAdapter.list N stores pattern).1 = .ok (matchingUrls matcher bucket (objects bucket))

/-- The pattern is valid, the text that is listed is an S3 URL with a bucket, and
the objects of the bucket that match lie in the directory this URL leads to. -/
def ListsDirOf (N : NativeLibs) (objects : Str → List Str) (pattern : Str) : Prop :=
  ∃ matcher u bucket, N.compile pattern = some matcher ∧ N.parse (listedUrl N pattern) = .ok u ∧
    u.scheme = "s3".toList ∧ u.host = some bucket ∧
    ∀ key ∈ objects bucket, matcher (objectUrl bucket key) = true → UnderDir (dirOf N u) key

theorem objectUrl_injective (bucket : Str) : Function.Injective (objectUrl bucket) := by
  intro key key' h
  exact List.append_cancel_left h

/-- The order in which a store lists its objects does not matter. -/
theorem matchingUrls_perm {matcher : Str → Bool} {bucket : Str} {keys keys' : List Str}
    (h : keys.Perm keys') :
    matchingUrls matcher bucket keys = matchingUrls matcher bucket keys' := by
  have hperm : (matchingUrls matcher bucket keys).Perm (matchingUrls matcher bucket keys') :=
    (List.perm_insertionSort (· ≤ ·) _).trans
      (((h.map _).filter _).trans (List.perm_insertionSort (· ≤ ·) _).symm)
  exact hperm.eq_of_pairwise (fun a b _ _ hab hba => le_antisymm hab hba)
    (List.pairwise_insertionSort (· ≤ ·) _) (List.pairwise_insertionSort (· ≤ ·) _)

theorem mem_matchingUrls {matcher : Str → Bool} {bucket key : Str} {keys : List Str} :
    objectUrl bucket key ∈ matchingUrls matcher bucket keys ↔
      key ∈ keys ∧ matcher (objectUrl bucket key) = true := by
  rw [matchingUrls, (List.perm_insertionSort (· ≤ ·) _).mem_iff, List.mem_filter,
    List.mem_map_of_injective (objectUrl_injective bucket)]

/-- Keeping the objects of a directory changes nothing exactly if all that match
lie in it. -/
theorem matchingUrls_filter_iff {matcher : Str → Bool} {bucket : Str} {keys : List Str}
    (p : Str → Prop) [DecidablePred p] :
    matchingUrls matcher bucket (keys.filter p) = matchingUrls matcher bucket keys ↔
      ∀ key ∈ keys, matcher (objectUrl bucket key) = true → p key := by
  constructor
  · intro h key hkey hmatch
    have hmem : objectUrl bucket key ∈ matchingUrls matcher bucket (keys.filter p) := by
      rw [h]
      exact mem_matchingUrls.mpr ⟨hkey, hmatch⟩
    obtain ⟨hkey', -⟩ := mem_matchingUrls.mp hmem
    simpa using (List.mem_filter.mp hkey').2
  · intro h
    rw [matchingUrls, matchingUrls, List.filter_map, List.filter_map, List.filter_filter]
    congr 2
    apply List.filter_congr
    intro key hkey
    have hp := h key hkey
    by_cases hmatch : matcher (objectUrl bucket key) = true
    · simp [hmatch, hp hmatch]
    · simp [hmatch]

/-- A valid pattern with a bucket lists what matches in one directory. -/
theorem list_s3 (hhosts : HostOfAuthority N) (hholds : S3Holds N objects) (h : Reached N stores)
    {matcher : Str → Bool} {bucket : Str} (hglob : containsAny pattern globChars = true)
    (hcompile : N.compile pattern = some matcher) (hparse : N.parse (listedUrl N pattern) = .ok u)
    (hs3 : u.scheme = "s3".toList) (hhost : u.host = some bucket) :
    (NativeAdapter.list N stores pattern).1
      = .ok (matchingUrls matcher bucket ((objects bucket).filter (UnderDir (dirOf N u)))) := by
  have hsplit : globSplit N.compile pattern = (listedUrl N pattern, some matcher) := by
    rw [listedUrl, globSplit, if_pos hglob, hcompile]
  rcases storeFor_s3 hhosts hholds h hparse hs3 with ⟨hnone, -⟩ | ⟨bucket', store, hhost', hstore,
    hlists⟩
  · cases hnone.symm.trans hhost
  · cases hhost'.symm.trans hhost
    obtain ⟨found, hfound, hperm⟩ := hlists (dirOf N u)
    unfold NativeAdapter.list
    rw [hsplit]
    dsimp only
    rw [hparse]
    dsimp only
    rw [if_neg (not_not.mpr hs3), ← Prod.mk.eta (p := storeFor N stores u), hstore]
    dsimp only
    rw [hfound, hhost, ← matchingUrls_perm hperm]
    rfl

/-- **A pattern is expanded to exactly the objects that match if and only if** it is
valid and they lie in the directory that is listed. -/
theorem listsMatches_iff (hhosts : HostOfAuthority N) (hholds : S3Holds N objects)
    (h : Reached N stores) (hglob : containsAny pattern globChars = true) :
    ListsMatches N objects stores pattern ↔ ListsDirOf N objects pattern := by
  have hsplit : globSplit N.compile pattern = (listedUrl N pattern, N.compile pattern) := by
    rw [listedUrl, globSplit, if_pos hglob]
  unfold ListsMatches
  constructor
  · intro hlists
    cases hcompile : N.compile pattern with
    | none =>
      -- the pattern that is not valid is taken for a plain URL
      rw [hcompile] at hlists hsplit
      obtain ⟨e, he⟩ := hlists
      unfold NativeAdapter.list at he
      rw [hsplit] at he
      cases he
    | some matcher =>
      rw [hcompile] at hlists hsplit
      obtain ⟨u, bucket, hparse, hhost, hlist⟩ := hlists
      have hs3 : u.scheme = "s3".toList := by
        by_contra hno
        unfold NativeAdapter.list at hlist
        rw [hsplit] at hlist
        dsimp only at hlist
        rw [hparse] at hlist
        dsimp only at hlist
        rw [if_pos hno] at hlist
        cases hlist
      rw [list_s3 hhosts hholds h hglob hcompile hparse hs3 hhost, Except.ok.injEq] at hlist
      exact ⟨matcher, u, bucket, hcompile, hparse, hs3, hhost,
        (matchingUrls_filter_iff _).mp hlist⟩
  · intro ⟨matcher, u, bucket, hcompile, hparse, hs3, hhost, hunder⟩
    rw [hcompile]
    refine ⟨u, bucket, hparse, hhost, ?_⟩
    rw [list_s3 hhosts hholds h hglob hcompile hparse hs3 hhost,
      (matchingUrls_filter_iff _).mpr hunder]

/-! ### Plain patterns -/

/-- The characters with a meaning in a pattern: there are more than the code looks
for. -/
def patternChars : List Char := globChars ++ [']', '{', '}', ',', '!', '\\']

/-- Characters without a meaning stand for themselves in front of a pattern. -/
def LiteralPrefix (compile : Str → Option (Str → Bool)) : Prop :=
  ∀ lit rest matcher, containsAny lit patternChars = false →
    compile (lit ++ rest) = some matcher → ∀ url, matcher url = true → lit <+: url

/-- A name of letters and digits. -/
def PlainName (s : Str) : Prop := s ≠ [] ∧ ∀ c ∈ s, c.isAlphanum = true

/-- A directory in a bucket, written out. -/
def dirUrl (bucket : Str) (names : List Str) : Str :=
  objectUrl bucket (names.flatMap (· ++ "/".toList))

/-- Plain URLs of directories are parsed as what they say. -/
def PlainUrls (N : NativeLibs) : Prop :=
  ∀ bucket names, PlainName bucket → (∀ s ∈ names, PlainName s) →
    ∃ u, N.parse (dirUrl bucket names) = .ok u ∧ u.scheme = "s3".toList ∧ u.host = some bucket ∧
      dirOf N u = join '/' names

theorem flatMap_slash {names : List Str} (h : names ≠ []) :
    names.flatMap (· ++ "/".toList) = join '/' names ++ "/".toList := by
  induction names with
  | nil => exact absurd rfl h
  | cons s names ih =>
    cases names with
    | nil => simp
    | cons t names =>
      rw [List.flatMap_cons, ih (List.cons_ne_nil t names), join_cons_cons]
      simp

theorem containsAny_append (s t : Str) (cs : List Char) :
    containsAny (s ++ t) cs = (containsAny s cs || containsAny t cs) := List.any_append

/-- Letters and digits have no meaning in a pattern. -/
theorem containsAny_of_plain {s : Str} (h : PlainName s) : containsAny s patternChars = false := by
  rw [containsAny, List.any_eq_false]
  intro c hc hmem
  have hall : patternChars.all (fun d => !d.isAlphanum) = true := by decide
  have hno := List.all_eq_true.mp hall c (List.contains_iff_mem.mp hmem)
  rw [h.2 c hc] at hno
  cases hno

/-- Plain names and separators have no meaning in a pattern. -/
theorem containsAny_dirUrl {bucket : Str} {names : List Str} (hbucket : PlainName bucket)
    (hnames : ∀ s ∈ names, PlainName s) :
    containsAny (dirUrl bucket names) patternChars = false := by
  have hscheme : containsAny "s3://".toList patternChars = false := by decide
  have hslash : containsAny "/".toList patternChars = false := by decide
  have hdirs : containsAny (names.flatMap (· ++ "/".toList)) patternChars = false := by
    induction names with
    | nil => rfl
    | cons s names ih =>
      rw [List.flatMap_cons, containsAny_append, containsAny_append,
        containsAny_of_plain (hnames s List.mem_cons_self), hslash,
        ih fun t ht => hnames t (List.mem_cons_of_mem s ht)]
      rfl
  show containsAny ("s3://".toList ++ bucket ++ "/".toList ++ _) patternChars = false
  rw [containsAny_append, containsAny_append, containsAny_append, hscheme,
    containsAny_of_plain hbucket, hslash, hdirs]
  rfl

/-- What is listed is the beginning of the pattern. -/
theorem listedUrl_isPrefix (N : NativeLibs) (pattern : Str) : listedUrl N pattern <+: pattern := by
  rw [listedUrl, globSplit]
  split_ifs
  · exact (List.rdropWhile_prefix _ _).trans (List.takeWhile_prefix _)
  · exact List.prefix_refl pattern

/-- **A valid pattern below a plain directory is expanded to exactly what matches.** -/
theorem listsDirOf_of_plain (hlit : LiteralPrefix N.compile) (hplain : PlainUrls N)
    {matcher : Str → Bool} {bucket : Str} {names : List Str} (hbucket : PlainName bucket)
    (hnames : ∀ s ∈ names, PlainName s) (hlisted : listedUrl N pattern = dirUrl bucket names)
    (hcompile : N.compile pattern = some matcher) : ListsDirOf N objects pattern := by
  obtain ⟨u, hparse, hs3, hhost, hdir⟩ := hplain bucket names hbucket hnames
  refine ⟨matcher, u, bucket, hcompile, by rw [hlisted, hparse], hs3, hhost, ?_⟩
  intro key _ hmatch
  obtain ⟨rest, hrest⟩ := listedUrl_isPrefix N pattern
  rw [hlisted] at hrest
  rw [← hrest] at hcompile
  -- what matches begins with the directory, so its key does
  obtain ⟨tail, htail⟩ := hlit _ rest matcher (containsAny_dirUrl hbucket hnames) hcompile _ hmatch
  have hkey : key = names.flatMap (· ++ "/".toList) ++ tail := by
    have htail : "s3://".toList ++ bucket ++ "/".toList ++ names.flatMap (· ++ "/".toList) ++ tail
        = objectUrl bucket key := htail
    rw [List.append_assoc] at htail
    exact (List.append_cancel_left htail).symm
  rw [hdir]
  by_cases hnil : names = []
  · rw [hnil]
    exact Or.inl rfl
  · refine Or.inr ⟨tail, ?_⟩
    rw [hkey, flatMap_slash hnil]

end Native

/-! ### A bucket -/

/-- Matching of `*`, `?` and alternatives; wildcards do not match `/`. -/
def globMatch : ℕ → Str → Str → Bool
  | 0, _, _ => false
  | _ + 1, [], t => t = []
  | n + 1, p :: ps, t =>
      if p = '*' then
        globMatch n ps t || match t with
          | [] => false
          | c :: cs => c ≠ '/' && globMatch n (p :: ps) cs
      else if p = '{' then
        ((ps.takeWhile (· ≠ '}')).splitOn ',').any fun alt =>
          globMatch n (alt ++ (ps.dropWhile (· ≠ '}')).tail) t
      else match t with
        | [] => false
        | c :: cs => (if p = '?' then c ≠ '/' else p = c) && globMatch n ps cs

/-- Patterns without classes: an open bracket is an error. -/
def globCompile (pattern : Str) : Option (Str → Bool) :=
  if '[' ∈ pattern then none else some (globMatch 100 pattern)

/-- Braces are escaped in the path of a URL. -/
def escapeBrace (c : Char) : Str :=
  if c = '{' then "%7B".toList else if c = '}' then "%7D".toList else [c]

def plainParse (url : Str) : Except Str Url :=
  if "s3://".toList <+: url then
    let rest := url.drop 5
    let host := rest.takeWhile (· ≠ '/')
    .ok ⟨url, "s3".toList, host, if host = [] then none else some host,
      (rest.dropWhile (· ≠ '/')).flatMap escapeBrace⟩
  else .error "relative URL without a base".toList

/-- Empty segments are left out, and percent signs escaped. -/
def plainPath (p : Str) : Str :=
  (join '/' (segs '/' p)).flatMap fun c => if c = '%' then "%25".toList else [c]

/-- The objects of the only bucket. -/
def sampleObjects (bucket : Str) : List Str :=
  if bucket = "b".toList then
    ["d/y.p".toList, "d/x.p".toList, "d/e/z.p".toList, "c/x.p".toList]
  else []

def sampleNative : NativeLibs where
  compile := globCompile
  parse := plainParse
  pathFrom := plainPath
  s3 bucket := .ok ⟨fun dir => .ok ((sampleObjects bucket).filter (UnderDir dir))⟩
  http _ _ := .error "unreachable".toList

theorem hostOfAuthority_sampleNative : HostOfAuthority sampleNative := by
  have hhost : ∀ url u, plainParse url = .ok u →
      u.host = if u.authority = [] then none else some u.authority := by
    intro url u h
    unfold plainParse at h
    split_ifs at h
    cases h
    rfl
  intro url url' u u' h h' hauthority
  rw [hhost url u h, hhost url' u' h', hauthority]

theorem s3Holds_sampleNative : S3Holds sampleNative sampleObjects :=
  fun _ => ⟨_, rfl, fun _ => ⟨_, rfl, .refl _⟩⟩

theorem listsMatches_sample :
    (NativeAdapter.list sampleNative [] "s3://b/d/*.p".toList).1
      = .ok ["s3://b/d/x.p".toList, "s3://b/d/y.p".toList] := by
  have hdir : ListsDirOf sampleNative sampleObjects "s3://b/d/*.p".toList :=
    ⟨_, _, _, rfl, rfl, rfl, rfl, by decide⟩
  have hlists := (listsMatches_iff hostOfAuthority_sampleNative s3Holds_sampleNative .init
    (by decide)).mpr hdir
  obtain ⟨u, bucket, hparse, hhost, hlist⟩ := hlists
  cases hparse
  cases hhost
  rw [hlist]
  decide

/-- Alternatives before the first wildcard are listed as they are written, and a
pattern that is not valid is taken for a URL. -/
theorem list_loses_sample :
    (∃ matcher, sampleNative.compile "s3://b/{c,d}/x*".toList = some matcher ∧
        matcher "s3://b/d/x.p".toList = true) ∧
      (NativeAdapter.list sampleNative [] "s3://b/{c,d}/x*".toList).1 = .ok [] ∧
      ¬ListsMatches sampleNative sampleObjects [] "s3://b/{c,d}/x*".toList ∧
      sampleNative.compile "s3://b/d/[x".toList = none ∧
      (NativeAdapter.list sampleNative [] "s3://b/d/[x".toList).1 = .ok ["s3://b/d/".toList] := by
  have hlist : (NativeAdapter.list sampleNative [] "s3://b/{c,d}/x*".toList).1 = .ok [] := by
    decide
  refine ⟨⟨_, rfl, by decide⟩, hlist, ?_, rfl, rfl⟩
  rintro ⟨u, bucket, hparse, hhost, hall⟩
  cases hparse
  cases hhost
  rw [hlist, Except.ok.injEq] at hall
  have hmem : objectUrl "b".toList "d/x.p".toList ∈ ([] : List Str) := by
    rw [hall]
    exact mem_matchingUrls.mpr (by decide)
  cases hmem

end ParquetFileFs
