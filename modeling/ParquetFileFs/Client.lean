import ParquetFileFs.Lib.Pool
import ParquetFileFs.Objects

/-!
# The client that all threads share

A process has one client.  Its stores are behind a lock, which a request holds while
it looks for its store; the store is asked when the lock is free again, and the
network may fail.

## Main definitions

* `ClientOp`, `clientWorld` — the steps of requests, and their outcomes.
* `clientSize`, `clientReadRange`, `clientList`, `serveClient` — the requests.
* `nativeAdapter` — a client that has opened no stores.
* `StoresOpened` — the stores are those that URLs with their keys lead to.

## Main results

* `client_forgets` — **a request is answered as by a client that has opened no
  stores**, whatever is asked before and at the same time.
* `client_stores` — **every store is the one that each URL with its key leads to**,
  and none that an `https` URL is answered from was opened for cleartext.
-/

namespace ParquetFileFs

open Program

/-! ### Requests -/

/-- The steps of a request: the section under the lock, and what stores are asked. -/
inductive ClientOp
  | storeFor (u : Url)
  | head (store : ObjectStore) (path : Str)
  | getRange (store : ObjectStore) (path : Str) (offset length : ℕ)
  | list (store : ObjectStore) (dir : Str)

def ClientOp.Res : ClientOp → Type
  | .storeFor _ => Except FsError (ObjectStore × Str)
  | .head _ _ => Except Str ℕ
  | .getRange _ _ _ _ => Except Str Bytes
  | .list _ _ => Except Str (List Str)

/-- A part of a request. -/
abbrev ClientM (α : Type) := Program ClientOp ClientOp.Res (Except FsError α)

section Requests

variable (N : NativeLibs)

def storeOf (u : Url) : ClientM (ObjectStore × Str) := .call (.storeFor u) .ret

def clientSize (url : Str) : ClientM ℕ :=
  match N.parse url with
  | .error e => .ret (.error (.adapter url e))
  | .ok u => (storeOf u).andThen fun found =>
      .call (.head found.1 found.2) fun r => .ret (r.mapError (.adapter url))

def clientReadRange (url : Str) (offset length : ℕ) : ClientM Bytes :=
  match N.parse url with
  | .error e => .ret (.error (.adapter url e))
  | .ok u => (storeOf u).andThen fun found =>
      .call (.getRange found.1 found.2 offset length) fun r => .ret (r.mapError (.adapter url))

def clientList (pattern : Str) : ClientM (List Str) :=
  match globSplit N.compile pattern with
  | (url, none) => .ret (.ok [url])
  | (url, some matcher) =>
      match N.parse url with
      | .error e => .ret (.error (.adapter url e))
      | .ok u =>
          if u.scheme ≠ "s3".toList then
            .ret (.error (.adapter pattern
              ("glob patterns are only supported for s3:// and local paths; "
                ++ "pass concrete URLs for http(s)").toList))
          else (storeOf u).andThen fun found =>
            .call (.list found.1 found.2) fun
              | .error e => .ret (.error (.adapter pattern e))
              | .ok keys => .ret (.ok (matchingUrls matcher (u.host.getD []) keys))

/-- What a client is asked. -/
inductive ClientRequest
  | size (url : Str)
  | readRange (url : Str) (offset length : ℕ)
  | list (pattern : Str)

/-- The text that a request is about. -/
def ClientRequest.text : ClientRequest → Str
  | .size url => url
  | .readRange url _ _ => url
  | .list pattern => pattern

inductive ClientValue
  | size (n : ℕ)
  | bytes (bs : Bytes)
  | urls (urls : List Str)
  deriving DecidableEq

def serveClient : ClientRequest → ClientM ClientValue
  | .size url => (clientSize N url).andThen fun n => .ret (.ok (.size n))
  | .readRange url offset length =>
      (clientReadRange N url offset length).andThen fun bs => .ret (.ok (.bytes bs))
  | .list pattern => (clientList N pattern).andThen fun urls => .ret (.ok (.urls urls))

end Requests

/-! ### Outcomes -/

/-- What is answered, or an error where the network may fail. -/
def StoreSays (faulty : Prop) {α : Type} (x r : Except Str α) : Prop :=
  r = x ∨ faulty ∧ ∃ e, r = .error e

section Worlds

variable (N : NativeLibs) (Q : ObjectReads)

/-- All outcomes of the steps, on a network that may be `faulty`. -/
def clientWorld (faulty : Prop) : World ClientOp ClientOp.Res Stores
  | .storeFor u, stores, r, stores' =>
      r = (storeFor N stores u).1 ∧ stores' = (storeFor N stores u).2
  | .head store path, stores, r, stores' =>
      StoreSays faulty (Q.head store path) r ∧ stores' = stores
  | .getRange store path offset length, stores, r, stores' =>
      StoreSays faulty (Q.getRange store path offset length) r ∧ stores' = stores
  | .list store dir, stores, r, stores' => StoreSays faulty (store.list dir) r ∧ stores' = stores

/-- The outcomes of the steps while the network works. -/
def clientHandler : (o : ClientOp) → Stores → ClientOp.Res o × Stores
  | .storeFor u, stores => storeFor N stores u
  | .head store path, stores => (Q.head store path, stores)
  | .getRange store path offset length, stores => (Q.getRange store path offset length, stores)
  | .list store dir, stores => (store.list dir, stores)

/-- The requests as computations on the stores, one at a time. -/
def nativeCall (stores : Stores) : ClientRequest → Except FsError ClientValue × Stores
  | .size url => ((NativeAdapter.size N Q stores url).map (·.map .size) id)
  | .readRange url offset length =>
      (NativeAdapter.readRange N Q stores url offset length).map (·.map .bytes) id
  | .list pattern => (NativeAdapter.list N stores pattern).map (·.map .urls) id

end Worlds

variable {N : NativeLibs} {Q : ObjectReads} {faulty : Prop} {stores : Stores} {url url' : Str}
  {u u' : Url} {store : ObjectStore}

/-! ### Requests of one thread -/

theorem clientWorld_clientHandler (o : ClientOp) (stores : Stores) :
    clientWorld N Q faulty o stores (clientHandler N Q o stores).1
      (clientHandler N Q o stores).2 := by
  cases o with
  | storeFor u => exact ⟨rfl, rfl⟩
  | head store path => exact ⟨Or.inl rfl, rfl⟩
  | getRange store path offset length => exact ⟨Or.inl rfl, rfl⟩
  | list store dir => exact ⟨Or.inl rfl, rfl⟩

/-- What follows the section under the lock. -/
theorem exec_storeOf_andThen {α : Type} (f : ObjectStore × Str → ClientM α) (stores : Stores) :
    ((storeOf u).andThen f).exec (clientHandler N Q) stores
      = match storeFor N stores u with
        | (.error e, stores') => (.error e, stores')
        | (.ok found, stores') => (f found).exec (clientHandler N Q) stores' := by
  show exec _ (Program.andThen (.ret (storeFor N stores u).1) f) (storeFor N stores u).2 = _
  rcases storeFor N stores u with ⟨e | found, stores'⟩ <;> rfl

theorem exec_clientSize (url : Str) (stores : Stores) :
    (clientSize N url).exec (clientHandler N Q) stores = NativeAdapter.size N Q stores url := by
  unfold clientSize NativeAdapter.size
  cases N.parse url with
  | error e => rfl
  | ok u =>
    dsimp only
    rw [exec_storeOf_andThen]
    rcases storeFor N stores u with ⟨e | found, stores'⟩ <;> rfl

theorem exec_clientReadRange (url : Str) (offset length : ℕ) (stores : Stores) :
    (clientReadRange N url offset length).exec (clientHandler N Q) stores
      = NativeAdapter.readRange N Q stores url offset length := by
  unfold clientReadRange NativeAdapter.readRange
  cases N.parse url with
  | error e => rfl
  | ok u =>
    dsimp only
    rw [exec_storeOf_andThen]
    rcases storeFor N stores u with ⟨e | found, stores'⟩ <;> rfl

theorem exec_clientList (pattern : Str) (stores : Stores) :
    (clientList N pattern).exec (clientHandler N Q) stores
      = NativeAdapter.list N stores pattern := by
  unfold clientList NativeAdapter.list
  rcases globSplit N.compile pattern with ⟨url, _ | matcher⟩
  · rfl
  · dsimp only
    cases N.parse url with
    | error e => rfl
    | ok u =>
      dsimp only
      split_ifs
      · rfl
      · rw [exec_storeOf_andThen]
        rcases storeFor N stores u with ⟨e | ⟨store, dir⟩, stores'⟩
        · rfl
        · show exec _ (Program.call (ClientOp.list store dir) _) stores' = _
          rw [exec_call]
          dsimp only [clientHandler]
          cases store.list dir <;> rfl

/-- **Run alone, a request is the computation on the stores.** -/
theorem exec_serveClient (q : ClientRequest) (stores : Stores) :
    (serveClient N q).exec (clientHandler N Q) stores = nativeCall N Q stores q := by
  have hmap : ∀ {α : Type} (p : ClientM α) (f : α → ClientValue),
      (p.andThen fun a => .ret (.ok (f a))).exec (clientHandler N Q) stores
        = (p.exec (clientHandler N Q) stores).map (·.map f) id := by
    intro α p f
    rcases hp : p.exec (clientHandler N Q) stores with ⟨e | a, stores'⟩
    · rw [exec_andThen_error _ (congrArg Prod.fst hp), hp]
      rfl
    · rw [exec_andThen _ (congrArg Prod.fst hp), hp]
      rfl
  cases q with
  | size url => exact (hmap _ _).trans (congrArg _ (exec_clientSize url stores))
  | readRange url offset length =>
    exact (hmap _ _).trans (congrArg _ (exec_clientReadRange url offset length stores))
  | list pattern => exact (hmap _ _).trans (congrArg _ (exec_clientList pattern stores))

/-! ### Stores and their keys -/

/-- No scheme has a colon. -/
def PlainSchemes (N : NativeLibs) : Prop := ∀ url u, N.parse url = .ok u → ':' ∉ u.scheme

/-- There is one store for a key, and a URL with this key leads to it. -/
structure StoresOpened (N : NativeLibs) (stores : Stores) : Prop where
  nodup : (stores.map Prod.fst).Nodup
  opened : ∀ entry ∈ stores, ∃ url u, N.parse url = .ok u ∧ entry.1 = storeKey u ∧
    openStore N u = .ok entry.2

theorem storesOpened_nil : StoresOpened N [] := ⟨List.nodup_nil, by simp⟩

/-- The key tells the scheme and the authority. -/
theorem storeKey_inj (hschemes : PlainSchemes N) (hparse : N.parse url = .ok u)
    (hparse' : N.parse url' = .ok u') (h : storeKey u = storeKey u') :
    u.scheme = u'.scheme ∧ u.authority = u'.authority := by
  have htake : ∀ {url : Str} {u : Url}, N.parse url = .ok u →
      (storeKey u).takeWhile (· ≠ ':') = u.scheme := by
    intro url u hparse
    have hplain : ∀ c ∈ u.scheme, decide (c ≠ ':') = true := by
      simpa using fun c hc => ne_of_mem_of_not_mem hc (hschemes url u hparse)
    rw [storeKey, List.append_assoc, List.takeWhile_append_of_pos hplain]
    simp
  have hscheme : u.scheme = u'.scheme := by rw [← htake hparse, h, htake hparse']
  refine ⟨hscheme, ?_⟩
  rw [storeKey, storeKey, hscheme] at h
  exact List.append_cancel_left h

/-- URLs with one key lead to one store. -/
theorem openStore_of_storeKey (hhosts : HostOfAuthority N) (hschemes : PlainSchemes N)
    (hparse : N.parse url = .ok u) (hparse' : N.parse url' = .ok u')
    (h : storeKey u = storeKey u') (hopen : openStore N u = .ok store) :
    openStore N u' = .ok store := by
  obtain ⟨hscheme, hauthority⟩ := storeKey_inj hschemes hparse hparse' h
  have hhost := hhosts url url' u u' hparse hparse' hauthority
  unfold openStore at hopen ⊢
  rw [← hscheme, ← hhost, ← h]
  split_ifs at hopen ⊢
  · cases hhost : u.host with
    | none => rw [hhost] at hopen; cases hopen
    | some bucket =>
      rw [hhost] at hopen
      dsimp only at hopen ⊢
      cases hs3 : N.s3 bucket with
      | error e => rw [hs3] at hopen; cases hopen
      | ok store' => rw [hs3] at hopen; exact hopen
  · cases hhttp : N.http (storeKey u) (u.scheme = "http".toList) with
    | error e => rw [hhttp] at hopen; cases hopen
    | ok store' => rw [hhttp] at hopen; exact hopen

/-- What the section under the lock gives a client without stores. -/
theorem storeFor_nil (N : NativeLibs) (u : Url) :
    (storeFor N [] u).1 = (openStore N u).map fun store => (store, dirOf N u) := by
  unfold storeFor
  rw [List.lookup_nil]
  cases openStore N u <;> rfl

/-- **The section under the lock gives what it gives a client without stores**, and
leaves stores that were opened for their keys. -/
theorem StoresOpened.storeFor (hhosts : HostOfAuthority N) (hschemes : PlainSchemes N)
    (h : StoresOpened N stores) (hparse : N.parse url = .ok u) :
    (storeFor N stores u).1 = (storeFor N [] u).1 ∧
      StoresOpened N (ParquetFileFs.storeFor N stores u).2 := by
  rw [storeFor_nil]
  unfold ParquetFileFs.storeFor
  cases hlookup : stores.lookup (storeKey u) with
  | some store =>
    obtain ⟨url', u', hparse', hkey, hopen⟩ := h.opened _ (mem_of_lookup hlookup)
    rw [openStore_of_storeKey hhosts hschemes hparse' hparse hkey.symm hopen]
    exact ⟨rfl, h⟩
  | none =>
    cases hopen : openStore N u with
    | error e => exact ⟨rfl, h⟩
    | ok store =>
      refine ⟨rfl, List.nodup_cons.mpr ⟨fun hmem => ?_, h.nodup⟩, ?_⟩
      · obtain ⟨entry, hentry, hkey⟩ := List.mem_map.mp hmem
        have hne := List.lookup_eq_none_iff.mp hlookup entry hentry
        simp [hkey] at hne
      · intro entry hentry
        rcases List.mem_cons.mp hentry with rfl | hentry
        · exact ⟨url, u, hparse, rfl, hopen⟩
        · exact h.opened entry hentry

/-! ### Requests of many threads -/

variable (N Q faulty) in
/-- Stores are looked for by the URLs of requests, and are those that a client
without stores opens. -/
def clientContract : Contract ClientOp ClientOp.Res where
  pre
    | .storeFor u => ∃ url, N.parse url = .ok u
    | _ => True
  post
    | .storeFor u, r => r = (storeFor N [] u).1
    | .head store path, r => StoreSays faulty (Q.head store path) r
    | .getRange store path offset length, r =>
        StoreSays faulty (Q.getRange store path offset length) r
    | .list store dir, r => StoreSays faulty (store.list dir) r

/-- **Every step keeps the stores**, and gives what the contract says. -/
theorem clientContract_holds (hhosts : HostOfAuthority N) (hschemes : PlainSchemes N) :
    (clientContract N Q faulty).Holds (clientWorld N Q faulty) (StoresOpened N) := by
  intro o stores r stores' hW hstores hpre
  cases o with
  | storeFor u =>
    obtain ⟨rfl, rfl⟩ := hW
    obtain ⟨url, hparse⟩ := hpre
    exact hstores.storeFor hhosts hschemes hparse
  | head store path => exact ⟨hW.1, hW.2 ▸ hstores⟩
  | getRange store path offset length => exact ⟨hW.1, hW.2 ▸ hstores⟩
  | list store dir => exact ⟨hW.1, hW.2 ▸ hstores⟩

/-- The same result, or an error for the text where the network may fail. -/
def Answers (faulty : Prop) (text : Str) {α : Type} (x r : Except FsError α) : Prop :=
  r = x ∨ faulty ∧ ∃ e, r = .error (.adapter text e)

theorem StoreSays.mapError {α : Type} {x r : Except Str α} (h : StoreSays faulty x r) (text : Str) :
    Answers faulty text (x.mapError (.adapter text)) (r.mapError (.adapter text)) := by
  rcases h with rfl | ⟨hfaulty, e, rfl⟩
  · exact Or.inl rfl
  · exact Or.inr ⟨hfaulty, e, rfl⟩

theorem Answers.map {α β : Type} {text : Str} {x r : Except FsError α}
    (h : Answers faulty text x r) (f : α → β) : Answers faulty text (x.map f) (r.map f) := by
  rcases h with rfl | ⟨hfaulty, e, rfl⟩
  · exact Or.inl rfl
  · exact Or.inr ⟨hfaulty, e, rfl⟩

/-- After the section under the lock a request goes on as with a client without stores. -/
theorem storeOf_andThen_meets {α : Type} {f : ObjectStore × Str → ClientM α}
    {P : Except FsError α → Prop} (hparse : N.parse url = .ok u)
    (h : match (storeFor N [] u).1 with
      | .error e => P (.error e)
      | .ok found => (f found).Meets (clientContract N Q faulty) P) :
    ((storeOf u).andThen f).Meets (clientContract N Q faulty) P := by
  have hstore : (storeOf u).Meets (clientContract N Q faulty) (· = (storeFor N [] u).1) :=
    ⟨⟨url, hparse⟩, fun _ hr => hr⟩
  refine meets_andThen hstore (fun e he => ?_) fun found hfound => ?_
  · rwa [← he] at h
  · rwa [← hfound] at h

theorem clientSize_meets (url : Str) : (clientSize N url).Meets (clientContract N Q faulty)
    (Answers faulty url (NativeAdapter.size N Q [] url).1) := by
  unfold clientSize NativeAdapter.size
  cases hparse : N.parse url with
  | error e => exact Or.inl rfl
  | ok u =>
    refine storeOf_andThen_meets hparse ?_
    dsimp only
    rcases storeFor N [] u with ⟨e | ⟨store, path⟩, stores'⟩
    · exact Or.inl rfl
    · exact ⟨trivial, fun r hr => StoreSays.mapError hr url⟩

theorem clientReadRange_meets (url : Str) (offset length : ℕ) :
    (clientReadRange N url offset length).Meets (clientContract N Q faulty)
      (Answers faulty url (NativeAdapter.readRange N Q [] url offset length).1) := by
  unfold clientReadRange NativeAdapter.readRange
  cases hparse : N.parse url with
  | error e => exact Or.inl rfl
  | ok u =>
    refine storeOf_andThen_meets hparse ?_
    dsimp only
    rcases storeFor N [] u with ⟨e | ⟨store, path⟩, stores'⟩
    · exact Or.inl rfl
    · exact ⟨trivial, fun r hr => StoreSays.mapError hr url⟩

theorem clientList_meets (pattern : Str) :
    (clientList N pattern).Meets (clientContract N Q faulty) fun r =>
      Answers faulty pattern (NativeAdapter.list N [] pattern).1 r := by
  unfold clientList NativeAdapter.list
  rcases globSplit N.compile pattern with ⟨url, _ | matcher⟩
  · exact Or.inl rfl
  · dsimp only
    cases hparse : N.parse url with
    | error e => exact Or.inl rfl
    | ok u =>
      dsimp only
      split_ifs
      · exact Or.inl rfl
      · refine storeOf_andThen_meets hparse ?_
        rcases storeFor N [] u with ⟨e | ⟨store, dir⟩, stores'⟩
        · exact Or.inl rfl
        · refine ⟨trivial, fun r hr => ?_⟩
          rcases hr with rfl | ⟨hfaulty, e, rfl⟩
          · dsimp only
            cases store.list dir <;> exact Or.inl rfl
          · exact Or.inr ⟨hfaulty, e, rfl⟩

/-- **A request that keeps to the contract is answered as by a client without stores.** -/
theorem serveClient_meets (q : ClientRequest) : (serveClient N q).Meets (clientContract N Q faulty)
    (Answers faulty q.text (nativeCall N Q [] q).1) := by
  have hmap : ∀ {α : Type} {p : ClientM α} {x : Except FsError α} (f : α → ClientValue),
      p.Meets (clientContract N Q faulty) (Answers faulty q.text x) →
      (p.andThen fun a => .ret (.ok (f a))).Meets (clientContract N Q faulty)
        (Answers faulty q.text (x.map f)) := by
    intro α p x f hp
    exact meets_andThen hp (fun e he => he.map f) fun a ha => ha.map f
  cases q with
  | size url => exact hmap _ (clientSize_meets url)
  | readRange url offset length => exact hmap _ (clientReadRange_meets url offset length)
  | list pattern => exact hmap _ (clientList_meets pattern)

section Shared

variable {c : Pool ClientOp ClientOp.Res ClientRequest (Except FsError ClientValue) Stores}

theorem client_invariant (hhosts : HostOfAuthority N) (hschemes : PlainSchemes N)
    (hreach : Reachable (clientWorld N Q faulty) (fun _ _ => False) (serveClient N) [] c) :
    PoolInv (clientContract N Q faulty) (StoresOpened N)
      (fun q => Answers faulty q.text (nativeCall N Q [] q).1) c :=
  pool_invariant (clientContract_holds hhosts hschemes) (fun _ _ h => h.elim) serveClient_meets
    storesOpened_nil hreach

/-- **A request is answered as by a client that has opened no stores**, whatever other
threads ask before and at the same time; where the network may fail, it may also be
answered with an error for its URL.  So is whatever is asked next. -/
theorem client_forgets (hhosts : HostOfAuthority N) (hschemes : PlainSchemes N)
    (hreach : Reachable (clientWorld N Q faulty) (fun _ _ => False) (serveClient N) [] c) :
    (∀ t ∈ c.threads, ∀ r, t.program = .ret r →
      Answers faulty t.request.text (nativeCall N Q [] t.request).1 r) ∧
    ∀ q, (nativeCall N Q c.state q).1 = (nativeCall N Q [] q).1 := by
  have hinv := client_invariant hhosts hschemes hreach
  refine ⟨fun t ht r hr => ?_, fun q => ?_⟩
  · have hmeets := hinv.threads t ht
    rwa [hr] at hmeets
  · -- a request that is run alone while the network works
    have hmeets : (serveClient N q).Meets (clientContract N Q False)
        (Answers False q.text (nativeCall N Q [] q).1) := serveClient_meets q
    have halone := (hmeets.exec (clientContract_holds hhosts hschemes) clientWorld_clientHandler
      hinv.state).1
    rw [exec_serveClient] at halone
    exact halone.resolve_right fun h => h.1

/-- **Every store is the one that each URL with its key leads to**, and the one that
`https` URLs are answered from does not allow cleartext. -/
theorem client_stores (hhosts : HostOfAuthority N) (hschemes : PlainSchemes N)
    (hreach : Reachable (clientWorld N Q faulty) (fun _ _ => False) (serveClient N) [] c) :
    (c.state.map Prod.fst).Nodup ∧
      (∀ entry ∈ c.state, ∃ url u, N.parse url = .ok u ∧ storeKey u = entry.1) ∧
      ∀ url u store, N.parse url = .ok u → c.state.lookup (storeKey u) = some store →
        openStore N u = .ok store ∧
        (u.scheme = "https".toList → N.http (storeKey u) false = .ok store) := by
  have hstores := (client_invariant hhosts hschemes hreach).state
  refine ⟨hstores.nodup, fun entry hentry => ?_, fun url u store hparse hlookup => ?_⟩
  · obtain ⟨url, u, hparse, hkey, -⟩ := hstores.opened entry hentry
    exact ⟨url, u, hparse, hkey.symm⟩
  · obtain ⟨url', u', hparse', hkey, hopen'⟩ := hstores.opened _ (mem_of_lookup hlookup)
    have hopen := openStore_of_storeKey hhosts hschemes hparse' hparse hkey.symm hopen'
    refine ⟨hopen, fun hhttps => ?_⟩
    have hs3 : u.scheme ≠ "s3".toList := by rw [hhttps]; decide
    have hcleartext : decide (u.scheme = "http".toList) = false := by rw [hhttps]; decide
    rw [openStore, if_neg hs3, if_pos (Or.inr hhttps), hcleartext] at hopen
    cases hhttp : N.http (storeKey u) false with
    | error e => rw [hhttp] at hopen; cases hopen
    | ok store' => rw [hhttp] at hopen; cases hopen; rfl

end Shared

/-! ### Two requests at once -/

theorem plainSchemes_webNative : PlainSchemes webNative := by
  intro url u h
  change webParse url = .ok u at h
  unfold webParse at h
  split_ifs at h
  cases h
  simp

/-- The size of an object. -/
def sampleSize : ClientRequest := .size "s3://b/d/x.p".toList

/-- The size of an object is asked for twice: the second request finds the store that
the first one has opened, and the network fails for the first one. -/
theorem reachable_sample : ∃ store, Reachable (clientWorld webNative webReads True)
    (fun _ _ => False) (serveClient webNative) [] ⟨[("s3://b".toList, store)],
      [⟨sampleSize, .ret (.error (.adapter "s3://b/d/x.p".toList []))⟩,
        ⟨sampleSize, .ret (.ok (.size 4))⟩]⟩ := by
  have h₀ : Reachable (clientWorld webNative webReads True) (fun _ _ => False)
    (serveClient webNative) [] ⟨[], []⟩ := .refl
  have h₁ := (h₀.tail (.spawn _ _ sampleSize)).tail (.spawn _ _ sampleSize)
  have h₂ := (h₁.tail (.call (i := 0) rfl ⟨rfl, rfl⟩)).tail (.call (i := 1) rfl ⟨rfl, rfl⟩)
  have h₃ := (h₂.tail (.call (i := 1) (r := .ok 4) rfl ⟨Or.inl rfl, rfl⟩)).tail
    (.call (i := 0) (r := .error []) rfl ⟨Or.inr ⟨trivial, _, rfl⟩, rfl⟩)
  exact ⟨_, h₃⟩

theorem client_forgets_sample : ∃ store,
    Answers True sampleSize.text (nativeCall webNative webReads [] sampleSize).1 (.ok (.size 4)) ∧
      (nativeCall webNative webReads [("s3://b".toList, store)] sampleSize).1
        = (nativeCall webNative webReads [] sampleSize).1 := by
  obtain ⟨store, hreach⟩ := reachable_sample
  obtain ⟨hthreads, hnext⟩ :=
    client_forgets hostOfAuthority_webNative plainSchemes_webNative hreach
  have hsecond := hthreads ⟨sampleSize, .ret (.ok (.size 4))⟩ (List.mem_of_getElem? (i := 1) rfl)
    _ rfl
  exact ⟨store, hsecond, hnext sampleSize⟩

/-! ### One host with and without encryption -/

/-- Parsing of URLs of three schemes. -/
def hostParse (url : Str) : Except Str Url :=
  match ["s3".toList, "https".toList, "http".toList].find? fun scheme =>
      scheme ++ "://".toList <+: url with
  | none => .error "relative URL without a base".toList
  | some scheme =>
      let rest := url.drop (scheme.length + 3)
      let host := rest.takeWhile (· ≠ '/')
      .ok ⟨url, scheme, host, if host = [] then none else some host, rest.dropWhile (· ≠ '/')⟩

/-- Only the store that allows cleartext lists an object. -/
def hostNative : NativeLibs :=
  { webNative with
    parse := hostParse
    http := fun _ cleartext => .ok ⟨fun _ => .ok (if cleartext then ["x".toList] else [])⟩ }

theorem hostParse_spec (h : hostParse url = .ok u) :
    u.scheme ∈ ["s3".toList, "https".toList, "http".toList] ∧
      u.host = if u.authority = [] then none else some u.authority := by
  unfold hostParse at h
  split at h
  · cases h
  · next scheme hscheme =>
    cases h
    exact ⟨List.mem_of_find?_eq_some hscheme, rfl⟩

theorem plainSchemes_hostNative : PlainSchemes hostNative := by
  intro url u h
  have hplain : ∀ scheme ∈ ["s3".toList, "https".toList, "http".toList], ':' ∉ scheme := by simp
  exact hplain _ (hostParse_spec h).1

theorem hostOfAuthority_hostNative : HostOfAuthority hostNative := by
  intro url url' u u' h h' hauthority
  rw [(hostParse_spec h).2, (hostParse_spec h').2, hauthority]

/-- A host is asked without encryption first, and then with it. -/
theorem client_stores_sample : ∃ cleartext encrypted,
    Reachable (clientWorld hostNative webReads True) (fun _ _ => False) (serveClient hostNative) []
      ⟨[("https://h".toList, encrypted), ("http://h".toList, cleartext)],
        [⟨.size "http://h/x".toList, .ret (.error (.adapter "http://h/x".toList []))⟩,
          ⟨.size "https://h/x".toList, .ret (.error (.adapter "https://h/x".toList []))⟩]⟩ ∧
    hostNative.http "https://h".toList false = .ok encrypted := by
  have h₀ : Reachable (clientWorld hostNative webReads True) (fun _ _ => False)
    (serveClient hostNative) [] ⟨[], []⟩ := .refl
  have h₁ := (h₀.tail (.spawn _ _ (.size "http://h/x".toList))).tail
    (.spawn _ _ (.size "https://h/x".toList))
  have h₂ := (h₁.tail (.call (i := 0) rfl ⟨rfl, rfl⟩)).tail (.call (i := 1) rfl ⟨rfl, rfl⟩)
  have h₃ := (h₂.tail (.call (i := 1) (r := .error []) rfl ⟨Or.inr ⟨trivial, _, rfl⟩, rfl⟩)).tail
    (.call (i := 0) (r := .error []) rfl ⟨Or.inr ⟨trivial, _, rfl⟩, rfl⟩)
  obtain ⟨-, -, hopened⟩ :=
    client_stores hostOfAuthority_hostNative plainSchemes_hostNative h₃
  exact ⟨_, _, h₃, (hopened "https://h/x".toList _ _ rfl rfl).2 rfl⟩

end ParquetFileFs
