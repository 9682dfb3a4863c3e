import ParquetFileFs.Py.Clashes

/-!
# `find` as a walk

`find` filters the sorted lists of files and directories by a prefix and by a
number of separators.  When no file is also a directory this is what a walk
collects that lists a directory, keeps its files and goes into its directories,
for a number of levels.

## Main definitions

* `walk` — the walk, with fuel for its recursion.
* `Walked` — the names it collects.

## Main results

* `walk_collects` — **with enough fuel the walk collects each of its names once.**
* `find_eq_walk` — **`find` returns the names of the walk, sorted.**
-/

namespace ParquetFileFs

open Segments

/-! ### The walk -/

/-- List a path, keep the files and, with directories, the directories, and walk
into the directories while levels are left. -/
def walk (ix : Index) (withdirs : Bool) : ℕ → Option ℤ → Str → Option (List Str)
  | 0, _, _ => none
  | fuel + 1, levels, path =>
      if ∃ d ∈ levels, d < 1 then some []
      else
        match ix.ls path with
        | .error _ => some []
        | .ok entries =>
            (entries.mapM fun (e : DirEntry) =>
              if e.isDir then
                (walk ix withdirs fuel (levels.map (· - 1)) e.name).map fun below =>
                  (if withdirs then [e.name] else []) ++ below
              else some [e.name]).map List.flatten

/-- The names a walk collects: those below its start, within its levels. -/
structure Walked (ix : Index) (withdirs : Bool) (levels : Option ℤ) (n x : Str) : Prop where
  isName : x ∈ ix.files.keys ∨ withdirs = true ∧ x ∈ ix.dirs.keys
  below : stem '/' n <+: x
  within : ∀ d ∈ levels, (x.count '/' : ℤ) - (stem '/' n).count '/' < d

theorem mapM_eq_some {α β : Type} {f : α → Option β} {g : α → β} {l : List α}
    (h : ∀ a ∈ l, f a = some (g a)) : l.mapM f = some (l.map g) := by
  induction l with
  | nil => rfl
  | cons a l ih =>
    rw [List.mapM_cons, h a List.mem_cons_self, ih fun b hb => h b (List.mem_cons_of_mem a hb)]
    rfl

section Step

variable {ix : Index} {withdirs : Bool} {levels : Option ℤ} {n c x : Str}

/-- One more segment uses up one level. -/
theorem count_stem_child (hc : IsChild '/' n c) :
    c.count '/' = (stem '/' n).count '/' ∧ (stem '/' c).count '/' = (stem '/' n).count '/' + 1 := by
  obtain ⟨s, hs, hsep, rfl⟩ := hc
  have hzero : s.count '/' = 0 := List.count_eq_zero.mpr hsep
  have hne : stem '/' n ++ s ≠ [] := by simp [hs]
  constructor
  · rw [List.count_append, hzero, Nat.add_zero]
  · rw [stem_of_ne_nil hne, List.count_append, List.count_append, hzero]
    simp

/-- What is walked from a child is walked from its parent, one level up. -/
theorem Walked.of_child (hc : IsChild '/' n c)
    (h : Walked ix withdirs (levels.map (· - 1)) c x) : Walked ix withdirs levels n x := by
  refine ⟨h.isName, ?_, fun d hd => ?_⟩
  · have hne : c ≠ [] := hc.ne_nil
    have hpre := h.below
    rw [stem_of_ne_nil hne] at hpre
    exact hc.stem_isPrefix.trans ((List.prefix_append c ['/']).trans hpre)
  · have hwithin := h.within (d - 1) (Option.mem_map_of_mem _ hd)
    have hcount := (count_stem_child hc).2
    omega

theorem Walked.child (hc : IsChild '/' n c) (hlevels : ∀ d ∈ levels, 1 ≤ d)
    (h : c ∈ ix.files.keys ∨ withdirs = true ∧ c ∈ ix.dirs.keys) :
    Walked ix withdirs levels n c := by
  refine ⟨h, hc.stem_isPrefix, fun d hd => ?_⟩
  have hcount := (count_stem_child hc).1
  have hd := hlevels d hd
  omega

/-- A walked name is a child of the start, or walked from a child that is a directory. -/
theorem Walked.cases (hwf : ix.WellFormed) (hn : n = [] ∨ n ∈ ix.dirs.keys)
    (h : Walked ix withdirs levels n x) :
    ∃ c, IsChild '/' n c ∧ IsEntryName ix n c ∧
      (x = c ∨ c ∈ ix.dirs.keys ∧ Walked ix withdirs (levels.map (· - 1)) c x) := by
  have hx : Canonical '/' x ∧ x ≠ [] := h.isName.elim
    (fun hf => ⟨hwf.canonical hf, hwf.ne_nil hf⟩) fun hd => hwf.canonical_dir hd.2
  -- the stem of `n` is longer than `n`, so `n` itself is not below it
  have hne : x ≠ n := by
    rintro rfl
    have hlen := h.below.length_le
    rw [stem_of_ne_nil hx.2] at hlen
    simp at hlen
  obtain ⟨c, hc, hat⟩ := exists_child hx.1 hne h.below
  -- some file is at or below the name, so at or below the child
  have hfile : ∃ k ∈ ix.files.keys, AtOrBelow '/' x k := by
    rcases h.isName with hf | ⟨-, hd⟩
    · exact ⟨x, hf, Or.inl rfl⟩
    · obtain ⟨k, hk, hbelow⟩ := hwf.mem_dirs.mp hd
      exact ⟨k, hk, Or.inr hbelow⟩
  obtain ⟨k, hk, hxk⟩ := hfile
  rcases hat with rfl | hcx
  · exact ⟨x, hc, ⟨hc, k, hk, hxk⟩, Or.inl rfl⟩
  · have hck : c ++ ['/'] <+: k := hxk.elim (fun e => e ▸ hcx) (append_sep_prefix_trans hcx)
    refine ⟨c, hc, ⟨hc, k, hk, Or.inr hck⟩,
      Or.inr ⟨hwf.mem_dirs.mpr ⟨k, hk, hck⟩, h.isName, ?_, fun d hd => ?_⟩⟩
    · rwa [stem_of_ne_nil hc.ne_nil]
    · obtain ⟨d', hd', rfl⟩ := Option.mem_map.mp hd
      have hwithin := h.within d' hd'
      have hcount := (count_stem_child hc).2
      omega

/-- Nothing is walked when no levels are left. -/
theorem not_walked {d : ℤ} (hd : d ∈ levels) (hlt : d < 1) : ¬Walked ix withdirs levels n x := by
  intro h
  have hcount : (stem '/' n).count '/' ≤ x.count '/' := h.below.sublist.count_le '/'
  have hwithin := h.within d hd
  omega

end Step

/-! ### What the walk collects -/

section Collects

variable {ix : Index} {withdirs : Bool}

/-- What the walk collects from one entry. -/
def entryNames (ix : Index) (withdirs : Bool) (fuel : ℕ) (levels : Option ℤ) (e : DirEntry) :
    List Str :=
  if e.isDir then
    (if withdirs then [e.name] else []) ++
      (walk ix withdirs fuel (levels.map (· - 1)) e.name).getD []
  else [e.name]

/-- The walk of a directory, entry by entry. -/
theorem walk_dir {fuel : ℕ} {levels : Option ℤ} {n : Str} {es : List DirEntry}
    (hlevels : ∀ d ∈ levels, 1 ≤ d) (hls : ix.ls n = .ok es)
    (hsub : ∀ e ∈ es, e.isDir = true →
      ∃ l, walk ix withdirs fuel (levels.map (· - 1)) e.name = some l) :
    walk ix withdirs (fuel + 1) levels n
      = some (es.flatMap (entryNames ix withdirs fuel levels)) := by
  have hleft : ¬∃ d ∈ levels, d < 1 := by
    rintro ⟨d, hd, hlt⟩
    have hle := hlevels d hd
    omega
  rw [walk, if_neg hleft, hls, List.flatMap]
  change Option.map List.flatten (es.mapM _) = Option.map List.flatten (some (es.map _))
  refine congrArg (Option.map List.flatten) (mapM_eq_some fun e he => ?_)
  unfold entryNames
  split
  · next hd =>
    obtain ⟨l, hl⟩ := hsub e he hd
    rw [hl]
    rfl
  · rfl

/-- An entry of a listing is a child, and a directory among them is walked right. -/
structure EntryHolds (ix : Index) (withdirs : Bool) (fuel : ℕ) (levels : Option ℤ) (n : Str)
    (e : DirEntry) : Prop where
  child : IsChild '/' n e.name
  file : e.isDir = false → e.name ∈ ix.files.keys
  dir : e.isDir = true → e.name ∈ ix.dirs.keys
  walked : e.isDir = true →
    ∃ l, walk ix withdirs fuel (levels.map (· - 1)) e.name = some l ∧ l.Nodup ∧
      ∀ x, x ∈ l ↔ Walked ix withdirs (levels.map (· - 1)) e.name x

namespace EntryHolds

variable {fuel : ℕ} {levels : Option ℤ} {n x : Str} {e : DirEntry}

theorem mem_entryNames (h : EntryHolds ix withdirs fuel levels n e) :
    x ∈ entryNames ix withdirs fuel levels e ↔
      (x = e.name ∧ (e.isDir = true → withdirs = true)) ∨
      (e.isDir = true ∧ Walked ix withdirs (levels.map (· - 1)) e.name x) := by
  unfold entryNames
  cases hd : e.isDir with
  | false => simp
  | true =>
    obtain ⟨l, hl, -, hmem⟩ := h.walked hd
    rw [if_pos rfl, hl, Option.getD_some, List.mem_append, hmem]
    cases withdirs <;> simp

/-- What an entry contributes is at or below it. -/
theorem atOrBelow (h : EntryHolds ix withdirs fuel levels n e)
    (hx : x ∈ entryNames ix withdirs fuel levels e) : AtOrBelow '/' e.name x := by
  rcases h.mem_entryNames.mp hx with ⟨rfl, -⟩ | ⟨-, hw⟩
  · exact Or.inl rfl
  · have hbelow := hw.below
    rw [stem_of_ne_nil h.child.ne_nil] at hbelow
    exact Or.inr hbelow

theorem nodup_entryNames (h : EntryHolds ix withdirs fuel levels n e) :
    (entryNames ix withdirs fuel levels e).Nodup := by
  unfold entryNames
  split
  · next hd =>
    obtain ⟨l, hl, hnd, hmem⟩ := h.walked hd
    rw [hl, Option.getD_some]
    -- what is walked from a directory is longer than its name
    have hself : e.name ∉ l := by
      intro hin
      have hlen := ((hmem e.name).mp hin).below.length_le
      rw [stem_of_ne_nil h.child.ne_nil] at hlen
      simp at hlen
    cases withdirs
    · simpa using hnd
    · simpa using ⟨hself, hnd⟩
  · exact List.nodup_singleton _

end EntryHolds

/-- The directory's names are those of its entries, each once. -/
theorem nodup_flatMap_entryNames {fuel : ℕ} {levels : Option ℤ} {n : Str} {es : List DirEntry}
    (hsorted : (es.map DirEntry.name).Pairwise (· < ·))
    (h : ∀ e ∈ es, EntryHolds ix withdirs fuel levels n e) :
    (es.flatMap (entryNames ix withdirs fuel levels)).Nodup := by
  rw [List.nodup_flatMap]
  refine ⟨fun e he => (h e he).nodup_entryNames, ?_⟩
  have hne : es.Pairwise fun a b => a.name ≠ b.name :=
    (List.pairwise_map.mp hsorted).imp fun hlt => ne_of_lt hlt
  -- a name is at or below one child only
  refine hne.imp_of_mem fun {a b} ha hb hab x hxa hxb => hab ?_
  exact child_unique (h a ha).child (h b hb).child ((h a ha).atOrBelow hxa) ((h b hb).atOrBelow hxb)

theorem mem_flatMap_entryNames (hwf : ix.WellFormed) (hno : ix.NoClash) {fuel : ℕ}
    {levels : Option ℤ} {n x : Str} {es : List DirEntry} (hn : n = [] ∨ n ∈ ix.dirs.keys)
    (hlevels : ∀ d ∈ levels, 1 ≤ d) (hlist : IsListing ix n es)
    (h : ∀ e ∈ es, EntryHolds ix withdirs fuel levels n e) :
    x ∈ es.flatMap (entryNames ix withdirs fuel levels) ↔ Walked ix withdirs levels n x := by
  rw [List.mem_flatMap]
  constructor
  · rintro ⟨e, he, hx⟩
    rcases (h e he).mem_entryNames.mp hx with ⟨rfl, hw⟩ | ⟨hd, hw⟩
    · refine Walked.child (h e he).child hlevels ?_
      cases hd : e.isDir with
      | false => exact Or.inl ((h e he).file hd)
      | true => exact Or.inr ⟨hw hd, (h e he).dir hd⟩
    · exact hw.of_child (h e he).child
  · intro hw
    obtain ⟨c, hc, hentry, hcase⟩ := hw.cases hwf hn
    obtain ⟨e, he, rfl⟩ := List.mem_map.mp (hlist.mem_names.mpr hentry)
    refine ⟨e, he, (h e he).mem_entryNames.mpr ?_⟩
    rcases hcase with rfl | ⟨hdir, hw'⟩
    · -- a file is no directory, so a directory is collected only with directories
      refine Or.inl ⟨rfl, fun hd => ?_⟩
      exact hw.isName.elim (fun hf => absurd hf ((hlist.isDir_iff he).mp hd)) And.left
    · refine Or.inr ⟨(hlist.isDir_iff he).mpr fun hf => ?_, hw'⟩
      exact hwf.noClash_iff.mp hno e.name hf hdir

/-- **With enough fuel the walk of a directory collects each of its names once.**
The induction is on the fuel, which bounds how much longer than the directory
a file below it can be. -/
theorem walk_collects (withdirs : Bool) (levels : Option ℤ) (hwf : ix.WellFormed)
    (hno : ix.NoClash) {fuel : ℕ} (hfuel : 0 < fuel) {n : Str} (hcanon : Canonical '/' n)
    (hn : n = [] ∨ n ∈ ix.dirs.keys)
    (hlen : ∀ k ∈ ix.files.keys, k.length < n.length + fuel) :
    ∃ l, walk ix withdirs fuel levels n = some l ∧ l.Nodup ∧
      ∀ x, x ∈ l ↔ Walked ix withdirs levels n x := by
  induction fuel generalizing levels n with
  | zero => omega
  | succ fuel ih =>
    by_cases hlevels : ∃ d ∈ levels, d < 1
    · obtain ⟨d, hd, hlt⟩ := hlevels
      refine ⟨[], by rw [walk, if_pos ⟨d, hd, hlt⟩], List.nodup_nil, fun x => ?_⟩
      simp [not_walked hd hlt]
    · have hlevels' : ∀ d ∈ levels, 1 ≤ d := by
        intro d hd
        by_contra hlt
        exact hlevels ⟨d, hd, by omega⟩
      -- the walk lists a directory as a directory, since no file has its name
      have hnot : n ∉ ix.files.keys := by
        intro hf
        rcases hn with rfl | hd
        · exact hwf.ne_nil hf rfl
        · exact hwf.noClash_iff.mp hno n hf hd
      have hnorm : normalize n = n := normalize_eq_self_iff.mpr hcanon
      obtain ⟨es, hls, hlist⟩ := hwf.ls_dir (hnorm.symm ▸ hnot)
        (hnorm.symm ▸ hn.imp_right hwf.mem_dirs.mp)
      rw [hnorm] at hlist
      have hentry : ∀ e ∈ es, EntryHolds ix withdirs fuel levels n e := by
        intro e he
        obtain ⟨hchild, k, hk, hat⟩ := hlist.mem_names.mp (List.mem_map_of_mem he)
        have hbelow : e.isDir = true → e.name ++ ['/'] <+: k := fun hd =>
          hat.resolve_left fun heq => (hlist.isDir_iff he).mp hd (heq ▸ hk)
        have hdir : e.isDir = true → e.name ∈ ix.dirs.keys := fun hd =>
          hwf.mem_dirs.mpr ⟨k, hk, hbelow hd⟩
        refine ⟨hchild, fun hf => ?_, hdir, fun hd => ?_⟩
        · by_contra hno'
          rw [(hlist.isDir_iff he).mpr hno'] at hf
          cases hf
        · -- the child is longer, so the fuel that is left is enough for it
          have hshort : n.length < e.name.length := by
            obtain ⟨s, hs, -, heq⟩ := hchild
            have hpos := List.length_pos_iff.mpr hs
            have hstem : n.length ≤ (stem '/' n).length := by cases n <;> simp [stem]
            rw [heq, List.length_append]
            omega
          have hlen' : ∀ k ∈ ix.files.keys, k.length < e.name.length + fuel := by
            intro k hk
            have hlt := hlen k hk
            omega
          have hpos : 0 < fuel := by
            have hlt := hlen' k hk
            have hle := (hbelow hd).length_le
            rw [List.length_append, List.length_singleton] at hle
            omega
          exact ih _ hpos (hwf.canonical_dir (hdir hd)).1 (Or.inr (hdir hd)) hlen'
      have hwalk : walk ix withdirs (fuel + 1) levels n
          = some (es.flatMap (entryNames ix withdirs fuel levels)) :=
        walk_dir hlevels' hls fun e he hd => ((hentry e he).walked hd).imp fun _ h => h.1
      exact ⟨_, hwalk, nodup_flatMap_entryNames hlist.sorted hentry,
        fun x => mem_flatMap_entryNames hwf hno hn hlevels' hlist hentry⟩

end Collects

/-! ### `find` and the walk -/

theorem exists_length_lt (ks : List Str) : ∃ N, 0 < N ∧ ∀ k ∈ ks, k.length < N := by
  induction ks with
  | nil => exact ⟨1, Nat.one_pos, by simp⟩
  | cons k ks ih =>
    obtain ⟨N, hpos, hN⟩ := ih
    refine ⟨max N (k.length + 1), by omega, fun k' hk' => ?_⟩
    rcases List.mem_cons.mp hk' with rfl | hk'
    · omega
    · have hlt := hN k' hk'
      omega

namespace ParquetFileSystem

variable {fs : ParquetFileSystem}

/-- Below a directory `find` finds what is walked from it. -/
theorem mem_findNames_iff_walked {path x : Str} {maxdepth : Option ℤ} {withdirs : Bool}
    (hcanon : Canonical '/' (fs.stripProtocol path))
    (hdir : fs.stripProtocol path = [] ∨ fs.stripProtocol path ∈ fs.dirs) :
    x ∈ fs.findNames path maxdepth withdirs ↔
      Walked fs.archive withdirs maxdepth (fs.stripProtocol path) x := by
  have hself : ¬FindsItself fs (fs.stripProtocol path) := by
    rw [findsItself_iff hcanon]
    rintro ⟨hfile, hno⟩
    exact hdir.elim (fs.wellFormed.ne_nil hfile) hno
  rw [mem_findNames, withinDepth_iff]
  constructor
  · rintro ⟨⟨hfile, hpre⟩ | ⟨hfind, -⟩ | ⟨hw, hd, hpre⟩, hwithin⟩
    · exact ⟨Or.inl hfile, hpre, hwithin⟩
    · exact absurd hfind hself
    · exact ⟨Or.inr ⟨hw, hd⟩, hpre, hwithin⟩
  · rintro ⟨hname, hpre, hwithin⟩
    exact ⟨hname.imp (fun hf => ⟨hf, hpre⟩) fun hd => Or.inr ⟨hd.1, hd.2, hpre⟩, hwithin⟩

theorem not_below_of_noClash (hno : fs.archive.NoClash) {n : Str} {withdirs : Bool} :
    withdirs = true → ∀ x ∈ fs.paths, x ∈ fs.dirs → ¬stem '/' n <+: x :=
  fun _ x hfile hdir => absurd hdir (fs.wellFormed.noClash_iff.mp hno x hfile)

/-- A path that is a file is found as itself. -/
theorem findNames_file (hno : fs.archive.NoClash) {path : Str} {maxdepth : Option ℤ}
    (hdepth : ∀ d ∈ maxdepth, 1 ≤ d) (withdirs : Bool) (hfile : fs.stripProtocol path ∈ fs.paths) :
    fs.findNames path maxdepth withdirs = [fs.stripProtocol path] := by
  have hcanon := fs.wellFormed.canonical hfile
  have hne := fs.wellFormed.ne_nil hfile
  have hnodir := fs.wellFormed.noClash_iff.mp hno _ hfile
  refine eq_of_pairwise_lt (pairwise_findNames maxdepth (not_below_of_noClash hno))
    (List.pairwise_singleton _ _) fun x => ?_
  rw [mem_findNames, withinDepth_iff, List.mem_singleton]
  constructor
  · -- a name below the file would make the file a directory
    rintro ⟨⟨hx, hpre⟩ | ⟨-, rfl⟩ | ⟨-, hx, hpre⟩, -⟩
    · rw [stem_of_ne_nil hne] at hpre
      exact absurd (fs.wellFormed.mem_dirs.mpr ⟨x, hx, hpre⟩) hnodir
    · rfl
    · rw [stem_of_ne_nil hne] at hpre
      exact absurd (fs.wellFormed.mem_dirs_of_below_dir hx hpre) hnodir
  · rintro rfl
    refine ⟨Or.inr (Or.inl ⟨(findsItself_iff hcanon).mpr ⟨hfile, hnodir⟩, rfl⟩), fun d hd => ?_⟩
    have hle := hdepth d hd
    rw [stem_of_ne_nil hne, List.count_append]
    simp
    omega

/-- **`find` returns the names of the walk, sorted.**  The walk ends: with enough
fuel it returns.  From the root, with no limit, it collects every file once. -/
theorem find_eq_walk (hno : fs.archive.NoClash) (path : Str)
    (hcanon : Canonical '/' (fs.stripProtocol path)) (maxdepth : Option ℤ)
    (hdepth : ∀ d ∈ maxdepth, 1 ≤ d) (withdirs : Bool) :
    (∃ fuel₀, ∀ fuel, fuel₀ ≤ fuel → ∃ names,
      walk fs.archive withdirs fuel maxdepth (fs.stripProtocol path) = some names ∧
      fs.find path maxdepth withdirs false = .ok (.names (sortStrs names))) ∧
    (fs.stripProtocol path ∈ fs.paths →
      fs.find path maxdepth withdirs false = .ok (.names [fs.stripProtocol path])) ∧
    (¬fs.archive.IsName (fs.stripProtocol path) →
      fs.find path maxdepth withdirs false = .ok (.names [])) ∧
    (∃ fuel₀, ∀ fuel, fuel₀ ≤ fuel → ∃ names,
      walk fs.archive withdirs fuel none [] = some names ∧ ∀ k ∈ fs.paths, names.count k = 1) := by
  have hnorm : normalize (fs.stripProtocol path) = fs.stripProtocol path :=
    normalize_eq_self_iff.mpr hcanon
  have hleft : ¬∃ d ∈ maxdepth, d < 1 := by
    rintro ⟨d, hd, hlt⟩
    have hle := hdepth d hd
    omega
  have hnone : ¬fs.archive.IsName (fs.stripProtocol path) →
      fs.findNames path maxdepth withdirs = [] := fun hname =>
    findNames_eq_nil (Or.inl (hnorm.symm ▸ hname)) maxdepth withdirs
  -- fuel for every file, however deep
  obtain ⟨N, hpos, hN⟩ := exists_length_lt fs.paths
  refine ⟨⟨N, fun fuel hfuel => ?_⟩, fun hfile => ?_, fun hname => ?_, N, fun fuel hfuel => ?_⟩
  · rw [find_false]
    obtain ⟨fuel, rfl⟩ : ∃ f, fuel = f + 1 := ⟨fuel - 1, by omega⟩
    by_cases hfile : fs.stripProtocol path ∈ fs.paths
    · refine ⟨[fs.stripProtocol path], ?_, ?_⟩
      · rw [walk, if_neg hleft, fs.wellFormed.ls_file (hnorm.symm ▸ hfile), hnorm]
        rfl
      · rw [findNames_file hno hdepth withdirs hfile]
        rfl
    · by_cases hdir : fs.stripProtocol path = [] ∨ fs.stripProtocol path ∈ fs.dirs
      · obtain ⟨names, hwalk, hnd, hmem⟩ := walk_collects withdirs maxdepth fs.wellFormed hno
          (Nat.succ_pos fuel) hcanon hdir (by intro k hk; have hlt := hN k hk; omega)
        refine ⟨names, hwalk, congrArg (fun l => Except.ok (Listing.names l)) ?_⟩
        refine eq_of_pairwise_lt (pairwise_findNames maxdepth (not_below_of_noClash hno))
          (pairwise_sortStrs hnd) fun x => ?_
        rw [mem_sortStrs, hmem, mem_findNames_iff_walked hcanon hdir]
      · have hname : ¬fs.archive.IsName (fs.stripProtocol path) := by
          rintro ⟨-, hnil | hf | hd⟩
          · exact hdir (Or.inl hnil)
          · exact hfile hf
          · exact hdir (Or.inr hd)
        refine ⟨[], ?_, ?_⟩
        · rw [walk, if_neg hleft, fs.wellFormed.ls_notFound (hnorm.symm ▸ hfile)]
          rw [hnorm, ← fs.wellFormed.mem_dirs]
          exact hdir
        · rw [hnone hname]
          rfl
  · rw [find_false, findNames_file hno hdepth withdirs hfile]
  · rw [find_false, hnone hname]
  · obtain ⟨names, hwalk, hnd, hmem⟩ := walk_collects withdirs none fs.wellFormed hno
      (Nat.lt_of_lt_of_le hpos hfuel) canonical_nil (Or.inl rfl)
      (by intro k hk; have hlt := hN k hk; omega)
    refine ⟨names, hwalk, fun k hk => List.count_eq_one_of_mem hnd ((hmem k).mpr ?_)⟩
    exact ⟨Or.inl hk, List.nil_prefix, by simp⟩

end ParquetFileSystem

/-! ### The first shard alone -/

/-- The first shard alone: the files `a` and `b/c`. -/
def sampleTreeAdapters : Adapters :=
  ⟨fun _ => some { sampleRangeReader with list := fun _ => .ok ["u".toList] },
    sampleRangeReader, sampleRangeReader⟩

def sampleTreeIndex : Index :=
  match buildIndex sampleTreeAdapters sampleReader none none [[]] .first with
  | .ok ix => ix
  | .error _ => Index.empty

def sampleTree : ParquetFileSystem :=
  { sampleFileSystem with
    archive := sampleTreeIndex
    wellFormed := wellFormed_of_buildIndex
      (show buildIndex sampleTreeAdapters sampleReader none none [[]] .first = .ok sampleTreeIndex
        from rfl) }

theorem noClash_sampleTree : sampleTree.archive.NoClash := by
  intro k hk k' hk'
  revert k k'
  decide

theorem ParquetFileSystem.find_eq_walk_sample :
    (∃ fuel₀, ∀ fuel, fuel₀ ≤ fuel → ∃ names,
      walk sampleTree.archive true fuel (some 1) [] = some names ∧
      sampleTree.find [] (some 1) true false = .ok (.names (sortStrs names))) ∧
    (∃ fuel₀, ∀ fuel, fuel₀ ≤ fuel → ∃ names,
      walk sampleTree.archive true fuel none [] = some names ∧
      ∀ k ∈ ["a".toList, "b/c".toList], names.count k = 1) := by
  have h := find_eq_walk noClash_sampleTree [] (by decide) (some 1) (by decide) true
  exact ⟨h.1, h.2.2.2⟩

end ParquetFileFs
