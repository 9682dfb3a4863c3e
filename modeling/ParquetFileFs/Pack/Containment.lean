import ParquetFileFs.Pack.Paths

/-!
# A stored path stays below its root

The cleaned components of a path are an optional root and the names it is
spelled with.  A file has a stored path exactly when it lies below the root by
ordinary names, and the stored path is these names.

## Main definitions

* `nameSegs` — the segments of a path that count.
* `IsName` — the ordinary names.

## Main results

* `clean_pushPath` — pushing a relative path appends its components.
* `storedPath_ok_iff` — **a stored path is what leads from the root to the file.**
* `storedPath_contained` — stored paths exist exactly below the root, lead back
  to the file, and are different for different files.
-/

namespace ParquetFileFs

open Segments

/-! ### Cleaned components -/

/-- The segments of a path that count. -/
def nameSegs (p : Str) : List Str := (segs '/' p).filter (· ≠ ".".toList)

/-- The names of ordinary components. -/
def IsName (s : Str) : Prop := s ≠ [] ∧ '/' ∉ s ∧ s ≠ ".".toList ∧ s ≠ "..".toList

theorem filter_splitOn (p : Str) :
    (p.splitOn '/').filter (fun s => s ≠ [] ∧ s ≠ ".".toList) = nameSegs p := by
  rw [nameSegs, segs, List.filter_filter]
  apply List.filter_congr
  intro s _
  rw [Bool.decide_and, Bool.and_comm]

/-- A root, if there is one, and then the names. -/
theorem clean_eq (p : Str) : clean p =
    (if p.head? = some '/' then [.rootDir] else []) ++ (nameSegs p).map segComponent := by
  have hnames : ((nameSegs p).map segComponent).filter (· ≠ .curDir)
      = (nameSegs p).map segComponent := by
    rw [List.filter_eq_self]
    intro c hc
    obtain ⟨s, -, rfl⟩ := List.mem_map.mp hc
    unfold segComponent
    split_ifs <;> simp
  unfold clean components
  simp only
  rw [List.filter_append, filter_splitOn, hnames]
  split_ifs <;> rfl

theorem of_mem_nameSegs {p s : Str} (h : s ∈ nameSegs p) : s ≠ [] ∧ '/' ∉ s ∧ s ≠ ".".toList := by
  rw [nameSegs, List.mem_filter] at h
  obtain ⟨hne, hsep⟩ := of_mem_segs h.1
  exact ⟨hne, hsep, by simpa using h.2⟩

theorem nameSegs_append_sep (a b : Str) : nameSegs (a ++ '/' :: b) = nameSegs a ++ nameSegs b := by
  rw [nameSegs, segs_append_sep, List.filter_append]
  rfl

@[simp] theorem nameSegs_nil : nameSegs [] = [] := by simp [nameSegs]

@[simp] theorem clean_nil : clean [] = [] := by simp [clean_eq]

theorem segComponent_of_isName {s : Str} (h : IsName s) : segComponent s = .normal s :=
  if_neg h.2.2.2

/-- The ordinary components are those with ordinary names. -/
theorem isName_of_normal_mem_clean {p s : Str} (h : Component.normal s ∈ clean p) : IsName s := by
  rw [clean_eq, List.mem_append] at h
  rcases h with h | h
  · split_ifs at h <;> simp at h
  · obtain ⟨t, ht, hts⟩ := List.mem_map.mp h
    unfold segComponent at hts
    split_ifs at hts with hdots
    cases hts
    obtain ⟨hne, hsep, hdot⟩ := of_mem_nameSegs ht
    exact ⟨hne, hsep, hdot, hdots⟩

/-! ### Joining -/

theorem nameSegs_join {ss : List Str} (h : ∀ s ∈ ss, IsName s) : nameSegs (join '/' ss) = ss := by
  rw [nameSegs, segs_join fun s hs => ⟨(h s hs).1, (h s hs).2.1⟩, List.filter_eq_self]
  intro s hs
  simpa using (h s hs).2.2.1

theorem head?_join {ss : List Str} (h : ∀ s ∈ ss, IsName s) : (join '/' ss).head? ≠ some '/' := by
  cases ss with
  | nil => simp
  | cons s ss =>
    obtain ⟨hne, hsep, -⟩ := h s List.mem_cons_self
    cases s with
    | nil => exact absurd rfl hne
    | cons c s =>
      have hc : c ≠ '/' := by
        rintro rfl
        exact hsep List.mem_cons_self
      cases ss with
      | nil => simpa using hc
      | cons t ss => simpa [join_cons_cons] using hc

/-- Names joined by separators are the components again. -/
theorem components_join {ss : List Str} (h : ∀ s ∈ ss, IsName s) :
    components (join '/' ss) = ss.map .normal := by
  have hmap : ss.map segComponent = ss.map .normal :=
    List.map_congr_left fun s hs => segComponent_of_isName (h s hs)
  have hdot : ((join '/' ss).splitOn '/').head? ≠ some ".".toList := by
    intro hhead
    by_cases hss : ss = []
    · subst hss
      simp at hhead
    · have hsplit : (join '/' ss).splitOn '/' = ss :=
        List.splitOn_intercalate '/' (fun s hs => (h s hs).2.1) hss
      rw [hsplit] at hhead
      exact (h _ (List.mem_of_mem_head? hhead)).2.2.1 rfl
  unfold components
  simp only
  rw [if_neg (head?_join h), if_neg hdot, filter_splitOn, nameSegs_join h, hmap]
  rfl

theorem clean_join {ss : List Str} (h : ∀ s ∈ ss, IsName s) :
    clean (join '/' ss) = ss.map .normal := by
  rw [clean_eq, if_neg (head?_join h), nameSegs_join h, List.nil_append]
  exact List.map_congr_left fun s hs => segComponent_of_isName (h s hs)

/-- **Pushing a relative path appends its components.** -/
theorem clean_pushPath (p : Str) {seg : Str} (hseg : seg.head? ≠ some '/') :
    clean (pushPath p seg) = clean p ++ clean seg := by
  have hclean : clean seg = (nameSegs seg).map segComponent := by
    rw [clean_eq, if_neg hseg, List.nil_append]
  unfold pushPath
  rw [if_neg hseg]
  split
  · next hp =>
    rcases hp with rfl | hlast
    · simp
    · -- the separator at the end of the path stands between the two
      obtain ⟨q, rfl⟩ := List.getLast?_eq_some_iff.mp hlast
      have hnames : nameSegs (q ++ ['/']) = nameSegs q := by
        have h := nameSegs_append_sep q []
        rwa [nameSegs_nil, List.append_nil] at h
      have hhead : (q ++ ['/'] ++ seg).head? = (q ++ ['/']).head? := by
        cases q <;> rfl
      rw [clean_eq, hhead, hclean, clean_eq, hnames, List.append_assoc, List.singleton_append,
        nameSegs_append_sep, List.map_append, List.append_assoc]
  · next hp =>
    have hhead : (p ++ '/' :: seg).head? = p.head? := by
      cases p with
      | nil => exact absurd (Or.inl rfl) hp
      | cons c p => rfl
    rw [clean_eq, hhead, hclean, clean_eq, nameSegs_append_sep, List.map_append, List.append_assoc]

/-! ### What lies below a root -/

theorem mapM_map_normal (names : List Str) :
    (names.map Component.normal).mapM Component.name? = some names := by
  induction names with
  | nil => rfl
  | cons s ss ih =>
    rw [List.map_cons, List.mapM_cons, ih]
    rfl

/-- **A stored path is what leads from the root to the file.** -/
theorem storedPath_ok_iff {file root s : Str} : storedPath file root = .ok s ↔
    ∃ names : List Str, names ≠ [] ∧ clean file = clean root ++ names.map .normal ∧
      s = join '/' names := by
  constructor
  · intro h
    unfold storedPath at h
    split at h
    · next hpre =>
      obtain ⟨rest, hrest⟩ := hpre
      rw [← hrest, List.drop_left] at h
      split at h
      · cases h
      · cases h
      · next t ts hnames =>
        cases h
        exact ⟨t :: ts, List.cons_ne_nil t ts, by rw [← hrest, mapM_name? hnames], rfl⟩
    · cases h
  · rintro ⟨names, hne, hfile, rfl⟩
    obtain ⟨t, ts, rfl⟩ := List.exists_cons_of_ne_nil hne
    unfold storedPath
    rw [if_pos ⟨_, hfile.symm⟩, hfile, List.drop_left, mapM_map_normal]

theorem isName_of_clean_eq {file root : Str} {names : List Str}
    (h : clean file = clean root ++ names.map .normal) : ∀ s ∈ names, IsName s := by
  intro s hs
  apply isName_of_normal_mem_clean (p := file)
  rw [h]
  exact List.mem_append_right _ (List.mem_map_of_mem hs)

/-- **Stored paths are contained, exact and injective.**  There is one exactly
when the root is a proper prefix of the file and only ordinary names follow; it
consists of ordinary names, leads from the root to the file again, and under one
root no other file has it. -/
theorem storedPath_contained (file root : Str) :
    ((∃ s, storedPath file root = .ok s) ↔
        ∃ names : List Str, names ≠ [] ∧ clean file = clean root ++ names.map .normal) ∧
      ∀ s, storedPath file root = .ok s →
        clean (pushPath root s) = clean file ∧
        (∀ c ∈ components s, ∃ name, c = .normal name) ∧
        ∀ file', storedPath file' root = .ok s → clean file' = clean file := by
  constructor
  · constructor
    · rintro ⟨s, hs⟩
      obtain ⟨names, hne, hfile, -⟩ := storedPath_ok_iff.mp hs
      exact ⟨names, hne, hfile⟩
    · rintro ⟨names, hne, hfile⟩
      exact ⟨_, storedPath_ok_iff.mpr ⟨names, hne, hfile, rfl⟩⟩
  · intro s hs
    -- joining the root with a stored path gives the components of any file that has it
    have hback : ∀ f, storedPath f root = .ok s → clean (pushPath root s) = clean f := by
      intro f hf
      obtain ⟨names, -, hfile, rfl⟩ := storedPath_ok_iff.mp hf
      have hnames := isName_of_clean_eq hfile
      rw [clean_pushPath root (head?_join hnames), clean_join hnames, hfile]
    refine ⟨hback file hs, ?_, fun file' hs' => ?_⟩
    · intro c hc
      obtain ⟨names, -, hfile, rfl⟩ := storedPath_ok_iff.mp hs
      rw [components_join (isName_of_clean_eq hfile), List.mem_map] at hc
      obtain ⟨name, -, rfl⟩ := hc
      exact ⟨name, rfl⟩
    · rw [← hback file' hs', hback file hs]

end ParquetFileFs
