import ParquetFileFs.Pack.PlainTar

/-!
# Detecting the format of an archive

The format of an archive is told by its first bytes, and by its name only where
these say nothing.  A tar archive has its magic behind the name of its first
entry, so a name that begins with the magic of another format comes before it.

## Main definitions

* `TarHeader` — a content begins with a tar header.
* `Claims` — the test for a format succeeds.
* `Identified` — an archive is identified by its own structure.

## Main results

* `magics_unique` — the magics of the formats other than tar exclude each other.
* `sniffHead_of_magic`, `sniffHead_of_ustar` — what is detected.
* `identified_iff` — **an archive is identified by its own structure exactly when
  it does not have the magic of another format before that of a tar.**
-/

namespace ParquetFileFs

/-! ### Tar headers -/

/-- The magic of a tar is at its place. -/
def UstarAt (content : Bytes) : Prop :=
  262 ≤ content.length ∧ (content.drop 257).take 5 = [0x75, 0x73, 0x74, 0x61, 0x72]

instance (content : Bytes) : Decidable (UstarAt content) :=
  inferInstanceAs (Decidable (_ ∧ _))

/-- The sum of the bytes of a header, its checksum field taken for spaces. -/
def tarChecksum (content : Bytes) : ℕ :=
  ((content.take 148).map UInt8.toNat).sum + 8 * 0x20
    + (((content.drop 156).take 356).map UInt8.toNat).sum

/-- The content begins with a tar header: 512 bytes with the magic, and with the
checksum they have. -/
def TarHeader (content : Bytes) : Prop :=
  512 ≤ content.length ∧ UstarAt content ∧
    octal (((content.drop 148).take 8).dropWhile (· = 0x20)) = tarChecksum content

instance (content : Bytes) : Decidable (TarHeader content) :=
  inferInstanceAs (Decidable (_ ∧ _ ∧ _))

/-! ### The tests -/

/-- The test for a format succeeds. -/
def Claims (content : Bytes) (fmt : ArchiveFormat) : Prop :=
  (∃ m ∈ magics, m.1 <+: content ∧ m.2 = fmt) ∨ (UstarAt content ∧ fmt = .tar)

/-- An archive is detected by its own structure: by a tar header, and without one
by the magic of its format. -/
structure Detected (archive : Str) (content : Bytes) : Prop where
  tar : TarHeader content → sniffHead (content.take 262) archive = .ok .tar
  magic : ∀ m ∈ magics, m.1 <+: content → ¬TarHeader content →
    sniffHead (content.take 262) archive = .ok m.2

/-- Besides, no two tests claim the archive, and once one does, its name does not
matter. -/
structure Identified (archive : Str) (content : Bytes) : Prop
    extends Detected archive content where
  exclusive : ∀ fmt fmt', Claims content fmt → Claims content fmt' → fmt = fmt'
  name : ∀ fmt archive', Claims content fmt →
    sniffHead (content.take 262) archive' = sniffHead (content.take 262) archive

/-- No two magics begin one content, unless they are of one format. -/
theorem magics_unique {content : Bytes} {m m' : Bytes × ArchiveFormat} (hm : m ∈ magics)
    (hm' : m' ∈ magics) (hp : m.1 <+: content) (hp' : m'.1 <+: content) : m.2 = m'.2 := by
  have hpairs : ∀ m ∈ magics, ∀ m' ∈ magics, m.1 <+: m'.1 → m.2 = m'.2 := by decide
  rcases List.prefix_or_prefix_of_prefix hp hp' with h | h
  · exact hpairs m hm m' hm' h
  · exact (hpairs m' hm' m hm h).symm

theorem prefix_take_iff {content : Bytes} {m : Bytes × ArchiveFormat} (hm : m ∈ magics) :
    m.1 <+: content.take 262 ↔ m.1 <+: content := by
  have hlen : ∀ m ∈ magics, m.1.length ≤ 262 := by decide
  rw [List.prefix_take_iff]
  exact and_iff_left (hlen m hm)

/-- A content with a magic is of the format of the magic, whatever its name. -/
theorem sniffHead_of_magic {content : Bytes} {m : Bytes × ArchiveFormat} (hm : m ∈ magics)
    (hp : m.1 <+: content) (archive : Str) :
    sniffHead (content.take 262) archive = .ok m.2 := by
  unfold sniffHead
  cases hfind : magics.find? fun m => m.1 <+: content.take 262 with
  | none =>
    rw [List.find?_eq_none] at hfind
    exact absurd ((prefix_take_iff hm).mpr hp) (by simpa using hfind m hm)
  | some m' =>
    have hmem := List.mem_of_find?_eq_some hfind
    have hp' := List.find?_some hfind
    simp only [decide_eq_true_eq] at hp'
    exact congrArg _ (magics_unique hmem hm ((prefix_take_iff hmem).mp hp') hp)

/-- The first 262 bytes tell whether the magic of a tar is at its place. -/
theorem ustarAt_take {content : Bytes} (h : UstarAt content) : UstarAt (content.take 262) := by
  obtain ⟨hlen, hmagic⟩ := h
  refine ⟨by rw [List.length_take]; omega, ?_⟩
  rwa [List.drop_take, List.take_take]

/-- Without another magic before it, that of a tar decides, whatever the name. -/
theorem sniffHead_of_ustar {content : Bytes} (hno : ∀ m ∈ magics, ¬m.1 <+: content)
    (h : UstarAt content) (archive : Str) :
    sniffHead (content.take 262) archive = .ok .tar := by
  have hfind : (magics.find? fun m => m.1 <+: content.take 262) = none := by
    rw [List.find?_eq_none]
    intro m hm
    simpa [prefix_take_iff hm] using hno m hm
  unfold sniffHead
  rw [hfind]
  exact if_pos (ustarAt_take h)

theorem ne_tar_of_mem_magics : ∀ m ∈ magics, m.2 ≠ .tar := by decide

/-- Detection goes by the structure unless a tar begins with another magic. -/
theorem detected_iff (archive : Str) (content : Bytes) :
    Detected archive content ↔ ¬(TarHeader content ∧ ∃ m ∈ magics, m.1 <+: content) := by
  constructor
  · intro h ⟨htar, m, hm, hp⟩
    have heq := (sniffHead_of_magic hm hp archive).symm.trans (h.tar htar)
    exact ne_tar_of_mem_magics m hm (Except.ok.inj heq)
  · intro h
    refine ⟨fun htar => ?_, fun m hm hp _ => sniffHead_of_magic hm hp archive⟩
    exact sniffHead_of_ustar (fun m hm hp => h ⟨htar, m, hm, hp⟩) htar.2.1 archive

/-- **An archive is identified by its own structure exactly when it does not have
the magic of another format before that of a tar**; it is detected so unless it has
a whole tar header behind such a magic. -/
theorem identified_iff (archive : Str) (content : Bytes) :
    (Identified archive content ↔ ¬(UstarAt content ∧ ∃ m ∈ magics, m.1 <+: content)) ∧
      (Detected archive content ↔
        ¬(TarHeader content ∧ ∃ m ∈ magics, m.1 <+: content)) := by
  refine ⟨⟨fun h ⟨hustar, m, hm, hp⟩ => ?_, fun h => ?_⟩, detected_iff archive content⟩
  · exact ne_tar_of_mem_magics m hm
      (h.exclusive _ _ (Or.inl ⟨m, hm, hp, rfl⟩) (Or.inr ⟨hustar, rfl⟩))
  · have hno : UstarAt content → ∀ m ∈ magics, ¬m.1 <+: content :=
      fun hu m hm hp => h ⟨hu, m, hm, hp⟩
    refine ⟨(detected_iff archive content).mpr fun ⟨htar, m, hm, hp⟩ => hno htar.2.1 m hm hp,
      ?_, ?_⟩
    · rintro fmt fmt' (⟨m, hm, hp, rfl⟩ | ⟨hu, rfl⟩) (⟨m', hm', hp', rfl⟩ | ⟨hu', rfl⟩)
      · exact magics_unique hm hm' hp hp'
      · exact absurd hp (hno hu' m hm)
      · exact absurd hp' (hno hu m' hm')
      · rfl
    · rintro fmt archive' (⟨m, hm, hp, rfl⟩ | ⟨hu, rfl⟩)
      · rw [sniffHead_of_magic hm hp, sniffHead_of_magic hm hp]
      · rw [sniffHead_of_ustar (hno hu) hu, sniffHead_of_ustar (hno hu) hu]

/-- A tar archive with one empty file, `BZhang.txt`. -/
def bzTar : Bytes :=
  utf8Bytes "BZhang.txt".toList ++ List.replicate 90 0 ++ utf8Bytes "0000644".toList ++ [0]
    ++ utf8Bytes "0000000".toList ++ [0] ++ utf8Bytes "0000000".toList ++ [0]
    ++ utf8Bytes "00000000000".toList ++ [0] ++ utf8Bytes "00000000000".toList ++ [0]
    ++ utf8Bytes "007645".toList ++ [0, 0x20] ++ utf8Bytes "0".toList ++ List.replicate 100 0
    ++ utf8Bytes "ustar".toList ++ [0] ++ utf8Bytes "00".toList ++ List.replicate 247 0
    ++ List.replicate 1024 0

theorem bzTar_not_identified :
    ¬Identified "photos.tar".toList bzTar ∧ TarHeader bzTar ∧
      sniffHead (bzTar.take 262) "photos.tar".toList = .ok .tarBz2 := by
  have htar : TarHeader bzTar := by decide +kernel
  have hsniff : sniffHead (bzTar.take 262) "photos.tar".toList = .ok .tarBz2 := by decide +kernel
  refine ⟨fun h => ?_, htar, hsniff⟩
  cases hsniff.symm.trans (h.tar htar)

end ParquetFileFs
