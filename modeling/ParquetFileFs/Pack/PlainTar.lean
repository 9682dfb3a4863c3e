import ParquetFileFs.Lib.ForwardReader
import ParquetFileFs.Pack.Archives

/-!
# Reading a tar archive

A reader of tar archives whose headers have a name, a size and a type byte.  It
knows no extension headers and does not look at checksums.

## Main definitions

* `plainTarNext` — the next entry, at the front of a stream.
* `plainTarReader` — the reader.
* `plainTarItems` — all that a stream is read as.

## Main results

* `plainTarItems_eq` — the list of all steps is what the stream is read as.
-/

namespace ParquetFileFs

/-- The number in an octal field. -/
def octal (field : Bytes) : ℕ :=
  (field.takeWhile fun b => 0x30 ≤ b ∧ b ≤ 0x37).foldl (fun n b => 8 * n + (b.toNat - 0x30)) 0

/-- The size of the data that follow a header. -/
def tarSize (bs : Bytes) : ℕ := octal ((bs.drop 124).take 12)

/-- The length of a header and its data, in blocks of 512 bytes. -/
def tarSpan (bs : Bytes) : ℕ := 512 + (tarSize bs + 511) / 512 * 512

def plainTarEntry (bs : Bytes) : TarEntry :=
  ⟨bs.getD 156 0, .ok (((bs.take 100).takeWhile (· ≠ 0)).map fun b => Char.ofNat b.toNat),
    .ok ((bs.drop 512).take (tarSize bs))⟩

def plainTarNext (bs : Bytes) : ReadStep TarEntry Str × ℕ :=
  if bs = [] then (.done, 0)
  else if bs.length < 512 then (.fault none "failed to read entire block".toList, bs.length)
  else if (bs.take 512).all (· = 0) then (.done, 512)
  else if bs.length < tarSpan bs then
    (.fault (some (plainTarEntry bs)) "unexpected EOF during skip".toList, bs.length)
  else (.item (plainTarEntry bs), tarSpan bs)

/-- What a part of a stream holds is what the stream holds there. -/
theorem take_drop_of_isPrefix {p bs : Bytes} (hp : p <+: bs) {i n : ℕ} (h : i + n ≤ p.length) :
    (bs.drop i).take n = (p.drop i).take n := by
  obtain ⟨t, rfl⟩ := hp
  rw [List.drop_append_of_le_length (by omega), List.take_append_of_le_length]
  rw [List.length_drop]
  omega

theorem tarSize_of_isPrefix {p bs : Bytes} (hp : p <+: bs) (h : 512 ≤ p.length) :
    tarSize bs = tarSize p := by
  rw [tarSize, tarSize, take_drop_of_isPrefix hp (by omega)]

theorem tarSpan_of_isPrefix {p bs : Bytes} (hp : p <+: bs) (h : 512 ≤ p.length) :
    tarSpan bs = tarSpan p := by
  rw [tarSpan, tarSpan, tarSize_of_isPrefix hp h]

theorem tarSize_le_tarSpan (bs : Bytes) : 512 + tarSize bs ≤ tarSpan bs := by
  unfold tarSpan
  omega

theorem plainTarEntry_of_isPrefix {p bs : Bytes} (hp : p <+: bs) (h : tarSpan p ≤ p.length) :
    plainTarEntry bs = plainTarEntry p := by
  have hspan := tarSize_le_tarSpan p
  have hsize : tarSize bs = tarSize p := tarSize_of_isPrefix hp (by omega)
  have hname : bs.take 100 = p.take 100 := take_drop_of_isPrefix (i := 0) hp (by omega)
  have htype : bs.getD 156 0 = p.getD 156 0 := by
    obtain ⟨t, rfl⟩ := hp
    rw [List.getD_eq_getElem?_getD, List.getD_eq_getElem?_getD,
      List.getElem?_append_left (by omega)]
  rw [plainTarEntry, plainTarEntry, hsize, hname, htype, take_drop_of_isPrefix hp (by omega)]

theorem plainTarNext_of_lt {bs : Bytes} (hne : bs ≠ []) (h : bs.length < 512) :
    plainTarNext bs = (.fault none "failed to read entire block".toList, bs.length) := by
  rw [plainTarNext, if_neg hne, if_pos h]

/-- A part that holds a header is read by the header of the whole. -/
theorem plainTarNext_of_isPrefix {p bs : Bytes} (hp : p <+: bs) (h : 512 ≤ p.length) :
    plainTarNext p = if (bs.take 512).all (· = 0) then (.done, 512)
      else if p.length < tarSpan bs then
        (.fault (some (plainTarEntry p)) "unexpected EOF during skip".toList, p.length)
      else (.item (plainTarEntry bs), tarSpan bs) := by
  have hne : p ≠ [] := by
    intro hnil
    rw [hnil, List.length_nil] at h
    omega
  have htake : bs.take 512 = p.take 512 := take_drop_of_isPrefix (i := 0) hp (by omega)
  rw [plainTarNext, if_neg hne, if_neg (by omega), htake, tarSpan_of_isPrefix hp h]
  by_cases hcut : p.length < tarSpan p
  · rw [if_pos hcut, if_pos hcut]
  · rw [if_neg hcut, if_neg hcut, plainTarEntry_of_isPrefix hp (by omega)]

/-- The part of a stream that a step looks at: all of it, or a header at least. -/
theorem plainTarNext_used (bs : Bytes) :
    (plainTarNext bs).2 = bs.length ∨ 512 ≤ bs.length ∧
      (plainTarNext bs).2 = if (bs.take 512).all (· = 0) then 512 else tarSpan bs := by
  by_cases hlen : 512 ≤ bs.length
  · rw [plainTarNext_of_isPrefix (List.prefix_refl bs) hlen]
    by_cases hzeros : (bs.take 512).all (· = 0)
    · rw [if_pos hzeros, if_pos hzeros]
      exact Or.inr ⟨hlen, rfl⟩
    · rw [if_neg hzeros, if_neg hzeros]
      by_cases hcut : bs.length < tarSpan bs
      · rw [if_pos hcut]
        exact Or.inl rfl
      · rw [if_neg hcut]
        exact Or.inr ⟨hlen, rfl⟩
  · by_cases hnil : bs = []
    · rw [hnil]
      exact Or.inl rfl
    · rw [plainTarNext_of_lt hnil (by omega)]
      exact Or.inl rfl

def plainTarReader : ForwardReader UInt8 TarEntry Str where
  next := plainTarNext
  next_nil := rfl
  used_le bs := by
    unfold plainTarNext
    split_ifs with hnil hshort hzeros hlt
    · simp
    · simp
    · show 512 ≤ bs.length
      omega
    · simp
    · show tarSpan bs ≤ bs.length
      omega
  item_pos bs a h := by
    have hspan := tarSize_le_tarSpan bs
    unfold plainTarNext at h ⊢
    split_ifs at h ⊢
    show 0 < tarSpan bs
    omega
  of_prefix p bs hp hused := by
    rcases plainTarNext_used bs with hall | ⟨hlen, hstep⟩
    · rw [hp.eq_of_length_le (hall ▸ hused)]
    · have hspan := tarSize_le_tarSpan bs
      rw [hstep] at hused
      have hlen' : 512 ≤ p.length := by
        split_ifs at hused <;> omega
      rw [plainTarNext_of_isPrefix hp hlen', plainTarNext_of_isPrefix (List.prefix_refl bs) hlen]
      have hle := hp.length_le
      by_cases hzeros : (bs.take 512).all (· = 0)
      · rw [if_pos hzeros, if_pos hzeros]
      · rw [if_neg hzeros] at hused
        rw [if_neg hzeros, if_neg hzeros, if_neg (by omega), if_neg (by omega)]
  cut_off p bs hp hne hlt := by
    by_cases hshort : p.length < 512
    · rw [plainTarNext_of_lt hne hshort]
      exact ⟨_, _, rfl⟩
    · have hle := hp.length_le
      rw [plainTarNext_of_isPrefix hp (by omega)]
      rw [plainTarNext_of_isPrefix (List.prefix_refl bs) (by omega)] at hlt
      by_cases hzeros : (bs.take 512).all (· = 0)
      · rw [if_pos hzeros] at hlt
        exact absurd hlt hshort
      · rw [if_neg hzeros] at hlt ⊢
        have hcut : p.length < tarSpan bs := by
          by_cases hlt' : bs.length < tarSpan bs
          · omega
          · rwa [if_neg hlt'] at hlt
        rw [if_pos hcut]
        exact ⟨_, _, rfl⟩

/-- All steps of the reader, of which there are no more than bytes. -/
def plainTarItems : ℕ → Bytes → List (Except Str TarEntry)
  | 0, _ => []
  | n + 1, bs =>
      match plainTarNext bs with
      | (.done, _) => []
      | (.item e, used) => .ok e :: plainTarItems n (bs.drop used)
      | (.fault cut e, _) => cut.toList.map .ok ++ [.error e]

theorem plainTarItems_eq {bs : Bytes} {items : List (Except Str TarEntry)}
    (h : plainTarReader.Items bs items) {n : ℕ} (hn : bs.length < n) :
    plainTarItems n bs = items := by
  induction h generalizing n with
  | @done bs hstep =>
    obtain ⟨n, rfl⟩ := Nat.exists_eq_add_one_of_ne_zero (Nat.ne_zero_of_lt hn)
    have hstep : (plainTarNext bs).1 = .done := hstep
    rw [plainTarItems, ← Prod.mk.eta (p := plainTarNext bs), hstep]
  | @fault bs cut e hstep =>
    obtain ⟨n, rfl⟩ := Nat.exists_eq_add_one_of_ne_zero (Nat.ne_zero_of_lt hn)
    have hstep : (plainTarNext bs).1 = .fault cut e := hstep
    rw [plainTarItems, ← Prod.mk.eta (p := plainTarNext bs), hstep]
  | @item bs a items hstep _ ih =>
    obtain ⟨n, rfl⟩ := Nat.exists_eq_add_one_of_ne_zero (Nat.ne_zero_of_lt hn)
    have hpos := plainTarReader.item_pos bs a hstep
    have hused := plainTarReader.used_le bs
    have hstep' : (plainTarNext bs).1 = .item a := hstep
    rw [plainTarItems, ← Prod.mk.eta (p := plainTarNext bs), hstep']
    have hrest : (bs.drop (plainTarReader.next bs).2).length < n := by
      rw [List.length_drop]
      omega
    exact congrArg _ (ih hrest)

end ParquetFileFs
