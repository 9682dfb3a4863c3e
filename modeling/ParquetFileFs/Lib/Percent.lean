import ParquetFileFs.Lib.Segments

/-!
# Percent-encoding and dot segments

Percent-encoding writes each character of a set as its UTF-8 bytes in hexadecimal
digits, each after a percent sign.  A path is made plain by taking out segments of
one dot, and segments of two dots together with the segment before them; a dot may
be written percent-encoded.

Both leave a text as it is only where they find nothing to do: encoding makes a
text longer, and taking out segments makes a path shorter.

## Main definitions

* `encode` — percent-encode the characters of a set.
* `isSingleDot`, `isDoubleDot`, `removeDots` — dot segments, and taking them out.

## Main results

* `encode_eq_self_iff` — a text is left as it is exactly if nothing in it is encoded.
* `mem_encode` — what an encoded text is made of.
* `length_removeDots` — dot segments do not count.
-/

namespace Percent

open Segments

/-! ### Percent-encoding -/

/-- An upper-case hexadecimal digit. -/
def hexDigit (n : ℕ) : Char := "0123456789ABCDEF".toList.getD n '0'

def encodeByte (b : UInt8) : List Char := ['%', hexDigit (b.toNat / 16), hexDigit (b.toNat % 16)]

/-- A character, percent-encoded if it is in the set. -/
def encodeChar (set : Char → Bool) (c : Char) : List Char :=
  if set c then (String.utf8EncodeChar c).flatMap encodeByte else [c]

/-- Percent-encode the characters of a set. -/
def encode (set : Char → Bool) (s : List Char) : List Char := s.flatMap (encodeChar set)

variable {set : Char → Bool}

theorem isAlphanum_hexDigit (n : ℕ) : (hexDigit n).isAlphanum = true := by
  have hall : "0123456789ABCDEF".toList.all Char.isAlphanum = true := by decide
  unfold hexDigit
  rw [List.getD_eq_getElem?_getD]
  cases h : "0123456789ABCDEF".toList[n]? with
  | none => rfl
  | some c => exact List.all_eq_true.mp hall c (List.mem_of_getElem? h)

/-- What an encoded character is made of. -/
theorem mem_encodeChar {c d : Char} (h : d ∈ encodeChar set c) :
    (d = c ∧ set c = false) ∨ d = '%' ∨ d.isAlphanum = true := by
  unfold encodeChar at h
  split_ifs at h with hset
  · obtain ⟨b, -, hd⟩ := List.mem_flatMap.mp h
    simp only [encodeByte, List.mem_cons, List.not_mem_nil, or_false] at hd
    rcases hd with rfl | rfl | rfl
    · exact Or.inr (Or.inl rfl)
    · exact Or.inr (Or.inr (isAlphanum_hexDigit _))
    · exact Or.inr (Or.inr (isAlphanum_hexDigit _))
  · exact Or.inl ⟨List.mem_singleton.mp h, by simpa using hset⟩

/-- **What an encoded text is made of**: characters that are not encoded, percent
signs and digits. -/
theorem mem_encode {s : List Char} {d : Char} (h : d ∈ encode set s) :
    (d ∈ s ∧ set d = false) ∨ d = '%' ∨ d.isAlphanum = true := by
  obtain ⟨c, hc, hd⟩ := List.mem_flatMap.mp h
  rcases mem_encodeChar hd with ⟨rfl, hset⟩ | hd
  · exact Or.inl ⟨hc, hset⟩
  · exact Or.inr hd

theorem encodeChar_of_not {c : Char} (h : set c = false) : encodeChar set c = [c] := by
  rw [encodeChar, h]
  rfl

/-- An encoded character takes more than one. -/
theorem one_lt_length_encodeChar {c : Char} (h : set c = true) :
    1 < (encodeChar set c).length := by
  rw [encodeChar, if_pos h]
  cases hbytes : String.utf8EncodeChar c with
  | nil => exact absurd hbytes String.utf8EncodeChar_ne_nil
  | cons b bs =>
    rw [List.flatMap_cons, List.length_append]
    simp only [encodeByte, List.length_cons, List.length_nil]
    omega

variable (set) in
theorem length_le_length_encode (s : List Char) : s.length ≤ (encode set s).length := by
  induction s with
  | nil => exact Nat.zero_le _
  | cons c s ih =>
    have hchar : 1 ≤ (encodeChar set c).length := by
      cases hset : set c with
      | true => exact (one_lt_length_encodeChar hset).le
      | false => rw [encodeChar_of_not hset]; rfl
    rw [encode, List.flatMap_cons, List.length_append, List.length_cons]
    change s.length + 1 ≤ _ + (encode set s).length
    omega

/-- **A text is left as it is exactly if nothing in it is encoded.** -/
theorem encode_eq_self_iff {s : List Char} : encode set s = s ↔ ∀ c ∈ s, set c = false := by
  induction s with
  | nil => simp [encode]
  | cons c s ih =>
    rw [encode, List.flatMap_cons, List.forall_mem_cons, ← ih]
    change encodeChar set c ++ encode set s = c :: s ↔ _
    cases hset : set c with
    | true =>
      -- the text has become longer
      have hlong := one_lt_length_encodeChar hset
      have hrest := length_le_length_encode set s
      refine iff_of_false (fun heq => ?_) fun h => by cases h.1
      have hlen := congrArg List.length heq
      rw [List.length_append, List.length_cons] at hlen
      omega
    | false =>
      rw [encodeChar_of_not hset, List.singleton_append, List.cons.injEq]
      simp

theorem encode_ne_nil {s : List Char} (h : s ≠ []) : encode set s ≠ [] := by
  have hle := length_le_length_encode set s
  have hpos := List.length_pos_of_ne_nil h
  exact List.ne_nil_of_length_pos (by omega)

/-! ### Dot segments -/

def isSingleDot (s : List Char) : Bool :=
  s = ".".toList || s.map Char.toLower = "%2e".toList

def isDoubleDot (s : List Char) : Bool :=
  s = "..".toList || (s.map Char.toLower = ".%2e".toList || s.map Char.toLower = "%2e.".toList
    || s.map Char.toLower = "%2e%2e".toList)

/-- Take the dot segments out of what comes after the segments `done`.  A dot
segment at the end leaves an empty segment. -/
def removeDots (done : List (List Char)) : List (List Char) → List (List Char)
  | [] => done
  | [s] =>
      if isDoubleDot s then done.dropLast ++ [[]]
      else if isSingleDot s then done ++ [[]]
      else done ++ [s]
  | s :: t :: rest =>
      if isDoubleDot s then removeDots done.dropLast (t :: rest)
      else if isSingleDot s then removeDots done (t :: rest)
      else removeDots (done ++ [s]) (t :: rest)

/-- Whether a segment is one of dots. -/
def isDots (s : List Char) : Bool := isSingleDot s || isDoubleDot s

theorem eq_percent_of_toLower {c : Char} (h : c.toLower = '%') : c = '%' := by
  unfold Char.toLower at h
  split_ifs at h with hrange
  · -- lower-case letters come after the percent sign
    obtain ⟨hlow, hhigh⟩ := hrange
    have hval : c.val + ('a'.val - 'A'.val) = '%'.val := congrArg Char.val h
    rw [ge_iff_le, UInt32.le_iff_toNat_le] at hlow
    rw [UInt32.le_iff_toNat_le] at hhigh
    have hnat := congrArg UInt32.toNat hval
    rw [UInt32.toNat_add] at hnat
    simp only [Char.reduceVal, UInt32.reduceToNat, UInt32.reduceSub] at hlow hhigh hnat
    omega
  · exact h

/-- Without percent signs, the dot segments are written in dots. -/
theorem isDots_iff {s : List Char} (h : '%' ∉ s) :
    isDots s = true ↔ s = ".".toList ∨ s = "..".toList := by
  have hlower : ∀ t : List Char, '%' ∈ t → s.map Char.toLower ≠ t := by
    rintro t ht rfl
    obtain ⟨c, hc, hlow⟩ := List.mem_map.mp ht
    exact h (eq_percent_of_toLower hlow ▸ hc)
  have h1 := hlower "%2e".toList (by decide)
  have h2 := hlower ".%2e".toList (by decide)
  have h3 := hlower "%2e.".toList (by decide)
  have h4 := hlower "%2e%2e".toList (by decide)
  simp only [isDots, isSingleDot, isDoubleDot, Bool.or_eq_true, decide_eq_true_eq, h1, h2, h3, h4,
    or_false]

/-- **Where there are no dot segments, none are taken out.** -/
theorem removeDots_of_not {ss : List (List Char)} (h : ∀ s ∈ ss, isDots s = false)
    (done : List (List Char)) : removeDots done ss = done ++ ss := by
  have hno : ∀ s ∈ ss, isDoubleDot s = false ∧ isSingleDot s = false := by
    intro s hs
    simpa [isDots, and_comm] using h s hs
  fun_induction removeDots done ss with
  | case1 done => simp
  | case2 done s hdouble => simp [hdouble] at hno
  | case3 done s _ hsingle => simp [hsingle] at hno
  | case4 done s => rfl
  | case5 done s t rest hdouble => simp [hdouble] at hno
  | case6 done s t rest _ hsingle => simp [hsingle] at hno
  | case7 done s t rest hdouble hsingle ih =>
    rw [ih (fun u hu => h u (List.mem_cons_of_mem s hu))
      fun u hu => hno u (List.mem_cons_of_mem s hu), List.append_assoc, List.singleton_append]

theorem mem_removeDots {done ss : List (List Char)} {s : List Char} (h : s ∈ removeDots done ss) :
    s ∈ done ∨ s ∈ ss ∨ s = [] := by
  fun_induction removeDots done ss with
  | case1 done => exact Or.inl h
  | case2 done t hdouble =>
    rcases List.mem_append.mp h with h | h
    · exact Or.inl (List.mem_of_mem_dropLast h)
    · exact Or.inr (Or.inr (List.mem_singleton.mp h))
  | case3 done t _ hsingle =>
    rcases List.mem_append.mp h with h | h
    · exact Or.inl h
    · exact Or.inr (Or.inr (List.mem_singleton.mp h))
  | case4 done t => exact (List.mem_append.mp h).imp_right Or.inl
  | case5 done t u rest hdouble ih =>
    rcases ih h with h | h | h
    · exact Or.inl (List.mem_of_mem_dropLast h)
    · exact Or.inr (Or.inl (List.mem_cons_of_mem t h))
    · exact Or.inr (Or.inr h)
  | case6 done t u rest _ hsingle ih =>
    exact (ih h).imp_right fun h => h.imp_left (List.mem_cons_of_mem t)
  | case7 done t u rest _ _ ih =>
    rcases ih h with h | h | h
    · rcases List.mem_append.mp h with h | h
      · exact Or.inl h
      · exact Or.inr (Or.inl (List.mem_singleton.mp h ▸ List.mem_cons_self))
    · exact Or.inr (Or.inl (List.mem_cons_of_mem t h))
    · exact Or.inr (Or.inr h)

/-- **Dot segments do not count.** -/
theorem length_removeDots (done ss : List (List Char)) :
    ((removeDots done ss).filter (· ≠ [])).length
      ≤ (done.filter (· ≠ [])).length + (ss.filter fun s => isDots s = false).length := by
  have hdrop : ∀ done : List (List Char), (done.dropLast.filter (· ≠ [])).length
      ≤ (done.filter (· ≠ [])).length := fun done =>
    ((List.dropLast_sublist done).filter _).length_le
  fun_induction removeDots done ss with
  | case1 done => exact Nat.le_add_right _ _
  | case2 done s hdouble =>
    have hnil : ([([] : List Char)].filter (· ≠ [])).length = 0 := rfl
    have := hdrop done
    rw [List.filter_append, List.length_append]
    omega
  | case3 done s _ hsingle => simp
  | case4 done s hdouble hsingle =>
    have hs : isDots s = false := by simp [isDots, hdouble, hsingle]
    have hone : ([s].filter (· ≠ [])).length ≤ 1 := List.length_filter_le _ _
    have hcount : ([s].filter fun s => isDots s = false).length = 1 := by simp [hs]
    rw [List.filter_append, List.length_append]
    omega
  | case5 done s t rest hdouble ih =>
    have hs : isDots s = true := by simp [isDots, hdouble]
    rw [List.filter_cons_of_neg (by simp [hs])]
    have := hdrop done
    omega
  | case6 done s t rest _ hsingle ih =>
    have hs : isDots s = true := by simp [isDots, hsingle]
    rwa [List.filter_cons_of_neg (by simp [hs])]
  | case7 done s t rest hdouble hsingle ih =>
    have hs : isDots s = false := by simp [isDots, hdouble, hsingle]
    have hone : ([s].filter (· ≠ [])).length ≤ 1 := List.length_filter_le _ _
    rw [List.filter_append, List.length_append] at ih
    rw [List.filter_cons_of_pos (by simpa using hs), List.length_cons]
    omega

end Percent
