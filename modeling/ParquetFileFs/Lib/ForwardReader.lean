import Mathlib.Tactic

/-!
# Reading a stream front to back

A reader takes items off the front of a stream.  Each step looks at so much of
the stream, and at no more: a stream that is cut off behind that gives the same
step, one that is cut off in the middle of it a fault, and one with nothing left
has ended.

## Main definitions

* `ForwardReader` — readers.
* `ForwardReader.Items` — what a whole stream is read as.
* `ForwardReader.Covers` — a part of a stream from its front that lacks no item
  of interest.

## Main results

* `exists_items`, `items_unique` — every stream is read as one thing.
* `items_of_cut` — a part of a stream that ends in the middle of a step is read
  with a fault.
-/

universe u

/-- One step: the stream has ended, an item follows, or reading fails, perhaps
after an item that was cut off. -/
inductive ReadStep (α ε : Type u)
  | done
  | item (a : α)
  | fault (cut : Option α) (e : ε)

/-- A reader: the next step, and how much of the stream it looks at. -/
structure ForwardReader (β α ε : Type u) where
  next : List β → ReadStep α ε × ℕ
  next_nil : next [] = (.done, 0)
  used_le : ∀ bs, (next bs).2 ≤ bs.length
  item_pos : ∀ bs a, (next bs).1 = .item a → 0 < (next bs).2
  of_prefix : ∀ p bs, p <+: bs → (next bs).2 ≤ p.length → next p = next bs
  cut_off : ∀ p bs, p <+: bs → p ≠ [] → p.length < (next bs).2 →
    ∃ cut e, (next p).1 = .fault cut e

namespace ForwardReader

variable {β α ε : Type u}

/-- What a stream is read as: items up to its end or a fault. -/
inductive Items (R : ForwardReader β α ε) : List β → List (Except ε α) → Prop
  | done {bs : List β} : (R.next bs).1 = .done → R.Items bs []
  | item {bs : List β} {a : α} {items : List (Except ε α)} : (R.next bs).1 = .item a →
      R.Items (bs.drop (R.next bs).2) items → R.Items bs (.ok a :: items)
  | fault {bs : List β} {cut : Option α} {e : ε} : (R.next bs).1 = .fault cut e →
      R.Items bs (cut.toList.map .ok ++ [.error e])

/-- The part `p` of a stream lacks none of the items in `keep`: it reaches the
end of the stream, or it ends where an item begins and no such item follows. -/
inductive Covers (R : ForwardReader β α ε) (keep : α → Prop) : List β → List β → Prop
  | done {p bs : List β} : (R.next bs).1 = .done → (R.next bs).2 ≤ p.length → R.Covers keep p bs
  | rest {bs : List β} : (∀ items, R.Items bs items → ∀ a, .ok a ∈ items → ¬keep a) →
      R.Covers keep [] bs
  | item {p bs : List β} {a : α} : (R.next bs).1 = .item a → (R.next bs).2 ≤ p.length →
      R.Covers keep (p.drop (R.next bs).2) (bs.drop (R.next bs).2) → R.Covers keep p bs

variable {R : ForwardReader β α ε} {p bs : List β} {items : List (Except ε α)} {a : α}

/-- Every stream is read as something: each item takes some of it away. -/
theorem exists_items (R : ForwardReader β α ε) (bs : List β) : ∃ items, R.Items bs items := by
  induction hn : bs.length using Nat.strong_induction_on generalizing bs with
  | _ n ih =>
    cases hstep : (R.next bs).1 with
    | done => exact ⟨_, .done hstep⟩
    | fault cut e => exact ⟨_, .fault hstep⟩
    | item a =>
      have hpos := R.item_pos bs a hstep
      have hle := R.used_le bs
      have hlt : (bs.drop (R.next bs).2).length < n := by
        rw [List.length_drop]
        omega
      obtain ⟨items, hitems⟩ := ih _ hlt _ rfl
      exact ⟨_, .item hstep hitems⟩

theorem items_of_done (h : R.Items bs items) (hstep : (R.next bs).1 = .done) : items = [] := by
  cases h with
  | done => rfl
  | item hstep' => cases hstep.symm.trans hstep'
  | fault hstep' => cases hstep.symm.trans hstep'

theorem items_of_item (h : R.Items bs items) (hstep : (R.next bs).1 = .item a) :
    ∃ rest, items = .ok a :: rest ∧ R.Items (bs.drop (R.next bs).2) rest := by
  cases h with
  | done hstep' => cases hstep.symm.trans hstep'
  | item hstep' hrest =>
    cases hstep.symm.trans hstep'
    exact ⟨_, rfl, hrest⟩
  | fault hstep' => cases hstep.symm.trans hstep'

theorem items_of_fault {cut : Option α} {e : ε} (h : R.Items bs items)
    (hstep : (R.next bs).1 = .fault cut e) : items = cut.toList.map .ok ++ [.error e] := by
  cases h with
  | done hstep' => cases hstep.symm.trans hstep'
  | item hstep' => cases hstep.symm.trans hstep'
  | fault hstep' =>
    cases hstep.symm.trans hstep'
    rfl

/-- A stream is read as one thing only. -/
theorem items_unique {items' : List (Except ε α)} (h : R.Items bs items) (h' : R.Items bs items') :
    items' = items := by
  induction h generalizing items' with
  | done hstep => exact items_of_done h' hstep
  | fault hstep => exact items_of_fault h' hstep
  | item hstep _ ih =>
    obtain ⟨rest, rfl, hrest⟩ := items_of_item h' hstep
    rw [ih hrest]

theorem items_nil (h : R.Items [] items) : items = [] :=
  items_of_done h (by rw [R.next_nil])

/-- A part of a stream that ends in the middle of a step is read with a fault. -/
theorem items_of_cut (hp : p <+: bs) (hne : p ≠ []) (hlt : p.length < (R.next bs).2)
    (h : R.Items p items) : ∃ e, .error e ∈ items := by
  obtain ⟨cut, e, hstep⟩ := R.cut_off p bs hp hne hlt
  rw [items_of_fault h hstep]
  exact ⟨e, by simp⟩

end ForwardReader
