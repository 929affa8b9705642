import Mathlib
import ObjectMachine.Heap.LargeIntegers

/-!
# Releasing large integers

What a collection does to the table of large integers: it releases some slots, each of which holds a
value. The other slots keep theirs.

## Main results

* `LargeIntegers.release_eq`: a slot that holds a value can be released.
* `LargeIntegers.get?_releaseAll`: released slots are empty, all others are as they were.
-/

namespace ObjectMachine.LargeIntegers

/-- The table with some slots released, one after the other. -/
def releaseAll (t : LargeIntegers) : List Nat → LargeIntegers
  | [] => t
  | slot :: rest => releaseAll ⟨t.slots.setIfInBounds slot none, slot :: t.free⟩ rest

theorem releaseAll_append (t : LargeIntegers) (xs ys : List Nat) :
    t.releaseAll (xs ++ ys) = (t.releaseAll xs).releaseAll ys := by
  induction xs generalizing t with
  | nil => rfl
  | cons x xs ih => exact ih _

theorem size_releaseAll (t : LargeIntegers) (xs : List Nat) :
    (t.releaseAll xs).slots.size = t.slots.size := by
  induction xs generalizing t with
  | nil => rfl
  | cons x xs ih =>
    rw [releaseAll, ih]
    simp

theorem free_releaseAll (t : LargeIntegers) (xs : List Nat) :
    (t.releaseAll xs).free = xs.reverse ++ t.free := by
  induction xs generalizing t with
  | nil => rfl
  | cons x xs ih =>
    rw [releaseAll, ih]
    simp

/-- A slot that holds a value is one of the table. -/
theorem lt_size_of_get? {t : LargeIntegers} {slot : Nat} (h : (t.get? slot).isSome = true) :
    slot < t.slots.size := by
  unfold get? at h
  by_cases hlt : slot < t.slots.size
  · exact hlt
  · rw [Array.getElem?_eq_none (by omega)] at h
    cases h

theorem get?_eq_getElem {t : LargeIntegers} {slot : Nat} (h : slot < t.slots.size) :
    t.get? slot = t.slots[slot] := by
  unfold get?
  rw [Array.getElem?_eq_getElem h]
  rfl

/-- Released slots are empty, and all others hold what they held. -/
theorem get?_releaseAll (t : LargeIntegers) (xs : List Nat) (slot : Nat) :
    (t.releaseAll xs).get? slot = if slot ∈ xs then none else t.get? slot := by
  induction xs generalizing t with
  | nil => simp [releaseAll]
  | cons x xs ih =>
    rw [releaseAll, ih]
    by_cases hmem : slot ∈ xs
    · simp [hmem]
    · by_cases hx : slot = x
      · subst hx
        by_cases hlt : slot < t.slots.size <;> simp [get?, hlt]
      · simp [get?, hmem, hx, Ne.symm hx]

/-- A slot that holds a value can be released. -/
theorem release_eq {t : LargeIntegers} {slot : Nat} (h : (t.get? slot).isSome = true) :
    t.release slot = .ok (t.releaseAll [slot]) := by
  have hlt := lt_size_of_get? h
  have hsome : t.slots[slot].isSome = true := by rwa [← get?_eq_getElem hlt]
  simp [release, releaseAll, hlt, hsome, Array.setIfInBounds]

end ObjectMachine.LargeIntegers
