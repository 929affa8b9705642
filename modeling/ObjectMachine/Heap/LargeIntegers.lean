import ObjectMachine.Fatal

/-!
# The values of large integers

An object that stands for a large integer holds only a slot of this table, so that memory stays a
flat array of words. A collection releases the slots of the objects that die, and slots released
last are given out first.
-/

namespace ObjectMachine

/-- The values of the large integers in memory, and the slots that hold none. -/
structure LargeIntegers where
  slots : Array (Option Int)
  free : List Nat
  deriving Inhabited, Repr

namespace LargeIntegers

/-- The table without values. -/
def empty : LargeIntegers :=
  ⟨#[], []⟩

/-- Puts a value into a free slot, or into a new one if there is none. -/
def insert (t : LargeIntegers) (value : Int) : Except Fatal (Nat × LargeIntegers) :=
  match t.free with
  | slot :: free =>
    if h : slot < t.slots.size then .ok (slot, ⟨t.slots.set slot (some value), free⟩)
    else .error (.fault .position)
  | [] => .ok (t.slots.size, ⟨t.slots.push (some value), []⟩)

/-- The value of a slot, if it holds one. -/
def get? (t : LargeIntegers) (slot : Nat) : Option Int :=
  t.slots[slot]?.join

/-- Gives a slot another value. -/
def replace (t : LargeIntegers) (slot : Nat) (value : Int) : Except Fatal LargeIntegers :=
  if h : slot < t.slots.size then .ok { t with slots := t.slots.set slot (some value) }
  else .error (.fault .position)

/-- Frees a slot, which has to hold a value. -/
def release (t : LargeIntegers) (slot : Nat) : Except Fatal LargeIntegers :=
  if h : slot < t.slots.size then
    if t.slots[slot].isSome then .ok ⟨t.slots.set slot none, slot :: t.free⟩
    else .error (.releasedTwice slot)
  else .error (.releasedTwice slot)

/-- The number of values held. -/
def live (t : LargeIntegers) : Except Fatal Nat :=
  if t.free.length ≤ t.slots.size then .ok (t.slots.size - t.free.length)
  else .error (.fault .overflow)

end LargeIntegers

end ObjectMachine
