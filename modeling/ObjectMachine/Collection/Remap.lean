import ObjectMachine.Collection.Relocation
import ObjectMachine.Heap.Layout

/-!
# Remapping

The third phase of a collection updates every reference in the surviving objects: classes, fixed
fields and live elements.
-/

namespace ObjectMachine.Heap

/-- Updates the reference at a position. -/
@[inline] def remapSlot (h : Heap) (t : Relocation) (index : Nat) : Except Fatal Heap :=
  match h.slot index with
  | .error e => .error e
  | .ok r =>
    if r.isPointer then
      match t.forward r with
      | .error e => .error e
      | .ok r => h.setSlot index r
    else .ok h

/-- Updates the references at `count` positions from `index` on. -/
def remapSlots (h : Heap) (t : Relocation) (index : Nat) : Nat → Except Fatal Heap
  | 0 => .ok h
  | count + 1 =>
    match h.remapSlot t index with
    | .error e => .error e
    | .ok h => h.remapSlots t (index + 1) count

/-- Updates the references of the object that begins at a position. -/
def remapObject (h : Heap) (t : Relocation) (index : Nat) (header : Header) :
    Except Fatal Heap := do
  let h ← h.remapSlot t (index + 1)
  let slots ← h.referenceSlotsAt index header
  let h ← h.remapSlots t slots.fixedStart (slots.fixedEnd - slots.fixedStart)
  h.remapSlots t slots.tailStart (slots.tailEnd - slots.tailStart)

/-- Updates the references of at most `fuel` objects from a position on. -/
def remapFrom (h : Heap) (t : Relocation) (index : Nat) : Nat → Except Fatal Heap
  | 0 => .ok h
  | fuel + 1 =>
    if index < h.top then do
      let header ← h.headerAt index
      let h ← h.remapObject t index header
      let size ← h.sizeAt index header
      h.remapFrom t (index + size) fuel
    else .ok h

/-- Updates the references of all objects. -/
def remap (h : Heap) (t : Relocation) : Except Fatal Heap :=
  h.remapFrom t firstWord h.top

end ObjectMachine.Heap
