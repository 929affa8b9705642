import ObjectMachine.Class.Basic
import ObjectMachine.Collection.Collect
import ObjectMachine.Machine.Registers

/-!
# Allocation by the machine

A machine allocates objects and collects its memory when the threshold is crossed. A collection
moves objects, so every reference held across an allocation is pinned first and read back
afterwards. The class of a new object is taken care of here.
-/

namespace ObjectMachine.Machine

open ObjectMachine.Action

/-! ## Pinned temporaries -/

/-- Keeps a reference alive, and up to date, across allocations. -/
def pin (r : Ref) : Action Unit :=
  modify fun m => { m with pinned := m.pinned.push r }

/-- Pins references, the first one lowest. -/
def pinAll : List Ref → Action Unit
  | [] => return
  | r :: rest => do
    pin r
    pinAll rest

/-- Reads the reference that was pinned last and stops keeping it. -/
def unpin : Action Ref :=
  fun m => match m.pinned.back? with
    | some r => .ok r { m with pinned := m.pinned.pop }
    | none => .stopped .unpinnedTooMany

/-- The number of references pinned. -/
def pinnedCount : Action Nat :=
  fun m => .ok m.pinned.size m

/-- The reference at a position among those pinned. -/
def pinnedAt (position : Nat) : Action Ref :=
  fun m => match m.pinned[position]? with
    | some r => .ok r m
    | none => .stopped (.fault .position)

/-- The references at `count` positions from `start` on. -/
def pinnedFrom (start : Nat) : Nat → Action (List Ref)
  | 0 => return []
  | count + 1 => do
    let r ← pinnedAt start
    return r :: (← pinnedFrom (start + 1) count)

/-- Keeps only the lowest `count` references. -/
def unpinTo (count : Nat) : Action Unit :=
  modify fun m => { m with pinned := m.pinned.take count }

/-! ## Collection -/

/-- Forgets the contexts kept for reuse. -/
def clearContexts : Action Unit :=
  modify fun m => { m with contexts := m.contexts.clear }

/-- Forgets the methods found so far. -/
def flushCache : Action Unit :=
  modify fun m => { m with cache := m.cache.flush }

/-- Runs a full collection and answers the bytes reclaimed. The registers are written back before
and computed again after it. -/
def collectGarbage : Action Nat := do
  flushRegisters
  clearContexts
  let roots ← ask roots
  let (roots, reclaimed) ← onHeap fun h => do
    let collected ← h.collect roots
    return ((collected.roots, collected.reclaimed), collected.heap)
  modify (·.withRoots roots)
  flushCache
  reloadRegisters
  return reclaimed

/-- Runs a full collection that keeps one more object, and answers its new reference. -/
def collectKeeping (r : Ref) : Action Ref := do
  pin r
  let _ ← collectGarbage
  unpin

/-! ## Allocation -/

/-- Allocates an object, after a collection if the threshold is crossed, and after another if the
reservation cannot hold it. -/
def allocate (cls : Ref) (format : Format) (fields len : Nat) : Action Ref := do
  let words ← format.checkedSize fields len
  let crossed ← read (·.shouldCollect words)
  let cls ← if crossed then collectKeeping cls else pure cls
  match ← onHeap (·.tryAllocate cls format fields len) with
  | some r => return r
  | none =>
    let cls ← collectKeeping cls
    match ← onHeap (·.tryAllocate cls format fields len) with
    | some r => return r
    | none => read fun h => .error (h.reservationExhausted words)

/-- Makes an instance of a class with a number of elements. There is none if the class is no class,
if its instances have no elements, or if memory cannot hold one even after a collection. -/
def instantiate (cls : Ref) (len : Nat) : Action (Option Ref) := do
  if !cls.isPointer then return none
  if (← read (·.fixedFields cls)) < Class.fieldCount then return none
  match ← read (Class.instanceSpec? · cls) with
  | none => return none
  | some spec =>
    if !spec.format.isIndexable && len != 0 then return none
    let words ← spec.format.checkedSize spec.fields len
    if ← read fun h => .ok (h.hasRoomFor words) then
      return some (← allocate cls spec.format spec.fields len)
    else
      let cls ← collectKeeping cls
      if ← read fun h => .ok (h.hasRoomFor words) then
        return some (← allocate cls spec.format spec.fields len)
      else return none

end ObjectMachine.Machine
