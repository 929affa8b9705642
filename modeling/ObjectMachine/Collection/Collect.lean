import ObjectMachine.Collection.Compact
import ObjectMachine.Collection.Mark
import ObjectMachine.Collection.Remap
import ObjectMachine.Heap.Allocate

/-!
# Collection

A collection marks what can be reached from the roots, slides it down, and updates every reference,
those of the roots included. Roots are a list of references, and a collection answers the list of
their new values.
-/

namespace ObjectMachine

/-- What a collection answers. -/
structure Collected where
  heap : Heap
  roots : List Ref
  /-- The bytes reclaimed. -/
  reclaimed : Nat

namespace Heap

/-- Counts a completed collection. -/
def closeCollection (h : Heap) : Heap :=
  { h with
    sinceCollection := 0
    stats := { h.stats with
      collections := h.stats.collections + 1
      reclaimedBytes := h.stats.reclaimedBytes + h.stats.lastReclaimedBytes } }

/-- Runs a full collection. -/
def collect (h : Heap) (roots : List Ref) : Except Fatal Collected := do
  let (h, _) ← h.mark roots
  let (h, relocation) ← h.compact
  let h ← h.remap relocation
  let roots ← roots.mapM relocation.relocate
  let nil ← relocation.relocate h.nil
  let h := { h with nil }.closeCollection
  return ⟨h, roots, h.stats.lastReclaimedBytes⟩

/-- Runs a full collection that keeps one more object, and answers its new reference. -/
def collectKeeping (h : Heap) (roots : List Ref) (extra : Ref) :
    Except Fatal (Heap × List Ref × Ref) := do
  let collected ← h.collect (roots ++ [extra])
  return (collected.heap, collected.roots.dropLast, collected.roots.getLastD extra)

/-- Allocates an object, after a collection if the threshold is crossed, and after another if the
reservation cannot hold it. Answers the object and the new roots. -/
def allocate (h : Heap) (roots : List Ref) (cls : Ref) (format : Format) (fields len : Nat) :
    Except Fatal (Ref × List Ref × Heap) := do
  let words ← format.checkedSize fields len
  let (h, roots, cls) ←
    if ← h.shouldCollect words then h.collectKeeping roots cls else pure (h, roots, cls)
  match ← h.tryAllocate cls format fields len with
  | (some r, h) => return (r, roots, h)
  | (none, h) =>
    let (h, roots, cls) ← h.collectKeeping roots cls
    match ← h.tryAllocate cls format fields len with
    | (some r, h) => return (r, roots, h)
    | (none, h) => throw (h.reservationExhausted words)

end Heap

end ObjectMachine
