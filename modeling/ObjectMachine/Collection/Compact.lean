import ObjectMachine.Collection.Relocation
import ObjectMachine.Heap.Access
import ObjectMachine.Heap.Layout

/-!
# Compaction

The second phase of a collection slides the marked objects down over the gaps between them, in the
order of their addresses, and records where each went. The values of large integers that die are
released. The words that become free are cleared.
-/

namespace ObjectMachine

/-- Copies `count` words downwards, the lowest first. -/
def copyDown (memory : Array UInt64) (source target : Nat) : Nat → Array UInt64
  | 0 => memory
  | count + 1 =>
    copyDown (memory.setIfInBounds target (memory.getD source 0)) (source + 1) (target + 1) count

/-- The state of a compaction between two objects. -/
structure Compaction where
  heap : Heap
  relocation : Relocation
  /-- The first word not yet looked at. -/
  scan : Nat
  /-- Where the next survivor goes. -/
  free : Nat
  moved : Nat
  reclaimedWords : Nat

namespace Heap

/-- Releases what a dead object holds outside memory. -/
def finalize (h : Heap) (index : Nat) (header : Header) : Except Fatal Heap := do
  match ← header.format with
  | .largeInteger =>
    let slot ← h.word (index + headerWords)
    if slot = noSlot then return h
    let ((), h) ← h.onLargeIntegers fun t => return ((), ← t.release slot.toNat)
    return h
  | _ => return h

/-- Moves an object of `size` words down to a free position and clears its mark there. -/
def moveDown (h : Heap) (source target size : Nat) (header : Header) : Except Fatal Heap := do
  if source = target then h.setWord target header.unmarked.bits
  else
    require (decide (source + size ≤ h.memory.size)) .position
    let h := { h with memory := copyDown h.memory source target size }
    h.setWord target header.unmarked.bits

end Heap

namespace Compaction

/-- Before the first object. -/
def start (h : Heap) : Compaction where
  heap := h
  relocation := .empty h.top
  scan := firstWord
  free := firstWord
  moved := 0
  reclaimedWords := 0

/-- Keeps the object at hand. -/
def keep (c : Compaction) (header : Header) (size : Nat) : Except Fatal Compaction := do
  match c with
  | ⟨heap, relocation, scan, free, moved, reclaimed⟩ =>
    let heap ← heap.moveDown scan free size header
    let relocation ← relocation.record scan free
    return ⟨heap, relocation, scan + size, free + size,
      if free = scan then moved else moved + 1, reclaimed⟩

/-- Drops the object at hand. -/
def drop (c : Compaction) (header : Header) (size : Nat) : Except Fatal Compaction := do
  match c with
  | ⟨heap, relocation, scan, free, moved, reclaimed⟩ =>
    let heap ← heap.finalize scan header
    let _ ← checkedCount ((reclaimed + size) * wordBytes)
    return ⟨heap, relocation, scan + size, free, moved, reclaimed + size⟩

/-- Looks at `fuel` objects at most, up to the first free word `top`. -/
def run (top : Nat) (c : Compaction) : Nat → Except Fatal Compaction
  | 0 => .ok c
  | fuel + 1 =>
    if c.scan < top then do
      let header ← c.heap.headerAt c.scan
      let size ← c.heap.sizeAt c.scan header
      let c ← if header.isMarked then c.keep header size else c.drop header size
      c.run top fuel
    else .ok c

/-- Clears the words that became free and closes the accounts. -/
def finish (c : Compaction) : Except Fatal (Heap × Relocation) := do
  match c with
  | ⟨heap, relocation, _, free, moved, reclaimed⟩ =>
    let top := heap.top
    require (decide (free ≤ top ∧ top ≤ heap.memory.size)) .position
    return (
      { heap with
        memory := fillWords heap.memory free 0 (top - free)
        top := free
        stats := { heap.stats with
          lastReclaimedBytes := reclaimed * wordBytes
          lastLiveBytes := (free - firstWord) * wordBytes
          lastMovedObjects := moved } },
      relocation)

end Compaction

/-- Slides the marked objects down. Every object takes more than a word, so there are fewer than
words in use. -/
def Heap.compact (h : Heap) : Except Fatal (Heap × Relocation) := do
  let top := h.top
  let c ← (Compaction.start h).run top top
  c.finish

end ObjectMachine
