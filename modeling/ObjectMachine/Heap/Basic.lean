import ObjectMachine.Heap.Config
import ObjectMachine.Heap.LargeIntegers
import ObjectMachine.Object.Header

/-!
# Memory

One growable array of words, in which objects are allocated from the bottom upwards and addressed by
the position of their first word. Word zero is never allocated. All words from `top` on are free.

Reading and writing a word have to stay inside the committed words; every other access to memory is
made of these two.
-/

namespace ObjectMachine

/-- The word of the first object. Word zero stays unused, so that the null reference designates no
object. -/
def firstWord : Nat := 1

/-- The payload of a large integer without a value. -/
def noSlot : UInt64 := 0xFFFFFFFFFFFFFFFF

/-- Running totals of a heap. -/
structure HeapStats where
  /-- Completed collections. -/
  collections : Nat := 0
  /-- Objects allocated since the heap exists. -/
  allocations : Nat := 0
  /-- Bytes allocated since the heap exists. -/
  allocatedBytes : Nat := 0
  /-- Bytes reclaimed by all collections. -/
  reclaimedBytes : Nat := 0
  /-- Bytes reclaimed by the last collection. -/
  lastReclaimedBytes : Nat := 0
  /-- Bytes that survived the last collection. -/
  lastLiveBytes : Nat := 0
  /-- Objects that the last collection moved. -/
  lastMovedObjects : Nat := 0
  deriving DecidableEq, Inhabited, Repr

/-- Memory and what belongs to it. -/
structure Heap where
  /-- The committed words. -/
  memory : Array UInt64
  /-- The first free word. -/
  top : Nat
  /-- The number of words that may be committed. -/
  reservedWords : Nat
  /-- Bytes allocated since the last collection. -/
  sinceCollection : Nat
  config : HeapConfig
  /-- The state of the generator of identity hashes. -/
  hashState : UInt32
  /-- What every reference slot holds at first. -/
  nil : Ref
  largeIntegers : LargeIntegers
  stats : HeapStats
  deriving Inhabited

namespace Heap

/-- The words committed at first: whole pages, and at least one. -/
def initialWords (c : HeapConfig) : Nat :=
  max ((c.initialBytes / wordBytes + (pageWords - 1)) / pageWords * pageWords) pageWords

/-- A heap without objects. -/
def ofConfig (c : HeapConfig) : Except ConfigProblem Heap :=
  match c.problem? with
  | some problem => .error problem
  | none => .ok
    { memory := Array.replicate (initialWords c) 0
      top := firstWord
      reservedWords := c.maxBytes / wordBytes
      sinceCollection := 0
      config := c
      hashState := 0x2545F491
      nil := .null
      largeIntegers := .empty
      stats := {} }

/-- Bytes below the first free word. -/
def usedBytes (h : Heap) : Nat :=
  h.top * wordBytes

/-- Bytes committed. -/
def committedBytes (h : Heap) : Nat :=
  h.memory.size * wordBytes

/-- Whether an object of `words` words fits into what is left of the reservation. -/
def hasRoomFor (h : Heap) (words : Nat) : Bool :=
  h.top + words < countLimit && h.top + words ≤ h.reservedWords

/-- Chooses what every fresh reference slot holds. -/
def setNil (h : Heap) (nil : Ref) : Heap :=
  { h with nil }

/-- The word at a position. -/
@[inline] def word (h : Heap) (index : Nat) : Except Fatal UInt64 :=
  if hi : index < h.memory.size then .ok h.memory[index] else .error (.fault .position)

/-- Writes the word at a position. -/
@[inline] def setWord (h : Heap) (index : Nat) (value : UInt64) : Except Fatal Heap :=
  if hi : index < h.memory.size then .ok { h with memory := h.memory.set index value }
  else .error (.fault .position)

/-- The reference at a position. -/
@[noinline] def slot (h : Heap) (index : Nat) : Except Fatal Ref :=
  match h.word index with
  | .ok bits => .ok ⟨bits⟩
  | .error e => .error e

/-- Writes the reference at a position. -/
@[inline] def setSlot (h : Heap) (index : Nat) (value : Ref) : Except Fatal Heap :=
  h.setWord index value.bits

end Heap

/-- Writes one value to `count` positions from `start` on, as far as there are so many. -/
def fillWords (memory : Array UInt64) (start : Nat) (value : UInt64) : Nat → Array UInt64
  | 0 => memory
  | count + 1 => fillWords (memory.setIfInBounds start value) (start + 1) value count

end ObjectMachine
