import ObjectMachine.Heap.Basic

/-!
# Allocation

Objects are allocated from the first free word upwards. More words are committed as they are needed,
up to the reservation: at least twice as many as before, in whole pages. A fresh object has an
identity hash from a generator of its own, its reference slots hold nil and its other words zero.
-/

namespace ObjectMachine.Heap

/-- Whether `words` more words cross the threshold of the next collection. -/
def shouldCollect (h : Heap) (words : Nat) : Except Fatal Bool :=
  if h.config.stress then .ok true
  else do
    let bytes ← checkedCount (words * wordBytes)
    let total ← checkedCount (h.sinceCollection + bytes)
    return decide (h.config.threshold < total)

/-- The words to commit so that `last` of them are. -/
def commitTarget (h : Heap) (last : Nat) : Nat :=
  min ((max last (h.memory.size * 2) + (pageWords - 1)) / pageWords * pageWords) h.reservedWords

/-- Commits words so that there are at least `last`, unless the reservation forbids it. -/
def ensureCommitted (h : Heap) (last : Nat) : Bool × Heap :=
  if last ≤ h.memory.size then (true, h)
  else if h.reservedWords < last then (false, h)
  else
    let target := h.commitTarget last
    (true, { h with memory := h.memory ++ Array.replicate (target - h.memory.size) 0 })

/-- The next state of the generator of identity hashes. -/
def nextHashState (x : UInt32) : UInt32 :=
  let x := x ^^^ (x <<< 13)
  let x := x ^^^ (x >>> 17)
  x ^^^ (x <<< 5)

/-- The identity hash of a state: its high bits. -/
def hashOfState (x : UInt32) : UInt32 :=
  x >>> 10

/-- Writes a fresh object of `words` words. -/
def initObject (memory : Array UInt64) (index : Nat) (header : Header) (cls nil : Ref)
    (format : Format) (fields len words : Nat) : Array UInt64 :=
  let memory := memory.setIfInBounds index header.bits
  let memory := memory.setIfInBounds (index + 1) cls.bits
  let payload := index + headerWords
  let memory := fillWords memory payload nil.bits fields
  match format with
  | .plain => memory
  | .float => memory.setIfInBounds payload 0
  | .largeInteger => memory.setIfInBounds payload noSlot
  | _ =>
    let count := payload + fields
    let memory := memory.setIfInBounds count len.toUInt64
    fillWords memory (count + 1) (if format.hasReferenceTail then nil.bits else 0)
      (index + words - (count + 1))

/-- Allocates an object without a collection. There is none only if the reservation cannot hold it.
The class may be null as long as it does not exist yet. -/
def tryAllocate (h : Heap) (cls : Ref) (format : Format) (fields len : Nat) :
    Except Fatal (Option Ref × Heap) := do
  require (!cls.isImmediate) .operand
  require (fields == 0 || format.allowsFields) .operand
  let words ← format.checkedSize fields len
  let last ← checkedCount (h.top + words)
  let (committed, h) := h.ensureCommitted last
  if !committed then return (none, h)
  let state := nextHashState h.hashState
  let header ← Header.make format fields (hashOfState state)
  let index := h.top
  let bytes := words * wordBytes
  return (some (.ofWordIndex index),
    { h with
      memory := initObject h.memory index header cls h.nil format fields len words
      top := last
      sinceCollection := h.sinceCollection + bytes
      hashState := state
      stats := { h.stats with
        allocations := h.stats.allocations + 1
        allocatedBytes := h.stats.allocatedBytes + bytes } })

/-- The fatal stop of an object that does not fit the reservation. -/
def reservationExhausted (h : Heap) (words : Nat) : Fatal :=
  if words * wordBytes < countLimit then
    .reservationExhausted (words * wordBytes) h.usedBytes (h.reservedWords * wordBytes)
  else .fault .overflow

end ObjectMachine.Heap
