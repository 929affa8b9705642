import ObjectMachine.Heap.Basic
import ObjectMachine.Number.Binary64

/-!
# Reading and writing objects

Access to the class, the fields and the elements of an object. An object is trusted to begin where a
reference points; every position read or written is checked against what the object declares.
Bytes and 32-bit words are packed into words from their low end upwards.
-/

namespace ObjectMachine.Heap

/-! ## Header and class -/

/-- The header of an object. -/
@[noinline] def header (h : Heap) (r : Ref) : Except Fatal Header :=
  match h.word r.wordIndex with
  | .ok bits => .ok ⟨bits⟩
  | .error e => .error e

/-- The format of an object. -/
@[noinline] def format (h : Heap) (r : Ref) : Except Fatal Format :=
  match h.header r with
  | .ok header => header.format
  | .error e => .error e

/-- The identity hash of an object. -/
@[noinline] def identityHash (h : Heap) (r : Ref) : Except Fatal Nat :=
  match h.header r with
  | .ok header => .ok header.identityHash
  | .error e => .error e

/-- The number of fixed fields of an object. -/
@[noinline] def fixedFields (h : Heap) (r : Ref) : Except Fatal Nat :=
  match h.header r with
  | .ok header => .ok header.fixedFields
  | .error e => .error e

/-- The class word of an object. -/
@[noinline] def classOf (h : Heap) (r : Ref) : Except Fatal Ref :=
  h.slot (r.wordIndex + 1)

/-- Gives an object another class. -/
@[inline] def setClassOf (h : Heap) (r cls : Ref) : Except Fatal Heap :=
  h.setSlot (r.wordIndex + 1) cls

/-- Whether a context is captured. -/
@[noinline] def isCaptured (h : Heap) (r : Ref) : Except Fatal Bool :=
  match h.header r with
  | .ok header => .ok header.isCaptured
  | .error e => .error e

/-- Marks a context as captured or not. -/
def setCaptured (h : Heap) (r : Ref) (captured : Bool) : Except Fatal Heap :=
  match h.header r with
  | .ok header =>
    h.setWord r.wordIndex (if captured then header.captured else header.uncaptured).bits
  | .error e => .error e

/-! ## Fixed fields -/

/-- The position of a fixed field, which has to exist. -/
@[inline] def fieldIndex (h : Heap) (r : Ref) (index : Nat) : Except Fatal Nat :=
  match h.header r with
  | .ok header =>
    if index < header.fixedFields then .ok (r.wordIndex + headerWords + index)
    else .error (.fault .position)
  | .error e => .error e

/-- A fixed field. -/
@[noinline] def fetchField (h : Heap) (r : Ref) (index : Nat) : Except Fatal Ref :=
  match h.fieldIndex r index with
  | .ok position => h.slot position
  | .error e => .error e

/-- Writes a fixed field. -/
@[inline] def storeField (h : Heap) (r : Ref) (index : Nat) (value : Ref) : Except Fatal Heap :=
  match h.fieldIndex r index with
  | .ok position => h.setSlot position value
  | .error e => .error e

/-- Whether a reference designates an object with a fixed field of this index. -/
@[noinline] def hasField (h : Heap) (r : Ref) (index : Nat) : Except Fatal Bool :=
  if r.isPointer then
    match h.fixedFields r with
    | .ok count => .ok (decide (index < count))
    | .error e => .error e
  else .ok false

/-! ## Elements -/

/-- The number of elements, zero in the formats without any. -/
@[noinline] def length (h : Heap) (r : Ref) : Except Fatal Nat :=
  match h.header r with
  | .error e => .error e
  | .ok header =>
    match header.format with
    | .error e => .error e
    | .ok format =>
      if format.isIndexable then
        match h.word (r.wordIndex + headerWords + header.fixedFields) with
        | .ok count => .ok count.toNat
        | .error e => .error e
      else .ok 0

/-- The position of the first element. -/
@[noinline] def elementsIndex (h : Heap) (r : Ref) : Except Fatal Nat :=
  match h.header r with
  | .ok header => .ok (r.wordIndex + headerWords + header.fixedFields + 1)
  | .error e => .error e

/-- Goes on only if an object has an element with this index. -/
@[inline] def checkElement (h : Heap) (r : Ref) (index : Nat) : Except Fatal Unit :=
  match h.length r with
  | .ok len => if index < len then .ok () else .error (.fault .position)
  | .error e => .error e

/-- The position of an element that takes a word. -/
@[inline] def elementIndex (h : Heap) (r : Ref) (index : Nat) : Except Fatal Nat := do
  h.checkElement r index
  return (← h.elementsIndex r) + index

/-- A reference element. -/
@[noinline] def fetchElement (h : Heap) (r : Ref) (index : Nat) : Except Fatal Ref := do
  h.slot (← h.elementIndex r index)

/-- Writes a reference element. -/
@[inline] def storeElement (h : Heap) (r : Ref) (index : Nat) (value : Ref) :
    Except Fatal Heap := do
  h.setSlot (← h.elementIndex r index) value

/-- A floating-point element. -/
def fetchFloatElement (h : Heap) (r : Ref) (index : Nat) : Except Fatal Binary64 := do
  return ⟨← h.word (← h.elementIndex r index)⟩

/-- Writes a floating-point element. -/
def storeFloatElement (h : Heap) (r : Ref) (index : Nat) (value : Binary64) :
    Except Fatal Heap := do
  h.setWord (← h.elementIndex r index) value.bits

/-! ## Bytes -/

/-- The byte of a word with a number from zero to seven. -/
@[inline] def byteOfWord (word : UInt64) (n : Nat) : UInt8 :=
  (word >>> (n * 8).toUInt64).toUInt8

/-- A word with one of its bytes replaced. -/
@[inline] def setByteOfWord (word : UInt64) (n : Nat) (value : UInt8) : UInt64 :=
  (word &&& ~~~((0xFF : UInt64) <<< (n * 8).toUInt64)) ||| (value.toUInt64 <<< (n * 8).toUInt64)

/-- The byte at a byte offset into memory. -/
@[noinline] def byteAtOffset (h : Heap) (offset : Nat) : Except Fatal UInt8 :=
  match h.word (offset / 8) with
  | .ok word => .ok (byteOfWord word (offset % 8))
  | .error e => .error e

/-- Writes the byte at a byte offset into memory. -/
@[inline] def setByteAtOffset (h : Heap) (offset : Nat) (value : UInt8) : Except Fatal Heap :=
  match h.word (offset / 8) with
  | .ok word => h.setWord (offset / 8) (setByteOfWord word (offset % 8) value)
  | .error e => .error e

/-- The byte offset of the first element. -/
@[noinline] def bytesOffset (h : Heap) (r : Ref) : Except Fatal Nat :=
  match h.elementsIndex r with
  | .ok index => .ok (index * wordBytes)
  | .error e => .error e

/-- A byte element. -/
def fetchByte (h : Heap) (r : Ref) (index : Nat) : Except Fatal UInt8 := do
  h.checkElement r index
  h.byteAtOffset ((← h.bytesOffset r) + index)

/-- Writes a byte element. -/
def storeByte (h : Heap) (r : Ref) (index : Nat) (value : UInt8) : Except Fatal Heap := do
  h.checkElement r index
  h.setByteAtOffset ((← h.bytesOffset r) + index) value

/-- The bytes of memory from an offset on. -/
def bytesFrom (h : Heap) (offset count : Nat) : List UInt8 :=
  (List.range count).map fun i => byteOfWord (h.memory.getD ((offset + i) / 8) 0) ((offset + i) % 8)

/-- All byte elements. -/
def bytes (h : Heap) (r : Ref) : Except Fatal (List UInt8) := do
  let offset ← h.bytesOffset r
  let count ← h.length r
  if count = 0 ∨ offset + count ≤ h.memory.size * 8 then return h.bytesFrom offset count
  else throw (.fault .position)

/-- Writes bytes at an offset and after it. -/
def setBytesFrom (h : Heap) (offset : Nat) : List UInt8 → Except Fatal Heap
  | [] => .ok h
  | value :: rest => do
    let h ← h.setByteAtOffset offset value
    h.setBytesFrom (offset + 1) rest

/-- Writes the first byte elements. -/
def storeBytes (h : Heap) (r : Ref) (values : List UInt8) : Except Fatal Heap := do
  require (decide (values.length ≤ (← h.length r))) .position
  h.setBytesFrom (← h.bytesOffset r) values

/-! ## 32-bit words -/

/-- A 32-bit element. -/
def fetchWordElement (h : Heap) (r : Ref) (index : Nat) : Except Fatal UInt32 := do
  h.checkElement r index
  let word ← h.word ((← h.elementsIndex r) + index / 2)
  return (word >>> (index % 2 * 32).toUInt64).toUInt32

/-- Writes a 32-bit element. -/
def storeWordElement (h : Heap) (r : Ref) (index : Nat) (value : UInt32) : Except Fatal Heap := do
  h.checkElement r index
  let position := (← h.elementsIndex r) + index / 2
  let shift := (index % 2 * 32).toUInt64
  let word ← h.word position
  h.setWord position ((word &&& ~~~((0xFFFFFFFF : UInt64) <<< shift)) ||| (value.toUInt64 <<< shift))

/-! ## Numbers -/

/-- Goes on only if an object has a format. -/
def checkFormat (h : Heap) (r : Ref) (expected : Format) : Except Fatal Unit := do
  require (decide ((← h.format r) = expected)) .operand

/-- The value of a floating-point object. -/
def floatValue (h : Heap) (r : Ref) : Except Fatal Binary64 := do
  h.checkFormat r .float
  return ⟨← h.word (r.wordIndex + headerWords)⟩

/-- Gives a floating-point object a value. -/
def setFloatValue (h : Heap) (r : Ref) (value : Binary64) : Except Fatal Heap := do
  h.checkFormat r .float
  h.setWord (r.wordIndex + headerWords) value.bits

/-- The value of a large integer, if it was ever given one. -/
def largeInteger? (h : Heap) (r : Ref) : Except Fatal (Option Int) := do
  h.checkFormat r .largeInteger
  let slot ← h.word (r.wordIndex + headerWords)
  return if slot = noSlot then none else h.largeIntegers.get? slot.toNat

/-- Changes the table of large integers, and nothing else. -/
@[inline] def onLargeIntegers {α : Type} (h : Heap)
    (f : LargeIntegers → Except Fatal (α × LargeIntegers)) : Except Fatal (α × Heap) :=
  match h with
  | ⟨memory, top, reserved, since, config, hash, nil, largeIntegers, stats⟩ =>
    match f largeIntegers with
    | .ok (a, largeIntegers) =>
      .ok (a, ⟨memory, top, reserved, since, config, hash, nil, largeIntegers, stats⟩)
    | .error e => .error e

/-- Gives a large integer a value. -/
def setLargeInteger (h : Heap) (r : Ref) (value : Int) : Except Fatal Heap := do
  h.checkFormat r .largeInteger
  let payload := r.wordIndex + headerWords
  let slot ← h.word payload
  if slot = noSlot then
    let (slot, h) ← h.onLargeIntegers (·.insert value)
    h.setWord payload slot.toUInt64
  else
    let ((), h) ← h.onLargeIntegers fun t => return ((), ← t.replace slot.toNat value)
    return h

end ObjectMachine.Heap
