import ObjectMachine.Object.Format

/-!
# Object headers

The first word of every object.

```
 63        48 47           32 31 30                 9 8      4  3   2   1  0
| reserved   | fixed fields  | - |  identity hash     | format | C | M | 11 |
```

`M` is the mark, set only while a collection runs. `C` is set on a context that escaped its
activation, because a program took hold of it or a block refers to it: such a context is never used
again for another activation.
-/

namespace ObjectMachine

/-- The first word of an object. -/
structure Header where
  bits : UInt64
  deriving DecidableEq, Inhabited, Repr

namespace Header

def markBit : UInt64 := 0x4
def capturedBit : UInt64 := 0x8

/-- Bits of an identity hash. -/
def hashBits : Nat := 22

/-- The greatest number of fixed fields of an object. -/
def maxFields : Nat := 0xFFFF

/-- The header with a format, a number of fixed fields and an identity hash, of which the low 22
bits are kept. -/
def pack (format : Format) (fields : Nat) (hash : UInt32) : Header :=
  ⟨(3 : UInt64) ||| (format.code.toUInt64 <<< 4) ||| ((hash.toUInt64 &&& 0x3FFFFF) <<< 9) |||
    ((fields.toUInt64 &&& 0xFFFF) <<< 32)⟩

/-- A header whose number of fixed fields has to fit. -/
def make (format : Format) (fields : Nat) (hash : UInt32) : Except Fatal Header :=
  if fields ≤ maxFields then .ok (pack format fields hash) else .error (.fault .operand)

/-- Whether the word carries the tag of headers. Anything else at the beginning of an object is
damage. -/
@[inline] def isValid (h : Header) : Bool :=
  h.bits &&& 3 == 3

/-- The number of the format. -/
@[inline] def formatCode (h : Header) : Nat :=
  ((h.bits >>> 4) &&& 0x1F).toNat

/-- The format, which has to exist. -/
@[inline] def format (h : Header) : Except Fatal Format :=
  match Format.ofCode? h.formatCode with
  | some f => .ok f
  | none => .error (.unknownFormat h.bits h.formatCode)

/-- The number of fixed fields. -/
@[inline] def fixedFields (h : Header) : Nat :=
  ((h.bits >>> 32) &&& 0xFFFF).toNat

/-- The identity hash. -/
@[inline] def identityHash (h : Header) : Nat :=
  ((h.bits >>> 9) &&& 0x3FFFFF).toNat

@[inline] def isMarked (h : Header) : Bool :=
  h.bits &&& markBit != 0

@[inline] def marked (h : Header) : Header :=
  ⟨h.bits ||| markBit⟩

@[inline] def unmarked (h : Header) : Header :=
  ⟨h.bits &&& ~~~markBit⟩

@[inline] def isCaptured (h : Header) : Bool :=
  h.bits &&& capturedBit != 0

@[inline] def captured (h : Header) : Header :=
  ⟨h.bits ||| capturedBit⟩

@[inline] def uncaptured (h : Header) : Header :=
  ⟨h.bits &&& ~~~capturedBit⟩

theorem isMarked_marked (h : Header) : h.marked.isMarked = true := by
  have hand : (h.bits ||| 4) &&& 4 = 4 := by
    apply UInt64.toBitVec_inj.mp
    simp only [UInt64.toBitVec_and, UInt64.toBitVec_or]
    ext i
    simp only [BitVec.getElem_and, BitVec.getElem_or]
    cases h.bits.toBitVec[i] <;> simp
  simp [marked, isMarked, markBit, hand]

/-- The text of a header. -/
def text (h : Header) : Except Fatal String := do
  let format ← h.format
  return "Header \x7b format: " ++ format.name ++ ", fixed_fields: " ++ Nat.repr h.fixedFields ++
    ", hash: " ++ Nat.repr h.identityHash ++ ", marked: " ++ toString h.isMarked ++
    ", captured: " ++ toString h.isCaptured ++ " \x7d"

end Header

end ObjectMachine
