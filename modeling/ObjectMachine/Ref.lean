import ObjectMachine.Text.Quoted

/-!
# Tagged references

Every value of the machine fits one word. The two low bits tell its kind: a heap object (the byte
offset of its first word), a small integer, a character, or a marker. Markers are never field
values; object headers carry them, so that the collector can tell the beginning of an object from a
field.

Offset zero is never handed out by the allocator, so the null reference designates no object.
-/

namespace ObjectMachine

/-- The four kinds of words. -/
inductive Tag where
  | pointer
  | smallInteger
  | character
  | marker
  deriving DecidableEq, Repr

/-- The name of a kind of word. -/
def Tag.name : Tag → String
  | .pointer => "Pointer"
  | .smallInteger => "SmallInteger"
  | .character => "Character"
  | .marker => "Marker"

/-- A tagged word. -/
structure Ref where
  bits : UInt64
  deriving DecidableEq, Inhabited, Repr

namespace Ref

/-- The mask of the tag bits. -/
def tagMask : UInt64 := 3

/-- The reference that designates nothing. -/
def null : Ref := ⟨0⟩

/-- The kind of a word. -/
def tag (r : Ref) : Tag :=
  if r.bits &&& tagMask = 0 then .pointer
  else if r.bits &&& tagMask = 1 then .smallInteger
  else if r.bits &&& tagMask = 2 then .character
  else .marker

/-- Whether a word designates a heap object. -/
@[inline] def isPointer (r : Ref) : Bool :=
  r.bits &&& tagMask == 0 && r.bits != 0

@[inline] def isNull (r : Ref) : Bool :=
  r.bits == 0

@[inline] def isSmallInteger (r : Ref) : Bool :=
  r.bits &&& tagMask == 1

@[inline] def isCharacter (r : Ref) : Bool :=
  r.bits &&& tagMask == 2

@[inline] def isMarker (r : Ref) : Bool :=
  r.bits &&& tagMask == 3

/-- Small integers and characters are values by themselves. -/
@[inline] def isImmediate (r : Ref) : Bool :=
  r.isSmallInteger || r.isCharacter

/-! ## Small integers -/

/-- The least integer that fits a word beside its tag: `-2 ^ 61`. -/
def minSmall : Int := -2305843009213693952

/-- The greatest integer that fits a word beside its tag: `2 ^ 61 - 1`. -/
def maxSmall : Int := 2305843009213693951

/-- Whether an integer fits a word beside its tag. -/
@[inline] def isSmall (value : Int) : Bool :=
  decide (minSmall ≤ value) && decide (value ≤ maxSmall)

/-- The small integer with the low 62 bits of `bits`. -/
@[inline] def ofPayload (bits : UInt64) : Ref :=
  ⟨(bits <<< 2) ||| 1⟩

/-- The word of an integer. One that does not fit loses its high bits. -/
@[inline] def ofInt (value : Int) : Ref :=
  ofPayload (Int64.ofInt value).toUInt64

/-- The word of a count. One that does not fit loses its high bits. -/
@[inline] def ofNat (value : Nat) : Ref :=
  ofPayload value.toUInt64

/-- The word of an integer that fits. -/
@[inline] def ofInt? (value : Int) : Option Ref :=
  if isSmall value then some (ofInt value) else none

/-- The integer held by a word, whatever its tag. -/
@[inline] def toInt (r : Ref) : Int :=
  (r.bits.toInt64 >>> 2).toInt

/-- The integer held by a word, read as an unsigned 64-bit count: a negative one is counted from the
top. -/
@[inline] def toCount (r : Ref) : Nat :=
  (r.bits.toInt64 >>> 2).toUInt64.toNat

/-- The word of zero. -/
def zero : Ref := ofNat 0

/-! ## Characters -/

/-- The word of a character. -/
def ofChar (c : Char) : Ref :=
  ⟨(c.val.toUInt64 <<< 2) ||| 2⟩

/-- The code point held by a word, whatever its tag. -/
def charCode (r : Ref) : UInt32 :=
  (r.bits >>> 2).toUInt32

/-- The character held by a word; a number that is no code point gives the replacement character. -/
def toChar (r : Ref) : Char :=
  if h : r.charCode.isValidChar then ⟨r.charCode, h⟩ else '\uFFFD'

/-! ## Heap references -/

/-- The byte offset of the object designated. -/
def offset (r : Ref) : Nat :=
  r.bits.toNat

/-- The index of the first word of the object designated. -/
@[inline] def wordIndex (r : Ref) : Nat :=
  (r.bits >>> 3).toNat

/-- The reference to the object that begins at a word. -/
@[inline] def ofWordIndex (index : Nat) : Ref :=
  ⟨index.toUInt64 <<< 3⟩

/-- The reference with a byte offset, which has to be that of a word. -/
def ofOffset? (offset : UInt64) : Option Ref :=
  if offset % 8 = 0 then some ⟨offset⟩ else none

/-! ## Markers -/

/-- The marker that carries the low 62 bits of `payload`. -/
def ofMarker (payload : UInt64) : Ref :=
  ⟨(payload <<< 2) ||| 3⟩

/-- What a marker carries. -/
def markerPayload (r : Ref) : UInt64 :=
  r.bits >>> 2

/-- The text of a word, for failures and listings. -/
def text (r : Ref) : String :=
  match r.tag with
  | .pointer => if r.isNull then "Oop(null)" else "Oop(@" ++ Text.hex r.offset ++ ")"
  | .smallInteger => "Oop(" ++ Text.decimal r.toInt ++ ")"
  | .character => "Oop($" ++ Text.quoted r.toChar ++ ")"
  | .marker => "Oop(marker " ++ Text.hex r.markerPayload.toNat ++ ")"

end Ref

end ObjectMachine
