/-!
# Binary floating-point numbers

A 64-bit binary floating-point number is kept as its bits, so that storing and loading it loses
nothing, the payload of a NaN included. A finite number is a sign and `significand · 2 ^ exponent`
with exact integers; conversions to and from integers are stated on those. Arithmetic and
comparison are those of the IEEE standard.
-/

namespace ObjectMachine

/-- The bits of a binary floating-point number. -/
structure Binary64 where
  bits : UInt64
  deriving DecidableEq, Inhabited, Repr

namespace Binary64

/-- The sign bit. -/
def isNegative (x : Binary64) : Bool :=
  x.bits >>> 63 == 1

/-- The eleven bits of the biased exponent. -/
def exponentField (x : Binary64) : Nat :=
  ((x.bits >>> 52) &&& 0x7FF).toNat

/-- The fifty-two stored bits of the significand. -/
def fractionField (x : Binary64) : Nat :=
  (x.bits &&& 0xFFFFFFFFFFFFF).toNat

/-- Neither infinite nor a NaN. -/
def isFinite (x : Binary64) : Bool :=
  x.exponentField != 0x7FF

def isNaN (x : Binary64) : Bool :=
  x.exponentField == 0x7FF && x.fractionField != 0

/-- Either zero. -/
def isZero (x : Binary64) : Bool :=
  x.exponentField == 0 && x.fractionField == 0

/-- The leading bit of a significand, which is not stored: `2 ^ 52`. -/
def leadingBit : Nat := 0x10000000000000

/-- The integer significand of a finite number: an implicit leading bit stands before the stored
ones unless the exponent field is zero. -/
def significand (x : Binary64) : Nat :=
  if x.exponentField = 0 then x.fractionField else x.fractionField + leadingBit

/-- The power of two that a finite number's significand is multiplied by. -/
def exponent (x : Binary64) : Int :=
  (max x.exponentField 1 : Nat) - 1075

/-- The number with a sign, an exponent field and stored bits. -/
def ofFields (negative : Bool) (exponentField fractionField : Nat) : Binary64 :=
  ⟨(if negative then (0x8000000000000000 : UInt64) else 0) ||| (exponentField.toUInt64 <<< 52) |||
    fractionField.toUInt64⟩

/-! ## Integers -/

/-- Divides by a power of two and rounds to nearest, a half to the even neighbour. -/
def roundShift (n shift : Nat) : Nat :=
  let unit := Nat.pow 2 shift
  let quotient := n / unit
  let twice := 2 * (n % unit)
  if twice < unit then quotient
  else if unit < twice then quotient + 1
  else quotient + quotient % 2

/-- The number nearest to a natural number, a half to the even neighbour; infinity from
`2 ^ 1024 - 2 ^ 970` on. -/
def ofNat (negative : Bool) (n : Nat) : Binary64 :=
  if n = 0 then ofFields negative 0 0
  else
    let top := n.log2
    if top ≤ 52 then ofFields negative (top + 1023) (n * Nat.pow 2 (52 - top) - leadingBit)
    else if 1024 < top then ofFields negative 0x7FF 0
    else
      let rounded := roundShift n (top - 52)
      let (top, rounded) := if rounded = 2 * leadingBit then (top + 1, leadingBit) else (top, rounded)
      if 1023 < top then ofFields negative 0x7FF 0
      else ofFields negative (top + 1023) (rounded - leadingBit)

/-- The number nearest to an integer. -/
def ofInt (i : Int) : Binary64 :=
  if i = 0 then ofFields false 0 0 else ofNat (decide (i < 0)) i.natAbs

/-- A finite number without its fraction. -/
def truncate? (x : Binary64) : Option Int :=
  if x.isFinite then
    let magnitude : Nat :=
      if 0 ≤ x.exponent then x.significand * Nat.pow 2 x.exponent.toNat
      else x.significand / Nat.pow 2 (-x.exponent).toNat
    some (if x.isNegative then -magnitude else magnitude)
  else none

/-! ## Arithmetic -/

def toFloat (x : Binary64) : Float :=
  Float.ofBits x.bits

def ofFloat (x : Float) : Binary64 :=
  ⟨x.toBits⟩

def add (x y : Binary64) : Binary64 := ofFloat (x.toFloat + y.toFloat)
def sub (x y : Binary64) : Binary64 := ofFloat (x.toFloat - y.toFloat)
def mul (x y : Binary64) : Binary64 := ofFloat (x.toFloat * y.toFloat)
def div (x y : Binary64) : Binary64 := ofFloat (x.toFloat / y.toFloat)

/-- The greatest integral number at or below a number. -/
def floor (x : Binary64) : Binary64 := ofFloat x.toFloat.floor

/-- Numeric equality: the zeros are equal, and a NaN equals nothing. -/
def equals (x y : Binary64) : Bool := x.toFloat == y.toFloat

def lessThan (x y : Binary64) : Bool := x.toFloat < y.toFloat
def lessOrEqual (x y : Binary64) : Bool := x.toFloat ≤ y.toFloat

end Binary64

end ObjectMachine
