import ObjectMachine.Number.Binary64

/-!
# Operations on numbers

The binary operations and comparisons that messages to numbers ask for, on small integers, on integers of
any size and on floating-point numbers. An operation may have no result: division by zero, an exact
quotient that does not exist, or an operation on words that does not fit one.
-/

namespace ObjectMachine

/-- A binary operation on numbers. -/
inductive Arithmetic where
  | add
  | subtract
  | multiply
  /-- The exact quotient. -/
  | divide
  /-- The remainder with the sign of the divisor. -/
  | modulo
  /-- The quotient rounded down. -/
  | floorDivide
  /-- The quotient rounded toward zero. -/
  | truncatingDivide
  | bitAnd
  | bitOr
  | bitXor
  /-- The product with a power of two, rounded down. -/
  | bitShift
  deriving DecidableEq, Repr

/-- A comparison of numbers. -/
inductive Comparison where
  | lessThan
  | greaterThan
  | lessOrEqual
  | greaterOrEqual
  | equal
  | notEqual
  deriving DecidableEq, Repr

/-! ## Integers -/

/-- An integer that fits 64 bits: from `-2 ^ 63` on and below `2 ^ 63`. -/
def checked (value : Int) : Option Int :=
  if -9223372036854775808 ≤ value ∧ value < 9223372036854775808 then some value else none

/-- The quotient, if it divides evenly. -/
def exactQuotient (a b : Int) : Option Int :=
  if b ≠ 0 ∧ a.tmod b = 0 then some (a.tdiv b) else none

/-- The quotient rounded down. Rounding toward zero rounds it up if it is negative and does not divide
evenly. Its sign is found out by that of another number: the dividend, or the remainder. -/
def flooredQuotient (signed a b : Int) : Option Int :=
  if b = 0 then none
  else if a.tmod b ≠ 0 ∧ decide (signed < 0) ≠ decide (b < 0) then some (a.tdiv b - 1)
  else some (a.tdiv b)

/-- The remainder with the sign of the divisor. -/
def flooredModulo (a b : Int) : Option Int :=
  if b = 0 then none
  else
    let remainder := a.tmod b
    if remainder ≠ 0 ∧ decide (remainder < 0) ≠ decide (b < 0) then some (remainder + b)
    else some remainder

/-- An integer of 64 bits times a power of two, rounded down. A shift to the left that loses bits has no
result; one to the right by 63 places or more leaves only the sign. -/
def shifted (value count : Int) : Option Int :=
  if 0 ≤ count then
    if 63 ≤ count then
      if value = 0 then some 0 else none
    else
      let result := BitVec.ofInt 64 value <<< count.toNat
      if result.sshiftRight count.toNat = .ofInt 64 value then some result.toInt else none
  else some (value >>> min count.natAbs 63)

/-- A bit operation on integers that fit 64 bits. -/
@[inline] def onBits (f : Int64 → Int64 → Int64) (a b : Int) : Int :=
  (f (.ofInt a) (.ofInt b)).toInt

namespace Arithmetic

/-- The selector of an operation. -/
def selector : Arithmetic → String
  | .add => "+"
  | .subtract => "-"
  | .multiply => "*"
  | .divide => "/"
  | .modulo => "\\\\"
  | .floorDivide => "//"
  | .truncatingDivide => "quo:"
  | .bitAnd => "bitAnd:"
  | .bitOr => "bitOr:"
  | .bitXor => "bitXor:"
  | .bitShift => "bitShift:"

/-- The result of an operation on small integers, as one on words. -/
def onSmall (op : Arithmetic) (a b : Int) : Option Int :=
  match op with
  | .add => checked (a + b)
  | .subtract => checked (a - b)
  | .multiply => checked (a * b)
  | .divide => exactQuotient a b
  | .modulo => flooredModulo a b
  | .floorDivide => flooredQuotient a a b
  | .truncatingDivide => if b = 0 then none else some (a.tdiv b)
  | .bitAnd => some (onBits (· &&& ·) a b)
  | .bitOr => some (onBits (· ||| ·) a b)
  | .bitXor => some (onBits (· ^^^ ·) a b)
  | .bitShift => shifted a b

/-- The result of an operation on integers of any size. The other operations have none. -/
def onIntegers (op : Arithmetic) (a b : Int) : Option Int :=
  match op with
  | .add => some (a + b)
  | .subtract => some (a - b)
  | .multiply => some (a * b)
  | .divide => exactQuotient a b
  | .modulo => flooredModulo a b
  | .floorDivide => flooredQuotient (a.tmod b) a b
  | _ => none

/-- The result of an operation on floating-point numbers. The bit operations have none. -/
def onFloats (op : Arithmetic) (a b : Binary64) : Option Binary64 :=
  match op with
  | .add => some (a.add b)
  | .subtract => some (a.sub b)
  | .multiply => some (a.mul b)
  | .divide => if b.isZero then none else some (a.div b)
  | .modulo => if b.isZero then none else some (a.sub (b.mul (a.div b).floor))
  | .floorDivide => if b.isZero then none else some (a.div b).floor
  | _ => none

end Arithmetic

namespace Comparison

/-- The selector of a comparison. -/
def selector : Comparison → String
  | .lessThan => "<"
  | .greaterThan => ">"
  | .lessOrEqual => "<="
  | .greaterOrEqual => ">="
  | .equal => "="
  | .notEqual => "~="

/-- The outcome of a comparison of integers. -/
def onIntegers (op : Comparison) (a b : Int) : Bool :=
  match op with
  | .lessThan => decide (a < b)
  | .greaterThan => decide (b < a)
  | .lessOrEqual => decide (a ≤ b)
  | .greaterOrEqual => decide (b ≤ a)
  | .equal => decide (a = b)
  | .notEqual => decide (a ≠ b)

/-- The outcome of a comparison of floating-point numbers. A NaN is unequal to everything. -/
def onFloats (op : Comparison) (a b : Binary64) : Bool :=
  match op with
  | .lessThan => a.lessThan b
  | .greaterThan => b.lessThan a
  | .lessOrEqual => a.lessOrEqual b
  | .greaterOrEqual => b.lessOrEqual a
  | .equal => a.equals b
  | .notEqual => !a.equals b

end Comparison

end ObjectMachine
