import ObjectMachine.Primitive.Operand

/-!
# Primitives on numbers

Small integers answer small integers only, and fail where the result is none: the methods then ask
the primitives on integers of any size. Those turn to floating-point arithmetic if the argument is a
floating-point number.
-/

namespace ObjectMachine.Machine

open ObjectMachine.Action

/-! ## Small integers -/

/-- The receiver and the argument, if both are small integers. -/
def smallOperands? : Action (Option (Int × Int)) := do
  let receiver ← peek 1
  let argument ← peek 0
  match receiver.small?, argument.small? with
  | some a, some b => return some (a, b)
  | _, _ => return none

/-- The small integer that an operation on small integers results in, if it does. -/
@[inline] def smallResult? (op : Arithmetic) (a b : Int) : Option Ref :=
  (op.onSmall a b).bind Ref.ofInt?

def smallArithmetic (op : Arithmetic) : Action Verdict := do
  match ← smallOperands? with
  | some (a, b) => answer? 1 (smallResult? op a b)
  | none => return .failed

def smallComparison (op : Comparison) : Action Verdict := do
  answerBoolean? 1 ((← smallOperands?).map fun (a, b) => op.onIntegers a b)

def smallAsFloat : Action Verdict := do
  answerNumber? 0 ((← peek 0).small?.map fun value => .float (.ofInt value))

/-- The character with a code point. -/
def characterOf? (code : Int) : Option Char :=
  if h : 0 ≤ code ∧ code < 0x110000 ∧ code.toNat.isValidChar then
    some (Char.ofNatAux code.toNat h.2.2)
  else none

def smallAsCharacter : Action Verdict := do
  answer? 0 (((← peek 0).small?.bind characterOf?).map Ref.ofChar)

/-- The next state of the generator of random numbers. -/
def nextRandom (x : UInt64) : UInt64 :=
  let x := x ^^^ (x <<< 13)
  let x := x ^^^ (x >>> 7)
  x ^^^ (x <<< 17)

/-- An integer from one to a bound. -/
def smallAtRandom : Action Verdict := do
  match (← peek 0).small? with
  | some bound =>
    if 1 ≤ bound then
      let state ← modifyGet fun m =>
        let state := nextRandom m.random
        (state, { m with random := state })
      answer 0 (.ofNat (state.toNat % bound.toNat + 1))
    else return .failed
  | none => return .failed

/-! ## Integers of any size -/

/-- The receiver, if it is an integer, and the argument, if it is a number. -/
def integerOperands? : Action (Option (Int × Numeral)) := do
  let receiver ← peek 1
  match ← inspect (·.integerValue? receiver) with
  | none => return none
  | some a =>
    let argument ← peek 0
    return (← inspect (·.numeral? argument)).map (a, ·)

/-- The result of an operation on an integer and a number. -/
def numberResult? (op : Arithmetic) (a : Int) : Numeral → Option Numeral
  | .integer b => (op.onIntegers a b).map .integer
  | .float b => (op.onFloats (.ofInt a) b).map .float

/-- The outcome of a comparison of an integer and a number. -/
def numberComparison (op : Comparison) (a : Int) : Numeral → Bool
  | .integer b => op.onIntegers a b
  | .float b => op.onFloats (.ofInt a) b

def integerArithmetic (op : Arithmetic) : Action Verdict := do
  answerNumber? 1 ((← integerOperands?).bind fun (a, b) => numberResult? op a b)

def integerComparison (op : Comparison) : Action Verdict := do
  answerBoolean? 1 ((← integerOperands?).map fun (a, b) => numberComparison op a b)

def integerPrint : Action Verdict := do
  let receiver ← peek 0
  match ← inspect (·.integerValue? receiver) with
  | some value => answer 0 (← newString (Text.decimal value))
  | none => return .failed

/-! ## Floating-point numbers -/

/-- The receiver, if it is a floating-point number, and the argument as one, if it is a number. -/
def floatOperands? : Action (Option (Binary64 × Binary64)) := do
  let receiver ← peek 1
  match ← inspect (·.floatValue? receiver) with
  | none => return none
  | some a =>
    let argument ← peek 0
    return (← inspect (·.numeral? argument)).map fun b => (a, b.toFloat)

def floatArithmetic (op : Arithmetic) : Action Verdict := do
  answerNumber? 1 ((← floatOperands?).bind fun (a, b) => (op.onFloats a b).map .float)

def floatComparison (op : Comparison) : Action Verdict := do
  answerBoolean? 1 ((← floatOperands?).map fun (a, b) => op.onFloats a b)

def floatTruncated : Action Verdict := do
  let receiver ← peek 0
  answerNumber? 0 (((← inspect (·.floatValue? receiver)).bind Binary64.truncate?).map .integer)

def floatPrint : Action Verdict := do
  let receiver ← peek 0
  match ← inspect (·.floatValue? receiver) with
  | some value => answer 0 (← newString value.text)
  | none => return .failed

end ObjectMachine.Machine
