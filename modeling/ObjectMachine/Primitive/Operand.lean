import ObjectMachine.Execution.Activation
import ObjectMachine.Number.Operation

/-!
# Operands of primitives

A primitive finds the receiver below the arguments on the stack. If it succeeds it replaces them all
by its answer; if it fails it leaves the stack as it was.
-/

namespace ObjectMachine

/-- What a primitive comes to. -/
inductive Verdict where
  /-- The answer is on the stack, or a block was activated. -/
  | done
  | failed
  /-- The run is over with an answer. -/
  | exit (value : Ref)
  deriving DecidableEq, Repr

/-- The integer of a small integer. -/
@[inline] def Ref.small? (r : Ref) : Option Int :=
  if r.isSmallInteger then some r.toInt else none

/-- The place of an index, which counts from one, among a number of places. -/
@[inline] def Ref.indexInto? (r : Ref) (count : Nat) : Option Nat :=
  match r.small? with
  | some index => if 1 ≤ index ∧ index ≤ count then some (index.toNat - 1) else none
  | none => none

namespace Machine

open ObjectMachine.Action

/-- Replaces the receiver and the arguments by a value. -/
@[inline] def answer (argCount : Nat) (value : Ref) : Action Verdict := do
  replaceTop (argCount + 1) value
  return .done

/-- Replaces the receiver and the arguments by a value if there is one, and fails otherwise. -/
@[inline] def answer? (argCount : Nat) : Option Ref → Action Verdict
  | some value => answer argCount value
  | none => return .failed

/-- Goes on only with the right number of arguments. -/
@[always_inline, inline] def expecting (expected argCount : Nat) (x : Action Verdict) :
    Action Verdict :=
  if argCount = expected then x else return .failed

/-- A number. -/
inductive Numeral where
  | integer (value : Int)
  | float (value : Binary64)

/-- The number that a reference stands for. -/
def numeral? (m : Machine) (r : Ref) : Except Fatal (Option Numeral) := do
  match ← m.integerValue? r with
  | some value => return some (.integer value)
  | none => if ← m.isFloat r then return some (.float (← m.heap.floatValue r)) else return none

/-- The value of a floating-point number. -/
def floatValue? (m : Machine) (r : Ref) : Except Fatal (Option Binary64) := do
  if ← m.isFloat r then return some (← m.heap.floatValue r) else return none

/-- The nearest floating-point number. -/
def Numeral.toFloat : Numeral → Binary64
  | .integer value => .ofInt value
  | .float value => value

/-- The object of a number. -/
def newNumber : Numeral → Action Ref
  | .integer value => newInteger value
  | .float value => newFloat value

/-- Answers a number if there is one. -/
def answerNumber? (argCount : Nat) : Option Numeral → Action Verdict
  | some value => do answer argCount (← newNumber value)
  | none => return .failed

/-- Answers a truth value. -/
def answerBoolean (argCount : Nat) (value : Bool) : Action Verdict := do
  answer argCount ((← getCore).boolean value)

/-- Answers a truth value if there is one. -/
def answerBoolean? (argCount : Nat) : Option Bool → Action Verdict
  | some value => answerBoolean argCount value
  | none => return .failed

end Machine

end ObjectMachine
