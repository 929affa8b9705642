import ObjectMachine.Primitive.Operand

/-!
# Primitives on any object

Instances, fields, identity and class.
-/

namespace ObjectMachine.Machine

open ObjectMachine.Action

def basicNew : Action Verdict := do
  let cls ← peek 0
  answer? 0 (← instantiate cls 0)

def basicNewSized : Action Verdict := do
  let cls ← peek 1
  match (← peek 0).small? with
  | some len => if 0 ≤ len then answer? 1 (← instantiate cls len.toNat) else return .failed
  | none => return .failed

/-- The place of an index among the fields of an object. -/
def fieldPlace? (m : Machine) (r index : Ref) : Except Fatal (Option Nat) := do
  if r.isPointer then return index.indexInto? (← m.heap.fixedFields r) else return none

def fieldAt : Action Verdict := do
  let receiver ← peek 1
  let index ← peek 0
  match ← inspect (·.fieldPlace? receiver index) with
  | some place => answer 1 (← read (·.fetchField receiver place))
  | none => return .failed

def fieldAtPut : Action Verdict := do
  let receiver ← peek 2
  let index ← peek 1
  match ← inspect (·.fieldPlace? receiver index) with
  | some place =>
    let value ← peek 0
    write (·.storeField receiver place value)
    answer 2 value
  | none => return .failed

/-- The number that tells an object apart. Small integers and characters are told apart by value. -/
def identityHash? (m : Machine) (r : Ref) : Except Fatal (Option Ref) := do
  if r.isPointer then return some (.ofNat (← m.heap.identityHash r))
  if r.isCharacter then return some (.ofNat r.charCode.toNat)
  return if r.isSmallInteger then some r else none

def identityHash : Action Verdict := do
  let receiver ← peek 0
  answer? 0 (← inspect (·.identityHash? receiver))

def characterValue : Action Verdict := do
  let receiver ← peek 0
  if receiver.isCharacter then answer 0 (.ofNat receiver.charCode.toNat) else return .failed

/-- Whether the receiver and the argument are, or are not, the same object. -/
def identity (expected : Bool) : Action Verdict := do
  let receiver ← peek 1
  let argument ← peek 0
  answerBoolean 1 (decide (receiver = argument) == expected)

def receiverClass : Action Verdict := do
  let receiver ← peek 0
  answer 0 (← inspect (·.classOf receiver))

end ObjectMachine.Machine
