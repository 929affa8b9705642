import ObjectMachine.Execution.Send

/-!
# Shortcuts of special sends

Some messages with an opcode of their own are answered without a lookup when the operands are of the
kinds that the kernel methods handle by primitives. Otherwise the stack is left as it is and the
message is sent.
-/

namespace ObjectMachine

/-- What a special send may be answered by. -/
inductive Shortcut where
  | arithmetic (op : Arithmetic)
  | comparison (op : Comparison)
  | maximum
  | minimum
  | identical
  | classOf
  /-- Whether the receiver is nil, or is not. -/
  | nilTest (expected : Bool)
  | size
  | elementAt
  | elementAtPut
  | blockValue (argCount : Nat)
  deriving DecidableEq, Repr

/-- The shortcut of a special selector, by its number. -/
def Shortcut.ofIndex? : Nat → Option Shortcut
  | 0 => some (.arithmetic .add)
  | 1 => some (.arithmetic .subtract)
  | 2 => some (.comparison .lessThan)
  | 3 => some (.comparison .greaterThan)
  | 4 => some (.comparison .lessOrEqual)
  | 5 => some (.comparison .greaterOrEqual)
  | 6 => some (.comparison .equal)
  | 7 => some (.comparison .notEqual)
  | 8 => some (.arithmetic .multiply)
  | 9 => some (.arithmetic .divide)
  | 10 => some (.arithmetic .modulo)
  | 12 => some (.arithmetic .bitShift)
  | 13 => some (.arithmetic .floorDivide)
  | 14 => some (.arithmetic .bitAnd)
  | 15 => some (.arithmetic .bitOr)
  | 16 => some .elementAt
  | 17 => some .elementAtPut
  | 18 => some .size
  | 19 => some (.blockValue 0)
  | 20 => some (.blockValue 1)
  | 21 => some .identical
  | 22 => some .classOf
  | 25 => some (.nilTest true)
  | 26 => some (.nilTest false)
  | 27 => some (.blockValue 2)
  | 28 => some (.arithmetic .bitXor)
  | 29 => some .maximum
  | 30 => some .minimum
  | _ => none

namespace Machine

open ObjectMachine.Action

/-- Replaces a number of values by one, if there is one. Answers whether there is. -/
@[inline] def replaceTop? (count : Nat) : Option Ref → Action Bool
  | some value => do
    replaceTop count value
    return true
  | none => return false

/-- The place of an index in an array. -/
def arrayPlace? (m : Machine) (array index : Ref) : Except Fatal (Option Nat) := do
  if ← m.isInstance .array array then return index.indexInto? (← m.heap.length array)
  else return none

/-- Answers an operation on two small integers. -/
@[inline] def smallShortcut (f : CoreObjects → Int → Int → Option Ref) : Action Bool := do
  let receiver ← peek 1
  let argument ← peek 0
  if receiver.isSmallInteger && argument.isSmallInteger then
    replaceTop? 2 (f (← getCore) receiver.toInt argument.toInt)
  else return false

/-- Tries a shortcut. Answers whether it was taken. -/
def takeShortcut : Shortcut → Action Bool
  | .arithmetic op => smallShortcut fun _ a b => smallResult? op a b
  | .comparison op => smallShortcut fun core a b => some (core.boolean (op.onIntegers a b))
  | .maximum => smallShortcut fun _ a b => some (.ofInt (max a b))
  | .minimum => smallShortcut fun _ a b => some (.ofInt (min a b))
  | .identical => do
    let receiver ← peek 1
    let argument ← peek 0
    replaceTop? 2 ((← getCore).boolean (decide (receiver = argument)))
  | .classOf => do
    let receiver ← peek 0
    replaceTop? 1 (← inspect (·.classOf receiver))
  | .nilTest expected => do
    let receiver ← peek 0
    let core ← getCore
    replaceTop? 1 (core.boolean (decide (receiver = core.nil) == expected))
  | .size => do
    let receiver ← peek 0
    if ← inspect (·.isInstance .array receiver) then
      replaceTop? 1 (some (.ofNat (← read (·.length receiver))))
    else return false
  | .elementAt => do
    let array ← peek 1
    let index ← peek 0
    match ← inspect (·.arrayPlace? array index) with
    | some place => replaceTop? 2 (← read (·.fetchElement array place))
    | none => return false
  | .elementAtPut => do
    let array ← peek 2
    let index ← peek 1
    let value ← peek 0
    match ← inspect (·.arrayPlace? array index) with
    | some place =>
      write (·.storeElement array place value)
      replaceTop? 3 value
    | none => return false
  | .blockValue argCount => do
    let block ← peek argCount
    if ← inspect (·.isBlockOf argCount block) then
      activateBlock argCount
      return true
    else return false

/-- Sends a special selector, by its number. -/
def sendSpecial (index : Nat) : Action (Option Ref) := do
  let taken ← match Shortcut.ofIndex? index with
    | some shortcut => takeShortcut shortcut
    | none => pure false
  if taken then return none
  match (← getCore).specialSelectors[index]? with
  | some selector => send selector (specialArgCount index)
  | none => stop (.fault .position)

end Machine

end ObjectMachine
