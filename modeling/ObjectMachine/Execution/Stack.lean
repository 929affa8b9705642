import ObjectMachine.Machine.Describe

/-!
# The operand stack

The operand stack of the active context, which lies above its temporaries. A push has to find a free
slot; a pop has to find a slot in use. Values below the top are read by their depth.
-/

namespace ObjectMachine.Machine

open ObjectMachine.Action

/-- The value a number of slots below the top. -/
@[noinline] def stackValue (m : Machine) (depth : Nat) : Except Fatal Ref :=
  if depth < m.registers.stackBase + m.registers.sp then
    m.heap.slot (m.registers.stackBase + m.registers.sp - 1 - depth)
  else .error (.fault .overflow)

/-- The slots that are left above the top. -/
def stackRoom (m : Machine) : Except Fatal Nat := do
  require (decide (m.registers.sp ≤ m.registers.stackLimit)) .overflow
  return m.registers.stackLimit - m.registers.sp

/-- Reads the value a number of slots below the top. -/
@[always_inline, inline] def peek (depth : Nat) : Action Ref :=
  inspect (·.stackValue depth)

/-- Pushes a value. -/
@[inline] def push (value : Ref) : Action Unit := do
  let r ← getRegisters
  if r.sp < r.stackLimit then
    let position := r.stackBase + r.sp
    write (·.setSlot position value)
    modifyRegisters fun r => { r with sp := r.sp + 1 }
  else stop (.operandStackOverflow r.activeContext r.stackLimit)

/-- Pops a number of values. -/
@[inline] def popMany (count : Nat) : Action Unit := do
  if count ≤ (← getRegisters).sp then modifyRegisters fun r => { r with sp := r.sp - count }
  else stop (.fault .operand)

/-- Pops a value. -/
@[inline] def pop : Action Ref := do
  if 0 < (← getRegisters).sp then
    let value ← peek 0
    modifyRegisters fun r => { r with sp := r.sp - 1 }
    return value
  else stop (.fault .operand)

/-- Replaces a number of values by one. -/
@[inline] def replaceTop (count : Nat) (value : Ref) : Action Unit := do
  popMany count
  push value

/-- Writes the value a number of slots below the top. -/
def setStackValue (depth : Nat) (value : Ref) : Action Unit := do
  let r ← getRegisters
  let position := r.stackBase + r.sp
  require (decide (depth < position)) .overflow
  write (·.setSlot (position - 1 - depth) value)

/-- Pushes values, the first one lowest. -/
def pushAll : List Ref → Action Unit
  | [] => return
  | value :: rest => do
    push value
    pushAll rest

end ObjectMachine.Machine
