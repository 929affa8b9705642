import ObjectMachine.Context.Basic
import ObjectMachine.Machine.Action
import ObjectMachine.Method.Basic

/-!
# Loading registers

The registers of an activation are read from its context. While it runs, its position and its stack
pointer are kept in the registers only; they are written back before anything else may look at the
context.
-/

namespace ObjectMachine

/-- The registers with a context made active. The send in progress stays. Only the declared
temporaries of the home can be reached as such: the slots above them are its operand stack. -/
def Registers.load (r : Registers) (h : Heap) (context : Ref) : Except Fatal Registers := do
  let home ← Context.home h context
  let method ← h.fetchField home Context.methodField
  let receiver ← h.fetchField home Context.receiverField
  let literals ← Method.literals h method
  let code ← Method.code h method
  let codeBase ← h.bytesOffset code
  let codeLength ← h.length code
  let pc ← Context.pc? h context
  let sp ← Context.sp? h context
  let stackBase ← h.elementsIndex context
  let stackLimit ← h.length context
  let tempBase ← h.elementsIndex home
  let header ← Method.header h method
  let homeLength ← h.length home
  return { r with
    activeContext := context
    homeContext := home
    method := method
    receiver := receiver
    literals := literals
    pc := pc.getD 0
    sp := sp.getD 0
    stackBase := stackBase
    stackLimit := stackLimit
    tempBase := tempBase
    tempLimit := min header.tempCount homeLength
    codeBase := codeBase
    codeLength := codeLength }

namespace Machine

open ObjectMachine.Action

/-- Writes the position and the stack pointer back to the active context, if there is one. -/
def flushRegisters : Action Unit := do
  let r ← getRegisters
  if r.activeContext.isPointer then
    write fun h => do
      let h ← h.storeField r.activeContext Context.pcField (.ofNat r.pc)
      h.storeField r.activeContext Context.spField (.ofNat r.sp)

/-- Makes a context the active one. -/
def loadContext (context : Ref) : Action Unit :=
  fun m => match m.registers.load m.heap context with
    | .ok registers => .ok () { m with registers }
    | .error cause => .stopped cause

/-- Computes the registers again after the active context moved. -/
def reloadRegisters : Action Unit := do
  let context := (← getRegisters).activeContext
  if context.isPointer then loadContext context

/-- Forgets the activation. -/
def clearRegisters : Action Unit :=
  modifyRegisters Registers.clear

end Machine

end ObjectMachine
