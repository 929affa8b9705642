import ObjectMachine.Execution.Return
import ObjectMachine.Execution.Shortcut
import ObjectMachine.Instruction.Basic

/-!
# One instruction

An instruction is fetched byte by byte: the opcode first, then its operands as they are needed. The
position stays behind the bytes fetched, also when the instruction then fails.
-/

namespace ObjectMachine.Machine

open ObjectMachine.Action

/-! ## Fetching -/

/-- The next byte of the method. -/
@[inline] def fetchByte : Action UInt8 := do
  let r ← getRegisters
  if r.pc < r.codeLength then
    let position := r.codeBase + r.pc
    let b ← read (·.byteAtOffset position)
    modifyRegisters fun r => { r with pc := r.pc + 1 }
    return b
  else failRun (.pcPastEnd r.pc r.codeLength r.method)

/-- An operand of one byte. -/
@[inline] def fetchOperand : Action Nat :=
  return (← fetchByte).toNat

/-- The offset of a jump. -/
def fetchOffset (isLong : Bool) : Action Int := do
  if isLong then
    let high ← fetchByte
    let low ← fetchByte
    return (Instruction.longOffset high low).toInt
  else return (← fetchByte).toInt8.toInt

/-! ## Variables -/

/-- A literal of the method. -/
def literalAt (index : Nat) : Action Ref := do
  let r ← getRegisters
  let (literals, method) := (r.literals, r.method)
  if index < (← read (·.length literals)) then read (·.fetchElement literals index)
  else failRun (.literalOutOfRange index method)

/-- A literal of the method that has to be an association. -/
def associationAt (index : Nat) : Action Ref := do
  let literal ← literalAt index
  if ← read (Association.hasShape · literal) then return literal
  else failRun (.notAnAssociation index (← getRegisters).method)

/-- The position of a temporary. -/
@[inline] def temporaryAt (index : Nat) : Action Nat := do
  let r ← getRegisters
  if index < r.tempLimit then return r.tempBase + index
  else failRun (.temporaryOutOfRange index r.method)

/-- The receiver, which has to have a field with this index. -/
def receiverWithField (index : Nat) : Action Ref := do
  let receiver := (← getRegisters).receiver
  if ← read (·.hasField receiver index) then return receiver
  else failRun (.noField receiver index)

/-- The value of a variable. -/
def variableValue (place : Variable) (index : Nat) : Action Ref := do
  match place with
  | .receiver =>
    let receiver ← receiverWithField index
    read (·.fetchField receiver index)
  | .temporary =>
    let position ← temporaryAt index
    read (·.slot position)
  | .literal =>
    let association ← associationAt index
    read (·.fetchField association Association.valueField)

/-- Gives a variable a value. -/
def setVariable (place : Variable) (index : Nat) (value : Ref) : Action Unit := do
  match place with
  | .receiver =>
    let receiver ← receiverWithField index
    write (·.storeField receiver index value)
  | .temporary =>
    let position ← temporaryAt index
    write (·.setSlot position value)
  | .literal =>
    let association ← associationAt index
    write (·.storeField association Association.valueField value)

/-- The value of a constant. -/
def constantValue (c : Constant) (m : Machine) : Ref :=
  match c with
  | .self => m.registers.receiver
  | .nil => m.core.nil
  | .true => m.core.trueObject
  | .false => m.core.falseObject
  | .minusOne => .ofInt (-1)
  | .zero => .zero
  | .one => .ofNat 1
  | .two => .ofNat 2

/-! ## Control -/

/-- Jumps by an offset, inside the method or to its end. -/
def jumpBy (offset : Int) : Action Unit := do
  let r ← getRegisters
  let target := (r.pc : Int) + offset
  if 0 ≤ target ∧ target ≤ r.codeLength then
    modifyRegisters fun r => { r with pc := target.toNat }
  else failRun (.jumpLeavesMethod r.pc offset)

/-- Jumps if the top of the stack is the one truth value and goes on if it is the other. Anything
else is told that it has to be a truth value. -/
def branch (condition : Bool) (offset : Int) : Action (Option Ref) := do
  let value ← pop
  let core ← getCore
  if value = core.boolean condition then
    jumpBy offset
    return none
  else if value = core.boolean (!condition) then return none
  else
    push value
    send core.mustBeBoolean 0

/-- Jumps as a branch says. -/
def jump (b : Branch) (isLong : Bool) : Action (Option Ref) := do
  let offset ← fetchOffset isLong
  match b with
  | .always =>
    jumpBy offset
    return none
  | .ifTrue => branch true offset
  | .ifFalse => branch false offset

/-- Sends the selector in a literal. -/
def sendLiteral (toSuper : Bool) : Action (Option Ref) := do
  let index ← fetchOperand
  let argCount ← fetchOperand
  let selector ← literalAt index
  if !toSuper then send selector argCount
  else
    let method := (← getRegisters).method
    match ← read (Method.methodClass? · method) with
    | some cls => sendToClass selector (← read (Class.superclass · cls)) argCount
    | none =>
      let selector ← inspect (·.describe selector)
      failRun (.superWithoutClass selector)

/-- The width of the jump at the position of the next byte, if there is one that is always taken. -/
def jumpWidth? (m : Machine) : Except Fatal (Option Nat) := do
  let r := m.registers
  if r.pc < r.codeLength then
    match Opcode.ofByte? (← m.heap.byteAtOffset (r.codeBase + r.pc)) with
    | some (.jump .always) => return some (Opcode.width (.jump .always))
    | some (.longJump .always) => return some (Opcode.width (.longJump .always))
    | _ => return none
  else return none

/-- Makes a block of the instructions behind the jump that follows, and pushes it. -/
def createBlock : Action Unit := do
  let argCount ← fetchOperand
  match ← inspect jumpWidth? with
  | none => failRun (.blockWithoutJump ((← getRegisters).pc - 2))
  | some width =>
    let r ← getRegisters
    let initialPc := Ref.ofNat (r.pc + width)
    let (home, method) := (r.homeContext, r.method)
    let header ← read (Method.header · method)
    write (·.setCaptured home true)
    let block ← allocate ((← getCore).cls .blockContext) .context contextFields
      (argCount + header.stackDepth)
    let home := (← getRegisters).homeContext
    write fun h => Context.initBlock h block h.nil initialPc home (.ofNat argCount) 0
    push block

/-- Pushes the active context. -/
def pushContext : Action Unit := do
  flushRegisters
  let context := (← getRegisters).activeContext
  write (·.setCaptured context true)
  push context

/-- The value that a method answers. -/
def answerValue : Answer → Action Ref
  | .top => pop
  | .self => ask (constantValue .self)
  | .nil => ask (constantValue .nil)
  | .true => ask (constantValue .true)
  | .false => ask (constantValue .false)

/-! ## Instructions -/

/-- Does an instruction whose opcode was fetched. Answers the result of the run if that is over. -/
def perform : Opcode → Action (Option Ref)
  | .push place => do
    push (← variableValue place (← fetchOperand))
    return none
  | .pushLiteral => do
    push (← literalAt (← fetchOperand))
    return none
  | .store place => do
    let index ← fetchOperand
    setVariable place index (← peek 0)
    return none
  | .popInto place => do
    let index ← fetchOperand
    setVariable place index (← pop)
    return none
  | .constant value => do
    push (← ask (constantValue value))
    return none
  | .thisContext => do
    pushContext
    return none
  | .dup => do
    push (← peek 0)
    return none
  | .pop => do
    let _ ← pop
    return none
  | .methodReturn answer => do methodReturn (← answerValue answer)
  | .blockReturn => blockReturn
  | .jump b => jump b false
  | .longJump b => jump b true
  | .send => sendLiteral false
  | .superSend => sendLiteral true
  | .createBlock => do
    createBlock
    return none
  | .special index => sendSpecial index.toNat

/-- Executes one instruction. Answers the result of the run if that is over. -/
def step : Action (Option Ref) := do
  let b ← fetchByte
  match Opcode.ofByte? b with
  | some opcode => perform opcode
  | none =>
    let r ← getRegisters
    failRun (.unknownOpcode b (r.pc - 1) r.method)

end ObjectMachine.Machine
