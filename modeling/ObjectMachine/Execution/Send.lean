import ObjectMachine.Primitive.Invoke

/-!
# Sending messages

The receiver of a message lies below its arguments on the stack. The method is looked up in the
class of the receiver, or above the class of the running method for a send to super, through the
method cache. A message that is not understood is made an object and sent again as the argument of
another message, once.
-/

namespace ObjectMachine.Machine

open ObjectMachine.Action

/-! ## Lookup -/

/-- The method that a class answers a selector with, through the cache. -/
def lookup (cls selector : Ref) : Action (Option Ref) := do
  match ← ask fun m => m.cache.find? cls selector with
  | some method =>
    modify fun m => { m with cache := m.cache.record true }
    return some method
  | none =>
    modify fun m => { m with cache := m.cache.record false }
    match ← read (Class.lookupMethod? · cls selector) with
    | some method =>
      modify fun m => { m with cache := m.cache.insert cls selector method }
      return some method
    | none => return none

/-- Replaces the arguments of the send in progress by a message with its selector and arguments. -/
def reifyMessage : Action Unit := do
  let argCount := (← getRegisters).argCount
  let arguments ← newArray argCount
  let r ← getRegisters
  let position := r.stackBase + r.sp
  require (decide (argCount ≤ position)) .overflow
  write (Context.copySlots · arguments (position - argCount) 0 argCount)
  pin arguments
  let message ← allocate ((← getCore).cls .message) .plain Message.fieldCount 0
  let arguments ← unpin
  let selector := (← getRegisters).selector
  write fun h => do
    let h ← h.storeField message Message.selectorField selector
    h.storeField message Message.argumentsField arguments
  replaceTop argCount message
  modifyRegisters fun r => { r with argCount := 1 }

/-- Finds the method of the send in progress. Answers whether there is one. -/
def findMethod : Action Bool := do
  let r ← getRegisters
  match ← lookup r.lookupClass r.selector with
  | some method =>
    modifyRegisters fun r => { r with newMethod := method }
    return true
  | none => return false

/-- The selector to report when not even the message for messages that are not understood is
understood. A program may have sent that message itself, with any argument. -/
def unknownSelector (m : Machine) : Except Fatal Ref := do
  let argument ← m.stackValue 0
  if ← m.isInstance .message argument then m.heap.fetchField argument Message.selectorField
  else return m.registers.selector

/-- Fails because a receiver understands nothing that could be sent to it. -/
def failNotUnderstood : Action Unit := do
  let receiver ← peek (← getRegisters).argCount
  let selector ← inspect unknownSelector
  let receiver ← inspect (·.describe receiver)
  let selector ← inspect (·.describe selector)
  failRun (.notUnderstood receiver selector)

/-- Finds the method of the send in progress, which becomes another send if there is none. -/
def findNewMethod : Action Unit := do
  if ← findMethod then return
  let doesNotUnderstand := (← getCore).doesNotUnderstand
  if (← getRegisters).selector = doesNotUnderstand then failNotUnderstood
  else
    reifyMessage
    let doesNotUnderstand := (← getCore).doesNotUnderstand
    modifyRegisters fun r => { r with selector := doesNotUnderstand }
    if ← findMethod then return
    failNotUnderstood

/-! ## Execution -/

/-- Executes the method found, unless it can be answered at once. Answers the result of the run if
that is over. -/
def executeNewMethod : Action (Option Ref) := do
  let r ← getRegisters
  let (method, argCount) := (r.newMethod, r.argCount)
  let header ← read (Method.header · method)
  match header.flag? with
  | some .normal =>
    let index := header.primitiveIndex
    let verdict ← if index = 0 then pure Verdict.failed else invoke index argCount
    match verdict with
    | .done => return none
    | .failed =>
      activateNewMethod
      return none
    | .exit value =>
      clearRegisters
      return some value
  | some .returnSelf =>
    popMany argCount
    return none
  | some .returnField =>
    let receiver ← peek argCount
    let index := header.primitiveIndex
    if ← read (·.hasField receiver index) then
      replaceTop (argCount + 1) (← read (·.fetchField receiver index))
      return none
    else
      let receiver ← inspect (·.describe receiver)
      failRun (.noFieldToAnswer receiver index)
  | some .returnLiteral =>
    if (← read (Method.literalCount · method)) = 0 then failRun (.noLiteralToAnswer method)
    replaceTop (argCount + 1) (← read (Method.literal · method 0))
    return none
  | none => failRun (.reservedFlag method header)

/-- Sends a selector with the lookup starting at a class. -/
def sendToClass (selector cls : Ref) (argCount : Nat) : Action (Option Ref) := do
  modifyRegisters fun r => { r with selector, argCount, lookupClass := cls }
  findNewMethod
  executeNewMethod

/-- Sends a selector to the receiver below a number of arguments. -/
def send (selector : Ref) (argCount : Nat) : Action (Option Ref) := do
  let receiver ← peek argCount
  let cls ← inspect (·.classOf receiver)
  sendToClass selector cls argCount

end ObjectMachine.Machine
