import ObjectMachine.Execution.Stack

/-!
# Activation

A method or a block is activated in a context of its own, which comes from the pool if there is one
of its size. The receiver and the arguments move from the stack of the sender to the new context.

A block is a context that serves as a template: every evaluation runs in a copy of it, so that a
block can be evaluated again before it has answered.
-/

namespace ObjectMachine

namespace Context

/-- Stores nil as the first elements. -/
def clearTemporaries (h : Heap) (context : Ref) : Nat → Except Fatal Heap
  | 0 => .ok h
  | count + 1 => do
    let h ← clearTemporaries h context count
    h.storeElement context count h.nil

/-- Fills in a method context at the beginning of its method. -/
def initMethod (h : Heap) (context sender method receiver : Ref) (tempCount : Nat) :
    Except Fatal Heap := do
  let h ← h.storeField context senderField sender
  let h ← h.storeField context pcField .zero
  let h ← h.storeField context spField (.ofNat tempCount)
  let h ← h.storeField context methodField method
  let h ← h.storeField context initialPcField h.nil
  let h ← h.storeField context receiverField receiver
  clearTemporaries h context tempCount

/-- Fills in a block context at the beginning of its block. -/
def initBlock (h : Heap) (context caller initialPc home argCount : Ref) (sp : Nat) :
    Except Fatal Heap := do
  let h ← h.storeField context senderField caller
  let h ← h.storeField context pcField initialPc
  let h ← h.storeField context spField (.ofNat sp)
  let h ← h.storeField context argCountField argCount
  let h ← h.storeField context initialPcField initialPc
  h.storeField context homeField home

/-- Copies `count` slots from a position on to the elements of a context from an index on. -/
def copySlots (h : Heap) (context : Ref) (position index : Nat) : Nat → Except Fatal Heap
  | 0 => .ok h
  | count + 1 => do
    let h ← h.storeElement context index (← h.slot position)
    copySlots h context (position + 1) (index + 1) count

end Context

namespace Machine

open ObjectMachine.Action

/-- A context with at least as many slots as needed, for another activation if the pool has one. -/
def newContext (needed : Nat) (cls : Ref) : Action Ref := do
  let size := ContextPool.frameSizeFor needed
  let taken ← modifyGet fun m =>
    let (taken, contexts) := m.contexts.take size
    (taken, { m with contexts })
  match taken with
  | some context =>
    write (·.setClassOf context cls)
    return context
  | none => allocate cls .context contextFields size

/-- Moves the arguments on the stack to a context, pops them and the receiver, and makes the context
active. -/
def enterContext (context : Ref) (argCount : Nat) : Action Unit := do
  let r ← getRegisters
  let position := r.stackBase + r.sp
  require (decide (argCount ≤ position)) .overflow
  write (Context.copySlots · context (position - argCount) 0 argCount)
  popMany (argCount + 1)
  flushRegisters
  loadContext context

/-- Activates the method found for the send in progress. -/
def activateNewMethod : Action Unit := do
  let r ← getRegisters
  let header ← read (Method.header · r.newMethod)
  let argCount := r.argCount
  if header.argCount ≠ argCount then
    let selector ← inspect (·.describe r.selector)
    failRun (.wrongArgumentCount selector header.argCount argCount)
  let context ← newContext header.frameSize ((← getCore).cls .methodContext)
  let receiver ← peek argCount
  let r ← getRegisters
  let (sender, method) := (r.activeContext, r.newMethod)
  write (Context.initMethod · context sender method receiver header.tempCount)
  enterContext context argCount

/-- Activates the block that lies below its arguments on the stack. -/
def activateBlock (argCount : Nat) : Action Unit := do
  let block ← peek argCount
  let frame ← read (Context.frameSize · block)
  let context ← newContext frame ((← getCore).cls .blockContext)
  let block ← peek argCount
  let caller := (← getRegisters).activeContext
  write fun h => do
    let initialPc ← h.fetchField block Context.initialPcField
    let blockArgs ← h.fetchField block Context.argCountField
    let home ← h.fetchField block Context.homeField
    Context.initBlock h context caller initialPc home blockArgs argCount
  enterContext context argCount

/-- Whether a reference designates a block that takes a number of arguments. -/
def isBlockOf (m : Machine) (argCount : Nat) (r : Ref) : Except Fatal Bool := do
  if ← m.isInstance .blockContext r then
    return (← Context.blockArgCount m.heap r) == argCount
  else return false

end Machine

end ObjectMachine
