import ObjectMachine.Execution.Send

/-!
# Returns

A method answers to its sender and a block to whoever evaluates it. A block may also return from the
method that it was made in, as long as that method has not returned itself: all contexts in between
are left. If it has, the block escaped, and the receiver of the method is told so.
-/

namespace ObjectMachine.Machine

open ObjectMachine.Action

/-- Marks a context as returned, and keeps it for another activation if nothing refers to it. -/
def retire (context : Ref) : Action Unit := do
  write (Context.kill · context)
  let contexts ← inspect fun m => m.contexts.recycle m.heap context
  modify fun m => { m with contexts }

/-- Retires the contexts from one up to a target, as far as `fuel` of them. -/
def retireUpTo (target current : Ref) : Nat → Action Unit
  | 0 => stop (.fault .endless)
  | fuel + 1 => do
    let nil ← ask (·.heap.nil)
    if current ≠ target ∧ current.isPointer ∧ current ≠ nil then
      let sender ← read (Context.sender · current)
      retire current
      retireUpTo target sender fuel

/-- Retires the contexts from the active one up to a target, which becomes active. Answers whether
there is a target to go on with. A retired context has no sender, so even a ring of contexts is
left. -/
def leaveTo (target : Ref) : Action Bool := do
  let fuel ← ask (·.heap.memory.size + 2)
  retireUpTo target (← getRegisters).activeContext fuel
  let nil ← ask (·.heap.nil)
  if target.isPointer && target != nil then
    loadContext target
    return true
  else return false

/-- Goes on with a context and a value on its stack. Without a context the run is over with the
value. -/
def returnTo (target value : Ref) : Action (Option Ref) := do
  if ← leaveTo target then
    push value
    return none
  else
    clearRegisters
    return some value

/-- Leaves a block whose home has returned as if it had answered, and has its caller tell the
receiver of the home. -/
def escapeBlock : Action (Option Ref) := do
  let r ← getRegisters
  let (block, receiver) := (r.activeContext, r.receiver)
  let caller ← read (Context.sender · block)
  write (·.setCaptured block true)
  if ← leaveTo caller then
    push receiver
    push block
    send (← getCore).escapedBlock 1
  else failRun .escapedWithoutCaller

/-- Returns from the method of the active context. -/
def methodReturn (value : Ref) : Action (Option Ref) := do
  let r ← getRegisters
  let (active, home) := (r.activeContext, r.homeContext)
  if active = home then returnTo (← read (Context.sender · active)) value
  else
    let alive ← read fun h => do
      if ← Context.isDead h home then return false else Context.hasSender h active home
    if alive then returnTo (← read (Context.sender · home)) value else escapeBlock

/-- Returns from a block to whoever evaluates it. -/
def blockReturn : Action (Option Ref) := do
  let value ← pop
  let active := (← getRegisters).activeContext
  returnTo (← read (Context.sender · active)) value

end ObjectMachine.Machine
