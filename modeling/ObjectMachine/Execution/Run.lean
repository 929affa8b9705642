import ObjectMachine.Execution.Step
import ObjectMachine.Machine.Build

/-!
# Runs

A run starts with the activation of a method that has no sender, and is over when that method
returns. A run may be nested in another one, which is suspended for its duration. The number of
instructions is bounded by fuel.
-/

namespace ObjectMachine.Machine

open ObjectMachine.Action

/-- Activates a method without a sender. -/
def start (receiver method : Ref) (args : List Ref) : Action Unit := do
  if (← getRegisters).activeContext.isPointer then failRun .alreadyActive
  let header ← read (Method.header · method)
  if header.argCount ≠ args.length then failRun (.argumentMismatch header.argCount args.length)
  let base ← pinnedCount
  pin method
  pin receiver
  pinAll args
  let context ← newContext header.frameSize ((← getCore).cls .methodContext)
  let method ← pinnedAt base
  let receiver ← pinnedAt (base + 1)
  let args ← pinnedFrom (base + 2) args.length
  unpinTo base
  write fun h => do
    let h ← Context.initMethod h context h.nil method receiver header.tempCount
    storeElements h context 0 args
  loadContext context

/-- Executes instructions until the run is over. -/
def run : Nat → Action Ref
  | 0 => fun _ => .unfinished
  | fuel + 1 => do
    match ← step with
    | some result => return result
    | none => run fuel

/-- Goes on with a context that was suspended, if there was one. -/
def resumeContext (context : Ref) : Action Unit :=
  if context.isPointer then loadContext context else clearRegisters

/-- Runs a method and answers its result. An activation in progress is suspended for the duration
and goes on afterwards, also if the run fails. -/
def execute (fuel : Nat) (receiver method : Ref) (args : List Ref) : Action Ref := do
  flushRegisters
  let base ← pinnedCount
  pin (← getRegisters).activeContext
  clearRegisters
  let result ← attempt do
    start receiver method args
    run fuel
  let outer ← pinnedAt base
  unpinTo base
  resumeContext outer
  resume result

/-- The code of a method that sends a message to its receiver with its own arguments. -/
def trampoline (selector : String) (argCount : Nat) : Assembler :=
  (Assembler.ofArgCount argCount).addAll <|
    .constant .self :: (List.range argCount).map (fun i => .push (.temporary i)) ++
      [.send selector argCount, .methodReturn .top]

/-- Sends a message from outside and answers its result. -/
def sendMessage (fuel : Nat) (receiver : Ref) (selector : String) (args : List Ref) :
    Action Ref := do
  let base ← pinnedCount
  pin receiver
  pinAll args
  let method ← attempt (build (trampoline selector args.length) (← getCore).nil)
  let receiver ← pinnedAt base
  let args ← pinnedFrom (base + 1) args.length
  unpinTo base
  execute fuel receiver (← resume method) args

end ObjectMachine.Machine
