import ObjectMachine.Primitive.Operand

/-!
# Primitives that change the flow

The evaluation of blocks, the end of a run, and a collection on demand.
-/

namespace ObjectMachine.Machine

open ObjectMachine.Action

/-- Evaluates a block with the arguments on the stack, if they are as many as it takes. -/
def blockValue (argCount : Nat) : Action Verdict := do
  let block ← peek argCount
  if ← inspect (·.isBlockOf argCount block) then
    activateBlock argCount
    return .done
  else return .failed

/-- The arguments that an array holds for a block, if they are as many as it takes and there is room
for them on the stack. The first one takes the slot of the array. -/
def spreadArguments? (m : Machine) (block arguments : Ref) :
    Except Fatal (Option (List Ref)) := do
  if !(← m.isInstance .blockContext block) then return none
  let arity ← Context.blockArgCount m.heap block
  if !(← m.isInstance .array arguments) then return none
  if (← m.heap.length arguments) ≠ arity then return none
  if (← m.stackRoom) + 1 < arity then return none
  return some (← (List.range arity).mapM (m.heap.fetchElement arguments ·))

def blockValueWithArguments : Action Verdict := do
  let block ← peek 1
  let arguments ← peek 0
  match ← inspect (·.spreadArguments? block arguments) with
  | some values =>
    let _ ← pop
    pushAll values
    activateBlock values.length
    return .done
  | none => return .failed

def exit : Action Verdict :=
  return .exit (← peek 0)

/-- Runs a full collection and answers the bytes reclaimed. -/
def fullCollection : Action Verdict := do
  let reclaimed ← collectGarbage
  answer 0 ((Ref.ofInt? reclaimed).getD (.ofInt Ref.maxSmall))

end ObjectMachine.Machine
