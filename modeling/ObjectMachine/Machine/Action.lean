import ObjectMachine.Machine.Basic
import ObjectMachine.Machine.Failure

/-!
# Actions

What is done to a machine: a function from machines to outcomes. An action may answer a value, fail
and leave the machine in the state of the failure, stop the machine for good, or not be finished
because its fuel ran out.
-/

namespace ObjectMachine

/-- The outcome of an action. -/
inductive Outcome (α : Type) where
  | ok (value : α) (machine : Machine)
  | failed (failure : Failure) (machine : Machine)
  | stopped (cause : Fatal)
  | unfinished

/-- Something done to a machine. -/
def Action (α : Type) : Type :=
  Machine → Outcome α

namespace Action

/-- Answers a value and changes nothing. -/
@[always_inline, inline] protected def pure {α : Type} (a : α) : Action α :=
  fun m => .ok a m

/-- Does one thing after another, as long as values are answered. -/
@[always_inline, inline] protected def bind {α β : Type} (x : Action α) (f : α → Action β) :
    Action β :=
  fun m => match x m with
    | .ok a m => f a m
    | .failed failure m => .failed failure m
    | .stopped cause => .stopped cause
    | .unfinished => .unfinished

@[always_inline] instance : Monad Action where
  pure := Action.pure
  bind := Action.bind

@[always_inline] instance : MonadStateOf Machine Action where
  get := fun m => .ok m m
  set m := fun _ => .ok () m
  modifyGet f := fun m => match f m with
    | (a, m) => .ok a m

/-- Takes over an outcome that does not touch the machine. -/
@[always_inline, inline] def ofExcept {α : Type} (x : Except Fatal α) : Action α :=
  fun m => match x with
    | .ok a => .ok a m
    | .error cause => .stopped cause

@[always_inline] instance : MonadLift (Except Fatal) Action where
  monadLift := ofExcept

/-- Fails. -/
@[always_inline, inline] def fail {α : Type} (failure : Failure) : Action α :=
  fun m => .failed failure m

/-- Fails because the program cannot go on. -/
@[always_inline, inline] def failRun {α : Type} (problem : ExecutionProblem) : Action α :=
  fail (.execution problem)

/-- Stops the machine for good. -/
@[always_inline, inline] def stop {α : Type} (cause : Fatal) : Action α :=
  fun _ => .stopped cause

/-- Makes a failure an answer. -/
@[always_inline, inline] def attempt {α : Type} (x : Action α) : Action (Except Failure α) :=
  fun m => match x m with
    | .ok a m => .ok (.ok a) m
    | .failed failure m => .ok (.error failure) m
    | .stopped cause => .stopped cause
    | .unfinished => .unfinished

/-- Goes on with an answer or fails with a failure. -/
@[always_inline, inline] def resume {α : Type} (x : Except Failure α) : Action α :=
  match x with
  | .ok a => Action.pure a
  | .error failure => fail failure

/-- Reports a failure as the cause of another one. -/
def within {α : Type} (activity : Activity) (x : Action α) : Action α :=
  fun m => match x m with
    | .ok a m => .ok a m
    | .failed failure m => .failed (.during activity failure) m
    | .stopped cause => .stopped cause
    | .unfinished => .unfinished

/-- Reads from memory. -/
@[always_inline, inline] def read {α : Type} (f : Heap → Except Fatal α) : Action α :=
  fun m => match f m.heap with
    | .ok a => .ok a m
    | .error cause => .stopped cause

/-- Reads from the machine. -/
@[always_inline, inline] def inspect {α : Type} (f : Machine → Except Fatal α) : Action α :=
  fun m => match f m with
    | .ok a => .ok a m
    | .error cause => .stopped cause

/-- Changes memory and answers a value. -/
@[always_inline, inline] def onHeap {α : Type} (f : Heap → Except Fatal (α × Heap)) : Action α
  | ⟨heap, core, symbols, globals, pinned, registers, cache, contexts, random⟩ =>
    match f heap with
    | .ok (a, heap) =>
      .ok a ⟨heap, core, symbols, globals, pinned, registers, cache, contexts, random⟩
    | .error cause => .stopped cause

/-- Changes memory. -/
@[always_inline, inline] def write (f : Heap → Except Fatal Heap) : Action Unit
  | ⟨heap, core, symbols, globals, pinned, registers, cache, contexts, random⟩ =>
    match f heap with
    | .ok heap => .ok () ⟨heap, core, symbols, globals, pinned, registers, cache, contexts, random⟩
    | .error cause => .stopped cause

/-- Looks at the machine. -/
@[always_inline, inline] def ask {α : Type} (f : Machine → α) : Action α :=
  fun m => .ok (f m) m

/-- The objects that the machine knows. -/
@[always_inline, inline] def getCore : Action CoreObjects :=
  ask Machine.core

/-- The registers. -/
@[always_inline, inline] def getRegisters : Action Registers :=
  ask Machine.registers

/-- Changes the registers. -/
@[always_inline, inline] def modifyRegisters (f : Registers → Registers) : Action Unit :=
  fun m => .ok () { m with registers := f m.registers }

end Action

end ObjectMachine
