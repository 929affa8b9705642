import ObjectMachine.Execution.Run
import ObjectMachine.Proofs.Graph.Steps

/-!
# Runs

Runs as computations on graphs: a method is activated without a sender, its instructions are executed
one after the other, and whatever was active before goes on.

## Main results

* `Simulates.start`, `Simulates.run`: the beginning of a run, and its instructions.
* `Simulates.execute`, `Simulates.sendMessage`: whole runs.
-/

namespace ObjectMachine

/-! ## The computations -/

namespace Spec

/-- Activates a method without a sender. -/
def start (receiver method : Value) (args : List Value) : Spec Unit := do
  if (← getRegisters).active.isObject then fail (· = .execution .alreadyActive)
  else
    let header ← read (·.header method)
    if header.argCount ≠ args.length then
      fail (· = .execution (.argumentMismatch header.argCount args.length))
    else
      let base ← pinnedCount
      pin method
      pin receiver
      pinAll args
      let context ← newContext header.frameSize ((← getCore).cls .methodContext)
      let method ← pinnedAt base
      let receiver ← pinnedAt (base + 1)
      let args ← pinnedFrom (base + 2) args.length
      unpinTo base
      write fun g => do
        let g ← g.initMethod context g.nil method receiver header.tempCount
        g.storeElements context 0 args
      loadContext context

/-- Executes instructions until the run is over. -/
noncomputable def run : Nat → Spec Value
  | 0 => fun _ r => r = .unfinished
  | fuel + 1 => do
    match ← step with
    | some result => return result
    | none => run fuel

/-- Goes on with a context that was suspended, if there was one. -/
def resumeContext (context : Value) : Spec Unit :=
  if context.isObject then loadContext context else clearRegisters

/-- Runs a method and answers its result. An activation in progress is suspended for the duration. -/
noncomputable def execute (fuel : Nat) (receiver method : Value) (args : List Value) : Spec Value := do
  flushRegisters
  let base ← pinnedCount
  pin (← getRegisters).active
  clearRegisters
  let result ← attempt do
    start receiver method args
    run fuel
  let outer ← pinnedAt base
  unpinTo base
  resumeContext outer
  resume result

/-- Sends a message from outside and answers its result. -/
noncomputable def sendMessage (fuel : Nat) (receiver : Value) (selector : String)
    (args : List Value) : Spec Value := do
  let base ← pinnedCount
  pin receiver
  pinAll args
  let method ← attempt (build (Machine.trampoline selector args.length) (← getCore).nil)
  let receiver ← pinnedAt base
  let args ← pinnedFrom (base + 1) args.length
  unpinTo base
  execute fuel receiver (← resume method) args

end Spec

/-! ## The actions -/

namespace Simulates

variable {p : Placement} {r s : Ref} {v w : Value}

/-- A method is activated with arguments in its first temporaries. -/
theorem start {args : List Ref} {values : List Value} (hr : p.Shows r v) (hs : p.Shows s w)
    (hargs : List.Forall₂ p.Shows args values) :
    Simulates p p.Steady (Machine.start r s args) (Spec.start v w values) := by
  refine bind_registers fun registers t ht => ?_
  rw [ht.active.isPointer_eq]
  by_cases hactive : t.active.isObject = true
  · rw [if_pos hactive, if_pos hactive]
    exact failRun_bind rfl
  rw [if_neg hactive, if_neg hactive]
  refine (read (Reads.header hs)).bind_still fun header _ heq => ?_
  cases heq
  dsimp only
  rw [hargs.length_eq]
  by_cases hcount : header.argCount ≠ values.length
  · rw [if_pos hcount, if_pos hcount]
    exact failRun_bind rfl
  rw [if_neg hcount, if_neg hcount]
  refine pinnedCount.bind_still fun base _ heq => ?_
  cases heq
  refine (pin hs).bind_still fun _ _ _ => ?_
  refine (pin hr).bind_still fun _ _ _ => ?_
  refine (pinAll hargs).bind_still fun _ _ _ => ?_
  refine bind_core fun core c hcore => ?_
  refine (newContext (hcore.cls .methodContext) _).bind_steady fun p₁ _ context _ hcontext => ?_
  refine (pinnedAt base).bind_still fun method _ hmethod => ?_
  refine (pinnedAt (base + 1)).bind_still fun receiver _ hreceiver => ?_
  refine (pinnedFrom (base + 2) values.length).bind_still fun args _ hargs => ?_
  refine (unpinTo base).bind_still fun _ _ _ => ?_
  refine (write ?_).bind_still fun _ _ _ => (loadContext hcontext).steady
  intro m g starts hm
  exact ((Writes.initMethod hcontext hm.nil hmethod hreceiver _).bind
    (Writes.storeElements hcontext 0 hargs)) m g starts hm

/-- Instructions are executed one after the other. -/
theorem run (fuel : Nat) : Simulates p p.Steady (Machine.run fuel) (Spec.run fuel) := by
  induction fuel generalizing p with
  | zero =>
    intro m g starts hm hright
    rfl
  | succ fuel ih =>
    refine step.bind_steady fun p' _ a b hab => ?_
    cases hab with
    | none => exact ih
    | some hr => exact pure hr (Placement.Steady.refl p')

theorem resumeContext (hr : p.Shows r v) :
    Simulates p (· = p) (Machine.resumeContext r) (Spec.resumeContext v) := by
  unfold Machine.resumeContext Spec.resumeContext
  rw [hr.isPointer_eq]
  split
  · exact loadContext hr
  · exact clearRegisters

/-- What was active is active again after a run. -/
theorem execute (fuel : Nat) {args : List Ref} {values : List Value} (hr : p.Shows r v)
    (hs : p.Shows s w) (hargs : List.Forall₂ p.Shows args values) :
    Simulates p p.Steady (Machine.execute fuel r s args) (Spec.execute fuel v w values) := by
  refine flushRegisters.bind_still fun _ _ _ => ?_
  refine pinnedCount.bind_still fun base _ heq => ?_
  cases heq
  refine bind_registers fun registers t ht => ?_
  refine (pin ht.active).bind_still fun _ _ _ => ?_
  refine clearRegisters.bind_still fun _ _ _ => ?_
  refine ((start hr hs hargs).bind_steady fun p' _ _ _ _ => run fuel).attempt.bind_steady
    fun p₁ _ result _ hresult => ?_
  refine (pinnedAt base).bind_still fun outer _ houter => ?_
  refine (unpinTo base).bind_still fun _ _ _ => ?_
  refine (resumeContext houter).bind_still fun _ _ _ => ?_
  exact resume hresult

/-- Going on with an answer leaves objects where they are. -/
theorem resumeStill {α β : Type} [Depicted α β] {a : Except Failure α} {b : Except Failure β}
    (hab : Depicted.shows p a b) : Simulates p (· = p) (Action.resume a) (Spec.resume b) := by
  cases hab with
  | ok h => exact pure h rfl
  | error failure => exact fail rfl

/-- A message is sent from outside. -/
theorem sendMessage (fuel : Nat) (selector : String) {args : List Ref} {values : List Value}
    (hr : p.Shows r v) (hargs : List.Forall₂ p.Shows args values) :
    Simulates p p.Steady (Machine.sendMessage fuel r selector args)
      (Spec.sendMessage fuel v selector values) := by
  refine pinnedCount.bind_still fun base _ heq => ?_
  cases heq
  refine (pin hr).bind_still fun _ _ _ => ?_
  refine (pinAll hargs).bind_still fun _ _ _ => ?_
  refine bind_core fun core c hcore => ?_
  rw [hargs.length_eq]
  refine (build _ hcore.nil).attempt.bind_steady fun p₁ _ result _ hresult => ?_
  refine (pinnedAt base).bind_still fun receiver _ hreceiver => ?_
  refine (pinnedFrom (base + 1) values.length).bind_still fun args _ hargs => ?_
  refine (unpinTo base).bind_still fun _ _ _ => ?_
  exact (resumeStill hresult).bind_still fun method _ hmethod => execute fuel hreceiver hmethod hargs

end Simulates

end ObjectMachine
