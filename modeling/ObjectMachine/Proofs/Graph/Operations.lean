import ObjectMachine.Proofs.Graph.Naming

/-!
# Operations

What can be asked of a machine from outside: objects, names, classes and methods can be made, methods can
be run, in one go or instruction by instruction, and memory can be collected at any time. What is made is
kept among the temporaries.

## Main results

* `Simulates.operations`: what comes of operations one after the other.
* `Spec.Preserves.operations`: what is left alone by all of them.
-/

namespace ObjectMachine

/-- What an operation is given. A global that is not known and a position where nothing is pinned stand for
nil. -/
inductive Operand where
  | immediate (r : Ref) (h : r.isPointer = false)
  | nil
  | trueObject
  | falseObject
  | kernel (k : KernelClass)
  | global (name : String)
  | pinned (position : Nat)
  | classOf (operand : Operand)

namespace Operand

/-- The reference that an operand is. -/
def ref (m : Machine) : Operand → Except Fatal Ref
  | immediate r _ => .ok r
  | nil => .ok m.core.nil
  | trueObject => .ok m.core.trueObject
  | falseObject => .ok m.core.falseObject
  | kernel k => .ok (m.core.cls k)
  | global name => do return (← m.global? name).getD m.core.nil
  | pinned position => .ok (m.pinned[position]?.getD m.core.nil)
  | classOf operand => do m.classOf (← operand.ref m)

/-- The value that an operand is. -/
def value (g : Graph) : Operand → Option Value
  | immediate r _ => some (.immediate r)
  | nil => some g.core.nil
  | trueObject => some g.core.trueObject
  | falseObject => some g.core.falseObject
  | kernel k => some (g.core.cls k)
  | global name =>
    match Graph.named? g.globals name with
    | some association => g.field association Association.valueField
    | none => some g.core.nil
  | pinned position => some (g.pinned[position]?.getD g.core.nil)
  | classOf operand => operand.value g >>= g.classOf

end Operand

/-- What can be asked of a machine. -/
inductive Operation where
  | keep (operand : Operand)
  /-- Releases what was kept since there were a number of temporaries. -/
  | releaseTo (count : Nat)
  | array (len : Nat)
  | string (text : String)
  | float (value : Binary64)
  | integer (value : Int)
  /-- Makes an instance of a class, with a number of elements. -/
  | instantiate (cls : Operand) (len : Nat)
  | symbol (name : String)
  /-- Asks for the association of a global. -/
  | mention (name : String)
  /-- Gives a global a value. -/
  | bind (name : String) (value : Operand)
  | define (name : String) (superclass : Operand) (spec : InstanceSpec)
  | build (code : Assembler) (cls : Operand)
  | install (code : Assembler) (cls : Operand) (selector : String)
  /-- Adds a method to a class. -/
  | add (cls : Operand) (selector : String) (method : Operand)
  | collect
  /-- Activates a method without a sender. -/
  | start (receiver method : Operand) (args : List Operand)
  /-- Executes one instruction. -/
  | step
  /-- Leaves the active context, which is kept. -/
  | suspend
  /-- Goes on with a context that was left, or with none. -/
  | resume (context : Operand)
  | run (fuel : Nat)
  | execute (fuel : Nat) (receiver method : Operand) (args : List Operand)
  | send (fuel : Nat) (receiver : Operand) (selector : String) (args : List Operand)

namespace Operation

open ObjectMachine.Action in
/-- Does what is asked for. Answers what is to be kept, if anything is. -/
def act : Operation → Action (Option Ref)
  | keep operand => do return some (← inspect operand.ref)
  | releaseTo count => do
    Machine.unpinTo count
    return none
  | array len => do return some (← Machine.newArray len)
  | string text => do return some (← Machine.newString text)
  | float value => do return some (← Machine.newFloat value)
  | integer value => do return some (← Machine.newInteger value)
  | instantiate cls len => do Machine.instantiate (← inspect cls.ref) len
  | symbol name => do return some (← Machine.intern name)
  | mention name => do return some (← Machine.globalAssociation name)
  | bind name value => do
    Machine.setGlobal name (← inspect value.ref)
    return none
  | define name superclass spec => do
    let _ ← Machine.defineClass name (← inspect superclass.ref) spec
    return none
  | build code cls => do return some (← Machine.build code (← inspect cls.ref))
  | install code cls selector => do
    Machine.install code (← inspect cls.ref) selector
    return none
  | add cls selector method => do
    Machine.installMethod (← inspect cls.ref) selector (← inspect method.ref)
    return none
  | collect => do
    let _ ← Machine.collectGarbage
    return none
  | start receiver method args => do
    Machine.start (← inspect receiver.ref) (← inspect method.ref)
      (← inspect fun m => args.mapM (·.ref m))
    return none
  | step => Machine.step
  | suspend => do
    Machine.flushRegisters
    let r ← getRegisters
    Machine.clearRegisters
    return some r.activeContext
  | resume context => do
    Machine.resumeContext (← inspect context.ref)
    return none
  | run fuel => do return some (← Machine.run fuel)
  | execute fuel receiver method args => do
    return some (← Machine.execute fuel (← inspect receiver.ref) (← inspect method.ref)
      (← inspect fun m => args.mapM (·.ref m)))
  | send fuel receiver selector args => do
    return some (← Machine.sendMessage fuel (← inspect receiver.ref) selector
      (← inspect fun m => args.mapM (·.ref m)))

/-- Keeps what was made, unless there was a failure. -/
def keepMade : Except Failure (Option Ref) → Action Unit
  | .ok (some r) => Machine.pin r
  | _ => return

/-- Does what is asked for, which may fail, and goes on. -/
def perform (operation : Operation) : Action Unit := do keepMade (← Action.attempt operation.act)

/-- Does one thing after another. -/
def performAll : List Operation → Action Unit
  | [] => return
  | operation :: rest => do
    operation.perform
    performAll rest

/-- The operation on graphs. -/
noncomputable def spec : Operation → Spec (Option Value)
  | keep operand => do return some (← Spec.read operand.value)
  | releaseTo count => do
    Spec.unpinTo count
    return none
  | array len => do return some (← Spec.newArray len)
  | string text => do return some (← Spec.newString text)
  | float value => do return some (← Spec.newFloat value)
  | integer value => do return some (← Spec.newInteger value)
  | instantiate cls len => do Spec.instantiate (← Spec.read cls.value) len
  | symbol name => do return some (← Spec.intern name)
  | mention name => do return some (← Spec.globalAssociation name)
  | bind name value => do
    Spec.setGlobal name (← Spec.read value.value)
    return none
  | define name superclass spec => do
    Spec.defineClass name (← Spec.read superclass.value) spec
    return none
  | build code cls => do return some (← Spec.build code (← Spec.read cls.value))
  | install code cls selector => do
    Spec.install code (← Spec.read cls.value) selector
    return none
  | add cls selector method => do
    Spec.installMethod (← Spec.read cls.value) selector (← Spec.read method.value)
    return none
  | collect => do
    let _ ← Spec.collectGarbage
    return none
  | start receiver method args => do
    Spec.start (← Spec.read receiver.value) (← Spec.read method.value)
      (← Spec.read fun g => args.mapM (·.value g))
    return none
  | step => Spec.step
  | suspend => do
    Spec.flushRegisters
    let r ← Spec.getRegisters
    Spec.clearRegisters
    return some r.active
  | resume context => do
    Spec.resumeContext (← Spec.read context.value)
    return none
  | run fuel => do return some (← Spec.run fuel)
  | execute fuel receiver method args => do
    return some (← Spec.execute fuel (← Spec.read receiver.value) (← Spec.read method.value)
      (← Spec.read fun g => args.mapM (·.value g)))
  | send fuel receiver selector args => do
    return some (← Spec.sendMessage fuel (← Spec.read receiver.value) selector
      (← Spec.read fun g => args.mapM (·.value g)))

end Operation

namespace Spec

def keepMade : Except Failure (Option Value) → Spec Unit
  | .ok (some v) => pin v
  | _ => return

/-- Does what is asked for, which may fail, and goes on. -/
noncomputable def perform (operation : Operation) : Spec Unit := do
  keepMade (← attempt operation.spec)

/-- Does one thing after another. -/
noncomputable def performAll : List Operation → Spec Unit
  | [] => return
  | operation :: rest => do
    perform operation
    performAll rest

end Spec

/-! ## Operations on machines and on graphs -/

namespace Reads

variable {p : Placement}

theorem operand (o : Operand) : Reads p o.ref o.value := by
  refine .intro fun m g starts hm => ?_
  induction o with
  | immediate r h =>
    rintro _ ⟨⟩
    exact ⟨r, rfl, rfl, h⟩
  | nil =>
    rintro _ ⟨⟩
    exact ⟨_, rfl, hm.roots.core.nil⟩
  | trueObject =>
    rintro _ ⟨⟩
    exact ⟨_, rfl, hm.roots.core.trueObject⟩
  | falseObject =>
    rintro _ ⟨⟩
    exact ⟨_, rfl, hm.roots.core.falseObject⟩
  | kernel k =>
    rintro _ ⟨⟩
    exact ⟨_, rfl, hm.roots.core.cls k⟩
  | global name =>
    intro v hv
    have hknown := hm.roots.globals.named? name
    unfold Operand.value at hv
    unfold Operand.ref Machine.global?
    generalize m.globals.find? name = found at hknown
    generalize Graph.named? g.globals name = known at hknown hv
    cases hknown with
    | none =>
      cases hv
      exact ⟨_, rfl, hm.roots.core.nil⟩
    | some hr =>
      obtain ⟨r, hread, hshows⟩ := (Reads.field hr Association.valueField).ok hm hv
      exact ⟨r, by simp only [hread]; rfl, hshows⟩
  | pinned position =>
    rintro _ ⟨⟩
    refine ⟨_, rfl, ?_⟩
    have hknown := forall₂_getElem? hm.roots.pinned position
    rw [Array.getElem?_toList] at hknown
    generalize m.pinned[position]? = found at hknown ⊢
    generalize g.pinned[position]? = known at hknown ⊢
    cases hknown with
    | none => exact hm.roots.core.nil
    | some hr => exact hr
  | classOf o ih =>
    intro v hv
    obtain ⟨u, hu, hv⟩ := Option.bind_eq_some_iff.mp hv
    obtain ⟨r, hread, hr⟩ := ih u hu
    obtain ⟨s, hs, hshows⟩ := (Reads.classOf hr).ok hm hv
    exact ⟨s, by unfold Operand.ref; rw [hread]; exact hs, hshows⟩

theorem operands (os : List Operand) :
    Reads p (fun m => os.mapM (·.ref m)) (fun g => os.mapM (·.value g)) := by
  refine .intro fun m g starts hm => ?_
  induction os with
  | nil =>
    rintro _ ⟨⟩
    exact ⟨[], rfl, .nil⟩
  | cons o rest ih =>
    intro values hvalues
    rw [List.mapM_cons] at hvalues
    obtain ⟨v, hv, hvalues⟩ := Option.bind_eq_some_iff.mp hvalues
    obtain ⟨values', hrest, heq⟩ := Option.bind_eq_some_iff.mp hvalues
    cases heq
    obtain ⟨r, hread, hr⟩ := (operand o).ok hm hv
    obtain ⟨refs, hreads, hrefs⟩ := ih values' hrest
    refine ⟨r :: refs, ?_, .cons hr hrefs⟩
    rw [List.mapM_cons, hread, hreads]
    rfl

end Reads

namespace Simulates

variable {p : Placement} {α β γ δ : Type} [Depicted α β] [Depicted γ δ]

/-- The result is not looked at. -/
theorem forget {x : Action α} {y : Spec β} (hx : Simulates p p.Steady x y) :
    Simulates p p.Steady (x >>= fun _ => Pure.pure none : Action (Option Ref))
      (y >>= fun _ => Pure.pure none : Spec (Option Value)) :=
  hx.bind_steady fun p' _ _ _ _ => pure .none (.refl p')

/-- The result is what is to be kept. -/
theorem made {x : Action Ref} {y : Spec Value} (hx : Simulates p p.Steady x y) :
    Simulates p p.Steady (x >>= fun r => Pure.pure (some r)) (y >>= fun v => Pure.pure (some v)) :=
  hx.bind_steady fun p' _ _ _ hr => pure (.some hr) (.refl p')

/-- An operand is read, and something is done with it. -/
theorem given {f : Ref → Action α} {h : Value → Spec β} (o : Operand)
    (hf : ∀ r v, p.Shows r v → Simulates p p.Steady (f r) (h v)) :
    Simulates p p.Steady (Action.inspect o.ref >>= f) (Spec.read o.value >>= h) :=
  (inspect (Reads.operand o)).bind_still fun r v hr => hf r v hr

theorem givenAll {f : List Ref → Action α} {h : List Value → Spec β} (os : List Operand)
    (hf : ∀ refs values, List.Forall₂ p.Shows refs values → Simulates p p.Steady (f refs) (h values)) :
    Simulates p p.Steady (Action.inspect (fun m => os.mapM (·.ref m)) >>= f)
      (Spec.read (fun g => os.mapM (·.value g)) >>= h) :=
  (inspect (Reads.operands os)).bind_still fun refs values hall => hf refs values hall

theorem operation (operation : Operation) : Simulates p p.Steady operation.act operation.spec := by
  cases operation with
  | keep o => exact (inspect (Reads.operand o)).steady.made
  | releaseTo count => exact (unpinTo count).steady.forget
  | array len => exact (newArray len).made
  | string text => exact (newString text).made
  | float value => exact (newFloat value).made
  | integer value => exact (newInteger value).made
  | instantiate cls len => exact given cls fun _ _ hr => instantiate hr
  | symbol name => exact (intern name).made
  | mention name => exact (globalAssociation name).made
  | bind name value => exact given value fun _ _ hr => (setGlobal name hr).forget
  | define name superclass spec => exact given superclass fun _ _ hr => (defineClass name hr spec).forget
  | build code cls => exact given cls fun _ _ hr => (build code hr).made
  | install code cls selector => exact given cls fun _ _ hr => (install code hr selector).forget
  | add cls selector method =>
    exact given cls fun _ _ hr => given method fun _ _ hs => (installMethod hr selector hs).forget
  | collect => exact collectGarbage.forget
  | start receiver method args =>
    exact given receiver fun _ _ hr => given method fun _ _ hs => givenAll args fun _ _ hall =>
      (start hr hs hall).forget
  | step => exact step
  | suspend =>
    refine flushRegisters.bind_still fun _ _ _ => bind_registers fun registers t ht => ?_
    exact clearRegisters.bind_still fun _ _ _ => pure (.some ht.active) (.refl p)
  | resume context => exact given context fun _ _ hr => (resumeContext hr).steady.forget
  | run fuel => exact (run fuel).made
  | execute fuel receiver method args =>
    exact given receiver fun _ _ hr => given method fun _ _ hs => givenAll args fun _ _ hall =>
      (execute fuel hr hs hall).made
  | send fuel receiver selector args =>
    exact given receiver fun _ _ hr => givenAll args fun _ _ hall =>
      (sendMessage fuel selector hr hall).made

theorem perform (operation : Operation) :
    Simulates p p.Steady operation.perform (Spec.perform operation) := by
  refine (attempt (Simulates.operation operation)).bind_steady fun p' _ result value hresult => ?_
  cases hresult with
  | error failure => exact pure trivial (.refl p')
  | ok hmade =>
    cases hmade with
    | none => exact pure trivial (.refl p')
    | some hr => exact (pin hr).steady

theorem operations (operations : List Operation) :
    Simulates p p.Steady (Operation.performAll operations) (Spec.performAll operations) := by
  induction operations generalizing p with
  | nil => exact pure trivial (.refl p)
  | cons operation rest ih => exact (perform operation).bind_steady fun _ _ _ _ _ => ih

end Simulates

/-! ## What is left alone -/

namespace Spec.Preserves

theorem operation (operation : Operation) : operation.spec.Preserves Graph.Lasts := by
  cases operation with
  | keep o => exact (read _).map some
  | releaseTo count => exact (unpinTo count).rests.lasts.map _
  | array len => exact (Makes.newArray len).preserves.rests.lasts.map some
  | string text => exact (Makes.newString text).preserves.rests.lasts.map some
  | float value => exact (Makes.newFloat value).preserves.rests.lasts.map some
  | integer value => exact (Makes.newInteger value).preserves.rests.lasts.map some
  | instantiate cls len => exact (read _).bind fun v => (instantiate v len).rests.lasts
  | symbol name => exact (Makes.intern name).preserves.rests.lasts.map some
  | mention name => exact (globalAssociation name).lasts_of_shares.map some
  | bind name value => exact (read _).bind fun v => (setGlobal name v).map _
  | define name superclass spec => exact (read _).bind fun v => (defineClass name v spec).map _
  | build code cls => exact (read _).bind fun v => (build code v).lasts_of_shares.map some
  | install code cls selector => exact (read _).bind fun v => (install code v selector).map _
  | add cls selector method =>
    exact (read _).bind fun v => (read _).bind fun w => (installMethod v selector w).lasts.map _
  | collect => exact Makes.collectGarbage.preserves.rests.lasts.map _
  | start receiver method args =>
    exact (read _).bind fun _ => (read _).bind fun _ => (read _).bind fun _ =>
      (start _ _ _).rests.lasts.map _
  | step => exact step.lasts
  | suspend =>
    exact flushRegisters.rests.lasts.bind fun _ => (ask _).bind fun _ =>
      clearRegisters.rests.lasts.map _
  | resume context => exact (read _).bind fun v => (resumeContext v).rests.lasts.map _
  | run fuel => exact (run fuel).lasts.map some
  | execute fuel receiver method args =>
    exact (read _).bind fun _ => (read _).bind fun _ => (read _).bind fun _ =>
      (execute fuel _ _ _).lasts.map some
  | send fuel receiver selector args =>
    exact (read _).bind fun _ => (read _).bind fun _ => (sendMessage fuel _ selector _).map some

theorem perform (operation : Operation) : (Spec.perform operation).Preserves Graph.Lasts := by
  refine (Preserves.operation operation).attempt.bind fun result => ?_
  rcases result with failure | (_ | v)
  · exact .pure ()
  · exact .pure ()
  · exact (pin v).rests.lasts

theorem operations (operations : List Operation) :
    (Spec.performAll operations).Preserves Graph.Lasts := by
  induction operations with
  | nil => exact .pure ()
  | cons operation rest ih => exact (perform operation).bind fun _ => ih

end Spec.Preserves

end ObjectMachine
