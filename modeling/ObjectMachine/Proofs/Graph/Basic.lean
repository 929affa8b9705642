import ObjectMachine.Machine.Failure
import ObjectMachine.Proofs.Graph.Depiction

/-!
# The machine without memory

A graph is the state of a machine whose objects have names in place of addresses: there is always room
for one more object, and nothing is ever moved. What the machine keeps to be faster, its cache and its
pool of contexts, is there only as far as it shows.

Computations on graphs may have several outcomes, since a program does not see when the machine
collects and what identity an object gets. One outcome is `wrong`: nothing is said of a machine that
reads what is not there.

## Main results

* `Spec.Ends`: what is known of all outcomes of a computation, with a rule for each way to put
  computations together.
-/

namespace ObjectMachine

/-! ## Graphs -/

namespace Graph

/-- The objects that the machine knows. -/
structure Core where
  nil : Value
  trueObject : Value
  falseObject : Value
  cls : KernelClass → Value
  doesNotUnderstand : Value
  escapedBlock : Value
  mustBeBoolean : Value
  special : List Value

/-- The object of a truth value. -/
def Core.boolean (c : Core) (value : Bool) : Value :=
  if value then c.trueObject else c.falseObject

/-- The activation and the send in progress. -/
structure Registers where
  active : Value
  home : Value
  method : Value
  receiver : Value
  literals : Value
  code : Value
  pc : Nat
  sp : Nat
  tempLimit : Nat
  selector : Value
  argCount : Nat
  lookupClass : Value
  newMethod : Value

/-- Contexts for other activations. -/
structure Pool where
  small : List Value
  large : List Value

end Graph

/-- A machine whose objects have names. -/
structure Graph where
  nodes : Nat → Node
  /-- The name of the next object. -/
  next : Nat
  /-- The words that there may ever be. -/
  capacity : Nat
  /-- What every slot holds at first. -/
  nil : Value
  core : Graph.Core
  symbols : List (String × Value)
  globals : List (String × Value)
  pinned : List Value
  registers : Graph.Registers
  /-- The methods that may be answered for a class and a selector without a look. -/
  memo : Value → Value → Value → Prop
  pool : Graph.Pool

namespace Graph

/-- The object of a value. -/
def node? (g : Graph) : Value → Option Node
  | .immediate _ => none
  | .object n => some (g.nodes n)

/-- The elements of an object that are known: those that a collection follows, and the stack of the
active context. -/
def known (g : Graph) (n : Nat) : Nat :=
  if g.registers.active = .object n then max (g.nodes n).live g.registers.sp else (g.nodes n).live

/-- The graph with another object for a name. -/
def setNode (g : Graph) (n : Nat) (o : Node) : Graph :=
  { g with nodes := Function.update g.nodes n o }

end Graph

/-! ## Outcomes -/

/-- An outcome of a computation on a graph. -/
inductive Result (α : Type) where
  | ok (value : α) (graph : Graph)
  | failed (failure : Failure) (graph : Graph)
  /-- The machine is stopped for good, though not for want of memory. -/
  | stopped (cause : Fatal)
  | unfinished
  /-- Nothing is said of the machine. -/
  | wrong

/-- A computation on graphs, by its outcomes. -/
def Spec (α : Type) : Type := Graph → Result α → Prop

namespace Spec

variable {α β : Type}

/-- How a computation goes on after an outcome. -/
def after (f : α → Spec β) : Result α → Result β → Prop
  | .ok a g, r => f a g r
  | .failed failure g, r => r = .failed failure g
  | .stopped cause, r => r = .stopped cause
  | .unfinished, r => r = .unfinished
  | .wrong, r => r = .wrong

instance : Monad Spec where
  pure a := fun g r => r = .ok a g
  bind x f := fun g r => ∃ r₁, x g r₁ ∧ after f r₁ r

/-- Goes on with what is read from the graph. -/
def ask (f : Graph → α) : Spec α := fun g r => r = .ok (f g) g

/-- Changes the graph. -/
def modify (f : Graph → Graph) : Spec Unit := fun g r => r = .ok () (f g)

/-- Has no outcome. -/
def never : Spec α := fun _ _ => False

/-- Goes wrong. -/
def wrong : Spec α := fun _ r => r = .wrong

/-- Stops for good, for one of some causes. -/
def stop (P : Fatal → Prop) : Spec α := fun _ r => ∃ cause, P cause ∧ r = .stopped cause

/-- Fails in one of some ways. -/
def fail (P : Failure → Prop) : Spec α := fun g r => ∃ failure, P failure ∧ r = .failed failure g

/-- Any value of those that have a property. -/
def choose (P : α → Prop) : Spec α := fun g r => ∃ a, P a ∧ r = .ok a g

/-- One computation or the other. -/
def either (x y : Spec α) : Spec α := fun g r => x g r ∨ y g r

/-- Reads from the graph, and goes wrong where nothing can be read. -/
def read (f : Graph → Option α) : Spec α := fun g r =>
  match f g with
  | some a => r = .ok a g
  | none => r = .wrong

/-- Changes the graph, and goes wrong where there is nothing to change. -/
def write (f : Graph → Option Graph) : Spec Unit := fun g r =>
  match f g with
  | some g' => r = .ok () g'
  | none => r = .wrong

/-- Goes on only if a condition holds, and goes wrong otherwise. -/
def guard (P : Graph → Prop) : Spec Unit := fun g r =>
  (P g ∧ r = .ok () g) ∨ (¬ P g ∧ r = .wrong)

/-- Makes a failure an answer. -/
def attempt (x : Spec α) : Spec (Except Failure α) := fun g r => ∃ r₁, x g r₁ ∧
  match r₁ with
  | .ok a g' => r = .ok (.ok a) g'
  | .failed failure g' => r = .ok (.error failure) g'
  | .stopped cause => r = .stopped cause
  | .unfinished => r = .unfinished
  | .wrong => r = .wrong

/-- Goes on with an answer or fails with a failure. -/
def resume : Except Failure α → Spec α
  | .ok a => pure a
  | .error failure => fail (· = failure)

/-- Reports a failure as the cause of another one. -/
def within (activity : Activity) (x : Spec α) : Spec α := fun g r => ∃ r₁, x g r₁ ∧
  match r₁ with
  | .failed failure g' => r = .failed (.during activity failure) g'
  | r₁ => r = r₁

theorem pure_bind (a : α) (f : α → Spec β) : (pure a >>= f) = f a := by
  funext g r
  apply propext
  constructor
  · rintro ⟨r₁, rfl, hr⟩
    exact hr
  · intro hr
    exact ⟨_, rfl, hr⟩

theorem bind_assoc {γ : Type} (x : Spec α) (f : α → Spec β) (h : β → Spec γ) :
    (x >>= f >>= h) = x >>= fun a => f a >>= h := by
  funext g r
  apply propext
  constructor
  · rintro ⟨r₂, ⟨r₁, hx, hf⟩, hr⟩
    refine ⟨r₁, hx, ?_⟩
    cases r₁ with
    | ok a g' => exact ⟨r₂, hf, hr⟩
    | failed e g' => cases hf; exact hr
    | stopped cause => cases hf; exact hr
    | unfinished => cases hf; exact hr
    | wrong => cases hf; exact hr
  · rintro ⟨r₁, hx, hr⟩
    cases r₁ with
    | ok a g' =>
      obtain ⟨r₂, hf, hr⟩ := hr
      exact ⟨r₂, ⟨_, hx, hf⟩, hr⟩
    | failed e g' => exact ⟨_, ⟨_, hx, rfl⟩, hr⟩
    | stopped cause => exact ⟨_, ⟨_, hx, rfl⟩, hr⟩
    | unfinished => exact ⟨_, ⟨_, hx, rfl⟩, hr⟩
    | wrong => exact ⟨_, ⟨_, hx, rfl⟩, hr⟩

theorem read_of_some {f : Graph → Option α} {g : Graph} {a : α} (ha : f g = some a) :
    read f g = fun r => r = .ok a g := by
  funext r
  unfold read
  rw [ha]

theorem read_of_none {f : Graph → Option α} {g : Graph} (ha : f g = none) :
    read f g = fun r => r = .wrong := by
  funext r
  unfold read
  rw [ha]

theorem write_of_some {f : Graph → Option Graph} {g g' : Graph} (ha : f g = some g') :
    write f g = fun r => r = .ok () g' := by
  funext r
  unfold write
  rw [ha]

theorem write_of_none {f : Graph → Option Graph} {g : Graph} (ha : f g = none) :
    write f g = fun r => r = .wrong := by
  funext r
  unfold write
  rw [ha]

/-! ## What is known of all outcomes -/

/-- Every outcome is a value with `Q` or a failure with `E`; the machine may be stopped only by a
cause with `S`. -/
def Ends (x : Spec α) (g : Graph) (Q : α → Graph → Prop) (E : Failure → Graph → Prop)
    (S : Fatal → Prop) : Prop :=
  ∀ r, x g r → match r with
    | .ok a g' => Q a g'
    | .failed failure g' => E failure g'
    | .stopped cause => S cause
    | .unfinished => True
    | .wrong => False

namespace Ends

variable {x : Spec α} {f : α → Spec β} {g : Graph} {Q : β → Graph → Prop} {R : α → Graph → Prop}
  {E : Failure → Graph → Prop} {S : Fatal → Prop}

theorem not_wrong (hx : x.Ends g R E S) : ¬ x g .wrong := fun h => hx _ h

theorem mono {R' : α → Graph → Prop} {E' : Failure → Graph → Prop} {S' : Fatal → Prop}
    (hx : x.Ends g R E S) (hR : ∀ a g', R a g' → R' a g') (hE : ∀ e g', E e g' → E' e g')
    (hS : ∀ cause, S cause → S' cause) : x.Ends g R' E' S' := by
  intro r hr
  have hknown := hx r hr
  cases r with
  | ok a g' => exact hR a g' hknown
  | failed e g' => exact hE e g' hknown
  | stopped cause => exact hS cause hknown
  | unfinished => trivial
  | wrong => exact hknown

theorem pure {a : α} (ha : R a g) : (Pure.pure a : Spec α).Ends g R E S := by
  rintro r rfl
  exact ha

theorem bind (hx : x.Ends g R E S) (hf : ∀ a g', R a g' → (f a).Ends g' Q E S) :
    (x >>= f).Ends g Q E S := by
  rintro r ⟨r₁, hr₁, hr⟩
  have hknown := hx r₁ hr₁
  cases r₁ with
  | ok a g' => exact hf a g' hknown r hr
  | failed e g' =>
    cases hr
    exact hknown
  | stopped cause =>
    cases hr
    exact hknown
  | unfinished =>
    cases hr
    trivial
  | wrong => exact absurd hknown id

theorem ask {h : Graph → α} (hf : (f (h g)).Ends g Q E S) : (Spec.ask h >>= f).Ends g Q E S :=
  bind (R := fun a g' => a = h g ∧ g' = g) (by rintro r rfl; exact ⟨rfl, rfl⟩)
    (by rintro a g' ⟨rfl, rfl⟩; exact hf)

theorem modify_last {h : Graph → Graph} {R : Unit → Graph → Prop} (hR : R () (h g)) :
    (Spec.modify h).Ends g R E S := by
  intro r hr
  rw [hr]
  exact hR

theorem modify {h : Graph → Graph} {f : Unit → Spec β} (hf : (f ()).Ends (h g) Q E S) :
    (Spec.modify h >>= f).Ends g Q E S :=
  bind (R := fun _ g' => g' = h g) (by rintro r rfl; rfl) (by rintro a g' rfl; exact hf)

theorem read {h : Graph → Option α} {a : α} (ha : h g = some a) (hf : (f a).Ends g Q E S) :
    (Spec.read h >>= f).Ends g Q E S :=
  bind (R := fun a' g' => a' = a ∧ g' = g)
    (by
      intro r hr
      rw [read_of_some ha] at hr
      cases hr
      exact ⟨rfl, rfl⟩)
    (by rintro a g' ⟨rfl, rfl⟩; exact hf)

theorem read_last {h : Graph → Option α} {a : α} (ha : h g = some a) (hR : R a g) :
    (Spec.read h).Ends g R E S := by
  intro r hr
  rw [read_of_some ha] at hr
  rw [hr]
  exact hR

theorem write_last {h : Graph → Option Graph} {g₁ : Graph} {R : Unit → Graph → Prop}
    (ha : h g = some g₁) (hR : R () g₁) : (Spec.write h).Ends g R E S := by
  intro r hr
  rw [write_of_some ha] at hr
  cases hr
  exact hR

theorem write {h : Graph → Option Graph} {g₁ : Graph} {f : Unit → Spec β} (ha : h g = some g₁)
    (hf : (f ()).Ends g₁ Q E S) : (Spec.write h >>= f).Ends g Q E S :=
  bind (R := fun _ g' => g' = g₁) (write_last ha rfl) (by rintro a g' rfl; exact hf)

theorem guard {P : Graph → Prop} {f : Unit → Spec β} (hP : P g) (hf : (f ()).Ends g Q E S) :
    (Spec.guard P >>= f).Ends g Q E S :=
  bind (R := fun _ g' => g' = g)
    (by
      rintro r (⟨-, rfl⟩ | ⟨hnot, rfl⟩)
      · rfl
      · exact absurd hP hnot)
    (by rintro a g' rfl; exact hf)

theorem either {y : Spec α} (hx : x.Ends g R E S) (hy : y.Ends g R E S) :
    (Spec.either x y).Ends g R E S := fun r hr => hr.elim (hx r) (hy r)

theorem fail {P : Failure → Prop} (hE : ∀ failure, P failure → E failure g) :
    (Spec.fail P : Spec α).Ends g R E S := by
  rintro r ⟨failure, hP, rfl⟩
  exact hE failure hP

theorem stop {P : Fatal → Prop} (hS : ∀ cause, P cause → S cause) :
    (Spec.stop P : Spec α).Ends g R E S := by
  rintro r ⟨cause, hP, rfl⟩
  exact hS cause hP

theorem attempt {E' : Failure → Graph → Prop} (hx : x.Ends g R E S) :
    (Spec.attempt x).Ends g (fun a g' => match a with
      | .ok a => R a g'
      | .error failure => E failure g') E' S := by
  rintro r ⟨r₁, hr₁, hr⟩
  have hknown := hx r₁ hr₁
  cases r₁ with
  | ok a g' =>
    cases hr
    exact hknown
  | failed e g' =>
    cases hr
    exact hknown
  | stopped cause =>
    cases hr
    exact hknown
  | unfinished =>
    cases hr
    trivial
  | wrong => exact absurd hknown id

theorem within {activity : Activity} (hx : x.Ends g R (fun e g' => E (.during activity e) g') S) :
    (Spec.within activity x).Ends g R E S := by
  rintro r ⟨r₁, hr₁, hr⟩
  have hknown := hx r₁ hr₁
  cases r₁ <;> cases hr <;> exact hknown

end Ends

end Spec

end ObjectMachine
