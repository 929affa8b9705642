import ObjectMachine.Proofs.Execution.Decoding
import ObjectMachine.Proofs.Machine.Globals

/-!
# Where sends to super begin

A compiled method with sends to super has an association with its class as its last literal. As long as
nobody writes into the method, its last literal or that association, a send to super that is executed in
the method begins its lookup above this class, whatever the receiver is and wherever the method was found.

## Main results

* `Graph.Owns.traceAll`: what is done with a machine leaves methods their classes.
* `Machine.superSends_begin_above`: where a send to super begins its lookup.
-/

namespace ObjectMachine

/-! ## The class of a method -/

namespace Graph

variable {g g' : Graph} {method cls a : Value}

/-- The association that a method has as its last literal has its class. -/
theorem OwnedBy.field (h : g.OwnedBy method cls) :
    ∃ a, g.owner? method = some a ∧ g.hasAssociationShape a = true ∧
      g.field a Association.valueField = some cls := by
  obtain ⟨_, howner, n, rfl, -, hfields, hvalue⟩ := h
  refine ⟨_, howner, beq_iff_eq.mpr hfields, ?_⟩
  rw [field_of_lt (by rw [hfields]; decide), hvalue]

/-- An object that a method was made for is its class. -/
theorem OwnedBy.methodClass? (h : g.OwnedBy method cls) :
    g.methodClass? method = some (if cls.isObject then some cls else none) := by
  obtain ⟨a, howner, hshape, hvalue⟩ := h.field
  obtain ⟨count, hcount, howner⟩ := Option.bind_eq_some_iff.mp howner
  obtain ⟨hpos, hlast⟩ := Option.ite_none_right_eq_some.mp howner
  unfold Graph.methodClass?
  rw [hcount]
  show (if count = 0 then _ else _) = _
  rw [if_neg hpos.ne', hlast]
  show (if g.hasAssociationShape a = true then _ else _) = _
  rw [if_pos hshape, hvalue]
  rfl

/-- Nothing was written into methods, into their last literals and into what these are associations of. -/
def LeavesOwners (owners : List (Value × Value)) (g g' : Graph) : Prop :=
  ∀ {method cls}, (method, cls) ∈ owners → g'.owner? method = g.owner? method ∧
    ∀ a, g.owner? method = some a → g'.field a Association.valueField = g.field a Association.valueField

/-- Methods have their classes, and nil has no fields. -/
structure Owns (owners : List (Value × Value)) (g : Graph) : Prop where
  kernel : g.Kernel
  nilFields : (g.nodes 0).fields = 0
  owned : ∀ {method cls}, (method, cls) ∈ owners → g.OwnedBy method cls

/-- A method keeps its class if nothing is written that the class depends on. -/
theorem OwnedBy.lasts (h : g.OwnedBy method cls) (hlasts : g.Lasts g')
    (howner : g'.owner? method = g.owner? method) (hvalue : ∀ a, g.owner? method = some a →
      g'.field a Association.valueField = g.field a Association.valueField) : g'.OwnedBy method cls := by
  obtain ⟨_, hold, n, rfl, hn, hfields, hcls⟩ := h
  have hfields' : (g'.nodes n).fields = Association.fieldCount := (hlasts.layout n hn).fields.trans hfields
  have hsame := hvalue _ hold
  rw [field_of_lt (by rw [hfields']; decide), field_of_lt (by rw [hfields]; decide)] at hsame
  exact ⟨_, howner.trans hold, n, rfl, hn.trans_le hlasts.next_le, hfields',
    (Option.some.inj hsame).trans hcls⟩

end Graph

/-! ## What is noted -/

/-- The method that an operation made, with its class, if it has that among its literals. What is made is
kept among the temporaries. -/
def Operation.owner? (operation : Operation) (g g' : Graph) : Option (Value × Value) :=
  match operation with
  | .build code cls =>
    if code.frame.getLast? = some .methodClass then do return (← g'.pinned.getLast?, ← cls.value g) else none
  | _ => none

namespace Spec

open ObjectMachine.Graph

/-- Does what is asked for, which leaves the methods that were noted alone, and notes one more. -/
noncomputable def trace (operation : Operation) (owners : List (Value × Value)) :
    Spec (List (Value × Value)) := do
  let g ← ask id
  perform operation
  guard (LeavesOwners owners g)
  ask fun g' => owners ++ (operation.owner? g g').toList

/-- Does one thing after another, and notes every method. -/
noncomputable def traceAll : List Operation → List (Value × Value) → Spec (List (Value × Value))
  | [], owners => return owners
  | operation :: rest, owners => do traceAll rest (← trace operation owners)

/-- Makes everything that a fresh machine needs, and then notes the methods that are built. -/
noncomputable def traceFromStart (operations : List Operation) : Spec (List (Value × Value)) := do
  bootstrap
  traceAll operations []

variable {g : Graph} {operation : Operation} {owners : List (Value × Value)}

/-- A method that is noted has its class. -/
theorem Gives.perform_owner (operation : Operation) (g : Graph) : (Spec.perform operation).Gives (· = g)
    (fun _ g' => ∀ {method cls}, operation.owner? g g' = some (method, cls) → g'.OwnedBy method cls)
    fun _ => True := by
  cases operation with
  | build code cls =>
    have hbuilt : (Operation.build code cls).spec.Gives (· = g)
        (fun made g' => ∃ v, made = some v ∧ ∀ c, cls.value g = some c →
          code.frame.getLast? = some .methodClass → g'.OwnedBy v c)
        fun _ => code.frame = [] := by
      refine Gives.read fun c hc => Gives.bind ((Gives.build code c g).mono (fun _ _ h => h) fun _ h => h.2)
        fun v => .of_forall fun g' h => Gives.pure ⟨v, rfl, fun c' hc' hlast => ?_⟩
      rw [hc] at hc'
      cases hc'
      exact h.2.2 hlast
    refine (hbuilt.perform (R := fun g' => ∀ {method c},
      (Operation.build code cls).owner? g g' = some (method, c) → g'.OwnedBy method c) ?_ ?_ ?_).mono
      (fun _ _ h => h) fun _ _ => trivial
    · rintro g' ⟨v, hv, -⟩
      cases hv
    · rintro v g' ⟨_, ⟨⟩, howned⟩ method c heq
      obtain ⟨hlast, heq⟩ := Option.ite_none_right_eq_some.mp heq
      obtain ⟨method', hmethod, heq⟩ := Option.bind_eq_some_iff.mp heq
      obtain ⟨c', hc, heq⟩ := Option.bind_eq_some_iff.mp heq
      cases heq
      have hmethod : (g'.pinned ++ [v]).getLast? = some method := hmethod
      rw [List.getLast?_concat] at hmethod
      cases hmethod
      exact howned c hc hlast
    · intro g' hframe method c heq
      obtain ⟨hlast, -⟩ := Option.ite_none_right_eq_some.mp heq
      rw [hframe] at hlast
      cases hlast
  | _ =>
    refine (Gives.of_preserves (R := Graph.Lasts) (.perform _) g).mono (fun _ g' _ method cls heq => ?_)
      fun _ _ => trivial
    exact nomatch heq

end Spec

namespace Graph.Owns

open Spec

variable {g : Graph} {owners : List (Value × Value)}

theorem trace (h : Owns owners g) (operation : Operation) :
    (Spec.trace operation owners).Gives (· = g) Owns fun _ => True := by
  refine Gives.ask (Gives.bind (((Gives.of_preserves (R := Graph.Lasts) (.perform operation) g).and
    (Gives.perform_owner operation g)).mono (fun _ _ h => h) fun _ _ => trivial)
    fun _ => .of_forall fun g' hg' => ?_)
  obtain ⟨hlasts, hnew⟩ := hg'
  refine Gives.guard fun hleaves => ?_
  rintro _ rfl _ rfl
  have hzero : 0 < g.next := Nat.lt_of_lt_of_le (by decide) h.kernel.next
  refine ⟨h.kernel.lasts hlasts, (hlasts.layout 0 hzero).fields.trans h.nilFields, fun hmem => ?_⟩
  obtain hmem | hmem := List.mem_append.mp hmem
  · obtain ⟨howner, hvalue⟩ := hleaves hmem
    exact (h.owned hmem).lasts hlasts howner hvalue
  · exact hnew (Option.mem_toList.mp hmem)

/-- Methods keep their classes whatever is done. -/
theorem traceAll {operations : List Operation} (h : Owns owners g) :
    (Spec.traceAll operations owners).Gives (· = g) Owns fun _ => True := by
  induction operations generalizing g owners with
  | nil => exact Gives.pure h
  | cons operation rest ih =>
    exact Gives.bind (h.trace operation) fun _ => .of_forall fun _ h' => ih h'

end Graph.Owns

/-! ## Sends to super -/

namespace Heap

/-- There is no field behind the last one. -/
theorem fetchField_beyond {h : Heap} {r : Ref} {count index : Nat} (hcount : h.fixedFields r = .ok count)
    (hindex : count ≤ index) : h.fetchField r index = .error (.fault .position) := by
  unfold fixedFields at hcount
  unfold fetchField fieldIndex
  cases hheader : h.header r with
  | ok header =>
    rw [hheader] at hcount
    cases hcount
    dsimp only
    rw [if_neg (Nat.not_lt.mpr hindex)]
  | error cause =>
    rw [hheader] at hcount
    cases hcount

end Heap

namespace Machine

variable {m m' : Machine} {g : Graph} {p : Placement} {starts : List Nat} {method cls : Value}
  {config : MachineConfig} {operations : List Operation} {index argCount : Nat} {r c : Ref}

/-- Asking for a literal changes nothing. -/
theorem eq_of_literalAt (h : literalAt index m = .ok r m') : m' = m := by
  obtain ⟨registers, m₁, hregisters, h⟩ := Action.bind_eq_ok.mp h
  cases hregisters
  obtain ⟨len, m₂, hlen, h⟩ := Action.bind_eq_ok.mp h
  obtain ⟨-, rfl⟩ := Action.read_eq_ok.mp hlen
  split at h
  · exact (Action.read_eq_ok.mp h).2.symm
  · cases h

/-- A send to super in a method with a class depends on the superclass of that, once the selector is there. -/
theorem sendNamed_super {f : Ref → Action (Option Ref)}
    (hclass : Method.methodClass? m.heap m.registers.method = .ok (some c))
    (hf : ∀ selector, (Action.read (Class.superclass · c) >>= fun r => sendToClass selector r argCount) m =
      f selector m) : sendNamed true index argCount m = (literalAt index >>= f) m := by
  unfold sendNamed
  refine Action.bind_congr_of_ok fun selector m' hliteral => ?_
  cases eq_of_literalAt hliteral
  have hregisters : Action.getRegisters m = .ok m.registers m := rfl
  have hread : Action.read (Method.methodClass? · m.registers.method) m = .ok (some c) m :=
    Action.read_of_ok hclass
  rw [if_neg (by decide), Action.bind_of_ok hregisters]
  exact (Action.bind_of_ok hread).trans (hf selector)

/-- What a send to super does that is next in a method with a class. -/
structure SendsAbove (m : Machine) (g : Graph) (p : Placement) (method cls : Value) : Prop where
  above : ∀ {bytes index argCount superclass}, p.Shows m.registers.method method → m.Executes bytes →
    Instruction.decode? bytes m.registers.pc = some (.superSend index argCount) →
    g.field cls Class.superclassField = some superclass → ∃ r, p.Shows r superclass ∧
      m.step = (literalAt index.toNat >>= fun selector => sendToClass selector r argCount.toNat)
        (m.atPc (m.registers.pc + 3))
  /-- Nil is no class, but taken for one. -/
  nil : ∀ {bytes index argCount}, p.Shows m.registers.method method → m.Executes bytes →
    Instruction.decode? bytes m.registers.pc = some (.superSend index argCount) → cls = g.core.nil →
      m.step = (literalAt index.toNat >>= fun _ => Action.stop (.fault .position))
        (m.atPc (m.registers.pc + 3))

/-- An object that a method was made for is what the machine takes for the class of the method. -/
theorem Realizes.methodClass? (hm : m.Realizes g p starts) (howned : g.OwnedBy method cls)
    (hmethod : p.Shows m.registers.method method) {n : Nat} (hcls : cls = .object n) :
    ∃ c, Method.methodClass? m.heap m.registers.method = .ok (some c) ∧ p.Shows c cls := by
  have hread := howned.methodClass?
  rw [hcls, Value.isObject_object, if_pos rfl, ← hcls] at hread
  obtain ⟨c, hc, hshows⟩ := (Reads.methodClass? hmethod).ok hm hread
  cases hshows with
  | some hshows => exact ⟨_, hc, hshows⟩

theorem Realizes.sendsAbove {owners : List (Value × Value)} (hm : m.Realizes g p starts)
    (howns : Graph.Owns owners g) (hmem : (method, cls) ∈ owners) : m.SendsAbove g p method cls where
  above {bytes index argCount superclass} hmethod hexecutes hi hsuper := by
    cases cls with
    | immediate a => cases hsuper
    | object n =>
      obtain ⟨c, hclass, hc⟩ := hm.methodClass? (howns.owned hmem) hmethod rfl
      obtain ⟨r, hr, hshows⟩ := (Reads.field hc Class.superclassField).ok hm hsuper
      refine ⟨r, hshows, (hexecutes.step_eq hi).2.2.trans (sendNamed_super hclass fun selector => ?_)⟩
      exact Action.bind_of_ok (Action.read_of_ok hr)
  nil {bytes index argCount} hmethod hexecutes hi hnil := by
    rw [howns.kernel.coreNil] at hnil
    obtain ⟨c, hclass, hc⟩ := hm.methodClass? (howns.owned hmem) hmethod hnil
    have hfields : g.fixedFields cls = some 0 := by
      rw [hnil]
      exact congrArg some howns.nilFields
    obtain ⟨_, hcount, rfl⟩ := (Reads.fixedFields hc).ok hm hfields
    refine (hexecutes.step_eq hi).2.2.trans (sendNamed_super hclass fun selector => ?_)
    exact Action.bind_of_stopped (Action.read_of_error (Heap.fetchField_beyond hcount (Nat.zero_le _)))

end Machine

/-! ## What is noted is what is done -/

namespace Simulates

variable {p : Placement}

/-- What is noted does not change what is done. -/
theorem traceAll (operations : List Operation) (owners : List (Value × Value)) :
    Simulates p p.Steady (Operation.performAll operations)
      (Spec.traceAll operations owners >>= fun _ => Pure.pure ()) := by
  induction operations generalizing p owners with
  | nil =>
    show Simulates p p.Steady _ (Pure.pure owners >>= fun _ => Pure.pure ())
    rw [Spec.pure_bind]
    exact pure trivial (.refl p)
  | cons operation rest ih =>
    simp only [Spec.traceAll, Spec.trace, Spec.bind_assoc]
    refine looked fun g => (perform operation).bind_steady fun p' _ _ _ _ => guarded (looked fun owners' => ?_)
    exact ih owners'

end Simulates

namespace Machine

open ObjectMachine.Graph

variable {m m' : Machine} {config : MachineConfig} {operations : List Operation}

/-- Whatever is done with a fresh machine that keeps its memory well-formed and writes neither into the
methods that were built with sends to super nor into what they have their class from, a send to super that is
next in such a method begins its lookup at the superclass of the class that the method was built for, whoever
the receiver is; and if the method was built for nil, which is not told from a class, the machine stops where
it asks for the superclass. -/
theorem superSends_begin_above (hok : ofConfig config = .ok m) (hbytes : config.heap.maxBytes < countLimit)
    (hkeeps : ¬ Spec.traceFromStart operations (m.graph [] .null) .wrong)
    (hrun : operate operations m = .ok () m') :
    ∃ owners g p starts, Spec.traceFromStart operations (m.graph [] .null) (.ok owners g) ∧
      m'.Realizes g p starts ∧ ∀ method cls, (method, cls) ∈ owners → m'.SendsAbove g p method cls := by
  have hsimulates : ∀ p : Placement, Simulates p p.Steady (operate operations)
      (Spec.traceFromStart operations >>= fun _ => Pure.pure ()) := by
    intro p
    unfold Spec.traceFromStart operate
    simp only [Spec.bind_assoc]
    exact Simulates.bootstrap.bind_steady fun _ _ _ _ _ => .traceAll operations []
  obtain ⟨owners, g, p, starts, hout, hm'⟩ := exists_noted hok hbytes hsimulates hkeeps hrun
  refine ⟨owners, g, p, starts, hout, hm', fun method cls hmem => hm'.sendsAbove ?_ hmem⟩
  obtain ⟨r, hboot, htraced⟩ := hout
  cases r with
  | ok _ g₁ =>
    obtain ⟨w, hbooted⟩ := Spec.Ends.bootstrap (E := fun _ _ => True) (S := fun _ => True)
      (unborn_ofConfig hok) trivial _ hboot
    have hdescribes := hbooted.describes
    exact Graph.Owns.traceAll ⟨hdescribes.settled.kernel, hdescribes.nil.2,
      fun hmem => absurd hmem List.not_mem_nil⟩ _ rfl _ htraced
  | _ => cases htraced

/-- A method with a send to super is built, and memory is collected. -/
def buildSuper : List Operation :=
  [.build ((Assembler.ofArgCount 0).addAll [.constant .self, .superSend "foo" 0, .methodReturn .top])
    (.kernel .object), .collect]

theorem buildSuper_keepsOwners (hok : ofConfig config = .ok m) :
    ¬ Spec.traceFromStart buildSuper (m.graph [] .null) .wrong := by
  intro hwrong
  have hends : (Spec.traceFromStart buildSuper).Ends (m.graph [] .null) (fun _ _ => True)
      (fun _ _ => True) fun _ => True := by
    refine Spec.Ends.bind (Spec.Ends.bootstrap (unborn_ofConfig hok) trivial) ?_
    rintro _ g ⟨w, hbooted⟩
    simp only [buildSuper, Spec.traceAll, Spec.trace, Spec.bind_assoc]
    refine .ask (.bind (R := fun _ g' => g'.Settled) ?_ fun _ g₁ hsettled =>
      .guard (fun hmem => absurd hmem List.not_mem_nil) (.ask (.ask (.bind (R := fun _ g' =>
        g' = { g₁ with pool := ⟨[], []⟩ }) ?_ fun _ g₂ hg₂ => .guard ?_ (.ask (.pure trivial))))))
    · refine .bind (.attempt (.read rfl (.bind (.build hbooted.describes trivial _ (fun _ _ => trivial) _)
        fun v g₁ hbuilt => .pure (R := fun _ g' => g'.Settled) ?_))) ?_
      · obtain ⟨draft, -, hleads, -⟩ := hbuilt
        exact hleads.describes.settled
      · rintro (failure | _ | v) g₁ hknown
        · exact .pure (hknown.1 ▸ hbooted.describes.settled)
        · exact .pure hknown
        · rintro _ rfl
          exact hknown.withPinned _
    · exact ends_perform (.bind (.collectGarbage hsettled.idle hsettled.kernel.rooted) fun _ _ h =>
        .pure ⟨rfl, h⟩)
    · rw [hg₂]
      exact fun _ => ⟨rfl, fun _ _ => rfl⟩
  exact hends _ hwrong

theorem buildSuper_begins_above : ∃ m, ofConfig {} = .ok m ∧ ({} : HeapConfig).maxBytes < countLimit ∧
    ¬ Spec.traceFromStart buildSuper (m.graph [] .null) .wrong ∧
    ∀ m', operate buildSuper m = .ok () m' → ∃ owners g p starts,
      Spec.traceFromStart buildSuper (m.graph [] .null) (.ok owners g) ∧ m'.Realizes g p starts ∧
        ∀ method cls, (method, cls) ∈ owners → m'.SendsAbove g p method cls := by
  obtain ⟨m, hok⟩ : ∃ m, ofConfig {} = .ok m := ⟨_, rfl⟩
  have hkeeps := buildSuper_keepsOwners hok
  exact ⟨m, hok, by decide, hkeeps, fun m' hrun => superSends_begin_above hok (by decide) hkeeps hrun⟩

end Machine

end ObjectMachine
