import ObjectMachine.Proofs.Graph.Calling
import ObjectMachine.Proofs.Graph.Shortcuts
import ObjectMachine.Proofs.Machine.Making
import ObjectMachine.Proofs.Number.Exactness

/-!
# Operations at work

Messages from integers to integers: what they are answered with, and the layers that may answer them. The
shortcuts of special sends and the primitives for small integers answer only small integers, the
primitives for integers answer all others.

## Main results

* `Spec.Finishes.takeShortcut`, `Spec.Finishes.result_small`, `Spec.Finishes.result_integer`: a shortcut,
  a primitive for small integers and a primitive for integers answer so.
-/

namespace ObjectMachine

namespace Operator

/-- The primitive for small integers. -/
def small : Operator → Primitive
  | .arithmetic op => .small op
  | .comparison op => .smallCompare op

/-- The primitive for integers of any size. -/
def integer : Operator → Primitive
  | .arithmetic op => .integer op
  | .comparison op => .integerCompare op

/-- The shortcut of a special send. -/
def shortcut : Operator → Shortcut
  | .arithmetic op => .arithmetic op
  | .comparison op => .comparison op

end Operator

namespace Graph

variable {g g' : Graph} {v : Value} {value : Int} {held : List Nat} {reply : Reply}

/-- A value is what a message is answered with. -/
def IsReply (g : Graph) (v : Value) : Reply → Prop
  | .integer value => g.IsInteger v value
  | .truth value => v = g.core.boolean value

theorem IsReply.works (hv : g.IsReply v reply) (h : Works held g g') : g'.IsReply v reply := by
  cases reply with
  | integer value => exact h.isInteger hv
  | truth value => exact Eq.trans hv (congrArg (Core.boolean · value) h.core.symm)

/-! ## Integers -/

namespace IsInteger

theorem of_isSmall (hsmall : Ref.isSmall value = true) : g.IsInteger (.immediate (.ofInt value)) value := by
  unfold IsInteger
  rw [Ref.ofInt?_of_isSmall hsmall]

theorem eq_immediate (hv : g.IsInteger v value) (hsmall : Ref.isSmall value = true) :
    v = .immediate (.ofInt value) := by
  unfold IsInteger at hv
  rwa [Ref.ofInt?_of_isSmall hsmall] at hv

theorem exists_object (hv : g.IsInteger v value) (hlarge : Ref.isSmall value = false) :
    ∃ n, v = .object n ∧ n < g.next ∧ (g.nodes n).format = .largeInteger ∧
      (g.nodes n).cls = g.core.cls .largeInteger ∧ (g.nodes n).large? = some value := by
  unfold IsInteger at hv
  rwa [Ref.ofInt?_of_not hlarge] at hv

theorem small?_of_isSmall (hsmall : Ref.isSmall value = true) :
    (Value.immediate (.ofInt value)).small? = some value :=
  (if_pos (Ref.isSmallInteger_ofPayload _)).trans (congrArg some (Ref.toInt_ofInt hsmall))

theorem small?_eq (hv : g.IsInteger v value) :
    v.small? = if Ref.isSmall value = true then some value else none := by
  split
  · rename_i hsmall
    rw [hv.eq_immediate hsmall, small?_of_isSmall hsmall]
  · rename_i hlarge
    obtain ⟨n, rfl, -⟩ := hv.exists_object (Bool.eq_false_iff.mpr hlarge)
    rfl

theorem integerValue? (hv : g.IsInteger v value) : g.integerValue? v = some (some value) := by
  unfold Graph.integerValue?
  rw [hv.small?_eq]
  cases hsmall : Ref.isSmall value with
  | true => rfl
  | false =>
    obtain ⟨n, rfl, -, hformat, hcls, hlarge⟩ := hv.exists_object hsmall
    have hnode : g.nodeOf (.object n) .largeInteger = some (g.nodes n) := by
      unfold Graph.nodeOf
      rw [node?_object]
      exact if_pos hformat
    refine (if_pos (decide_eq_true hcls)).trans ?_
    unfold Graph.largeInteger
    rw [hnode]
    exact congrArg some hlarge

theorem numeral? (hv : g.IsInteger v value) : g.numeral? v = some (some (.integer value)) := by
  unfold Graph.numeral?
  rw [hv.integerValue?]
  rfl

end IsInteger

end Graph

/-! ## Layers -/

/-- The value that a message is answered with if no large integer is involved. -/
def Operator.smallValue? (o : Operator) (core : Graph.Core) (a b : Int) : Option Value :=
  match o with
  | .arithmetic op => (Machine.smallResult? op a b).map .immediate
  | .comparison op => some (core.boolean (op.onIntegers a b))

theorem Graph.rel_smallValue? (g : Graph) (o : Operator) {a b : Int}
    (hsmall : Ref.isSmall a = true ∧ Ref.isSmall b = true) :
    Option.Rel g.IsReply (o.smallValue? g.core a b) (o.smallReply? a b) := by
  unfold Operator.smallReply?
  rw [if_pos hsmall]
  cases o with
  | arithmetic op =>
    show Option.Rel _ (((op.onSmall a b).bind Ref.ofInt?).map Value.immediate)
      (((op.onSmall a b).filter Ref.isSmall).map Reply.integer)
    cases op.onSmall a b with
    | none => exact .none
    | some value =>
      cases hvalue : Ref.isSmall value with
      | true =>
        simp only [Option.bind_some, Ref.ofInt?_of_isSmall hvalue, Option.map_some, Option.filter_some, hvalue,
          if_true]
        exact .some (IsInteger.of_isSmall hvalue)
      | false =>
        simp only [Option.bind_some, Ref.ofInt?_of_not hvalue, Option.map_none, Option.filter_some, hvalue,
          Bool.false_eq_true, if_false]
        exact .none
  | comparison op => exact .some rfl

namespace Spec.Finishes

open ObjectMachine.Graph

variable {α : Type} {g : Graph} {w : World} {held : List Nat} {c pc : Nat} {j : Job} {below : List Value}
  {receiver argument : Value} {a b : Int} {Q : α → Graph → Prop} {E : Failure → Graph → Prop}
  {S : Fatal → Prop}

section Operands

variable (hr : w.Runs g held c j pc (below ++ [receiver, argument]))
include hr

theorem peekReceiver {f : Value → Spec α} (hf : (f receiver).Finishes g Q E S) :
    (Spec.peek 1 >>= f).Finishes g Q E S :=
  peek hr rfl hf

theorem peekArgument {f : Value → Spec α} (hf : (f argument).Finishes g Q E S) :
    (Spec.peek 0 >>= f).Finishes g Q E S := by
  rw [List.append_cons] at hr
  exact peek hr rfl hf

variable (ha : g.IsInteger receiver a) (hb : g.IsInteger argument b)
include ha hb

theorem smallOperands? {f : Option (Int × Int) → Spec α}
    (hf : (f (if Ref.isSmall a = true ∧ Ref.isSmall b = true then some (a, b) else none)).Finishes g Q E S) :
    (Spec.smallOperands? >>= f).Finishes g Q E S := by
  unfold Spec.smallOperands?
  rw [Spec.bind_assoc]
  refine peekReceiver hr ?_
  rw [Spec.bind_assoc]
  refine peekArgument hr ?_
  rw [ha.small?_eq, hb.small?_eq]
  cases hsmall : Ref.isSmall a <;> cases hsmall' : Ref.isSmall b <;> rw [hsmall, hsmall'] at hf <;>
    exact of_eq (congrFun (Spec.pure_bind ..) g) hf

theorem integerOperands? {f : Option (Int × Machine.Numeral) → Spec α}
    (hf : (f (some (a, .integer b))).Finishes g Q E S) :
    (Spec.integerOperands? >>= f).Finishes g Q E S := by
  unfold Spec.integerOperands?
  rw [Spec.bind_assoc]
  refine peekReceiver hr ?_
  rw [Spec.bind_assoc]
  refine read ha.integerValue? ?_
  dsimp only
  rw [Spec.bind_assoc]
  refine peekArgument hr ?_
  rw [Spec.bind_assoc]
  refine read hb.numeral? ?_
  rw [Spec.pure_bind]
  exact hf

/-- A shortcut is taken if it answers without large integers. -/
theorem takeShortcut (o : Operator) :
    (Spec.takeShortcut o.shortcut).Finishes g (fun taken g' =>
      (taken = false ∧ o.smallReply? a b = none ∧ g' = g) ∨
      (taken = true ∧ ∃ v reply, o.smallReply? a b = some reply ∧ g'.IsReply v reply ∧
        w.Runs g' held c j pc (below ++ [v]) ∧ Works held g g')) E S := by
  have hshortcut : ∀ f : Core → Int → Int → Option Value, (∀ core, f core a b = o.smallValue? core a b) →
      (Spec.smallShortcut f).Finishes g (fun taken g' =>
        (taken = false ∧ o.smallReply? a b = none ∧ g' = g) ∨
        (taken = true ∧ ∃ v reply, o.smallReply? a b = some reply ∧ g'.IsReply v reply ∧
          w.Runs g' held c j pc (below ++ [v]) ∧ Works held g g')) E S := by
    intro f hf
    refine smallOperands? hr ha hb ?_
    by_cases hsmall : Ref.isSmall a = true ∧ Ref.isSmall b = true
    · rw [if_pos hsmall]
      refine ask ?_
      rw [hf]
      have hrel := g.rel_smallValue? o hsmall
      generalize o.smallValue? g.core a b = found, o.smallReply? a b = reply? at hrel ⊢
      cases hrel with
      | none => exact pure (.inl ⟨rfl, rfl, rfl⟩)
      | some hv =>
        exact replaceTop hr rfl (by decide) fun g' hr' h =>
          pure (.inr ⟨rfl, _, _, rfl, hv.works h, hr', h⟩)
    · rw [if_neg hsmall]
      exact pure (.inl ⟨rfl, o.smallReply?_eq_none hsmall, rfl⟩)
  cases o with
  | arithmetic op => exact hshortcut _ fun _ => rfl
  | comparison op => exact hshortcut _ fun _ => rfl

/-- A primitive for small integers answers without large integers or fails. -/
theorem result_small (o : Operator) :
    (Spec.result o.small).Finishes g (fun found g' => w.Runs g' held c j pc (below ++ [receiver, argument]) ∧
      Idles held g g' ∧ Option.Rel g'.IsReply found (o.smallReply? a b)) E S := by
  have hrefl := Idles.refl held g
  cases o with
  | arithmetic op =>
    refine smallOperands? hr ha hb (pure ⟨hr, hrefl, ?_⟩)
    by_cases hsmall : Ref.isSmall a = true ∧ Ref.isSmall b = true
    · rw [if_pos hsmall]
      exact g.rel_smallValue? (.arithmetic op) hsmall
    · rw [if_neg hsmall, Operator.smallReply?_eq_none _ hsmall]
      exact .none
  | comparison op =>
    refine smallOperands? hr ha hb ?_
    by_cases hsmall : Ref.isSmall a = true ∧ Ref.isSmall b = true
    · rw [if_pos hsmall]
      exact ask (pure ⟨hr, hrefl, g.rel_smallValue? (.comparison op) hsmall⟩)
    · rw [if_neg hsmall]
      refine pure ⟨hr, hrefl, ?_⟩
      rw [Operator.smallReply?_eq_none _ hsmall]
      exact .none

/-- A primitive for integers answers whatever there is to answer. -/
theorem result_integer (o : Operator) (hS : S (.fault .overflow)) :
    (Spec.result o.integer).Finishes g (fun found g' =>
      w.Runs g' held c j pc (below ++ [receiver, argument]) ∧ Idles held g g' ∧
        Option.Rel g'.IsReply found (o.reply? a b)) E S := by
  have hrefl := Idles.refl held g
  cases o with
  | arithmetic op =>
    refine integerOperands? hr ha hb ?_
    show (Spec.number? ((op.onIntegers a b).map .integer)).Finishes g _ E S
    cases hvalue : op.onIntegers a b with
    | none =>
      refine pure ⟨hr, hrefl, ?_⟩
      simp [Operator.reply?, hvalue]
    | some value =>
      refine bind (newInteger (World.Runs.endures w held c j pc _) hr hS) ?_
      rintro v g' ⟨hr', h, hv⟩
      refine pure ⟨hr', h, ?_⟩
      rw [Operator.reply?, hvalue]
      exact .some hv
  | comparison op =>
    exact integerOperands? hr ha hb (ask (pure ⟨hr, hrefl, .some rfl⟩))

end Operands

end Spec.Finishes

end ObjectMachine
