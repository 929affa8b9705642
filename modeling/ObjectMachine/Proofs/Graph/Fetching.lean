import ObjectMachine.Proofs.Graph.Edits
import ObjectMachine.Proofs.Instruction.Codec

/-!
# The next instruction

Which instruction is executed next depends on the bytes of the running method and on the position alone.
A step whose instruction is known is the effect of the instruction, behind it.

## Main results

* `Spec.step_next`: a step, by the instruction that is next.
-/

namespace ObjectMachine

namespace Graph

variable (g : Graph)

/-- The bytes of the running method. -/
def codeBytes : Option (List UInt8) := do
  let _ ← g.active?
  g.bytes g.registers.code

/-- The instruction that is executed next. -/
def next? : Option Instruction := do Instruction.decode? (← g.codeBytes) g.registers.pc

variable {g} {bytes rest : List UInt8} {b : UInt8} {pc : Nat}

theorem codeLength_eq (h : g.codeBytes = some bytes) : g.codeLength = some bytes.length := by
  obtain ⟨c, hc, hbytes⟩ := Option.bind_eq_some_iff.mp h
  obtain ⟨o, ho, heq⟩ := Option.bind_eq_some_iff.mp hbytes
  cases heq
  unfold codeLength
  rw [hc]
  simp [ho]

theorem codeByte_eq (h : g.codeBytes = some bytes) (hrest : bytes.drop pc = b :: rest) :
    g.codeByte pc = some b := by
  have hlen := codeLength_eq h
  obtain ⟨c, hc, hbytes⟩ := Option.bind_eq_some_iff.mp h
  obtain ⟨o, ho, heq⟩ := Option.bind_eq_some_iff.mp hbytes
  cases heq
  have hget : ((List.range o.len).map o.byte)[pc]? = some b := by
    rw [← List.head?_drop, hrest]
    rfl
  obtain ⟨hlt, hb⟩ := List.getElem?_eq_some_iff.mp hget
  rw [List.length_map, List.length_range] at hlt
  rw [List.getElem_map, List.getElem_range] at hb
  unfold codeByte byte
  rw [hlen]
  simp [ho, hlt, hb]

@[simp] theorem codeBytes_withPc (pc : Nat) : (g.withPc pc).codeBytes = g.codeBytes := rfl

@[simp] theorem withPc_withPc (pc pc' : Nat) : (g.withPc pc).withPc pc' = g.withPc pc' := rfl

end Graph

namespace Spec

variable {β : Type} {g : Graph} {bytes rest : List UInt8} {b : UInt8} {i : Instruction}

/-! ## Fetching -/

theorem fetchByte_bind (h : g.codeBytes = some bytes) (hrest : bytes.drop g.registers.pc = b :: rest)
    (f : UInt8 → Spec β) : (Spec.fetchByte >>= f) g = f b (g.withPc (g.registers.pc + 1)) := by
  have hlt : g.registers.pc < bytes.length := by
    have hlength := congrArg List.length hrest
    rw [List.length_drop, List.length_cons] at hlength
    omega
  refine bind_of_ok ?_
  unfold Spec.fetchByte
  rw [read_bind (Graph.codeLength_eq h)]
  show (Spec.ask _ >>= _) g = _
  rw [ask_bind, if_pos hlt, read_bind (Graph.codeByte_eq h hrest), modify_bind]
  rfl

/-- Operands are read that are decoded at the same position. -/
theorem fetchOperands_bind {o : Opcode} (h : g.codeBytes = some bytes)
    (hi : Instruction.ofOperands? o (bytes.drop g.registers.pc) = some i) (f : Instruction → Spec β) :
    (Spec.fetchOperands o >>= f) g = f i (g.withPc (g.registers.pc + o.operandBytes)) := by
  have hnone : ∀ i : Instruction, (Pure.pure i >>= f : Spec β) g = f i (g.withPc g.registers.pc) :=
    fun i => congrFun (Spec.pure_bind i f) g
  have hone : ∀ {b rest} (k : UInt8 → Instruction), bytes.drop g.registers.pc = b :: rest →
      ((Spec.fetchByte >>= fun b => Pure.pure (k b)) >>= f) g =
        f (k b) (g.withPc (g.registers.pc + 1)) := by
    intro b rest k hrest
    rw [Spec.bind_assoc, fetchByte_bind h hrest, Spec.pure_bind]
  have htwo : ∀ {b c rest} (k : UInt8 → UInt8 → Instruction),
      bytes.drop g.registers.pc = b :: c :: rest →
      ((Spec.fetchByte >>= fun b => Spec.fetchByte >>= fun c => Pure.pure (k b c)) >>= f) g =
        f (k b c) (g.withPc (g.registers.pc + 2)) := by
    intro b c rest k hrest
    have hmore : bytes.drop (g.registers.pc + 1) = c :: rest := by
      rw [← List.drop_drop, hrest]
      rfl
    rw [Spec.bind_assoc, fetchByte_bind h hrest, Spec.bind_assoc,
      fetchByte_bind (g := g.withPc (g.registers.pc + 1)) h hmore, Spec.pure_bind]
    rfl
  generalize hdrop : bytes.drop g.registers.pc = rest at hi
  cases o with
  | constant | thisContext | dup | pop | methodReturn | blockReturn | special =>
    cases hi
    exact hnone _
  | longJump | send | superSend =>
    rcases rest with _ | ⟨b, _ | ⟨c, rest⟩⟩ <;> cases hi
    exact htwo _ hdrop
  | _ =>
    rcases rest with _ | ⟨b, rest⟩ <;> cases hi
    exact hone _ hdrop

/-- A step has the effect of the next instruction. -/
theorem step_next (h : g.next? = some i) :
    Spec.step g = Spec.effect i (g.withPc (g.registers.pc + i.width)) := by
  obtain ⟨bytes, hbytes, hi⟩ := Option.bind_eq_some_iff.mp h
  unfold Instruction.decode? at hi
  cases hdrop : bytes.drop g.registers.pc with
  | nil =>
    rw [hdrop] at hi
    cases hi
  | cons b rest =>
    rw [hdrop] at hi
    obtain ⟨o, ho, hi⟩ := Option.bind_eq_some_iff.mp hi
    have hrest : bytes.drop (g.registers.pc + 1) = rest := by
      rw [← List.drop_drop, hdrop]
      rfl
    have hwidth : i.width = o.operandBytes + 1 := by
      rw [Instruction.width, (Instruction.ofOperands?_eq_some hi).1]
      rfl
    unfold Spec.step
    rw [fetchByte_bind hbytes hdrop, ho]
    show (Spec.fetchOperands o >>= Spec.effect) _ = _
    rw [fetchOperands_bind (g := g.withPc (g.registers.pc + 1)) hbytes
      (by rw [← hrest] at hi; exact hi), hwidth, Nat.add_comm o.operandBytes 1, ← Nat.add_assoc]
    rfl

end Spec

end ObjectMachine
