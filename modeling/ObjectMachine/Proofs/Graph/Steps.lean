import ObjectMachine.Proofs.Execution.Decoding
import ObjectMachine.Proofs.Graph.Returns
import ObjectMachine.Proofs.Graph.Shortcuts

/-!
# Instructions

One instruction as a computation on graphs. The bytes of the running method are those of an object of
the graph, so fetching depends on the position alone and not on where the method is.

## Main results

* `Simulates.effect`: the instructions.
* `Simulates.step`: an instruction that is fetched and done.
-/

namespace ObjectMachine

instance : Depicted Instruction Instruction := ⟨fun _ a b => a = b⟩

/-! ## What is read -/

namespace Graph

variable (g : Graph)

/-- The number of bytes of the running method. -/
def codeLength : Option Nat := do
  let _ ← g.active?
  let o ← g.nodeOf g.registers.code .byteArray
  return o.len

/-- A byte of the running method. -/
def codeByte (position : Nat) : Option UInt8 := do
  let _ ← g.codeLength
  g.byte g.registers.code position

/-- The number of temporaries of the activation. -/
def tempLimit : Option Nat := do
  let _ ← g.active?
  return g.registers.tempLimit

/-- A temporary of the activation. -/
def temporary (index : Nat) : Option Value := do
  let _ ← g.active?
  g.element g.registers.home index

/-- Gives a temporary of the activation a value. -/
def storeTemporary (index : Nat) (v : Value) : Option Graph := do
  let _ ← g.active?
  g.storeElement g.registers.home index v

/-- Whether a value is an object with as many fields as an association. -/
def hasAssociationShape (v : Value) : Bool :=
  match g.node? v with
  | some o => o.fields == Association.fieldCount
  | none => false

/-- The class that a method was made for. -/
def methodClass? (method : Value) : Option (Option Value) := do
  let count ← g.literalCount method
  if count = 0 then some none
  else do
    let last ← g.literal method (count - 1)
    if g.hasAssociationShape last then do
      let cls ← g.field last Association.valueField
      return if cls.isObject then some cls else none
    else some none

/-- The width of the jump at the position of the next byte, if there is one that is always taken. -/
def jumpWidth? : Option (Option Nat) := do
  let len ← g.codeLength
  if g.registers.pc < len then do
    match Opcode.ofByte? (← g.codeByte g.registers.pc) with
    | some (.jump .always) => some (some (Opcode.width (.jump .always)))
    | some (.longJump .always) => some (some (Opcode.width (.longJump .always)))
    | _ => some none
  else some none

/-- The value of a constant. -/
def constantValue : Constant → Value
  | .self => g.registers.receiver
  | .nil => g.core.nil
  | .true => g.core.trueObject
  | .false => g.core.falseObject
  | .minusOne => .immediate (.ofInt (-1))
  | .zero => .immediate .zero
  | .one => .immediate (.ofNat 1)
  | .two => .immediate (.ofNat 2)

/-- Fills in a block context that no evaluation goes on in. -/
def initTemplate (block : Value) (initialPc : Nat) (home : Value) (argCount : Nat) : Option Graph :=
  g.fill block [g.nil, .immediate (.ofNat initialPc), .immediate (.ofNat 0),
    .immediate (.ofNat argCount), .immediate (.ofNat initialPc), home] []

end Graph

/-! ## The computations -/

namespace Spec

/-- The next byte of the method. -/
def fetchByte : Spec UInt8 := do
  let len ← read Graph.codeLength
  let s ← getRegisters
  if s.pc < len then
    let b ← read (·.codeByte s.pc)
    modify fun g => g.withPc (g.registers.pc + 1)
    return b
  else fail fun failure => ∃ method, failure = .execution (.pcPastEnd s.pc len method)

/-- Reads the operands of an instruction whose opcode has been read. -/
def fetchOperands : Opcode → Spec Instruction
  | .push place => return .push place (← fetchByte)
  | .pushLiteral => return .pushLiteral (← fetchByte)
  | .store place => return .store place (← fetchByte)
  | .popInto place => return .popInto place (← fetchByte)
  | .constant value => return .constant value
  | .thisContext => return .thisContext
  | .dup => return .dup
  | .pop => return .pop
  | .methodReturn answer => return .methodReturn answer
  | .blockReturn => return .blockReturn
  | .jump b => return .jump b (← fetchByte).toInt8
  | .longJump b => do
    let high ← fetchByte
    let low ← fetchByte
    return .longJump b (Instruction.longOffset high low)
  | .send => do
    let index ← fetchByte
    return .send index (← fetchByte)
  | .superSend => do
    let index ← fetchByte
    return .superSend index (← fetchByte)
  | .createBlock => return .createBlock (← fetchByte)
  | .special index => return .special index

/-- A literal of the method. -/
def literalAt (index : Nat) : Spec Value := do
  let s ← getRegisters
  if index < (← read (·.length s.literals)) then read (·.element s.literals index)
  else fail fun failure => ∃ method, failure = .execution (.literalOutOfRange index method)

/-- A literal of the method that has to be an association. -/
def associationAt (index : Nat) : Spec Value := do
  let literal ← literalAt index
  if ← ask (·.hasAssociationShape literal) then return literal
  else fail fun failure => ∃ method, failure = .execution (.notAnAssociation index method)

/-- Goes on only if there is a temporary with an index. -/
def checkTemporary (index : Nat) : Spec Unit := do
  if index < (← read Graph.tempLimit) then return ()
  else fail fun failure => ∃ method, failure = .execution (.temporaryOutOfRange index method)

/-- The receiver, which has to have a field with an index. -/
def receiverWithField (index : Nat) : Spec Value := do
  let s ← getRegisters
  if ← ask (·.hasField s.receiver index) then return s.receiver
  else fail fun failure => ∃ receiver, failure = .execution (.noField receiver index)

/-- The value of a variable. -/
def variableValue (place : Variable) (index : Nat) : Spec Value := do
  match place with
  | .receiver =>
    let receiver ← receiverWithField index
    read (·.field receiver index)
  | .temporary =>
    checkTemporary index
    read (·.temporary index)
  | .literal =>
    let association ← associationAt index
    read (·.field association Association.valueField)

/-- Gives a variable a value. -/
def setVariable (place : Variable) (index : Nat) (v : Value) : Spec Unit := do
  match place with
  | .receiver =>
    let receiver ← receiverWithField index
    write (·.storeField receiver index v)
  | .temporary =>
    checkTemporary index
    write (·.storeTemporary index v)
  | .literal =>
    let association ← associationAt index
    write (·.storeField association Association.valueField v)

/-- Jumps by an offset, inside the method or to its end. -/
def jumpBy (offset : Int) : Spec Unit := do
  let len ← read Graph.codeLength
  let s ← getRegisters
  let target := (s.pc : Int) + offset
  if 0 ≤ target ∧ target ≤ len then modify (·.withPc target.toNat)
  else fail (· = .execution (.jumpLeavesMethod s.pc offset))

/-- Jumps if the top of the stack is the one truth value and goes on if it is the other. -/
noncomputable def branch (condition : Bool) (offset : Int) : Spec (Option Value) := do
  let v ← pop
  let core ← getCore
  if v = core.boolean condition then
    jumpBy offset
    return none
  else if v = core.boolean (!condition) then return none
  else
    push v
    send core.mustBeBoolean 0

/-- Jumps by an offset as a branch says. -/
noncomputable def jumpAs : Branch → Int → Spec (Option Value)
  | .always, offset => do
    jumpBy offset
    return none
  | .ifTrue, offset => branch true offset
  | .ifFalse, offset => branch false offset

/-- Sends the selector in a literal with a number of arguments. -/
noncomputable def sendNamed (toSuper : Bool) (index argCount : Nat) : Spec (Option Value) := do
  let selector ← literalAt index
  if !toSuper then send selector argCount
  else
    let method := (← getRegisters).method
    match ← read (·.methodClass? method) with
    | some cls => sendToClass selector (← read (·.field cls Class.superclassField)) argCount
    | none =>
      let selector ← read (·.describe selector)
      fail (· = .execution (.superWithoutClass selector))

/-- Makes a block with a number of arguments of the instructions behind the jump that follows. -/
def makeBlock (argCount : Nat) : Spec Unit := do
  match ← read Graph.jumpWidth? with
  | none =>
    let s ← getRegisters
    fail (· = .execution (.blockWithoutJump (s.pc - 2)))
  | some width =>
    let s ← getRegisters
    let header ← read (·.header s.method)
    write (·.setCaptured s.home true)
    let block ← allocate ((← getCore).cls .blockContext) .context contextFields
      (argCount + header.stackDepth)
    let home := (← getRegisters).home
    write (·.initTemplate block (s.pc + width) home argCount)
    push block

/-- Pushes the active context. -/
def pushContext : Spec Unit := do
  flushRegisters
  let context := (← getRegisters).active
  write (·.setCaptured context true)
  push context

/-- The value that a method answers. -/
def answerValue : Answer → Spec Value
  | .top => pop
  | .self => ask (·.constantValue .self)
  | .nil => ask (·.constantValue .nil)
  | .true => ask (·.constantValue .true)
  | .false => ask (·.constantValue .false)

/-- What an instruction does, once all of it has been read. Answers the result of the run if that is
over. -/
noncomputable def effect : Instruction → Spec (Option Value)
  | .push place index => do
    push (← variableValue place index.toNat)
    return none
  | .pushLiteral index => do
    push (← literalAt index.toNat)
    return none
  | .store place index => do
    setVariable place index.toNat (← peek 0)
    return none
  | .popInto place index => do
    setVariable place index.toNat (← pop)
    return none
  | .constant value => do
    push (← ask (·.constantValue value))
    return none
  | .thisContext => do
    pushContext
    return none
  | .dup => do
    push (← peek 0)
    return none
  | .pop => do
    let _ ← pop
    return none
  | .methodReturn answer => do methodReturn (← answerValue answer)
  | .blockReturn => blockReturn
  | .jump b offset => jumpAs b offset.toInt
  | .longJump b offset => jumpAs b offset.toInt
  | .send index argCount => sendNamed false index.toNat argCount.toNat
  | .superSend index argCount => sendNamed true index.toNat argCount.toNat
  | .createBlock argCount => do
    makeBlock argCount.toNat
    return none
  | .special index => sendSpecial index.toNat

/-- Executes one instruction. Answers the result of the run if that is over. -/
noncomputable def step : Spec (Option Value) := do
  let b ← fetchByte
  match Opcode.ofByte? b with
  | some opcode => effect (← fetchOperands opcode)
  | none =>
    let s ← getRegisters
    fail fun failure => ∃ method, failure = .execution (.unknownOpcode b (s.pc - 1) method)

end Spec

/-! ## Reading -/

namespace Reads

variable {p : Placement} {r : Ref} {v : Value}

theorem codeLength : Reads p (fun m => .ok m.registers.codeLength) Graph.codeLength := by
  refine .intro fun m g starts hm len hlen => ?_
  obtain ⟨c, hc, hlen⟩ := Option.bind_eq_some_iff.mp hlen
  obtain ⟨o, ho, hlen⟩ := Option.bind_eq_some_iff.mp hlen
  cases hlen
  obtain ⟨b, l, hcode, -, -, -, hcount⟩ := (hm.positions c (Graph.active?_eq_some.mp hc)).code
  rw [hcode] at ho
  obtain ⟨n, hn, rfl, -⟩ := Graph.of_nodeOf ho
  cases hn
  exact ⟨_, rfl, hcount⟩

/-- The bytes of the running method are at positions in a row. -/
theorem codeByte (position : Nat) :
    Reads p (fun m => m.heap.byteAtOffset (m.registers.codeBase + position)) (·.codeByte position) := by
  refine .intro fun m g starts hm b hb => ?_
  obtain ⟨len, hlen, hb⟩ := Option.bind_eq_some_iff.mp hb
  obtain ⟨c, hc, -⟩ := Option.bind_eq_some_iff.mp hlen
  obtain ⟨n, l, hcode, hplace, hformat, hbase, -⟩ :=
    (hm.positions c (Graph.active?_eq_some.mp hc)).code
  rw [hcode] at hb
  obtain ⟨o, ho, hb⟩ := Option.bind_eq_some_iff.mp hb
  obtain ⟨n', hn, rfl, -⟩ := Graph.of_nodeOf ho
  cases hn
  obtain ⟨hlt, hb⟩ := Option.ite_none_right_eq_some.mp hb
  cases hb
  rw [hbase]
  exact ⟨_, hm.depicts.byteAtOffset hplace hformat (Nat.lt_succ_of_lt hlt), rfl⟩

theorem tempLimit : Reads p (fun m => .ok m.registers.tempLimit) Graph.tempLimit := by
  refine .intro fun m g starts hm limit hlimit => ?_
  obtain ⟨c, hc, hlimit⟩ := Option.bind_eq_some_iff.mp hlimit
  cases hlimit
  obtain ⟨-, -, -, -, -, -, heq, -⟩ := (hm.positions c (Graph.active?_eq_some.mp hc)).home
  exact ⟨_, rfl, heq⟩

/-- The temporaries are at positions in a row. -/
theorem temporary (index : Nat) :
    Reads p (fun m => m.heap.slot (m.registers.tempBase + index)) (·.temporary index) := by
  refine .intro fun m g starts hm b hb => ?_
  obtain ⟨c, hc, hb⟩ := Option.bind_eq_some_iff.mp hb
  obtain ⟨d, j, hhome, hplace, -, hbase, -⟩ := (hm.positions c (Graph.active?_eq_some.mp hc)).home
  rw [hhome] at hb
  obtain ⟨n, hn, htail, hlt, rfl⟩ := Graph.of_element hb
  cases hn
  obtain ⟨r, hr, hshows⟩ := hm.depicts.slot_element hplace htail hlt
  rw [hbase, Nat.add_assoc]
  exact ⟨r, hr, hshows⟩

theorem hasAssociationShape (hr : p.Shows r v) :
    Reads p (fun m => Association.hasShape m.heap r) fun g => some (g.hasAssociationShape v) := by
  refine .intro fun m g starts hm b hb => ?_
  cases hb
  unfold Association.hasShape Graph.hasAssociationShape
  rw [hr.isPointer_eq]
  cases v with
  | immediate => exact ⟨_, rfl, rfl⟩
  | object n =>
    obtain ⟨count, hcount, heq⟩ := (fixedFields hr).ok hm rfl
    obtain rfl : count = (g.nodes n).fields := heq
    rw [if_pos (Value.isObject_object n), hcount]
    exact ⟨_, rfl, rfl⟩

theorem methodClass? (hr : p.Shows r v) :
    Reads p (fun m => Method.methodClass? m.heap r) (·.methodClass? v) := by
  refine (literalCount hr).bind fun count _ heq => ?_
  cases heq
  refine ite Iff.rfl (pure .none) ?_
  refine (literal hr _).bind fun last lastValue hlast => ?_
  refine .intro fun m g starts hm b hb => ?_
  obtain ⟨_, hshape, rfl⟩ := (hasAssociationShape hlast).ok hm rfl
  rw [hshape]
  replace hb : (if g.hasAssociationShape lastValue = true then _ else _) = some b := hb
  split at hb
  · rename_i hyes
    rw [hyes]
    obtain ⟨cls, hcls, hb⟩ := Option.bind_eq_some_iff.mp hb
    obtain ⟨c, hc, hshows⟩ := (field hlast _).ok hm hcls
    cases hb
    show ∃ a, (m.heap.fetchField last Association.valueField >>= fun cls => .ok _) = .ok a ∧ _
    rw [hc]
    refine ⟨_, rfl, ?_⟩
    rw [hshows.isPointer_eq]
    split
    · exact .some hshows
    · exact .none
  · rename_i hno
    rw [Bool.eq_false_iff.mpr hno]
    cases hb
    exact ⟨_, rfl, .none⟩

theorem jumpWidth? : Reads p Machine.jumpWidth? Graph.jumpWidth? := by
  refine .intro fun m g starts hm width hwidth => ?_
  obtain ⟨len, hlen, hwidth⟩ := Option.bind_eq_some_iff.mp hwidth
  obtain ⟨_, hcount, rfl⟩ := codeLength.ok hm hlen
  cases hcount
  show ∃ a, (if m.registers.pc < m.registers.codeLength then _ else _) = Except.ok a ∧ _
  rw [hm.roots.registers.pc]
  split at hwidth
  · obtain ⟨b, hb, hwidth⟩ := Option.bind_eq_some_iff.mp hwidth
    obtain ⟨b', hbyte, heq⟩ := (codeByte g.registers.pc).ok hm hb
    obtain rfl : b' = b := heq
    rw [if_pos ‹_›, hbyte]
    dsimp only [Bind.bind, Except.bind] at hwidth ⊢
    generalize Opcode.ofByte? b' = o at hwidth ⊢
    match o, hwidth with
    | none, hwidth =>
      cases hwidth
      exact ⟨none, rfl, .none⟩
    | some o, hwidth =>
      cases o with
      | jump b => cases b <;> cases hwidth <;> first | exact ⟨_, rfl, .some rfl⟩ | exact ⟨_, rfl, .none⟩
      | longJump b =>
        cases b <;> cases hwidth <;> first | exact ⟨_, rfl, .some rfl⟩ | exact ⟨_, rfl, .none⟩
      | _ =>
        cases hwidth
        exact ⟨_, rfl, .none⟩
  · cases hwidth
    rw [if_neg ‹_›]
    exact ⟨_, rfl, .none⟩

end Reads

namespace Writes

variable {p : Placement} {r s : Ref} {v w : Value}

theorem initTemplate (hr : p.Shows r v) (hs : p.Shows s w) (initialPc argCount : Nat) :
    Writes p (fun h => Context.initBlock h r h.nil (.ofNat initialPc) s (.ofNat argCount) 0)
      (·.initTemplate v initialPc w argCount) := by
  intro m g starts hm g' hg'
  obtain ⟨n, rfl, hidle, htail, hfields, hlen, hsp, rfl⟩ := Graph.of_fill hg'
  obtain ⟨i, hi, rfl⟩ := hr
  obtain ⟨hcontext, -⟩ := hsp _ rfl
  have hn := hm.depicts.shows hi
  obtain ⟨hinit, -⟩ := Context.initBlock_eq hm.depicts.laidOut (hm.depicts.placed hi)
    (hn.format.trans hcontext) (by rw [hn.fields]; exact hfields) m.heap.nil (.ofNat initialPc) s
    (.ofNat argCount) 0
  have hall : List.Forall₂ p.Shows
      [m.heap.nil, .ofNat initialPc, .ofNat 0, .ofNat argCount, .ofNat initialPc, s]
      [g.nil, .immediate (.ofNat initialPc), .immediate (.ofNat 0), .immediate (.ofNat argCount),
        .immediate (.ofNat initialPc), w] :=
    .cons hm.nil (.cons (p.shows_ofNat _) (.cons (p.shows_ofNat _) (.cons (p.shows_ofNat _)
      (.cons (p.shows_ofNat _) (.cons hs .nil)))))
  have hfilled := hm.filled hi htail hidle hall hfields .nil hlen hsp
  rw [← hn.elements_eq] at hfilled
  exact ⟨_, hinit, hfilled⟩

end Writes

namespace Simulates

variable {p : Placement} {r s : Ref} {v w : Value}

/-- A failure may report what is in the registers. -/
theorem failWith {α β : Type} [Depicted α β] {K : Placement → Prop}
    {problem : Registers → ExecutionProblem} {P : Failure → Prop}
    (hP : ∀ r, P (.execution (problem r))) :
    Simulates p K (Action.getRegisters >>= fun r => Action.failRun (problem r) : Action α)
      (Spec.fail P : Spec β) := by
  intro m g starts hm _
  exact ⟨g, p, starts, ⟨_, hP _, rfl⟩, .refl p, hm⟩

theorem fetchByte : Simulates p (· = p) Machine.fetchByte Spec.fetchByte := by
  have hparts : Machine.fetchByte = (do
      let len ← Action.inspect fun m => .ok m.registers.codeLength
      let r ← Action.getRegisters
      if r.pc < len then
        let b ← Action.inspect fun m => m.heap.byteAtOffset (m.registers.codeBase + r.pc)
        Action.modifyRegisters fun r => { r with pc := r.pc + 1 }
        return b
      else Action.failRun (.pcPastEnd r.pc len r.method)) := by
    funext m
    show (if m.registers.pc < m.registers.codeLength then _ else _ : Action UInt8) m =
      (if m.registers.pc < m.registers.codeLength then _ else _ : Action UInt8) m
    split <;> rfl
  rw [hparts]
  refine (inspect Reads.codeLength).bind_still fun len _ heq => ?_
  cases heq
  refine bind_registers fun r s hs => ?_
  rw [hs.pc]
  split
  · refine (inspect (Reads.codeByte s.pc)).bind_still fun b _ heq => ?_
    cases heq
    refine (modify fun m g starts hm => ?_).bind_still fun _ _ _ => pure rfl rfl
    exact hm.roots.registers.pc ▸ hm.withPc _
  · exact fail ⟨_, rfl⟩

theorem fetchOperands (o : Opcode) :
    Simulates p (· = p) (Machine.fetchOperands o) (Spec.fetchOperands o) := by
  have hone : ∀ k : UInt8 → Instruction, Simulates p (· = p)
      (Machine.fetchByte >>= fun b => Pure.pure (k b) : Action Instruction)
      (Spec.fetchByte >>= fun b => Pure.pure (k b)) := fun k =>
    fetchByte.bind_still fun b _ heq => pure (congrArg k heq) rfl
  have htwo : ∀ k : UInt8 → UInt8 → Instruction, Simulates p (· = p)
      (Machine.fetchByte >>= fun b => Machine.fetchByte >>= fun c => Pure.pure (k b c) :
        Action Instruction)
      (Spec.fetchByte >>= fun b => Spec.fetchByte >>= fun c => Pure.pure (k b c)) := fun k =>
    fetchByte.bind_still fun b b' heq => by
      obtain rfl : b = b' := heq
      exact hone (k b)
  cases o with
  | longJump b => exact htwo _
  | send | superSend => exact htwo _
  | constant | thisContext | dup | pop | methodReturn | blockReturn | special => exact pure rfl rfl
  | _ => exact hone _

theorem literalAt (index : Nat) :
    Simulates p (· = p) (Machine.literalAt index) (Spec.literalAt index) := by
  refine bind_registers fun r s hs => ?_
  refine (read (Reads.length hs.literals)).bind_still fun len _ heq => ?_
  cases heq
  split
  · exact read (Reads.element hs.literals index)
  · exact fail ⟨_, rfl⟩

theorem associationAt (index : Nat) :
    Simulates p (· = p) (Machine.associationAt index) (Spec.associationAt index) := by
  refine (literalAt index).bind_still fun literal literalValue hl => ?_
  refine (lookAt (Reads.hasAssociationShape hl)).bind_still fun shape _ heq => ?_
  cases heq
  cases shape with
  | true => exact pure hl rfl
  | false => exact failWith fun r => ⟨_, rfl⟩

theorem receiverWithField (index : Nat) :
    Simulates p (· = p) (Machine.receiverWithField index) (Spec.receiverWithField index) := by
  refine bind_registers fun r s hs => ?_
  refine (lookAt (Reads.hasField hs.receiver index)).bind_still fun has _ heq => ?_
  cases heq
  cases has with
  | true => exact pure hs.receiver rfl
  | false => exact fail ⟨_, rfl⟩

/-- Goes on with the position of a temporary, if there is one. -/
theorem temporaryAt {α β : Type} [Depicted α β] (index : Nat) {f : Nat → Action α} {x : Action α}
    {y : Spec β} (hf : ∀ m : Machine, f (m.registers.tempBase + index) m = x m)
    (hx : Simulates p (· = p) x y) :
    Simulates p (· = p) (Machine.temporaryAt index >>= f)
      (Spec.checkTemporary index >>= fun _ => y) := by
  have hparts : Machine.temporaryAt index >>= f = (do
      let limit ← Action.inspect fun m => .ok m.registers.tempLimit
      if index < limit then x
      else do
        let r ← Action.getRegisters
        Action.failRun (.temporaryOutOfRange index r.method)) := by
    funext m
    show ((if index < m.registers.tempLimit then _ else _ : Action Nat) >>= f) m =
      (if index < m.registers.tempLimit then _ else _ : Action α) m
    split
    · exact hf m
    · rfl
  rw [hparts]
  unfold Spec.checkTemporary
  rw [Spec.bind_assoc]
  refine (inspect Reads.tempLimit).bind_still fun limit _ heq => ?_
  cases heq
  split
  · rw [Spec.pure_bind]
    exact hx
  · intro m g starts hm _
    exact ⟨g, p, starts, ⟨_, ⟨_, ⟨_, rfl⟩, rfl⟩, rfl⟩, .refl p, hm⟩

theorem variableValue (place : Variable) (index : Nat) :
    Simulates p (· = p) (Machine.variableValue place index) (Spec.variableValue place index) := by
  cases place with
  | receiver =>
    refine (receiverWithField index).bind_still fun receiver receiverValue hr => ?_
    exact read (Reads.field hr index)
  | temporary =>
    exact temporaryAt index (x := Action.inspect fun m => m.heap.slot (m.registers.tempBase + index))
      (fun _ => rfl) (inspect (Reads.temporary index))
  | literal =>
    refine (associationAt index).bind_still fun association associationValue ha => ?_
    exact read (Reads.field ha _)

theorem setVariable (place : Variable) (index : Nat) (hr : p.Shows r v) :
    Simulates p (· = p) (Machine.setVariable place index r) (Spec.setVariable place index v) := by
  cases place with
  | receiver =>
    refine (receiverWithField index).bind_still fun receiver receiverValue hreceiver => ?_
    exact write (Writes.storeField hreceiver hr)
  | temporary =>
    refine temporaryAt index (x := fun m =>
      Action.write (·.setSlot (m.registers.tempBase + index) r) m) (fun _ => rfl) ?_
    refine change fun m g starts hm g' hg' => ?_
    obtain ⟨c, hc, hg'⟩ := Option.bind_eq_some_iff.mp hg'
    obtain ⟨d, j, hhome, hplace, -, hbase, -⟩ := (hm.positions c (Graph.active?_eq_some.mp hc)).home
    rw [hhome] at hg'
    obtain ⟨n, hn, htail, hlt, -⟩ := Graph.of_storeElement hg'
    cases hn
    obtain ⟨h, hstore, hm'⟩ :=
      Writes.storeElement (p.shows_object hplace) hr m g starts hm g' hg'
    refine ⟨_, Action.write_of_ok ?_, hm'⟩
    have hindex := Reads.elementIndex hm hplace hlt
    rw [hbase, Nat.add_assoc, ← hstore]
    show _ = m.heap.elementIndex (.ofWordIndex j) index >>= fun position => m.heap.setSlot position r
    rw [hindex]
    rfl
  | literal =>
    refine (associationAt index).bind_still fun association associationValue ha => ?_
    exact write (Writes.storeField ha hr)

theorem jumpBy (offset : Int) :
    Simulates p (· = p) (Machine.jumpBy offset) (Spec.jumpBy offset) := by
  have hparts : Machine.jumpBy offset = (do
      let len ← Action.inspect fun m => .ok m.registers.codeLength
      let r ← Action.getRegisters
      if 0 ≤ (r.pc : Int) + offset ∧ (r.pc : Int) + offset ≤ len then
        Action.modifyRegisters fun s => { s with pc := ((r.pc : Int) + offset).toNat }
      else Action.failRun (.jumpLeavesMethod r.pc offset)) := rfl
  rw [hparts]
  refine (inspect Reads.codeLength).bind_still fun len _ heq => ?_
  cases heq
  refine bind_registers fun r s hs => ?_
  rw [hs.pc]
  dsimp only
  split
  · exact modify fun m g starts hm => hm.withPc _
  · exact fail rfl

theorem branch (condition : Bool) (offset : Int) :
    Simulates p p.Steady (Machine.branch condition offset) (Spec.branch condition offset) := by
  refine pop.bind_still fun value w hw => ?_
  refine bind_core fun core c hcore => ?_
  by_cases htaken : value = core.boolean condition
  · rw [if_pos htaken, if_pos ((hw.eq_iff (hcore.boolean _)).mp htaken)]
    exact (jumpBy offset).bind_still fun _ _ _ => pure .none (.refl p)
  · rw [if_neg htaken, if_neg (mt (hw.eq_iff (hcore.boolean _)).mpr htaken)]
    by_cases hother : value = core.boolean (!condition)
    · rw [if_pos hother, if_pos ((hw.eq_iff (hcore.boolean _)).mp hother)]
      exact pure .none (.refl p)
    · rw [if_neg hother, if_neg (mt (hw.eq_iff (hcore.boolean _)).mpr hother)]
      exact (push hw).bind_still fun _ _ _ => send hcore.mustBeBoolean 0

theorem jumpAs (b : Branch) (offset : Int) :
    Simulates p p.Steady (Machine.jumpAs b offset) (Spec.jumpAs b offset) := by
  cases b with
  | always => exact (jumpBy offset).bind_still fun _ _ _ => pure .none (.refl p)
  | ifTrue => exact branch true offset
  | ifFalse => exact branch false offset

theorem sendNamed (toSuper : Bool) (index argCount : Nat) :
    Simulates p p.Steady (Machine.sendNamed toSuper index argCount)
      (Spec.sendNamed toSuper index argCount) := by
  refine (literalAt index).bind_still fun selector selectorValue hselector => ?_
  cases toSuper with
  | false => exact send hselector argCount
  | true =>
    refine bind_registers fun r s hs => ?_
    refine (read (Reads.methodClass? hs.method)).bind_still fun cls clsValue hcls => ?_
    cases hcls with
    | some hcls =>
      refine (read (Reads.field hcls _)).bind_still fun super superValue hsuper => ?_
      exact sendToClass hselector hsuper argCount
    | none =>
      refine (inspect (Reads.describe hselector)).bind_still fun selector _ heq => ?_
      cases heq
      exact fail rfl

theorem makeBlock (argCount : Nat) :
    Simulates p p.Steady (Machine.makeBlock argCount) (Spec.makeBlock argCount) := by
  refine (inspect Reads.jumpWidth?).bind_still fun width _ heq => ?_
  cases eq_of_shows heq
  cases width with
  | none =>
    refine bind_registers fun r s hs => ?_
    rw [hs.pc]
    exact fail rfl
  | some width =>
    refine bind_registers fun r s hs => ?_
    refine (read (Reads.header hs.method)).bind_still fun header _ heq => ?_
    cases heq
    refine (write (Writes.setCaptured hs.home true)).bind_still fun _ _ _ => ?_
    refine bind_core fun core c hcore => ?_
    refine (allocate (hcore.cls .blockContext)).bind_steady fun p' _ block blockValue hblock => ?_
    refine bind_registers fun r' s' hs' => ?_
    rw [hs.pc]
    refine (write (Writes.initTemplate hblock hs'.home _ _)).bind_still fun _ _ _ => ?_
    exact (push hblock).steady

theorem pushContext : Simulates p (· = p) Machine.pushContext Spec.pushContext := by
  refine flushRegisters.bind_still fun _ _ _ => ?_
  refine bind_registers fun r s hs => ?_
  refine (write (Writes.setCaptured hs.active true)).bind_still fun _ _ _ => ?_
  exact push hs.active

/-- A constant that is pushed. -/
theorem constantValue (c : Constant) :
    Simulates p (· = p) (Action.ask (Machine.constantValue c)) (Spec.ask (·.constantValue c)) := by
  refine ask fun m g starts hm => ?_
  have hcore := hm.roots.core
  cases c with
  | self => exact hm.roots.registers.receiver
  | nil => exact hcore.nil
  | true => exact hcore.trueObject
  | false => exact hcore.falseObject
  | minusOne => exact p.shows_ofInt (-1)
  | zero => exact p.shows_small 0
  | one => exact p.shows_ofNat 1
  | two => exact p.shows_ofNat 2

theorem answerValue (answer : Answer) :
    Simulates p (· = p) (Machine.answerValue answer) (Spec.answerValue answer) := by
  cases answer with
  | top => exact pop
  | self => exact constantValue .self
  | nil => exact constantValue .nil
  | true => exact constantValue .true
  | false => exact constantValue .false

/-- An instruction that does not end the run. -/
theorem goOn {x : Action Unit} {y : Spec Unit} (hx : Simulates p p.Steady x y) :
    Simulates p p.Steady (x >>= fun _ => Pure.pure none : Action (Option Ref))
      (y >>= fun _ => Pure.pure none : Spec (Option Value)) :=
  hx.bind_steady fun p' _ _ _ _ => pure .none (.refl p')

theorem effect (i : Instruction) : Simulates p p.Steady i.effect (Spec.effect i) := by
  cases i with
  | push place index =>
    refine (variableValue place _).bind_still fun value w hw => ?_
    exact goOn (push hw).steady
  | pushLiteral index =>
    refine (literalAt _).bind_still fun value w hw => ?_
    exact goOn (push hw).steady
  | store place index =>
    refine (peek 0).bind_still fun value w hw => ?_
    exact goOn (setVariable place _ hw).steady
  | popInto place index =>
    refine pop.bind_still fun value w hw => ?_
    exact goOn (setVariable place _ hw).steady
  | constant value =>
    refine (constantValue value).bind_still fun value w hw => ?_
    exact goOn (push hw).steady
  | thisContext => exact goOn pushContext.steady
  | dup =>
    refine (peek 0).bind_still fun value w hw => ?_
    exact goOn (push hw).steady
  | pop => exact pop.bind_still fun _ _ _ => pure .none (.refl p)
  | methodReturn answer =>
    exact (answerValue answer).bind_still fun value w hw => methodReturn hw
  | blockReturn => exact blockReturn
  | jump b offset => exact jumpAs b _
  | longJump b offset => exact jumpAs b _
  | send index argCount => exact sendNamed false _ _
  | superSend index argCount => exact sendNamed true _ _
  | createBlock argCount => exact goOn (makeBlock _)
  | special index => exact sendSpecial _

theorem step : Simulates p p.Steady Machine.step Spec.step := by
  refine fetchByte.bind_still fun b _ heq => ?_
  cases heq
  cases Opcode.ofByte? b with
  | some opcode =>
    dsimp only
    rw [Machine.perform_eq]
    refine (fetchOperands opcode).bind_still fun i _ heq => ?_
    cases heq
    exact effect i
  | none =>
    refine bind_registers fun r s hs => ?_
    rw [hs.pc]
    exact fail ⟨_, rfl⟩

end Simulates

end ObjectMachine
