import ObjectMachine.Proofs.Execution.Frames

/-!
# Activating methods

A method is activated in a context that holds the message and nothing else: the receiver and the
arguments are those on the stack of the sender, at their new places, and nil is in the other
temporaries. A primitive that fails first changes nothing of this, even if it ran a collection.

## Main results

* `Machine.Stocked.activateNewMethod`: the activation of a method in a context from the pool, or in one
  that is allocated.
* `Machine.Working.invoke_failed`: a primitive that fails may have run a collection and nothing else.
* `Machine.Stocked.executeNewMethod_activates`: the activation of a method that was found.
-/

namespace ObjectMachine

namespace Machine

open ObjectMachine.Action

variable {m n m' : Machine} {starts starts' : List Nat} {c k argCount size : Nat}
  {literals code : Ref} {header : MethodHeader}

/-! ## Activating the method found -/

/-- A machine that goes on with a fresh activation of the method found for the send in progress of
`m`, whose references are now where `f` says. The context of the send is left without the receiver and
the arguments, which are found in the new one. -/
structure Activates (m : Machine) (header : MethodHeader) (f : Ref → Ref) (m' : Machine) : Prop where
  sender : Context.sender m'.heap m'.registers.activeContext = .ok (f m.registers.activeContext)
  pc : m'.registers.pc = 0
  sp : m'.registers.sp = header.tempCount
  home : m'.registers.homeContext = m'.registers.activeContext
  method : m'.registers.method = f m.registers.newMethod
  receiver : ∃ v, m.stackValue m.registers.argCount = .ok v ∧ m'.registers.receiver = f v
  arguments : ∀ k < m.registers.argCount, ∃ v,
    m.stackValue (m.registers.argCount - 1 - k) = .ok v ∧
      m'.heap.fetchElement m'.registers.activeContext k = .ok (f v)
  temporaries : ∀ k, m.registers.argCount ≤ k → k < header.tempCount →
    m'.heap.fetchElement m'.registers.activeContext k = .ok m'.heap.nil
  nil : m'.heap.nil = f m.heap.nil
  captured : m'.heap.isCaptured m'.registers.activeContext = .ok false
  frame : ∃ size, Context.frameSize m'.heap m'.registers.activeContext = .ok size ∧
    header.frameSize ≤ size
  senderPc : Context.pc? m'.heap (f m.registers.activeContext) = .ok (some m.registers.pc)
  senderSp : Context.sp? m'.heap (f m.registers.activeContext) =
    .ok (some (m.registers.sp - (m.registers.argCount + 1)))
  senderStack : ∀ k < m.registers.sp - (m.registers.argCount + 1), ∃ v,
    m.heap.slot (m.registers.stackBase + k) = .ok v ∧
      m'.heap.fetchElement (f m.registers.activeContext) k = .ok (f v)

/-- A value on the stack, counted from its bottom. -/
theorem stackValue_eq {depth : Nat} (hdepth : depth < m.registers.sp) :
    m.stackValue depth = m.heap.slot (m.registers.stackBase + (m.registers.sp - 1 - depth)) := by
  unfold Machine.stackValue
  rw [if_pos (by omega)]
  congr 1
  omega

/-- Nil is taken along by collections. -/
theorem Collections.nil {f : Ref → Ref} (hf : Collections m f n) : n.heap.nil = f m.heap.nil := by
  induction hf with
  | none => rfl
  | after _ _ hstep ih =>
    obtain ⟨c, hheap, hcarries, -⟩ := hstep
    exact (congrArg Heap.nil hheap).trans (hcarries.nil.trans (congrArg _ ih))

theorem peek_of_ok {depth : Nat} {v : Ref} (hv : m.stackValue depth = .ok v) :
    peek depth m = .ok v m := by
  unfold peek Action.inspect
  dsimp only
  rw [hv]

/-- What is on the stack is found at its new place. -/
theorem Frames.stackValue {f : Ref → Ref} {cls : Ref} {depth : Nat}
    (hf : m.Frames cls size f n starts' c m') (hm : m.Working starts)
    (hdepth : depth < m.registers.sp) :
    ∃ v, m.stackValue depth = .ok v ∧ m'.stackValue depth = .ok (f v) := by
  obtain ⟨v, hv, hv'⟩ := hf.collections.operands hm.toActivated
    (show m.registers.sp - 1 - depth < m.registers.sp by omega)
  obtain ⟨starts'', hr⟩ := hf.retains
  have hsp := hf.collections.sp_eq
  obtain ⟨a, ha, hactive, -⟩ := hf.working.context
  have hac : a ≠ c := by
    rintro rfl
    exact hf.apart hactive
  obtain ⟨hin, hbase, -⟩ := hf.working.slot_operand ha hactive
    (Nat.lt_of_lt_of_le (show m.registers.sp - 1 - depth < n.registers.sp by omega) hf.working.sp_le)
  refine ⟨v, (stackValue_eq hdepth).trans hv, ?_⟩
  rw [stackValue_eq (by rw [hf.registers, hsp]; exact hdepth), hf.registers, hsp, ← hv', hbase,
    Nat.add_assoc]
  exact hr.slot hf.working.laidOut ha hac hin

/-- A context for the method found is filled in and entered. -/
theorem Frames.activates {f : Ref → Ref} {cls v : Ref} (hm : m.Working starts)
    (hf : m.Frames cls size f n starts' c m') (hroom : m.registers.argCount < m.registers.sp)
    (hv : m.stackValue m.registers.argCount = .ok v)
    (hmethod : n.heap.IsMethod starts' n.registers.newMethod header literals code)
    (hcover : m.registers.argCount ≤ header.tempCount) (hsize : header.frameSize ≤ size) :
    ∃ h, Context.initMethod m'.heap (.ofWordIndex c) n.registers.activeContext n.registers.newMethod
        (f v) header.tempCount = .ok h ∧
      ∃ m'', ({ m' with heap := h } : Machine).enterContext (.ofWordIndex c) m.registers.argCount =
        .ok () m'' ∧ m.Activates header f m'' := by
  have hcol := hf.collections
  have hn := hf.working
  obtain ⟨starts'', hr⟩ := hf.retains
  have hregisters := hcol.registers
  have hsp : n.registers.sp = m.registers.sp := hcol.sp_eq
  have htemps : header.tempCount ≤ size := Nat.le_trans (Nat.le_add_right ..) hsize
  obtain ⟨h, hinit, ht, hframe, hnil, hfilled⟩ := Context.initMethod_fills hr.laidOut hr.mem hf.frame
    htemps n.registers.activeContext n.registers.newMethod (f v)
  have hr' := hr.touches ht
  have hlen := hframe.len
  have hfields : (h.view c).fields = 6 := hframe.fields
  have hcount : header.tempCount < Ref.addressLimit := by
    have hle : header.tempCount ≤ 0x3F := by
      unfold MethodHeader.tempCount
      rw [UInt32.toNat_and]
      exact Nat.and_le_right
    exact Nat.lt_of_le_of_lt hle (by decide)
  obtain ⟨m'', hok, hentered, hpc, hsp'⟩ := hn.enterMethod (m := { m' with heap := h }) hr' hf.apart
    (hsp ▸ hroom) (by omega) (by rw [hfields]; decide) (hmethod.retained hr' hn.laidOut hf.taken) hfilled
    hcount hf.registers rfl
  refine ⟨h, hinit, m'', hok, ?_⟩
  have hl := hentered.memory
  have hc := hentered.mem
  have hlayout := hentered.layout
  have hcontext : (m''.heap.view c).format = .context := hlayout.format_eq.trans hframe.context
  have htail : (m''.heap.view c).format.hasReferenceTail = true := by
    rw [hcontext]
    rfl
  have hlen' : (m''.heap.view c).len = size := hlayout.len_eq.trans hlen
  have helement : ∀ k < size, m''.heap.fetchElement (.ofWordIndex c) k =
      .ok ((m''.heap.view c).ref ((h.view c).elements + k)) := by
    intro k hk
    rw [Heap.fetchElement_eq hl hc htail (hlen'.symm ▸ hk), hlayout.elements_eq]
  have hfield : ∀ k ≤ Context.homeField, m''.heap.fetchField (.ofWordIndex c) k =
      .ok ((h.view c).ref (headerWords + k)) := by
    intro k hk
    have hlt : k < (m''.heap.view c).fields := by
      rw [hlayout.fields_eq, hfields]
      exact Nat.lt_succ_of_le hk
    have hin : headerWords + k < (h.view c).elements := by
      have helements : (h.view c).elements = headerWords + (h.view c).fields + 1 := rfl
      rw [hlayout.fields_eq] at hlt
      omega
    rw [Heap.fetchField_eq hl hc hlt (View.fields_lt_size (by rw [hcontext]; rfl)
      (Nat.add_lt_add_left hlt _)), hentered.fields _ hin]
  have hactive : n.registers.activeContext = f m.registers.activeContext := by rw [hregisters]; rfl
  constructor
  · rw [hentered.active, ← hactive]
    exact (hfield Context.senderField (by decide)).trans (congrArg Except.ok hfilled.sender)
  · exact hpc
  · exact hsp'
  · rw [hentered.home, hentered.active]
  · rw [hentered.method, hfilled.method, hregisters]
    rfl
  · exact ⟨v, hv, by rw [hentered.receiver, hfilled.receiver]⟩
  · intro k hk
    obtain ⟨w, hw, hw'⟩ := hcol.operands hm.toActivated
      (show m.registers.sp - m.registers.argCount + k < m.registers.sp by omega)
    refine ⟨w, ?_, ?_⟩
    · rw [stackValue_eq (by omega), ← hw]
      congr 1
      omega
    · have hslot := hentered.arguments k hk
      have hin : (h.view c).elements + k < (m''.heap.view c).size := by
        rw [← hlayout.elements_eq]
        exact View.elements_lt_size htail (by omega)
      rw [hsp, hw', hl.slot_offset hc hin] at hslot
      rw [hentered.active, helement k (by omega)]
      exact hslot
  · intro k hk hlt
    rw [hentered.active, helement k (by omega), hentered.others k hk (by omega),
      hfilled.temporaries k hlt, hentered.nil]
  · rw [hentered.nil, hnil, hf.nil]
    exact hcol.nil
  · have hheader : (m''.heap.view c).header = (h.view c).header :=
      congrArg (fun r => Header.mk r.bits) (hentered.fields 0 (by simp only [View.elements]; omega))
    rw [hentered.active, Heap.isCaptured, hl.header hc, hheader]
    exact congrArg Except.ok hframe.captured
  · exact ⟨size, by rw [hentered.active]; exact (hl.length hc).trans (congrArg Except.ok hlen'), hsize⟩
  · rw [← hactive, hentered.callerPc, hregisters]
    rfl
  · rw [← hactive, hentered.callerSp, hsp]
  · intro k hk
    obtain ⟨w, hw, hw'⟩ := hcol.operands hm.toActivated
      (show k < m.registers.sp by omega)
    refine ⟨w, hw, ?_⟩
    obtain ⟨a, ha, haactive, hacontext, halen, habase⟩ := hentered.sender
    have hlimit := hn.sp_le
    have hklt : k < (m''.heap.view a).len := by omega
    have hatail : (m''.heap.view a).format.hasReferenceTail = true := by
      rw [hacontext]
      rfl
    have hslot := hentered.callerStack k (by omega)
    rw [hw', habase, Nat.add_assoc, hl.slot_offset ha (View.elements_lt_size hatail
      (Nat.add_lt_add_left hklt _))] at hslot
    rw [← hactive, haactive, Heap.fetchElement_eq hl ha hatail hklt]
    exact hslot

/-- The method found is activated unless memory runs out. -/
theorem Stocked.activateNewMethod (hm : m.Stocked starts)
    (hmethod : m.heap.IsMethod starts m.registers.newMethod header literals code)
    (hcls : m.heap.IsOf starts .plain (m.core.cls .methodContext))
    (hargs : header.argCount = m.registers.argCount) (hcover : header.argCount ≤ header.tempCount)
    (hroom : m.registers.argCount < m.registers.sp)
    (hcount : m.Counts (ContextPool.frameSizeFor header.frameSize)) :
    m.activateNewMethod.Reaches fun _ m' => ∃ f n, Collections m f n ∧ m.Activates header f m' := by
  obtain ⟨word, hword, -, heq⟩ := hmethod.header
  have hheader : Method.header m.heap m.registers.newMethod = .ok header := by
    unfold Method.header
    rw [hword]
    exact congrArg Except.ok heq
  unfold Machine.activateNewMethod
  refine .step rfl (.step (Action.read_of_ok hheader) ?_)
  dsimp only
  rw [if_neg (not_not_intro hargs)]
  refine .step rfl ((hm.newContext hcls hcount).bind ?_)
  rintro _ m₁ ⟨f, n, starts', c, rfl, hf⟩
  obtain ⟨v, hv, hv'⟩ := hf.stackValue hm.toWorking hroom
  obtain ⟨_, _, hmoved⟩ := hf.collections.isMethod hm.toWorking hf.working hmethod
  obtain ⟨h, hinit, m', hok, hactivates⟩ := hf.activates hm.toWorking hroom hv hmoved
    (hargs ▸ hcover) ContextPool.frameSizeFor_le
  refine .step (peek_of_ok hv') (.step rfl ?_)
  rw [hf.registers]
  refine .step (Action.write_ok hinit) ?_
  rw [hok]
  exact ⟨f, n, hf.collections, hactivates⟩

/-! ## Primitives that fail -/

/-- An action that is not the failure of a primitive, whatever it does before. -/
theorem meets_done {Q : Verdict → Machine → Prop} {α : Type} (x : Action α) (m : Machine) :
    ((x >>= fun _ => pure Verdict.done) m).Meets
      (fun verdict m' => verdict = .failed → Q verdict m') fun _ => True := by
  refine .bind (R := fun _ _ => True) ?_ fun _ _ _ h => nomatch h
  cases x m <;> trivial

/-- A primitive that fails leaves the machine as it was, apart from a collection. -/
theorem Working.runPrimitive_failed (hm : m.Working starts) (p : Primitive)
    (hargs : argCount < m.registers.sp) :
    (p.run argCount m).Meets (fun verdict m' => verdict = .failed → m.Idles m') fun _ => True := by
  have hsame : Outcome.Meets (.ok Verdict.failed m)
      (fun verdict m' => verdict = .failed → m.Idles m') fun _ => True := fun _ => .inl rfl
  by_cases hp : p.changesFlow = false
  · refine (hm.run_result hp hargs).mono ?_ fun _ h => h.elim
    rintro verdict m' (⟨-, hidle⟩ | ⟨rfl, -⟩) h
    · exact hidle
    · cases h
  · cases p with
    | blockValue =>
      refine .inspect fun block _ => .inspect fun isBlock _ => ?_
      cases isBlock with
      | true => exact meets_done _ m
      | false => exact hsame
    | blockValueWithArguments =>
      show Outcome.Meets (Machine.expecting 1 argCount Machine.blockValueWithArguments m) _ _
      unfold Machine.expecting
      split
      · refine .inspect fun block _ => .inspect fun arguments _ => .inspect fun values _ => ?_
        cases values with
        | some values =>
          refine .bind (R := fun _ _ => True) ?_ fun _ n _ =>
            .bind (R := fun _ _ => True) ?_ fun _ n' _ => meets_done _ n'
          · cases Machine.pop m <;> trivial
          · cases Machine.pushAll values n <;> trivial
        | none => exact hsame
      · exact hsame
    | exit =>
      show Outcome.Meets (Machine.expecting 1 argCount Machine.exit m) _ _
      unfold Machine.expecting
      split
      · exact .inspect fun value _ h => nomatch h
      · exact hsame
    | _ => exact absurd rfl hp

theorem Working.invoke_failed (hm : m.Working starts) {index : Nat}
    (hargs : argCount < m.registers.sp) (hok : m.invoke index argCount = .ok .failed n) :
    m.Idles n := by
  unfold Machine.invoke at hok
  cases hindex : Primitive.ofIndex? index with
  | none =>
    rw [hindex] at hok
    cases hok
    exact .inl rfl
  | some p =>
    rw [hindex] at hok
    exact (hm.runPrimitive_failed p hargs).of_ok hok rfl

/-! ## Executing the method found -/

/-- A value on the stack is found at its new place after collections. -/
theorem Collections.stackValue {f : Ref → Ref} {depth : Nat} {w : Ref} (hf : Collections m f n)
    (hm : m.Working starts) (hdepth : depth < m.registers.sp) (hw : n.stackValue depth = .ok w) :
    ∃ v, m.stackValue depth = .ok v ∧ w = f v := by
  obtain ⟨v, hv, hv'⟩ := hf.operands hm.toActivated
    (show m.registers.sp - 1 - depth < m.registers.sp by omega)
  rw [stackValue_eq (by rw [hf.sp_eq]; exact hdepth), hf.sp_eq, hv'] at hw
  exact ⟨v, (stackValue_eq hdepth).trans hv, (Except.ok.inj hw).symm⟩

/-- What is activated after collections is activated for the send before them. -/
theorem Activates.after {f g : Ref → Ref} (hactivates : n.Activates header g m')
    (hf : Collections m f n) (hm : m.Working starts)
    (hroom : m.registers.argCount < m.registers.sp) :
    m.Activates header (fun r => g (f r)) m' := by
  have hregisters := hf.registers
  have hargs : n.registers.argCount = m.registers.argCount := by rw [hregisters]; rfl
  have hactive : n.registers.activeContext = f m.registers.activeContext := by rw [hregisters]; rfl
  have hsp := hf.sp_eq
  constructor
  · rw [hactivates.sender, hactive]
  · exact hactivates.pc
  · exact hactivates.sp
  · exact hactivates.home
  · rw [hactivates.method, hregisters]
    rfl
  · obtain ⟨w, hw, hreceiver⟩ := hactivates.receiver
    rw [hargs] at hw
    obtain ⟨v, hv, rfl⟩ := hf.stackValue hm hroom hw
    exact ⟨v, hv, hreceiver⟩
  · intro k hk
    obtain ⟨w, hw, hargument⟩ := hactivates.arguments k (hargs ▸ hk)
    rw [hargs] at hw
    obtain ⟨v, hv, rfl⟩ := hf.stackValue hm (by omega) hw
    exact ⟨v, hv, hargument⟩
  · exact fun k hk hlt => hactivates.temporaries k (hargs ▸ hk) hlt
  · rw [hactivates.nil, hf.nil]
  · exact hactivates.captured
  · exact hactivates.frame
  · rw [← hactive, hactivates.senderPc, hregisters]
    rfl
  · rw [← hactive, hactivates.senderSp, hsp, hargs]
  · intro k hk
    obtain ⟨w, hw, hvalue⟩ := hactivates.senderStack k (by rw [hsp, hargs]; exact hk)
    obtain ⟨v, hv, hv'⟩ := hf.operands hm.toActivated (show k < m.registers.sp by omega)
    rw [hw] at hv'
    cases hv'
    exact ⟨v, hv, hactive ▸ hvalue⟩

/-- The method found is activated after a primitive that failed. -/
theorem Stocked.activateNewMethod_after (hm : m.Stocked starts) (hidle : m.Idles n)
    (hmethod : m.heap.IsMethod starts m.registers.newMethod header literals code)
    (hcls : m.heap.IsOf starts .plain (m.core.cls .methodContext))
    (hargs : header.argCount = m.registers.argCount) (hcover : header.argCount ≤ header.tempCount)
    (hroom : m.registers.argCount < m.registers.sp)
    (hcount : m.Counts (ContextPool.frameSizeFor header.frameSize)) :
    n.activateNewMethod.Reaches fun _ m' => ∃ f n, Collections m f n ∧ m.Activates header f m' := by
  obtain rfl | ⟨f, starts', hstep, hn, hzero⟩ := hidle
  · exact hm.activateNewMethod hmethod hcls hargs hcover hroom hcount
  have hf := Collections.after (.none m) hm.toWorking hstep
  obtain ⟨_, _, hmoved⟩ := hf.isMethod hm.toWorking hn hmethod
  obtain ⟨i, hi, hclass, -⟩ := id hcls
  have hp : (m.core.cls .methodContext).isPointer = true := hclass ▸ hm.laidOut.isPointer hi
  have hcls' : n.heap.IsOf starts' .plain (n.core.cls .methodContext) := by
    have hmoved := hstep.isOf hm.toWorking hn
      (reachable_root (.inr (CoreObjects.cls_mem_refs m.core .methodContext)) hp) hcls
    rw [hf.core, CoreObjects.cls_mapRefs, id, Ref.image, if_pos hp]
    exact hmoved
  have hregisters := hf.registers
  have hcount' : n.Counts (ContextPool.frameSizeFor header.frameSize) := by
    unfold Counts at hcount ⊢
    rw [hzero]
    omega
  obtain ⟨-, -, -, hresumes⟩ := id hstep
  have hargs' : n.registers.argCount = m.registers.argCount := by rw [hregisters]; rfl
  refine ((hn.stocked hresumes.contexts.1 hresumes.contexts.2).activateNewMethod hmoved hcls'
    (hargs.trans hargs'.symm) hcover (by rw [hargs', hf.sp_eq]; exact hroom) hcount').mono ?_
  rintro _ m' ⟨g, n', hg, hactivates⟩
  exact ⟨_, n', hf.trans hg, hactivates.after hf hm.toWorking hroom⟩

/-- A method that is found for a send and that is no shortcut is activated, if it takes as many
arguments as there are, once its primitive has failed or if it has none. -/
theorem Stocked.executeNewMethod_activates (hm : m.Stocked starts)
    (hmethod : m.heap.IsMethod starts m.registers.newMethod header literals code)
    (hflag : header.flag? = some .normal)
    (hprimitive : header.primitiveIndex = 0 ∨
      ∃ n, m.invoke header.primitiveIndex m.registers.argCount = .ok .failed n)
    (hcls : m.heap.IsOf starts .plain (m.core.cls .methodContext))
    (hargs : header.argCount = m.registers.argCount) (hcover : header.argCount ≤ header.tempCount)
    (hroom : m.registers.argCount < m.registers.sp)
    (hcount : m.Counts (ContextPool.frameSizeFor header.frameSize)) :
    m.executeNewMethod.Reaches fun value m' =>
      value = none ∧ ∃ f n, Collections m f n ∧ m.Activates header f m' := by
  obtain ⟨word, hword, -, heq⟩ := hmethod.header
  have hheader : Method.header m.heap m.registers.newMethod = .ok header := by
    unfold Method.header
    rw [hword]
    exact congrArg Except.ok heq
  unfold Machine.executeNewMethod
  refine .step rfl (.step (Action.read_of_ok hheader) ?_)
  dsimp only
  rw [hflag]
  have hactivate : ∀ n, m.Idles n →
      ((Machine.activateNewMethod >>= fun _ => pure none : Action (Option Ref)) n).Reaches
        fun value m' => value = none ∧ ∃ f n, Collections m f n ∧ m.Activates header f m' :=
    fun n hidle => (hm.activateNewMethod_after hidle hmethod hcls hargs hcover hroom hcount).bind
      fun _ _ h => ⟨rfl, h⟩
  by_cases hzero : header.primitiveIndex = 0
  · dsimp only
    rw [if_pos hzero]
    exact .step rfl (hactivate m (.inl rfl))
  · obtain ⟨n, hfailed⟩ := hprimitive.resolve_left hzero
    dsimp only
    rw [if_neg hzero]
    exact .step hfailed (hactivate n (hm.invoke_failed hroom hfailed))

/-- The header of a method with one argument, another temporary and a primitive. -/
def addHeader : MethodHeader :=
  .pack .normal 1 2 3 1

/-- A machine in the middle of a send to an object that is no number, with a recycled context in its
pool. -/
def addToObject : Machine :=
  let heap : Heap :=
    { memory := #[0,
        (Header.pack .plain 0 3).bits, Ref.null.bits,
        (Header.pack .byteArray 0 4).bits, Ref.null.bits, 0, 0,
        (Header.pack .array 0 5).bits, Ref.null.bits, 0,
        (Header.pack .plain 3 6).bits, Ref.null.bits, (Ref.ofNat 0).bits, (Ref.ofWordIndex 7).bits,
        (Ref.ofWordIndex 3).bits,
        (Header.pack .plain 3 7).bits, Ref.null.bits, addHeader.toRef.bits,
        (Ref.ofWordIndex 7).bits, (Ref.ofWordIndex 3).bits,
        (Header.pack .context 6 8).bits, Ref.null.bits, Ref.null.bits, (Ref.ofNat 0).bits,
        (Ref.ofNat 1).bits, (Ref.ofWordIndex 10).bits, Ref.null.bits, (Ref.ofNat 7).bits, 4,
        (Ref.ofNat 5).bits, (Ref.ofWordIndex 1).bits, (Ref.ofNat 6).bits, Ref.null.bits,
        (Header.pack .context 6 9).bits, Ref.null.bits, Ref.null.bits, Ref.null.bits,
        (Ref.ofNat 2).bits, (Ref.ofWordIndex 10).bits, Ref.null.bits, (Ref.ofNat 8).bits, 16,
        (Ref.ofNat 9).bits, (Ref.ofNat 9).bits, (Ref.ofNat 9).bits, (Ref.ofNat 9).bits,
        (Ref.ofNat 9).bits, (Ref.ofNat 9).bits, (Ref.ofNat 9).bits, (Ref.ofNat 9).bits,
        (Ref.ofNat 9).bits, (Ref.ofNat 9).bits, (Ref.ofNat 9).bits, (Ref.ofNat 9).bits,
        (Ref.ofNat 9).bits, (Ref.ofNat 9).bits, (Ref.ofNat 9).bits, (Ref.ofNat 9).bits]
      top := 58
      reservedWords := 128
      sinceCollection := 0
      config := {}
      hashState := 1
      nil := .null
      largeIntegers := .empty
      stats := {} }
  { ofHeap heap ⟨#[], 0, 0⟩ with
    core := CoreObjects.empty.setClass .methodContext (.ofWordIndex 1)
    contexts := ⟨[.ofWordIndex 33], [], 0⟩
    registers := { Registers.empty with
      activeContext := .ofWordIndex 20
      homeContext := .ofWordIndex 20
      method := .ofWordIndex 10
      receiver := .ofNat 7
      literals := .ofWordIndex 7
      sp := 3
      stackBase := 29
      stackLimit := 4
      tempBase := 29
      codeBase := 48
      argCount := 1
      newMethod := .ofWordIndex 15 } }

theorem addToObject_laidOut : addToObject.heap.LaidOut [1, 3, 7, 10, 15, 20, 33] where
  committed := by decide
  addressable := by decide
  tiles := .cons (.cons (.cons (.cons (.cons (.cons (.cons (.nil 58)))))))
  readable i hi := by
    have hall : ∀ i ∈ [1, 3, 7, 10, 15, 20, 33], (addToObject.heap.view i).header.isValid = true ∧
        Format.ofCode? (addToObject.heap.view i).header.formatCode =
          some (addToObject.heap.view i).format ∧
        ((addToObject.heap.view i).format = .context → 3 ≤ (addToObject.heap.view i).fields) := by
      decide
    obtain ⟨hvalid, hknown, hctx⟩ := hall i hi
    exact ⟨hvalid, hknown, hctx⟩

theorem addToObject_wellFormed : addToObject.settled.WellFormed [1, 3, 7, 10, 15, 20, 33] := by
  have htouch := touches_flushedHeap addToObject_laidOut (show 20 ∈ _ by decide) (by decide)
  exact (htouch.laidOut addToObject_laidOut (by decide)).wellFormed_of_checked (b := 25) (by decide)
    (by decide) (by decide) (by decide)

theorem addToObject_stocked : addToObject.Stocked [1, 3, 7, 10, 15, 20, 33] where
  laidOut := addToObject_laidOut
  context := ⟨20, by decide, rfl, by decide⟩
  home := ⟨20, by decide, rfl, by decide⟩
  method := ⟨10, by decide, rfl, by decide⟩
  header word hword := by
    have hread : addToObject.heap.fetchField addToObject.registers.method Method.headerField =
        .ok (.ofNat 0) := by rfl
    rw [hread] at hword
    cases hword
    decide
  literals := ⟨7, by decide, rfl, by decide⟩
  code code hcode := by
    have hread : Method.code addToObject.heap addToObject.registers.method = .ok (.ofWordIndex 3) := by
      rfl
    rw [hread] at hcode
    cases hcode
    exact ⟨3, by decide, rfl, by decide⟩
  loaded := ⟨{ Registers.empty with argCount := 1, newMethod := .ofWordIndex 15 }, 0, 1, rfl⟩
  pc_lt := by decide
  sp_le := by decide
  temporaries := by decide
  wellFormed := addToObject_wellFormed
  rootsIn := by
    have hroots : ∀ r ∈ addToObject.roots, r.isPointer = true →
        ∃ j ∈ [1, 3, 7, 10, 15, 20, 33], r = .ofWordIndex j := by
      rw [roots_eq]
      decide
    exact ⟨hroots, fun hp => by cases hp⟩
  reserved := by decide
  allowed := by decide
  table := by constructor <;> simp [addToObject, settled, flushedHeap, ofHeap, LargeIntegers.empty]
  small r hr := by
    cases List.mem_singleton.mp hr
    exact ⟨33, by decide, rfl, by decide, by decide, by decide, by decide, by decide⟩
  large r hr := by cases hr

/-- The number that is added is the argument of an activation in the recycled context, whose other
temporary is nil. -/
theorem addToObject_activates : ∃ m' f n, addToObject.executeNewMethod = .ok none m' ∧
    Collections addToObject f n ∧ addToObject.Activates addHeader f m' := by
  have hmethod : addToObject.heap.IsMethod [1, 3, 7, 10, 15, 20, 33] addToObject.registers.newMethod
      addHeader (.ofWordIndex 7) (.ofWordIndex 3) :=
    ⟨⟨15, by decide, rfl, by decide⟩, ⟨addHeader.toRef, rfl, by decide, by decide⟩, rfl, rfl,
      ⟨3, by decide, rfl, by decide⟩⟩
  have hfails : addToObject.invoke 1 1 = .ok .failed addToObject := by rfl
  have hcount : addToObject.Counts (ContextPool.frameSizeFor addHeader.frameSize) := by
    unfold Counts
    decide
  have hreaches := addToObject_stocked.executeNewMethod_activates hmethod (by decide)
    (.inr ⟨addToObject, hfails⟩) ⟨1, by decide, rfl, by decide⟩ (by decide) (by decide) (by decide)
    hcount
  have hanswers : addToObject.executeNewMethod.answer?.isSome = true := by decide +kernel
  obtain ⟨⟨value, m'⟩, hanswer⟩ := Option.isSome_iff_exists.mp hanswers
  have hok := Outcome.eq_ok_of_answer? hanswer
  rw [hok] at hreaches
  obtain ⟨rfl, f, n, hf, hactivates⟩ := hreaches
  exact ⟨m', f, n, hok, hf, hactivates⟩

end Machine

end ObjectMachine
