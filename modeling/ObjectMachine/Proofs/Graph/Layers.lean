import ObjectMachine.Kernel.Methods
import ObjectMachine.Proofs.Graph.Messaging

/-!
# Layers of methods

A message to an integer goes through layers: the shortcut of a special send, the method of the class of
small integers with its primitive, and the method of the class of all integers with its own, which the
other one asks by a send to super. Each layer either answers or leaves the message to the next.

## Main results

* `KernelMethod.finish_trying`: what methods are that try a primitive first.
* `Graph.World.Integers`: the classes of integers have the methods of the kernel.
* `Spec.Halts.primitiveFailed`: a method whose primitive failed ends the run.
* `Spec.Finishes.sendOperator`: a message to an integer is answered, or a primitive failed.
-/

namespace ObjectMachine

/-! ## Drafts -/

namespace Fallback

/-- The instructions of a method with one argument that tries a primitive first. -/
def instructions : Fallback → List Instruction
  | .super => [.constant .self, .push .temporary 0, .superSend 0 1, .methodReturn .top]
  | .primitiveFailed => [.constant .self, .send 0 0, .methodReturn .top]

def literals (selector : String) : Fallback → List Literal
  | .super => [.symbol selector, .methodClass]
  | .primitiveFailed => [.symbol "primitiveFailed"]

def stackDepth : Fallback → Nat
  | .super => 4
  | .primitiveFailed => 3

/-- A method with one argument that tries a primitive first. -/
def draft (fallback : Fallback) (selector : String) (index : Nat) : Draft where
  header := .pack .normal 1 1 fallback.stackDepth index
  literals := fallback.literals selector
  bytes := fallback.instructions.flatMap Instruction.encode

end Fallback

/-- What a method is that tries a primitive first. -/
theorem KernelMethod.finish_trying (owner : Owner) (fallback : Fallback) {selector : String} {index : Nat}
    (hselector : selectorArgCount selector = 1) (hindex : index ≤ 255) :
    (trying owner fallback selector index).code.finish.1 = .ok (fallback.draft selector index) := by
  have hnot : ¬ 255 < index := Nat.not_lt.mpr hindex
  unfold KernelMethod.trying
  rw [hselector]
  cases fallback <;>
    simp [Assembler.addAll, Assembler.add, Assembler.emitConstant, Assembler.emit, Assembler.grow,
      Assembler.emitPush, Assembler.placeOperand, Assembler.operand, Assembler.emitSuperSend,
      Assembler.emitSendBy, Assembler.literalOperand, Assembler.literalPlace, Assembler.shrink,
      Assembler.emitReturn, Assembler.ofArgCount, Assembler.withPrimitive, Assembler.finish,
      Assembler.draft, Assembler.resolve, Assembler.countsFit, countLimit, Assembler.header,
      MethodHeader.make, MethodHeader.maxArguments, MethodHeader.maxTemporaries, MethodHeader.maxStackDepth,
      MethodHeader.maxPrimitive, hnot, Assembler.spareSlots, Assembler.allLiterals, Assembler.maxLiterals] <;>
    rfl

/-- What the header says of a method that tries a primitive first. -/
theorem Fallback.header_draft (fallback : Fallback) (selector : String) {index : Nat} (hindex : index ≤ 255) :
    (fallback.draft selector index).header.flag? = some .normal ∧
    (fallback.draft selector index).header.argCount = 1 ∧
    (fallback.draft selector index).header.tempCount = 1 ∧
    (fallback.draft selector index).header.frameSize = 1 + fallback.stackDepth ∧
    (fallback.draft selector index).header.primitiveIndex = index := by
  have hall : ∀ depth ∈ [3, 4], ∀ i : Fin 256,
      let h := MethodHeader.pack .normal 1 1 depth i
      h.flag? = some .normal ∧ h.argCount = 1 ∧ h.tempCount = 1 ∧ h.frameSize = 1 + depth ∧
        h.primitiveIndex = i := by
    decide +kernel
  cases fallback
  · exact hall 4 (by decide) ⟨index, by omega⟩
  · exact hall 3 (by decide) ⟨index, by omega⟩

/-- The instructions of a method that passes a message with one argument on. -/
def relayInstructions (send : Instruction) : List Instruction :=
  [.constant .self, .push .temporary 0, send, .methodReturn .top]

/-- A method that passes a message with one argument on, by an instruction of its own if it has one. -/
def relay (selector : String) : Draft where
  header := .pack .normal 1 1 4 0
  literals := match specialIndex? selector 1 with
    | some _ => []
    | none => [.symbol selector]
  bytes := match specialIndex? selector 1 with
    | some index => (relayInstructions (.special index.toUInt8)).flatMap Instruction.encode
    | none => (relayInstructions (.send 0 1)).flatMap Instruction.encode

/-- What the header says of a method that passes a message on. -/
theorem header_relay (selector : String) : (relay selector).header.argCount = 1 ∧
    (relay selector).header.tempCount = 1 ∧ (relay selector).header.frameSize = 5 := by
  have hpack : (relay selector).header = .pack .normal 1 1 4 0 := rfl
  rw [hpack]
  decide

/-- The instructions are read as they were written. -/
theorem decode?_relay {send : Instruction} (hsend : (∃ index < 32, send = .special (Nat.toUInt8 index)) ∨ send = .send 0 1) :
    let bytes := (relayInstructions send).flatMap Instruction.encode
    Instruction.decode? bytes 0 = some (.constant .self) ∧
    Instruction.decode? bytes 1 = some (.push .temporary 0) ∧
    Instruction.decode? bytes 3 = some send ∧
    Instruction.decode? bytes (3 + send.width) = some (.methodReturn .top) := by
  rcases hsend with ⟨index, hlt, rfl⟩ | rfl
  · have hall : ∀ index : Fin 32,
        let send := Instruction.special (Nat.toUInt8 index)
        let bytes := (relayInstructions send).flatMap Instruction.encode
        Instruction.decode? bytes 0 = some (.constant .self) ∧
        Instruction.decode? bytes 1 = some (.push .temporary 0) ∧
        Instruction.decode? bytes 3 = some send ∧
        Instruction.decode? bytes (3 + send.width) = some (.methodReturn .top) := by
      decide +kernel
    exact hall ⟨index, hlt⟩
  · decide +kernel

theorem Machine.finish_trampoline (selector : String) :
    (Machine.trampoline selector 1).finish.1 = .ok (relay selector) := by
  unfold Machine.trampoline relay
  cases hspecial : specialIndex? selector 1 <;>
    simp [Assembler.addAll, Assembler.add, Assembler.emitConstant, Assembler.emit, Assembler.grow,
      Assembler.emitPush, Assembler.placeOperand, Assembler.operand, Assembler.emitSend,
      Assembler.emitSendBy, Assembler.literalOperand, Assembler.literalPlace, Assembler.shrink,
      Assembler.emitReturn, Assembler.ofArgCount, Assembler.finish, Assembler.draft, Assembler.resolve,
      Assembler.countsFit, countLimit, Assembler.header, MethodHeader.make, MethodHeader.maxArguments,
      MethodHeader.maxTemporaries, MethodHeader.maxStackDepth, MethodHeader.maxPrimitive,
      Assembler.spareSlots, Assembler.allLiterals, Assembler.maxLiterals, hspecial] <;>
    rfl

/-! ## The classes of integers -/

namespace Operator

/-- What the method of small integers does when its primitive fails. -/
def fallback (o : Operator) : Fallback :=
  if o.isWide then .super else .primitiveFailed

/-- What the method of all integers does when its primitive fails, which it never does in tests for
equality. -/
def lastFallback : Operator → Fallback
  | .comparison .equal | .comparison .notEqual => .super
  | _ => .primitiveFailed

theorem lastFallback_eq {o : Operator} {a b : Int} (h : o.reply? a b = none) :
    o.lastFallback = .primitiveFailed := by
  cases o with
  | arithmetic op => rfl
  | comparison op => cases h

/-- Where a message is sent by an instruction of its own, that has the shortcut of the message. -/
theorem shortcut_eq (o : Operator) : ∀ index ∈ specialIndex? o.selector 1,
    Shortcut.ofIndex? index = some o.shortcut ∧ specialSelectors.toList[index]? = some ⟨o.selector, 1⟩ := by
  cases o with
  | arithmetic op => cases op <;> decide +kernel
  | comparison op => cases op <;> decide +kernel

end Operator

namespace Graph

/-- The method of a class tries a primitive first. -/
def World.Tries (w : World) (g : Graph) (k : KernelClass) (fallback : Fallback) (name : String)
    (primitive : Primitive) : Prop :=
  ∃ method : Compiled, w.IsCompiled g method ∧ method.cls = .object (classNode k) ∧
    (w.log (classNode k)).lookup name = some (.object method.method) ∧
      ∃ index ≤ 255, Primitive.ofIndex? index = some primitive ∧ method.draft = fallback.draft name index

/-- The classes of integers, and those that they inherit from. -/
def integerClasses : List KernelClass :=
  [.smallInteger, .largeInteger, .integer, .number, .magnitude, .object]

/-- The way up from the class of all integers. -/
def integerChain : List Nat := [.integer, .number, .magnitude, .object].map classNode

/-- The classes of integers have the methods of the kernel, and integers do not understand that a primitive
failed. -/
structure World.Integers (w : World) (g : Graph) : Prop where
  spoken : g.Spoken
  mem : ∀ k ∈ integerClasses, classNode k ∈ w.classes
  superclass : ∀ k ∈ integerClasses, g.field (.object (classNode k)) Class.superclassField =
    some (superclassValue (k.superclass?.map classNode))
  small : ∀ o : Operator, w.Tries g .smallInteger o.fallback o.selector o.small
  general : ∀ o : Operator, o.isWide = true → w.Tries g .integer o.lastFallback o.selector o.integer
  large : ∀ o : Operator, o.isWide = true → (w.log (classNode .largeInteger)).lookup o.selector = none
  lacks : ∀ k ∈ integerClasses, (w.log (classNode k)).lookup "primitiveFailed" = none ∧
    (w.log (classNode k)).lookup "doesNotUnderstand:" = none

variable {g g' : Graph} {w w' : World} {held : List Nat} {k : KernelClass} {fallback : Fallback} {name : String}
  {primitive : Primitive}

theorem World.Tries.works (ht : w.Tries g k fallback name primitive) (h : Works held g g') :
    w.Tries g' k fallback name primitive := by
  obtain ⟨method, hmethod, hrest⟩ := ht
  exact ⟨method, hmethod.works h, hrest⟩

theorem Spoken.works (hs : g.Spoken) (h : Works held g g') : g'.Spoken := by
  have hsame : ∀ {name v}, g.symbol? name = some v → g'.symbol? name = some v := fun hs => h.symbol?.trans hs
  refine ⟨fun i selector hi => ?_, ?_, ?_, ?_⟩ <;> rw [h.core]
  · obtain ⟨v, hv, hsymbol⟩ := hs.special i selector hi
    exact ⟨v, hv, hsame hsymbol⟩
  · exact hsame hs.doesNotUnderstand
  · exact hsame hs.escapedBlock
  · exact hsame hs.mustBeBoolean

theorem World.Integers.works (hi : w.Integers g) (hw : w.Describes g.atRest) (h : Works held g g') :
    w.Integers g' where
  spoken := hi.spoken.works h
  mem := hi.mem
  superclass k hk := (hw.superclass_works h (hi.mem k hk)).trans (hi.superclass k hk)
  small o := (hi.small o).works h
  general o ho := (hi.general o ho).works h
  large := hi.large
  lacks := hi.lacks

/-! ## Integers in messages -/

/-- The class of an integer. -/
def integerClass (value : Int) : KernelClass :=
  if Ref.isSmall value = true then .smallInteger else .largeInteger

variable {v : Value} {value : Int} {busy : List Nat}

theorem IsInteger.classOf (hv : g.IsInteger v value) (hkernel : g.Kernel) :
    g.classOf v = some (.object (classNode (integerClass value))) := by
  unfold integerClass
  rw [← hkernel.cls]
  split
  · rename_i hsmall
    rw [hv.eq_immediate hsmall]
    exact if_pos (Ref.isSmallInteger_ofPayload _)
  · rename_i hlarge
    obtain ⟨n, rfl, -, -, hcls, -⟩ := hv.exists_object (Bool.eq_false_iff.mpr hlarge)
    exact congrArg some hcls

theorem IsInteger.exists_describe (hv : g.IsInteger v value) (hkernel : g.Kernel) :
    ∃ text, g.describe v = some text := by
  cases hsmall : Ref.isSmall value with
  | true =>
    rw [hv.eq_immediate hsmall]
    rw [Graph.describe, Graph.describeWith]
    split <;> exact ⟨_, rfl⟩
  | false =>
    have hvalue := hv.integerValue?
    obtain ⟨n, rfl, -, -, hcls, -⟩ := hv.exists_object hsmall
    have hne : ∀ k : KernelClass, k ≠ .largeInteger → ¬ (g.nodes n).cls = g.core.cls k := by
      intro k hk heq
      rw [hcls, hkernel.cls, hkernel.cls] at heq
      exact hk (classNode_injective (Value.object.inj heq)).symm
    show ∃ text, (if Value.object n = g.core.nil then _ else if Value.object n = g.core.trueObject then _
      else if Value.object n = g.core.falseObject then _ else g.objectText g.arrayText (.object n)) = some text
    have htext : g.objectText g.arrayText (.object n) = some (Text.decimal value) := by
      show (if (g.nodes n).cls = g.core.cls .symbol then _ else if (g.nodes n).cls = g.core.cls .string then _
        else if (g.nodes n).cls = g.core.cls .float then _
        else if (g.nodes n).cls = g.core.cls .largeInteger then _ else _) = _
      rw [if_neg (hne .symbol (by decide)), if_neg (hne .string (by decide)), if_neg (hne .float (by decide)),
        if_pos hcls, hvalue]
      rfl
    rw [htext]
    split
    · exact ⟨_, rfl⟩
    · split
      · exact ⟨_, rfl⟩
      · split <;> exact ⟨_, rfl⟩

namespace World.Integers

/-- Integers inherit from the class of all integers. -/
theorem ascends_integer (hi : w.Integers g) : g.Ascends (.object (classNode .integer)) integerChain := by
  have hne : ∀ k : KernelClass, classNode k ≠ 0 := fun k => by
    unfold classNode
    omega
  have hup : ∀ {k s : KernelClass} {above : List Nat}, k ∈ integerClasses → k.superclass? = some s →
      g.Ascends (.object (classNode s)) above → g.Ascends (.object (classNode k)) (classNode k :: above) := by
    intro k s above hk hs habove
    refine .cons (hne k) (hi.superclass k hk) ?_
    rw [hs]
    exact habove
  have htop : g.Ascends (.object (classNode .object)) [classNode .object] :=
    .cons (hne _) (hi.superclass .object (by decide)) .nil
  exact hup (by decide) rfl (hup (by decide) rfl (hup (by decide) rfl htop))

theorem exists_of_mem_chain {c : Nat} (hc : c ∈ integerChain) : ∃ k ∈ integerClasses, c = classNode k := by
  obtain ⟨k, hk, rfl⟩ := List.mem_map.mp hc
  exact ⟨k, List.mem_cons_of_mem _ (List.mem_cons_of_mem _ hk), rfl⟩

theorem integerClass_mem (value : Int) : integerClass value ∈ integerClasses := by
  unfold integerClass
  split <;> decide

theorem mem_chain (hi : w.Integers g) : ∀ c ∈ integerChain, c ∈ w.classes := fun c hc => by
  obtain ⟨k, hk, rfl⟩ := exists_of_mem_chain hc
  exact hi.mem k hk

/-- The classes that an integer inherits from. -/
theorem ascends (hi : w.Integers g) (value : Int) :
    g.Ascends (.object (classNode (integerClass value))) (classNode (integerClass value) :: integerChain) ∧
      ∀ c ∈ classNode (integerClass value) :: integerChain, c ∈ w.classes := by
  have hclass := integerClass_mem value
  refine ⟨.cons ?_ (hi.superclass _ hclass) ?_, List.forall_mem_cons.mpr ⟨hi.mem _ hclass, hi.mem_chain⟩⟩
  · unfold classNode
    omega
  · have hsuperclass : (integerClass value).superclass? = some .integer := by
      unfold integerClass
      split <;> rfl
    rw [hsuperclass]
    exact hi.ascends_integer

/-- Integers understand neither that a primitive failed nor that a message was not understood. -/
theorem findSome?_eq_none (hi : w.Integers g) (value : Int) :
    let chain := classNode (integerClass value) :: integerChain
    (chain.findSome? fun c => (w.log c).lookup "primitiveFailed") = none ∧
    (chain.findSome? fun c => (w.log c).lookup "doesNotUnderstand:") = none := by
  have hall : ∀ c ∈ classNode (integerClass value) :: integerChain, ∃ k ∈ integerClasses, c = classNode k :=
    List.forall_mem_cons.mpr ⟨⟨_, integerClass_mem value, rfl⟩, fun _ => exists_of_mem_chain⟩
  constructor <;> refine List.findSome?_eq_none_iff.mpr fun c hc => ?_ <;> obtain ⟨k, hk, rfl⟩ := hall c hc
  · exact (hi.lacks k hk).1
  · exact (hi.lacks k hk).2

end World.Integers

end Graph

/-! ## Messages from integers to integers -/

/-- A primitive failed: the receiver does not understand being told so. -/
def Failure.primitiveFailed (receiver : String) : Failure :=
  .execution (.notUnderstood receiver "#primitiveFailed")

namespace Spec

open ObjectMachine.Graph

variable {g : Graph} {w : World} {held : List Nat} {c pc n : Nat} {j : Job} {k : Compiled}
  {below : List Value} {receiver argument sender : Value} {a b : Int} {o : Operator}
  {Q : Value → Graph → Prop} {E : Failure → Graph → Prop} {S : Fatal → Prop}

/-- A method whose primitive failed ends the run. -/
theorem Halts.primitiveFailed {name : String} {index : Nat} (hr : w.Runs g held c ⟨k, receiver, sender⟩ 0 [argument])
    (hi : w.Integers g) (ha : g.IsInteger receiver a) (hindex : index ≤ 255)
    (hdraft : k.draft = Fallback.primitiveFailed.draft name index) (hS : S (.fault .overflow))
    (hE : ∀ g' text, w.Guides g' [] → Works [] g g' → E (.primitiveFailed text) g') : Halts 2 g Q E S := by
  have hframe : k.draft.header.frameSize = 4 := by
    rw [hdraft]
    exact (Fallback.header_draft _ name hindex).2.2.2.1
  refine pushSelf (n := 1) hr (by rw [hdraft]; rfl) (by decide) (by rw [hframe]; simp) fun g₁ hr₁ h₁ => ?_
  refine step (n := 0) hr₁ (i := .send 0 0) (by rw [hdraft]; rfl) (by decide) fun g₂ hr₂ h₂ => ?_
  have hworks := h₁.trans h₂
  have hi₂ := hi.works hr.guides.describes hworks
  have ha₂ := hworks.isInteger ha
  obtain ⟨hchain, hall⟩ := hi₂.ascends a
  obtain ⟨hlacks, hlacks'⟩ := hi₂.findSome?_eq_none a
  refine Finishes.literalAt "primitiveFailed" hr₂ (by rw [hdraft]; rfl) fun selector hs => ?_
  refine Finishes.sendNotUnderstood hr₂ rfl (by rw [hframe]; simp)
    (ha₂.classOf hr₂.kernel) hs hi₂.spoken.doesNotUnderstand (by decide) hchain hall hlacks hlacks'
    (fun g' hg' h' => (h'.isInteger ha₂).exists_describe hg'.kernel) hS fun g' text hg' h' => ?_
  have hname : "#" ++ Text.utf8Text (Text.utf8Bytes "primitiveFailed") = "#primitiveFailed" := by decide +kernel
  rw [hname]
  exact hE g' text (hg'.mono (List.nil_subset _)) ((hworks.trans h').mono (List.nil_subset _))

namespace Finishes

/-- The method of all integers answers a message, or its primitive failed. -/
theorem executeGeneral (hr : w.Runs g held c j pc (below ++ [receiver, argument])) (hi : w.Integers g)
    (ha : g.IsInteger receiver a) (hb : g.IsInteger argument b) (ho : o.isWide = true)
    (hmethod : (w.log (classNode .integer)).lookup o.selector = some g.registers.newMethod)
    (hargs : g.registers.argCount = 1) (hS : S (.fault .overflow)) (hn : 2 ≤ n)
    (hdone : ∀ g' v reply, o.reply? a b = some reply → g'.IsReply v reply →
      w.Runs g' held c j pc (below ++ [v]) → Works held g g' → Halts n g' Q E S)
    (hE : o.reply? a b = none → ∀ g' text, w.Guides g' [] → Works [] g g' → E (.primitiveFailed text) g') :
    Spec.executeNewMethod.Finishes g (Halts.After n Q E S) E S := by
  obtain ⟨k, hk, -, hlookup, index, hle, hindex, hdraft⟩ := hi.general o ho
  obtain ⟨hflag, hcount, htemps, -, hprimitive⟩ := o.lastFallback.header_draft o.selector hle
  rw [← hdraft] at hflag hcount htemps hprimitive
  have hfound : g.registers.newMethod = .object k.method := Option.some.inj (hmethod.symm.trans hlookup)
  have hrun : Spec.runPrimitive o.integer 1 = Spec.result o.integer >>= Spec.answer? 1 := by cases o <;> rfl
  refine tryPrimitive hk hfound hargs hflag hcount htemps (by rw [hprimitive]; exact hindex) hrun hS
    (result_integer hr ha hb o hS)
    hdone fun g' n' hreply hr' _ h' => ?_
  rw [Operator.lastFallback_eq hreply] at hdraft
  refine (Halts.primitiveFailed hr' (hi.works hr.guides.describes h') (h'.isInteger ha) hle hdraft hS
    fun g'' text hg'' h'' => ?_).mono hn
  exact hE hreply g'' text hg'' ((h'.mono (List.nil_subset _)).trans h'')

end Finishes

/-- The method of small integers asks the one of all integers when its primitive failed. -/
theorem Halts.resend {index c' pc' : Nat} {j' : Job}
    (hr : w.Runs g (c' :: held) c ⟨k, receiver, .object c'⟩ 0 [argument]) (hwaits : w.Waits g c' j' pc' below)
    (hc' : c' ∉ held) (hroom : below.length < j'.draft.header.frameSize) (hi : w.Integers g)
    (ha : g.IsInteger receiver a) (hb : g.IsInteger argument b) (ho : o.isWide = true) (hindex : index ≤ 255)
    (hdraft : k.draft = Fallback.super.draft o.selector index) (hcls : k.cls = .object (classNode .smallInteger))
    (hS : S (.fault .overflow)) (hn : 1 ≤ n)
    (hdone : ∀ g' v reply, o.reply? a b = some reply → g'.IsReply v reply →
      w.Runs g' held c' j' pc' (below ++ [v]) → Works held g g' → Halts n g' Q E S)
    (hE : o.reply? a b = none → ∀ g' text, w.Guides g' [] → Works [] g g' → E (.primitiveFailed text) g') :
    Halts (n + 4) g Q E S := by
  have hframe : k.draft.header.frameSize = 5 := by
    rw [hdraft]
    exact (Fallback.header_draft _ o.selector hindex).2.2.2.1
  have htemp : k.draft.header.tempCount = 1 := by
    rw [hdraft]
    exact (Fallback.header_draft _ o.selector hindex).2.2.1
  refine pushSelf (n := n + 3) hr (by rw [hdraft]; rfl) (by decide) (by rw [hframe]; simp) fun g₁ hr₁ h₁ => ?_
  refine pushTemporary (n := n + 2) hr₁ (by rw [hdraft]; rfl) (by decide) rfl
    (by rw [htemp]; decide) (by rw [hframe]; simp) fun g₂ hr₂ h₂ => ?_
  refine step (n := n + 1) hr₂ (i := .superSend 0 1) (by rw [hdraft]; rfl) (by decide) fun g₃ hr₃ h₃ => ?_
  have hworks := h₁.trans (h₂.trans h₃)
  have hi₃ := hi.works hr.guides.describes hworks
  obtain ⟨k', hk', -, hlookup, -⟩ := hi₃.general o ho
  have hfound : (integerChain.findSome? fun c => (w.log c).lookup o.selector) = some (.object k'.method) := by
    show List.findSome? _ (classNode .integer :: _) = _
    rw [List.findSome?_cons, hlookup]
  refine Finishes.sendToSuper o.selector hr₃ (by rw [hdraft]; rfl) (by rw [hdraft]; rfl) hcls
    (hi₃.superclass .smallInteger (by decide)) hi₃.ascends_integer hi₃.mem_chain hfound
    fun g₄ hr₄ h₄ hargs hmethod => ?_
  have hworks₄ := hworks.trans h₄
  have hstack : w.Runs g₄ (c' :: held) c ⟨k, receiver, .object c'⟩ _ ([argument] ++ [receiver, argument]) := hr₄
  refine Finishes.executeGeneral (n := n + 1) hstack (hi₃.works hr₃.guides.describes h₄)
    (hworks₄.isInteger ha) (hworks₄.isInteger hb) ho (by rw [hmethod]; exact hlookup) hargs hS
    (Nat.succ_le_succ hn) (fun g₅ v reply hreply hv hr₅ h₅ => ?_)
    (fun hreply g₅ text hg₅ h₅ => hE hreply g₅ text hg₅ ((hworks₄.mono (List.nil_subset _)).trans h₅))
  have hworks₅ := hworks₄.trans h₅
  refine returnTop (n := n) hr₅ (by rw [hdraft]; rfl) (by decide) rfl (hwaits.works hworks₅ List.mem_cons_self)
    hc' hroom fun g₆ hr₆ h₆ => ?_
  exact hdone g₆ v reply hreply (hv.works h₆) hr₆ ((hworks₅.mono (List.subset_cons_self ..)).trans h₆)

end Spec

namespace Spec.Finishes

open ObjectMachine.Graph

variable {g : Graph} {w : World} {held : List Nat} {c pc n : Nat} {j : Job}
  {below : List Value} {receiver argument : Value} {a b : Int} {o : Operator}
  {Q : Value → Graph → Prop} {E : Failure → Graph → Prop} {S : Fatal → Prop}

/-- The method of small integers answers a message, or asks the one of all integers. -/
theorem executeSmall (hr : w.Runs g held c j pc (below ++ [receiver, argument])) (hi : w.Integers g)
    (ha : g.IsInteger receiver a) (hb : g.IsInteger argument b)
    (hmethod : (w.log (classNode .smallInteger)).lookup o.selector = some g.registers.newMethod)
    (hargs : g.registers.argCount = 1) (hS : S (.fault .overflow)) (hn : 1 ≤ n)
    (hdone : ∀ g' v reply, o.answer? a b = some reply → g'.IsReply v reply →
      w.Runs g' held c j pc (below ++ [v]) → Works held g g' → Halts n g' Q E S)
    (hE : o.answer? a b = none → ∀ g' text, w.Guides g' [] → Works [] g g' → E (.primitiveFailed text) g') :
    Spec.executeNewMethod.Finishes g (Halts.After (n + 4) Q E S) E S := by
  obtain ⟨k, hk, hcls, hlookup, index, hle, hindex, hdraft⟩ := hi.small o
  obtain ⟨hflag, hcount, htemps, -, hprimitive⟩ := o.fallback.header_draft o.selector hle
  rw [← hdraft] at hflag hcount htemps hprimitive
  have hfound : g.registers.newMethod = .object k.method := Option.some.inj (hmethod.symm.trans hlookup)
  have hrun : Spec.runPrimitive o.small 1 = Spec.result o.small >>= Spec.answer? 1 := by cases o <;> rfl
  have hroom : below.length < j.draft.header.frameSize := by
    have hfits := hr.fits
    rw [List.length_append] at hfits
    exact Nat.lt_of_lt_of_le (Nat.lt_add_of_pos_right (by simp)) hfits
  refine tryPrimitive hk hfound hargs hflag hcount htemps (by rw [hprimitive]; exact hindex) hrun hS
    (result_small hr ha hb o) (fun g' v reply hreply hv hr' h' => ?_) fun g' n' hreply hr' hwaits h' => ?_
  · exact (hdone g' v reply (Operator.answer?_of_smallReply? hreply) hv hr' h').mono (by omega)
  have hi' := hi.works hr.guides.describes h'
  cases hwide : o.isWide with
  | true =>
    have hanswer : o.answer? a b = o.reply? a b := if_pos hwide
    rw [Operator.fallback, if_pos hwide] at hdraft
    refine Halts.resend hr' hwaits hr.apart hroom hi' (h'.isInteger ha) (h'.isInteger hb) hwide hle hdraft hcls hS
      hn (fun g'' v reply hreply hv hr'' h'' => hdone g'' v reply (hanswer.trans hreply) hv hr'' (h'.trans h''))
      fun hreply g'' text hg'' h'' => ?_
    exact hE (hanswer.trans hreply) g'' text hg'' ((h'.mono (List.nil_subset _)).trans h'')
  | false =>
    have hanswer : o.answer? a b = o.smallReply? a b := if_neg (by rw [hwide]; exact Bool.false_ne_true)
    rw [Operator.fallback, if_neg (by rw [hwide]; exact Bool.false_ne_true)] at hdraft
    refine (Halts.primitiveFailed hr' hi' (h'.isInteger ha) hle hdraft hS fun g'' text hg'' h'' => ?_).mono
      (by omega)
    exact hE (hanswer.trans hreply) g'' text hg'' ((h'.mono (List.nil_subset _)).trans h'')

/-- A message to an integer is answered, or a primitive failed. -/
theorem sendOperator {selector : Value} (hr : w.Runs g held c j pc (below ++ [receiver, argument]))
    (hi : w.Integers g) (ha : g.IsInteger receiver a) (hb : g.IsInteger argument b)
    (ho : o.isWide = true ∨ Ref.isSmall a = true) (hs : g.symbol? o.selector = some selector)
    (hS : S (.fault .overflow)) (hn : 1 ≤ n)
    (hdone : ∀ g' v reply, o.answer? a b = some reply → g'.IsReply v reply →
      w.Runs g' held c j pc (below ++ [v]) → Works held g g' → Halts n g' Q E S)
    (hE : o.answer? a b = none → ∀ g' text, w.Guides g' [] → Works [] g g' → E (.primitiveFailed text) g') :
    (Spec.send selector 1).Finishes g (Halts.After (n + 4) Q E S) E S := by
  obtain ⟨hchain, hall⟩ := hi.ascends a
  have hclass := ha.classOf hr.kernel
  by_cases hsmall : Ref.isSmall a = true
  · have hcls : integerClass a = .smallInteger := if_pos hsmall
    rw [hcls] at hclass hchain hall
    obtain ⟨k, hk, -, hlookup, -⟩ := hi.small o
    have hfound : ((classNode .smallInteger :: integerChain).findSome? fun c => (w.log c).lookup o.selector) =
        some (.object k.method) := by
      rw [List.findSome?_cons, hlookup]
    refine send hr rfl hclass hs hchain hall hfound fun g' hr' h' hargs hmethod => ?_
    exact executeSmall hr' (hi.works hr.guides.describes h') (h'.isInteger ha) (h'.isInteger hb)
      (by rw [hmethod]; exact hlookup) hargs hS hn
      (fun g'' v reply hreply hv hr'' h'' => hdone g'' v reply hreply hv hr'' (h'.trans h''))
      fun hreply g'' text hg'' h'' => hE hreply g'' text hg'' ((h'.mono (List.nil_subset _)).trans h'')
  · have hwide := ho.resolve_right hsmall
    have hanswer : o.answer? a b = o.reply? a b := if_pos hwide
    have hcls : integerClass a = .largeInteger := if_neg hsmall
    rw [hcls] at hclass hchain hall
    obtain ⟨k, hk, -, hlookup, -⟩ := hi.general o hwide
    have hfound : ((classNode .largeInteger :: integerChain).findSome? fun c => (w.log c).lookup o.selector) =
        some (.object k.method) := by
      show List.findSome? _ (_ :: classNode .integer :: _) = _
      rw [List.findSome?_cons, hi.large o hwide, List.findSome?_cons, hlookup]
    refine send hr rfl hclass hs hchain hall hfound fun g' hr' h' hargs hmethod => ?_
    refine (executeGeneral (n := n + 4) hr' (hi.works hr.guides.describes h') (h'.isInteger ha) (h'.isInteger hb)
      hwide (by rw [hmethod]; exact hlookup) hargs hS (by omega)
      (fun g'' v reply hreply hv hr'' h'' =>
        (hdone g'' v reply (hanswer.trans hreply) hv hr'' (h'.trans h'')).mono (by omega))
      fun hreply g'' text hg'' h'' => ?_)
    exact hE (hanswer.trans hreply) g'' text hg'' ((h'.mono (List.nil_subset _)).trans h'')

end Spec.Finishes

/-! ## Messages from outside -/

namespace Spec

open ObjectMachine.Graph

variable {g : Graph} {w : World} {c pc n : Nat} {j : Job} {k : Compiled} {below : List Value}
  {receiver argument : Value} {a b : Int} {o : Operator} {Q : Value → Graph → Prop}
  {E : Failure → Graph → Prop} {S : Fatal → Prop}

/-- A message that is sent by an instruction of its own may be answered by its shortcut. -/
theorem Finishes.sendSpecial {held : List Nat} {index : Nat}
    (hr : w.Runs g held c j pc (below ++ [receiver, argument])) (hi : w.Integers g)
    (ha : g.IsInteger receiver a) (hb : g.IsInteger argument b) (ho : o.isWide = true ∨ Ref.isSmall a = true)
    (hindex : specialIndex? o.selector 1 = some index) (hS : S (.fault .overflow)) (hn : 1 ≤ n)
    (hdone : ∀ g' v reply, o.answer? a b = some reply → g'.IsReply v reply →
      w.Runs g' held c j pc (below ++ [v]) → Works held g g' → Halts n g' Q E S)
    (hE : o.answer? a b = none → ∀ g' text, w.Guides g' [] → Works [] g g' → E (.primitiveFailed text) g') :
    (Spec.sendSpecial index).Finishes g (Halts.After (n + 4) Q E S) E S := by
  obtain ⟨hshortcut, hselector⟩ := o.shortcut_eq index hindex
  obtain ⟨selector, hspecial, hs⟩ := hi.spoken.special index _ hselector
  have hcount : specialArgCount index = 1 := by
    unfold specialArgCount
    rw [← Array.getElem?_toList, hselector]
    rfl
  unfold Spec.sendSpecial
  rw [hshortcut]
  refine bind (takeShortcut hr ha hb o) ?_
  rintro taken g' (⟨rfl, -, rfl⟩ | ⟨rfl, v, reply, hreply, hv, hr', h'⟩)
  · refine ask ?_
    rw [hspecial, hcount]
    exact sendOperator hr hi ha hb ho hs hS hn hdone hE
  · exact pure ((hdone g' v reply (Operator.answer?_of_smallReply? hreply) hv hr' h').mono (by omega))

/-- A method that passes a message on ends the run with the answer. -/
theorem Halts.relay (hr : w.Runs g [] c ⟨k, receiver, .object 0⟩ 0 [argument]) (hi : w.Integers g)
    (ha : g.IsInteger receiver a) (hb : g.IsInteger argument b) (ho : o.isWide = true ∨ Ref.isSmall a = true)
    (hdraft : k.draft = ObjectMachine.relay o.selector) (hS : S (.fault .overflow))
    (hQ : ∀ g' v reply, o.answer? a b = some reply → g'.IsReply v reply → w.Guides g' [] → g'.Idle →
      Works [] g g' → Q v g')
    (hE : o.answer? a b = none → ∀ g' text, w.Guides g' [] → Works [] g g' → E (.primitiveFailed text) g') :
    Halts 8 g Q E S := by
  obtain ⟨-, htemp, hframe⟩ := header_relay o.selector
  rw [← hdraft] at htemp hframe
  -- Whichever instruction sends the message, the answer is returned behind it.
  have hrun : ∀ send : Instruction, ((∃ index < 32, send = .special (Nat.toUInt8 index)) ∨ send = .send 0 1) →
      k.draft.bytes = (relayInstructions send).flatMap Instruction.encode →
      (∀ g₁, w.Runs g₁ [] c ⟨k, receiver, .object 0⟩ (3 + send.width) ([argument] ++ [receiver, argument]) →
        Works [] g g₁ →
        (∀ g' v reply, o.answer? a b = some reply → g'.IsReply v reply →
          w.Runs g' [] c ⟨k, receiver, .object 0⟩ (3 + send.width) ([argument] ++ [v]) → Works [] g₁ g' →
            Halts 1 g' Q E S) →
        (Spec.effect send).Finishes g₁ (Halts.After 5 Q E S) E S) → Halts 8 g Q E S := by
    intro send hsend hbytes heffect
    obtain ⟨hself, htemporary, hsent, hreturn⟩ := decode?_relay hsend
    rw [← hbytes] at hself htemporary hsent hreturn
    have hwidth : 3 + send.width < 10 := by
      rcases hsend with ⟨index, -, rfl⟩ | rfl
      · show 4 < 10
        decide
      · decide
    refine pushSelf (n := 7) hr hself (by decide) (by rw [hframe]; simp) fun g₁ hr₁ h₁ => ?_
    refine pushTemporary (n := 6) hr₁ htemporary (by decide) rfl (by rw [htemp]; decide)
      (by rw [hframe]; simp) fun g₂ hr₂ h₂ => ?_
    refine step (n := 5) hr₂ hsent (hwidth.trans (by decide)) fun g₃ hr₃ h₃ => ?_
    refine heffect g₃ hr₃ (h₁.trans (h₂.trans h₃)) fun g' v reply hreply hv hr' h' => ?_
    refine returnLast hr' hreturn (lt_of_lt_of_le (Nat.succ_lt_succ hwidth) (by decide)) rfl fun g'' hg'' hidle h'' => ?_
    exact hQ g'' v reply hreply (hv.works h'') hg'' hidle (h₁.trans (h₂.trans (h₃.trans (h'.trans h''))))
  have hE' : ∀ g₁, Works [] g g₁ → o.answer? a b = none → ∀ g' text, w.Guides g' [] → Works [] g₁ g' →
      E (.primitiveFailed text) g' := fun g₁ h₁ hanswer g' text hg' h' => hE hanswer g' text hg' (h₁.trans h')
  cases hspecial : specialIndex? o.selector 1 with
  | some index =>
    have hlt : index < 32 := (List.getElem?_eq_some_iff.mp (o.shortcut_eq index hspecial).2).1
    have hindex : (Nat.toUInt8 index).toNat = index := Nat.mod_eq_of_lt (by omega)
    refine hrun _ (.inl ⟨index, hlt, rfl⟩) ?_ fun g₁ hr₁ h₁ hdone => ?_
    · rw [hdraft, ObjectMachine.relay, hspecial]
    show (Spec.sendSpecial (Nat.toUInt8 index).toNat).Finishes g₁ _ E S
    rw [hindex]
    exact .sendSpecial (n := 1) hr₁ (hi.works hr.guides.describes h₁) (h₁.isInteger ha) (h₁.isInteger hb) ho
      hspecial hS (by decide) hdone (hE' g₁ h₁)
  | none =>
    refine hrun _ (.inr rfl) ?_ fun g₁ hr₁ h₁ hdone => ?_
    · rw [hdraft, ObjectMachine.relay, hspecial]
    refine .literalAt o.selector hr₁ ?_ fun selector hs => ?_
    · rw [show (Job.toCompiled ⟨k, receiver, .object 0⟩).draft = _ from hdraft, ObjectMachine.relay, hspecial]
      rfl
    exact .sendOperator (n := 1) hr₁ (hi.works hr.guides.describes h₁) (h₁.isInteger ha) (h₁.isInteger hb) ho hs hS
      (by decide) hdone (hE' g₁ h₁)

end Spec

end ObjectMachine
