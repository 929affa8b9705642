import ObjectMachine.Proofs.Graph.Operating

/-!
# Messages at work

Rules for the messages that a running method sends by its literals, to itself and to its superclass, for
those that nobody understands, and for methods that try a primitive first.

## Main results

* `Spec.Finishes.sendNotUnderstood`: a message that nobody understands ends the run.
* `Spec.Finishes.tryPrimitive`: a primitive answers, or else its method is activated.
-/

namespace ObjectMachine

namespace Graph

variable {g g' : Graph} {w : World} {held : List Nat} {c pc : Nat} {j : Job} {stack : List Value}
  {name : String} {v : Value}

/-- A symbol is described by its name. -/
theorem World.Describes.describe_symbol (hw : w.Describes g.atRest) (hs : g.symbol? name = some v) :
    g.describe v = some ("#" ++ Text.utf8Text (Text.utf8Bytes name)) := by
  obtain ⟨n, rfl, hkernel, -, -, hcls, hbytes⟩ := hw.settled.isSymbol hs
  have hcls : (g.nodes n).cls = g.core.cls .symbol := hcls
  have hbytes : g.bytes (.object n) = _ := hbytes
  have hcore := hw.settled.kernel
  have hother : ∀ {k : Nat}, k < kernelObjects → Value.object n ≠ .object k := fun hk heq => by
    cases heq
    exact absurd hkernel (Nat.not_le.mpr hk)
  have htext : g.stringText (.object n) = some (Text.utf8Text (Text.utf8Bytes name)) := by
    have hsymbol : g.isText (.object n) = true := by
      unfold Graph.isText
      rw [Bool.or_eq_true_iff]
      exact .inr (decide_eq_true hcls)
    unfold Graph.stringText Graph.stringValue?
    rw [if_pos hsymbol, hbytes]
    rfl
  show (if Value.object n = g.core.nil then _ else if Value.object n = g.core.trueObject then _
    else if Value.object n = g.core.falseObject then _ else g.objectText g.arrayText (.object n)) = _
  rw [if_neg, if_neg, if_neg]
  · show (if (g.nodes n).cls = g.core.cls .symbol then _ else _) = _
    rw [if_pos hcls, htext]
    rfl
  · rw [show g.core.falseObject = _ from hcore.falseObject]
    exact hother (by decide)
  · rw [show g.core.trueObject = _ from hcore.trueObject]
    exact hother (by decide)
  · rw [show g.core.nil = _ from hcore.coreNil]
    exact hother (by decide)

/-- An object is a message with a selector. -/
structure IsMessage (g : Graph) (n : Nat) (selector : Value) : Prop where
  lt : n < g.next
  format : (g.nodes n).format = .plain
  fields : (g.nodes n).fields = Message.fieldCount
  cls : (g.nodes n).cls = g.core.cls .message
  selector : (g.nodes n).field Message.selectorField = selector

theorem IsMessage.works {n : Nat} (hn : g.IsMessage n v) (h : Works held g g') : g'.IsMessage n v := by
  have hsame := h.nodes_eq hn.lt (by rw [hn.format]; nofun)
  exact ⟨hn.lt.trans_le h.next_le, hsame ▸ hn.format, hsame ▸ hn.fields, by rw [hsame, h.core, hn.cls],
    hsame ▸ hn.selector⟩

end Graph

namespace Spec.Finishes

open ObjectMachine.Graph

variable {α : Type} {f : Unit → Spec α} {g : Graph} {w : World} {held : List Nat} {c pc : Nat} {j : Job}
  {below args : List Value} {Q : α → Graph → Prop} {E : Failure → Graph → Prop} {S : Fatal → Prop}

/-- The arguments of the send in progress become a message. -/
theorem reifyMessage (hr : w.Runs g held c j pc (below ++ args)) (hargs : g.registers.argCount = args.length)
    (hroom : below.length < j.draft.header.frameSize) (hS : S (.fault .overflow))
    (hf : ∀ g' n, w.Runs g' held c j pc (below ++ [.object n]) → Works held g g' →
      g'.IsMessage n g.registers.selector → g'.registers.selector = g.registers.selector →
      g'.registers.lookupClass = g.registers.lookupClass → g'.registers.argCount = 1 →
      (f ()).Finishes g' Q E S) : (Spec.reifyMessage >>= f).Finishes g Q E S := by
  have hendures := World.Runs.endures w held c j pc (below ++ args)
  have hkernel := hr.kernel
  unfold Spec.reifyMessage
  rw [Spec.bind_assoc]
  refine ask ?_
  rw [Spec.bind_assoc, hargs]
  have hmakes : (g.core.cls .array).Makes .array 0 := by
    rw [hkernel.cls]
    exact Value.makes_object (.inl rfl) (Nat.zero_le _) nofun
  refine bind (ask (allocate hendures hr hmakes hS)) ?_
  rintro _ _ ⟨g₁, hash, hr₁, h₁, rfl, rfl⟩
  let o := Node.fresh (g.core.cls .array) g₁.nil .array 0 args.length hash
  have hactive : ¬ (g₁.withNew o).registers.active = .object g₁.next := by
    intro heq
    have heq : g₁.registers.active = .object g₁.next := heq
    rw [hr₁.active] at heq
    exact Nat.ne_of_lt hr₁.isActivation.lt (Value.object.inj heq)
  have hself : (g₁.withNew o).nodes g₁.next = o := Function.update_self ..
  have hcopy : (g₁.withNew o).copyTop (.object g₁.next) args.length =
      some (g₁.withNew (o.filled [] args)) := by
    unfold Graph.copyTop
    rw [(hendures.withNew hr₁ o).topValues]
    refine (if_pos ⟨hactive, by rw [hself]; rfl, Nat.zero_le _, by rw [hself]; rfl, fun v hv => nomatch hv⟩).trans
      ?_
    rw [hself, setNode_withNew]
  rw [Spec.bind_assoc]
  refine write hcopy ?_
  let g₂ := g₁.withNew (o.filled [] args)
  let pinned := g₂.pinned ++ [.object g₁.next]
  have h₂ : Works held g g₂ := h₁.toWorks.trans (.withNew _)
  have hr₂ := hendures.withPinned pinned (hendures.withNew hr₁ (o.filled [] args))
  rw [Spec.bind_assoc]
  refine pin ?_
  rw [Spec.bind_assoc]
  refine ask ?_
  rw [Spec.bind_assoc]
  have hmakes : ((g₂.withPinned pinned).core.cls .message).Makes .plain Message.fieldCount := by
    rw [hr₂.kernel.cls]
    exact Value.makes_object (.inr rfl) (by decide) nofun
  refine bind (allocate hendures hr₂ hmakes hS) ?_
  rintro _ _ ⟨g₃, hash', hr₃, h₃, rfl, rfl⟩
  let o' := Node.fresh ((g₂.withPinned pinned).core.cls .message) g₃.nil .plain Message.fieldCount 0 hash'
  have hpinned : (g₃.withNew o').pinned = g₂.pinned ++ [.object g₁.next] := h₃.pinned
  rw [Spec.bind_assoc]
  refine unpin hpinned ?_
  rw [Spec.bind_assoc]
  refine ask ?_
  rw [Spec.bind_assoc]
  let g₄ := g₃.withPinned g₂.pinned
  have h₄ : Works held g g₄ := h₂.trans h₃.toWorks.unpinned
  have hsend : g₄.registers = g.registers := h₃.registers.trans h₁.registers
  let selector := (g₄.withNew o').registers.selector
  let o₁ := o'.withField Message.selectorField selector
  let o₂ := o₁.withField Message.argumentsField (.object g₁.next)
  have hstore : ∀ (o : Node) (index : Nat) (v : Value), o.format = .plain → o.fields = Message.fieldCount →
      o.len = 0 → index < Message.fieldCount →
      (g₄.withNew o).storeField (.object g₃.next) index v = some (g₄.withNew (o.withField index v)) := by
    intro o index v hformat hfields hlen hindex
    have hself : (g₄.withNew o).nodes g₃.next = o := Function.update_self ..
    have hlive : (o.withField index v).live = 0 := by
      unfold Node.live
      rw [show (o.withField index v).format = .plain from hformat]
      exact hlen
    refine (if_pos ⟨by rw [hself, hfields]; exact hindex, by rw [hself, hlive]; exact Nat.zero_le _⟩).trans ?_
    rw [hself]
    exact congrArg some (setNode_withNew g₄ ..)
  refine write (show _ = some (g₄.withNew o₂) from ?_) ?_
  · refine (congrArg (· >>= _) (hstore o' _ selector rfl rfl rfl (by decide))).trans ?_
    exact hstore o₁ _ _ rfl rfl rfl (by decide)
  have hr₅ := hendures.withNew (hendures.withPinned g₂.pinned hr₃) o₂
  have h₅ : Works held g (g₄.withNew o₂) := h₄.trans (.withNew o₂)
  have hmessage : (g₄.withNew o₂).IsMessage g₃.next g.registers.selector := by
    have hself : (g₄.withNew o₂).nodes g₃.next = o₂ := Function.update_self ..
    refine ⟨Nat.lt_succ_self _, ?_, ?_, ?_, ?_⟩ <;> rw [hself]
    · rfl
    · rfl
    · exact congrArg (Core.cls · .message) h₃.core.symm
    · show Function.update (Function.update o'.field Message.selectorField selector) Message.argumentsField
        (.object g₁.next) Message.selectorField = _
      rw [Function.update_of_ne (by decide), Function.update_self]
      exact congrArg Graph.Registers.selector hsend
  rw [Spec.bind_assoc]
  unfold Spec.replaceTop
  rw [Spec.bind_assoc]
  refine popMany hr₅ rfl ?_
  rintro _ hr₆ h₆ rfl
  refine pushed hr₆ hroom ?_
  obtain ⟨hr₇, h₇⟩ := hr₆.pushed (.object g₃.next) hroom
  obtain ⟨hr₈, h₈⟩ := hr₇.withSend g₄.registers.selector g₄.registers.lookupClass g₄.registers.newMethod 1
  refine modify (hf _ g₃.next hr₈ (h₅.trans (h₆.trans (h₇.trans h₈)))
    (((hmessage.works h₆).works h₇).works h₈) ?_ ?_ rfl)
  · show g₄.registers.selector = _
    rw [hsend]
  · show g₄.registers.lookupClass = _
    rw [hsend]

/-- The receiver of a message is looked at, and the method is found and executed. -/
theorem send {R : Option Value → Graph → Prop} {receiver cls selector method : Value} {argCount : Nat}
    {name : String} {chain : List Nat} (hr : w.Runs g held c j pc (below ++ receiver :: args))
    (hargs : argCount = args.length) (hclass : g.classOf receiver = some cls)
    (hs : g.symbol? name = some selector) (hchain : g.Ascends cls chain) (hall : ∀ c ∈ chain, c ∈ w.classes)
    (hfound : (chain.findSome? fun c => (w.log c).lookup name) = some method)
    (hnext : ∀ g', w.Runs g' held c j pc (below ++ receiver :: args) → Works held g g' →
      g'.registers.argCount = argCount → g'.registers.newMethod = method →
        Spec.executeNewMethod.Finishes g' R E S) : (Spec.send selector argCount).Finishes g R E S :=
  peek hr hargs (read hclass (sendToClass hr hs hchain hall hfound hnext))

/-- A literal of a method. -/
theorem literalAt_lt {f : Value → Spec α} {stack : List Value} {index : Nat}
    (hr : w.Runs g held c j pc stack) (hlt : index < j.draft.literals.length)
    (hf : (f ((g.nodes j.frame).element index)).Finishes g Q E S) :
    (Spec.literalAt index >>= f).Finishes g Q E S := by
  have hframe := hr.isCompiled
  have hliterals : g.registers.literals = .object j.frame := by
    rw [hr.registers]
    rfl
  have hlt : index < (g.nodes j.frame).len := hframe.count ▸ hlt
  have helement : g.element (.object j.frame) index = some ((g.nodes j.frame).element index) := by
    refine if_pos ⟨by rw [hframe.array]; rfl, hlt.trans_le (le_trans ?_ (g.live_le_known j.frame))⟩
    unfold Node.live
    rw [hframe.array]
  unfold Spec.literalAt
  rw [Spec.bind_assoc]
  refine ask ?_
  rw [Spec.bind_assoc, hliterals]
  refine read (h := (·.length (.object j.frame))) rfl ?_
  rw [if_pos hlt]
  exact read helement hf

/-- A symbol among the literals of a method. -/
theorem literalAt {f : Value → Spec α} {stack : List Value} {index : Nat} (name : String)
    (hr : w.Runs g held c j pc stack) (hi : j.draft.literals[index]? = some (.symbol name))
    (hf : ∀ selector, g.symbol? name = some selector → (f selector).Finishes g Q E S) :
    (Spec.literalAt index >>= f).Finishes g Q E S :=
  literalAt_lt hr (List.getElem?_eq_some_iff.mp hi).1 (hf _ (hr.isCompiled.symbol hi))

/-- The class above that of a method with sends to super. -/
theorem sendToSuper {R : Option Value → Graph → Prop} {stack : List Value} {index argCount n : Nat}
    {superclass method : Value} {chain : List Nat} (name : String) (hr : w.Runs g held c j pc stack)
    (hi : j.draft.literals[index]? = some (.symbol name))
    (hlast : j.draft.literals.getLast? = some .methodClass) (hn : j.cls = .object n)
    (hsuperclass : g.field (.object n) Class.superclassField = some superclass)
    (hchain : g.Ascends superclass chain) (hall : ∀ c ∈ chain, c ∈ w.classes)
    (hfound : (chain.findSome? fun c => (w.log c).lookup name) = some method)
    (hnext : ∀ g', w.Runs g' held c j pc stack → Works held g g' →
      g'.registers.argCount = argCount → g'.registers.newMethod = method →
        Spec.executeNewMethod.Finishes g' R E S) : (Spec.sendNamed true index argCount).Finishes g R E S := by
  have hk := hr.isCompiled
  have hlength : 0 < j.draft.literals.length := by
    cases hempty : j.draft.literals with
    | nil => rw [hempty] at hi; cases hi
    | cons literal rest => exact Nat.succ_pos _
  have hliterals : g.field (.object j.method) Method.literalsField = some (.object j.frame) := by
    rw [field_of_lt (by rw [hk.fields]; decide), hk.literals]
  have hcount : g.literalCount (.object j.method) = some j.draft.literals.length := by
    unfold Graph.literalCount
    rw [hliterals]
    exact congrArg some hk.count
  rw [List.getLast?_eq_getElem?] at hlast
  obtain ⟨a, ha, -, -, hfields, hvalue⟩ := hk.owner hlast
  have hliteral : g.literal (.object j.method) (j.draft.literals.length - 1) = some (.object a) := by
    have hlt : j.draft.literals.length - 1 < (g.nodes j.frame).len := by
      rw [hk.count]
      omega
    unfold Graph.literal
    rw [hliterals, ← ha]
    refine if_pos ⟨by rw [hk.array]; rfl, hlt.trans_le (le_trans ?_ (g.live_le_known j.frame))⟩
    unfold Node.live
    rw [hk.array]
  have howner : g.methodClass? g.registers.method = some (some (.object n)) := by
    have hmethod : g.registers.method = .object j.method := by
      rw [hr.registers]
      rfl
    have hshape : g.hasAssociationShape (.object a) = true := by
      unfold Graph.hasAssociationShape
      rw [node?_object]
      exact beq_iff_eq.mpr hfields
    have hfield : g.field (.object a) Association.valueField = some (.object n) := by
      rw [field_of_lt (by rw [hfields]; decide), hvalue, hn]
    unfold Graph.methodClass?
    rw [hmethod, hcount]
    show (if j.draft.literals.length = 0 then _ else _) = _
    rw [if_neg hlength.ne', hliteral]
    show (if g.hasAssociationShape (.object a) = true then _ else _) = _
    rw [if_pos hshape, hfield]
    rfl
  refine literalAt name hr hi fun selector hs => ?_
  exact ask (read howner (read hsuperclass (sendToClass hr hs hchain hall hfound hnext)))

/-- Nobody understands the last message that could be sent, which has an argument. -/
theorem failNotUnderstood {R : α → Graph → Prop} {receiver : Value} {n : Nat} {name text : String}
    (hr : w.Runs g held c j pc (below ++ [receiver, .object n])) (hargs : g.registers.argCount = 1)
    {selector : Value} (hn : g.IsMessage n selector) (hs : g.symbol? name = some selector)
    (htext : g.describe receiver = some text)
    (hE : E (.execution (.notUnderstood text ("#" ++ Text.utf8Text (Text.utf8Bytes name)))) g) :
    (Spec.failNotUnderstood : Spec α).Finishes g R E S := by
  have hselector : g.unknownSelector = some selector := by
    have hstack : g.stackValue 0 = some (.object n) := by
      rw [List.append_cons] at hr
      exact hr.stackValue
    have hmessage : g.isInstance .message (.object n) = true := decide_eq_true hn.cls
    unfold Graph.unknownSelector
    rw [hstack]
    show (if g.isInstance .message (.object n) = true then _ else _) = _
    rw [if_pos hmessage, field_of_lt (by rw [hn.fields]; decide), hn.selector]
  refine ask ?_
  rw [hargs]
  refine peekReceiver hr (read hselector (read htext (read (hr.guides.describes.describe_symbol hs) ?_)))
  refine fail ?_
  rintro _ rfl
  exact hE

/-- A message that nobody understands ends the run. -/
theorem sendNotUnderstood {R : Option Value → Graph → Prop} {receiver cls selector : Value} {argCount : Nat}
    {name : String} {chain : List Nat} (hr : w.Runs g held c j pc (below ++ receiver :: args))
    (hargs : argCount = args.length) (hroom : below.length + 1 < j.draft.header.frameSize)
    (hclass : g.classOf receiver = some cls) (hs : g.symbol? name = some selector)
    (hlast : g.symbol? "doesNotUnderstand:" = some g.core.doesNotUnderstand)
    (hname : name ≠ "doesNotUnderstand:") (hchain : g.Ascends cls chain) (hall : ∀ c ∈ chain, c ∈ w.classes)
    (hlacks : (chain.findSome? fun c => (w.log c).lookup name) = none)
    (hlacks' : (chain.findSome? fun c => (w.log c).lookup "doesNotUnderstand:") = none)
    (htext : ∀ g', w.Guides g' (c :: held) → Works held g g' → ∃ text, g'.describe receiver = some text)
    (hS : S (.fault .overflow))
    (hE : ∀ g' text, w.Guides g' (c :: held) → Works held g g' →
      E (.execution (.notUnderstood text ("#" ++ Text.utf8Text (Text.utf8Bytes name)))) g') :
    (Spec.send selector argCount).Finishes g R E S := by
  refine peek hr hargs (read hclass ?_)
  obtain ⟨hr₁, h₁⟩ := hr.withSend selector cls g.registers.newMethod argCount
  refine modify (bind (R := fun _ _ => False) ?_ fun _ _ h => h.elim)
  refine bind (findMethod hr₁ hs (hchain.congr fun _ _ => rfl) hall) ?_
  rintro found g₂ ⟨hr₂, h₂, hmatch⟩
  rw [hlacks] at hmatch
  obtain ⟨rfl, hregisters₂⟩ := hmatch
  refine ask (ask ?_)
  have hsymbols := hr.guides.describes.settled.symbolsDistinct
  have hne : ¬ g₂.registers.selector = g₂.core.doesNotUnderstand := by
    rw [hregisters₂, (h₁.trans h₂).core]
    intro heq
    rw [← show selector = g.core.doesNotUnderstand from heq] at hlast
    exact hname (hsymbols.name_unique (mem_of_named? hs) (mem_of_named? hlast))
  rw [if_neg hne]
  rw [List.append_cons] at hr₂
  have hargs₂ : g₂.registers.argCount = args.length := by
    rw [hregisters₂]
    exact hargs
  refine reifyMessage hr₂ hargs₂ (by simpa using hroom) hS ?_
  intro g₃ n hr₃ h₃ hn hselector₃ hlookup₃ hargs₃
  rw [hregisters₂] at hn hlookup₃
  obtain ⟨hr₄, h₄⟩ := hr₃.withSend g₃.core.doesNotUnderstand g₃.registers.lookupClass g₃.registers.newMethod
    g₃.registers.argCount
  have hworks := (h₁.trans h₂).trans (h₃.trans h₄)
  have hs₃ : g₃.symbol? "doesNotUnderstand:" = some g₃.core.doesNotUnderstand := by
    rw [((h₁.trans h₂).trans h₃).symbol?, ((h₁.trans h₂).trans h₃).core, hlast]
  have hchain₃ : g₃.Ascends g₃.registers.lookupClass chain := by
    rw [hlookup₃]
    exact hr.guides.describes.ascends_works ((h₁.trans h₂).trans h₃) hchain hall
  refine ask (modify (bind (findMethod hr₄ hs₃ (hchain₃.congr fun _ _ => rfl) hall) ?_))
  rintro found g₅ ⟨hr₅, h₅, hmatch⟩
  rw [hlacks'] at hmatch
  obtain ⟨rfl, hregisters₅⟩ := hmatch
  have hworks₅ := hworks.trans h₅
  obtain ⟨text, htext⟩ := htext g₅ hr₅.guides hworks₅
  rw [List.append_assoc] at hr₅
  refine failNotUnderstood hr₅ ?_ ((hn.works h₄).works h₅) (hworks₅.symbol?.trans hs) htext
    (hE g₅ text hr₅.guides hworks₅)
  rw [hregisters₅]
  exact hargs₃

/-- The primitive of a method for two operands answers, or else the method is activated. -/
theorem tryPrimitive {R : Option Value → Graph → Prop} {receiver argument : Value} {k : Compiled}
    {primitive : Primitive} {reply? : Option Reply}
    (hk : w.IsCompiled g k)
    (hmethod : g.registers.newMethod = .object k.method) (hargs : g.registers.argCount = 1)
    (hflag : k.draft.header.flag? = some .normal) (hcount : k.draft.header.argCount = 1)
    (htemps : k.draft.header.tempCount = 1)
    (hindex : Primitive.ofIndex? k.draft.header.primitiveIndex = some primitive)
    (hrun : Spec.runPrimitive primitive 1 = Spec.result primitive >>= Spec.answer? 1)
    (hS : S (.fault .overflow))
    (hresult : (Spec.result primitive).Finishes g (fun found g' =>
      w.Runs g' held c j pc (below ++ [receiver, argument]) ∧ Idles held g g' ∧
        Option.Rel g'.IsReply found reply?) E S)
    (hdone : ∀ g' v reply, reply? = some reply → g'.IsReply v reply → w.Runs g' held c j pc (below ++ [v]) →
      Works held g g' → R none g')
    (hfailed : ∀ g' n, reply? = none → w.Runs g' (c :: held) n ⟨k, receiver, .object c⟩ 0 [argument] →
      w.Waits g' c j pc below → Works held g g' → R none g') :
    Spec.executeNewMethod.Finishes g R E S := by
  have hinvoke : Spec.invokeFor k.draft.header 1 = Spec.result primitive >>= Spec.answer? 1 := by
    have hne : ¬ k.draft.header.primitiveIndex = 0 := by
      intro hzero
      rw [hzero] at hindex
      cases hindex
    unfold Spec.invokeFor Spec.invoke
    rw [if_neg hne, hindex]
    exact hrun
  unfold Spec.executeNewMethod
  refine ask (read (a := k.draft.header) (by rw [hmethod]; exact hk.header_eq) ?_)
  rw [hflag]
  dsimp only
  rw [hargs, hinvoke, Spec.bind_assoc]
  refine bind hresult ?_
  rintro found g₁ ⟨hr₁, h₁, hrel⟩
  cases hrel with
  | none =>
    rw [show Spec.answer? 1 none = Pure.pure Graph.Verdict.failed from rfl, Spec.pure_bind]
    refine activateNewMethod hr₁ (hk.works h₁.toWorks) ?_ ?_ hcount htemps hS
      fun g' n hr' hwaits h' => pure (hfailed g' n rfl hr' hwaits (h₁.toWorks.trans h'))
    · rw [h₁.registers, hmethod]
    · rw [h₁.registers, hargs]
      rfl
  | some hv =>
    rw [show Spec.answer? 1 (some _) = Spec.replaceTop 2 _ >>= fun _ => Pure.pure Graph.Verdict.done from rfl,
      Spec.bind_assoc]
    refine replaceTop hr₁ rfl (by decide) fun g₂ hr₂ h₂ => ?_
    rw [Spec.pure_bind]
    exact pure (hdone g₂ _ _ rfl (hv.works h₂) hr₂ (h₁.toWorks.trans h₂))

end Spec.Finishes

end ObjectMachine
