import ObjectMachine.Proofs.Graph.Activating

/-!
# Methods at work

Rules for the instructions of a method that runs: what each does to the values on its stack. Together they
execute a method step by step, as far as its instructions are known. A message is sent by such an
instruction: the method is found, executed or activated, and its answer takes the place of the receiver and
the arguments.

## Main results

* `Spec.Halts`: a run comes to an end after a number of instructions.
* `Spec.Halts.pushSelf`, `Spec.Halts.pushTemporary`: an instruction is executed.
* `Spec.Finishes.sendToClass`: the method of a message is found.
* `Spec.Finishes.activateNewMethod`: it is activated, and the sender waits.
* `Spec.Halts.returnTop`: it answers, and the sender goes on.
-/

namespace ObjectMachine

/-! ## Registers and values -/

namespace Graph.World.Runs

variable {g g' : Graph} {w : World} {held : List Nat} {c pc pc' : Nat} {j : Job}
  {stack stack' below above : List Value} {v : Value}

theorem receiver (hr : w.Runs g held c j pc stack) : g.registers.receiver = j.receiver := by
  rw [hr.registers]
  rfl

/-- The method runs on with other registers. -/
theorem withRegisters (hr : w.Runs g held c j pc stack) {registers : Registers}
    (hregisters : registers = registers.running c j pc' stack'.length g.registers.tempLimit)
    (hvalues : g.Stacked c stack') (hfits : stack'.length ≤ j.draft.header.frameSize)
    (hpc : pc' < Ref.addressLimit) :
    w.Runs { g with registers } held c j pc' stack' ∧ Works held g { g with registers } := by
  have h : Works held g { g with registers } := .other g registers g.memo g.pool
  refine ⟨⟨hr.toIsAt.moves h (fun _ _ _ => rfl) hvalues hfits hpc, hr.guides.works h rfl
    (hr.guides.pooled.works h rfl), hr.apart, ?_⟩, h⟩
  rw [← hr.tempLimit]
  exact hregisters

theorem withPc (hr : w.Runs g held c j pc stack) (hpc : pc' < Ref.addressLimit) :
    w.Runs (g.withPc pc') held c j pc' stack ∧ Works held g (g.withPc pc') := by
  refine hr.withRegisters ?_ hr.values hr.fits hpc
  rw [hr.registers]
  rfl

/-- Values are dropped from the stack. -/
theorem withSp (hr : w.Runs g held c j pc (below ++ above)) :
    w.Runs (g.withSp below.length) held c j pc below ∧ Works held g (g.withSp below.length) := by
  have hfits := hr.fits
  rw [List.length_append] at hfits
  refine hr.withRegisters ?_ (fun i v hi => hr.values i v ?_) (by omega) hr.pc_lt
  · rw [hr.registers]
    rfl
  · rw [List.getElem?_append_left (List.getElem?_eq_some_iff.mp hi).1]
    exact hi

/-- Another message is about to be sent. -/
theorem withSend (hr : w.Runs g held c j pc stack) (selector lookupClass newMethod : Value)
    (argCount : Nat) :
    let registers := { g.registers with selector, argCount, lookupClass, newMethod }
    w.Runs { g with registers } held c j pc stack ∧ Works held g { g with registers } := by
  refine hr.withRegisters ?_ hr.values hr.fits hr.pc_lt
  rw [hr.registers]
  rfl

/-- A value is pushed. -/
theorem pushed (hr : w.Runs g held c j pc stack) (v : Value)
    (hroom : stack.length < j.draft.header.frameSize) :
    w.Runs (g.pushed c v) held c j pc (stack ++ [v]) ∧ Works held g (g.pushed c v) := by
  let o := (g.nodes c).withElement stack.length v
  have hnode : Works held g (g.setNode c o) := .setNode ⟨rfl, rfl, rfl⟩ rfl hr.isActivation.context hr.apart
  have hself : (g.setNode c o).nodes c = o := Function.update_self ..
  have hbelow : ∀ i u, stack[i]? = some u → o.element i = u := fun i u hi =>
    (congrFun (Node.element_withElement ..) i).trans
      ((Function.update_of_ne (List.getElem?_eq_some_iff.mp hi).1.ne ..).trans (hr.values i u hi))
  have hr₁ : w.Runs (g.setNode c o) held c j pc stack :=
    { toIsAt := hr.toIsAt.moves hnode (fun _ _ _ => by rw [hself]; rfl) (fun i u hi => by
        rw [hself]
        exact hbelow i u hi) hr.fits hr.pc_lt
      guides := hr.guides.works hnode rfl (hr.guides.pooled.works hnode rfl)
      apart := hr.apart
      registers := by
        rw [hself]
        exact hr.registers }
  have heq : g.pushed c v = (g.setNode c o).withSp (stack ++ [v]).length := by
    unfold Graph.pushed
    rw [hr.sp_eq, List.length_append]
    rfl
  rw [heq]
  have hstep : w.Runs ((g.setNode c o).withSp (stack ++ [v]).length) held c j pc (stack ++ [v]) ∧
      Works held (g.setNode c o) ((g.setNode c o).withSp (stack ++ [v]).length) :=
    hr₁.withRegisters ?_ ?_ ?_ hr.pc_lt
  · exact ⟨hstep.1, hnode.trans hstep.2⟩
  · rw [show (g.setNode c o).registers = g.registers from rfl, hr.registers]
    rfl
  · intro i u hi
    rw [hself]
    rcases Nat.lt_or_ge i stack.length with hlt | hge
    · rw [List.getElem?_append_left hlt] at hi
      exact hbelow i u hi
    · rw [List.getElem?_append_right hge] at hi
      obtain ⟨hlt, hu⟩ := List.getElem?_eq_some_iff.mp hi
      rw [List.length_singleton] at hlt
      obtain rfl : i = stack.length := by omega
      rw [List.getElem_singleton] at hu
      exact (congrFun (Node.element_withElement ..) _).trans ((Function.update_self ..).trans hu)
  · rw [List.length_append]
    exact hroom

/-- A value lies below others. -/
theorem stackValue (hr : w.Runs g held c j pc (below ++ v :: above)) :
    g.stackValue above.length = some v := by
  unfold Graph.stackValue
  rw [hr.active?]
  have hlength : (below ++ v :: above).length = below.length + (above.length + 1) := by simp
  show (if above.length < g.registers.sp then _ else _) = _
  rw [hr.sp_eq, hlength, if_pos (by omega),
    show below.length + (above.length + 1) - 1 - above.length = below.length by omega]
  exact congrArg some (hr.values _ _ (by simp))

/-- The instruction at the position of a method is the next one. -/
theorem next? (hr : w.Runs g held c j pc stack) : g.next? = Instruction.decode? j.draft.bytes pc := by
  have hcode : g.codeBytes = some j.draft.bytes := by
    unfold Graph.codeBytes
    rw [hr.active?]
    show g.bytes g.registers.code = _
    rw [show g.registers.code = .object j.code by rw [hr.registers]; rfl, hr.isCompiled.bytes]
  unfold Graph.next?
  rw [hcode, hr.pc_eq]
  rfl

end Graph.World.Runs

/-! ## The stack -/

namespace Spec.Finishes

open ObjectMachine.Graph

variable {α : Type} {f : Unit → Spec α} {g : Graph} {w : World} {held : List Nat} {c pc depth count : Nat}
  {j : Job} {stack below above : List Value} {v : Value} {Q : α → Graph → Prop}
  {E : Failure → Graph → Prop} {S : Fatal → Prop}

theorem peek {f : Value → Spec α} (hr : w.Runs g held c j pc (below ++ v :: above))
    (hdepth : depth = above.length) (hf : (f v).Finishes g Q E S) :
    (Spec.peek depth >>= f).Finishes g Q E S :=
  read (hdepth ▸ hr.stackValue) hf

/-- A value is pushed, and nothing else is changed. -/
theorem pushed (hr : w.Runs g held c j pc stack) (hroom : stack.length < j.draft.header.frameSize)
    (hf : (f ()).Finishes (g.pushed c v) Q E S) : (Spec.push v >>= f).Finishes g Q E S := by
  unfold Spec.push
  rw [Spec.bind_assoc]
  refine read hr.active? ?_
  rw [Spec.bind_assoc]
  refine ask ?_
  rw [if_pos (decide_eq_true (by rw [hr.sp_eq]; exact hroom.trans_le hr.isActivation.room))]
  exact modify hf

theorem push (hr : w.Runs g held c j pc stack) (hroom : stack.length < j.draft.header.frameSize)
    (hf : ∀ g', w.Runs g' held c j pc (stack ++ [v]) → Works held g g' → (f ()).Finishes g' Q E S) :
    (Spec.push v >>= f).Finishes g Q E S :=
  have hpushed := hr.pushed v hroom
  pushed hr hroom (hf _ hpushed.1 hpushed.2)

theorem popMany (hr : w.Runs g held c j pc (below ++ above)) (hcount : count = above.length)
    (hf : ∀ g', w.Runs g' held c j pc below → Works held g g' → g' = g.withSp below.length →
      (f ()).Finishes g' Q E S) : (Spec.popMany count >>= f).Finishes g Q E S := by
  obtain ⟨hr', h⟩ := hr.withSp
  have hsp := hr.sp_eq
  rw [List.length_append] at hsp
  unfold Spec.popMany
  rw [Spec.bind_assoc]
  refine ask ?_
  rw [if_pos (decide_eq_true (by omega))]
  refine modify ?_
  rw [show g.registers.sp - count = below.length by omega]
  exact hf _ hr' h rfl

theorem pop {f : Value → Spec α} (hr : w.Runs g held c j pc (below ++ [v]))
    (hf : ∀ g', w.Runs g' held c j pc below → Works held g g' → (f v).Finishes g' Q E S) :
    (Spec.pop >>= f).Finishes g Q E S := by
  obtain ⟨hr', h⟩ := hr.withSp
  have hsp := hr.sp_eq
  rw [List.length_append, List.length_singleton] at hsp
  unfold Spec.pop
  rw [Spec.bind_assoc]
  refine ask ?_
  rw [if_pos (decide_eq_true (by omega)), Spec.bind_assoc]
  refine peek hr rfl ?_
  rw [Spec.bind_assoc]
  refine modify ?_
  rw [Spec.pure_bind, show g.registers.sp - 1 = below.length by omega]
  exact hf _ hr' h

theorem replaceTop (hr : w.Runs g held c j pc (below ++ above)) (hcount : count = above.length)
    (hpos : 0 < count)
    (hf : ∀ g', w.Runs g' held c j pc (below ++ [v]) → Works held g g' → (f ()).Finishes g' Q E S) :
    (Spec.replaceTop count v >>= f).Finishes g Q E S := by
  have hfits := hr.fits
  rw [List.length_append] at hfits
  unfold Spec.replaceTop
  rw [Spec.bind_assoc]
  refine popMany hr hcount fun g₁ hr₁ h₁ _ => ?_
  exact push hr₁ (by omega) fun g₂ hr₂ h₂ => hf g₂ hr₂ (h₁.trans h₂)

end Spec.Finishes

/-! ## Runs -/

namespace Spec

open ObjectMachine.Graph

/-- A run comes to an end after a number of instructions. -/
def Halts (n : Nat) (g : Graph) (Q : Value → Graph → Prop) (E : Failure → Graph → Prop)
    (S : Fatal → Prop) : Prop :=
  ∀ fuel ≥ n, (Spec.run fuel).Finishes g Q E S

namespace Halts

variable {g : Graph} {w : World} {held : List Nat} {c pc n : Nat} {j : Job} {stack below : List Value}
  {v : Value} {i : Instruction} {Q : Value → Graph → Prop} {E : Failure → Graph → Prop} {S : Fatal → Prop}

/-- How a run goes on after an instruction. -/
def After (n : Nat) (Q : Value → Graph → Prop) (E : Failure → Graph → Prop) (S : Fatal → Prop)
    (result : Option Value) (g : Graph) : Prop :=
  match result with
  | none => Halts n g Q E S
  | some v => Q v g

theorem mono {n' : Nat} (h : Halts n g Q E S) (hle : n ≤ n') : Halts n' g Q E S :=
  fun fuel hfuel => h fuel (hle.trans hfuel)

/-- An instruction is executed. -/
theorem step (hr : w.Runs g held c j pc stack) (hi : Instruction.decode? j.draft.bytes pc = some i)
    (hpc : pc + i.width < Ref.addressLimit)
    (heffect : ∀ g', w.Runs g' held c j (pc + i.width) stack → Works held g g' →
      (Spec.effect i).Finishes g' (After n Q E S) E S) : Halts (n + 1) g Q E S := by
  intro fuel hfuel
  obtain ⟨hr', h⟩ := hr.withPc hpc
  cases fuel with
  | zero => exact absurd hfuel (Nat.not_succ_le_zero n)
  | succ fuel =>
    have hstep : Spec.step.Finishes g (After n Q E S) E S := by
      refine Finishes.of_eq (Spec.step_next (hr.next?.trans hi)) ?_
      rw [hr.pc_eq]
      exact heffect _ hr' h
    refine Finishes.bind hstep fun result g' hafter => ?_
    cases result with
    | none => exact hafter fuel (Nat.le_of_succ_le_succ hfuel)
    | some v => exact .pure hafter

/-- The receiver is pushed. -/
theorem pushSelf (hr : w.Runs g held c j pc stack)
    (hi : Instruction.decode? j.draft.bytes pc = some (.constant .self)) (hpc : pc + 1 < Ref.addressLimit)
    (hroom : stack.length < j.draft.header.frameSize)
    (hnext : ∀ g', w.Runs g' held c j (pc + 1) (stack ++ [j.receiver]) → Works held g g' →
      Halts n g' Q E S) : Halts (n + 1) g Q E S := by
  refine step hr hi hpc fun g₁ hr₁ h₁ => .ask ?_
  rw [show g₁.constantValue .self = j.receiver from hr₁.receiver]
  exact .push hr₁ hroom fun g₂ hr₂ h₂ => .pure (hnext g₂ hr₂ (h₁.trans h₂))

/-- A temporary is pushed. -/
theorem pushTemporary {index : UInt8} (hr : w.Runs g held c j pc stack)
    (hi : Instruction.decode? j.draft.bytes pc = some (.push .temporary index))
    (hpc : pc + 2 < Ref.addressLimit) (hv : stack[index.toNat]? = some v)
    (htemp : index.toNat < j.draft.header.tempCount) (hroom : stack.length < j.draft.header.frameSize)
    (hnext : ∀ g', w.Runs g' held c j (pc + 2) (stack ++ [v]) → Works held g g' → Halts n g' Q E S) :
    Halts (n + 1) g Q E S := by
  refine step hr hi hpc fun g₁ hr₁ h₁ => ?_
  have hlt := (List.getElem?_eq_some_iff.mp hv).1
  have hlen := hlt.trans_le (hr₁.fits.trans hr₁.isActivation.room)
  have hlimit : g₁.tempLimit = some (min j.draft.header.tempCount (g₁.nodes c).len) := by
    unfold Graph.tempLimit
    rw [hr₁.active?, ← hr₁.tempLimit]
    rfl
  have hread : g₁.temporary index.toNat = some v := by
    unfold Graph.temporary
    rw [hr₁.active?]
    show g₁.element g₁.registers.home index.toNat = _
    rw [hr₁.home]
    refine (if_pos ⟨by rw [hr₁.isActivation.context]; rfl, ?_⟩).trans (congrArg some (hr₁.values _ _ hv))
    unfold Graph.known
    rw [if_pos hr₁.active, hr₁.sp_eq]
    exact hlt.trans_le (Nat.le_max_right ..)
  have hvalue : (Spec.variableValue .temporary index.toNat).Finishes g₁ (fun u g' => u = v ∧ g' = g₁) E S := by
    unfold Spec.variableValue Spec.checkTemporary
    dsimp only
    rw [Spec.bind_assoc]
    refine .read hlimit ?_
    rw [if_pos (lt_min htemp hlen)]
    refine Finishes.bind (R := fun _ g' => g' = g₁) (.pure rfl) ?_
    rintro _ _ rfl
    refine ⟨.read_last hread ⟨rfl, rfl⟩, ?_⟩
    rw [Spec.read_of_some hread]
    nofun
  refine Finishes.bind hvalue ?_
  rintro _ _ ⟨rfl, rfl⟩
  exact .push hr₁ hroom fun g₂ hr₂ h₂ => .pure (hnext g₂ hr₂ (h₁.trans h₂))

end Halts

end Spec

/-! ## Lookups -/

namespace Graph

variable {g : Graph} {w : World} {held busy : List Nat} {c pc : Nat} {j : Job} {stack : List Value}

/-- What is remembered may be anything that lookups find. -/
theorem World.Runs.withMemo (hr : w.Runs g held c j pc stack) {memo : Value → Value → Value → Prop}
    (hmemo : w.Remembers { g with memo }) :
    w.Runs { g with memo } held c j pc stack ∧ Idles held g { g with memo } := by
  have h : Works (c :: held) g { g with memo } := .other g g.registers memo g.pool
  have hpooled := hr.guides.pooled.works h rfl
  exact ⟨(World.Runs.endures w held c j pc stack).works hr h rfl ⟨hr.guides.describes.works h, hmemo, hpooled⟩,
    h.mono (List.subset_cons_self ..), rfl⟩

end Graph

namespace Spec.Finishes

open ObjectMachine.Graph

variable {α : Type} {g : Graph} {w : World} {held busy chain : List Nat} {c pc argCount : Nat} {j : Job}
  {k : Compiled} {stack below args : List Value} {cls selector v receiver : Value} {name : String}
  {E : Failure → Graph → Prop} {S : Fatal → Prop}

/-- A lookup finds what was added last, whether it is remembered or not. -/
theorem lookup (hg : w.Guides g busy) (hs : g.symbol? name = some selector)
    (hchain : g.Ascends cls chain) (hall : ∀ c ∈ chain, c ∈ w.classes) :
    (Spec.lookup cls selector).Finishes g (fun found g' =>
      found = (chain.findSome? fun c => (w.log c).lookup name) ∧
        ∃ memo, g' = { g with memo } ∧ w.Remembers { g with memo }) E S := by
  have hsymbols := hg.describes.settled.symbolsDistinct
  have hname : ∀ {name'}, g.symbol? name' = some selector → name' = name := fun hs' =>
    hsymbols.name_unique (mem_of_named? hs') (mem_of_named? hs)
  refine either ⟨?_, ?_⟩ ?_
  · rintro r ⟨method, hm, rfl⟩
    obtain ⟨name', chain', hs', hchain', -, hlookup⟩ := hg.remembers hm
    obtain rfl := hname hs'
    obtain rfl := hchain'.unique hchain
    exact ⟨hlookup.symm, g.memo, rfl, hg.remembers⟩
  · rintro ⟨method, -, h⟩
    cases h
  have hfound := hg.describes.lookupMethod?_atWork hchain hall hs
  refine read hfound ?_
  cases hmethod : chain.findSome? fun c => (w.log c).lookup name with
  | none => exact pure ⟨rfl, g.memo, rfl, hg.remembers⟩
  | some method =>
    refine modify (pure ⟨rfl, _, rfl, ?_⟩)
    intro cls' selector' method' hm
    have hsame : ∀ {memo} {v : Value} {above : List Nat}, g.Ascends v above → Ascends { g with memo } v above :=
      fun h => h.congr fun _ _ => rfl
    rcases hm with hm | ⟨rfl, rfl, rfl⟩
    · obtain ⟨name', chain', hs', hchain', hrest⟩ := hg.remembers hm
      exact ⟨name', chain', hs', hsame hchain', hrest⟩
    · exact ⟨name, chain, hs, hsame hchain, hall, hmethod⟩

/-- The method of the send in progress is found, if there is one. -/
theorem findMethod (hr : w.Runs g held c j pc stack) (hs : g.symbol? name = some g.registers.selector)
    (hchain : g.Ascends g.registers.lookupClass chain) (hall : ∀ c ∈ chain, c ∈ w.classes) :
    Spec.findMethod.Finishes g (fun found g' => w.Runs g' held c j pc stack ∧ Works held g g' ∧
      match chain.findSome? fun c => (w.log c).lookup name with
      | some method => found = true ∧ g'.registers = { g.registers with newMethod := method }
      | none => found = false ∧ g'.registers = g.registers) E S := by
  refine ask (bind (lookup hr.guides hs hchain hall) ?_)
  rintro _ _ ⟨rfl, memo, rfl, hmemo⟩
  obtain ⟨hr₁, h₁⟩ := hr.withMemo hmemo
  cases hfound : chain.findSome? fun c => (w.log c).lookup name with
  | none => exact pure ⟨hr₁, h₁.toWorks, rfl, rfl⟩
  | some method =>
    obtain ⟨hr₂, h₂⟩ := hr₁.withSend g.registers.selector g.registers.lookupClass method
      g.registers.argCount
    exact modify (pure ⟨hr₂, h₁.toWorks.trans h₂, rfl, rfl⟩)

/-- The method of a message is found and executed. -/
theorem sendToClass {method : Value} {R : Option Value → Graph → Prop} (hr : w.Runs g held c j pc stack)
    (hs : g.symbol? name = some selector) (hchain : g.Ascends cls chain) (hall : ∀ c ∈ chain, c ∈ w.classes)
    (hfound : (chain.findSome? fun c => (w.log c).lookup name) = some method)
    (hnext : ∀ g', w.Runs g' held c j pc stack → Works held g g' → g'.registers.argCount = argCount →
      g'.registers.newMethod = method → Spec.executeNewMethod.Finishes g' R E S) :
    (Spec.sendToClass selector cls argCount).Finishes g R E S := by
  obtain ⟨hr₁, h₁⟩ := hr.withSend selector cls g.registers.newMethod argCount
  refine modify ?_
  refine bind (R := fun _ g' => w.Runs g' held c j pc stack ∧ Works held g g' ∧
    g'.registers.argCount = argCount ∧ g'.registers.newMethod = method) ?_ fun _ g' h =>
      hnext g' h.1 h.2.1 h.2.2.1 h.2.2.2
  refine bind (findMethod hr₁ hs (hchain.congr fun _ _ => rfl) hall) ?_
  rintro found g₂ ⟨hr₂, h₂, hmatch⟩
  rw [hfound] at hmatch
  obtain ⟨rfl, hregisters⟩ := hmatch
  refine pure ⟨hr₂, h₁.trans h₂, ?_, ?_⟩ <;> rw [hregisters]

end Spec.Finishes

/-! ## Activations -/

theorem Node.hash_filled (o : Node) (fields elements : List Value) :
    (o.filled fields elements).hash = o.hash := by
  obtain ⟨_, _, h, -⟩ := o.filled_eq fields elements
  rw [h]

/-- A context at the beginning of a method. -/
def Node.begun (o : Node) (sender method nil receiver : Value) (args : List Value) : Node :=
  (o.filled [sender, .immediate .zero, .immediate (.ofNat args.length), method, nil, receiver]
    (List.replicate args.length nil)).filled [] args

theorem ContextPool.le_frameSizeFor (needed : Nat) : needed ≤ frameSizeFor needed := by
  unfold frameSizeFor
  split
  · assumption
  · split
    · assumption
    · exact Nat.le_refl _

namespace Graph

/-- A context that is not active is filled in. -/
theorem IsFree.initMethod {g : Graph} {size n count : Nat} {sender method receiver : Value}
    (hn : g.IsFree size n) (hactive : g.registers.active ≠ .object n) (hcount : count ≤ size) :
    g.initMethod (.object n) sender method receiver count = some (g.setNode n ((g.nodes n).filled
      [sender, .immediate .zero, .immediate (.ofNat count), method, g.nil, receiver]
      (List.replicate count g.nil))) := by
  refine if_pos ⟨hactive, by rw [hn.format]; rfl, by rw [hn.fields]; exact Nat.le_refl 6, ?_,
    fun v hv => ⟨hn.format, ?_⟩⟩
  · rw [List.length_replicate, hn.len]
    exact hcount
  · rw [List.length_replicate]
    cases hv
    rfl

/-- A context that was filled in for a method waits for it to begin. -/
theorem World.IsCompiled.begun {g : Graph} {w : World} {k : Compiled} {n size : Nat}
    {args : List Value} {held : List Nat} (hk : w.IsCompiled g k) (receiver sender : Value) (hn : g.IsFree size n)
    (hroom : k.draft.header.frameSize ≤ size) (htemps : k.draft.header.tempCount = args.length)
    (hheld : n ∉ held) :
    let g' := g.setNode n ((g.nodes n).begun sender (.object k.method) g.nil receiver args)
    Works held g g' ∧ w.Waits g' n ⟨k, receiver, sender⟩ 0 args := by
  let o := (g.nodes n).begun sender (.object k.method) g.nil receiver args
  have h : Works held g (g.setNode n o) := .setNode
    ((Node.sameLayout_filled ..).trans (Node.sameLayout_filled ..))
    ((Node.hash_filled ..).trans (Node.hash_filled ..)) hn.format hheld
  have hself : (g.setNode n o).nodes n = o := Function.update_self ..
  have hfree := hn.works h
  have hfield : ∀ i v, [sender, .immediate .zero, .immediate (.ofNat args.length), .object k.method, g.nil,
      receiver][i]? = some v → ((g.setNode n o).nodes n).field i = v := fun i v hi => by
    rw [hself]
    refine (Node.field_filled ..).trans ?_
    rw [Node.field_filled]
    exact congrArg (Option.getD · _) hi
  exact ⟨h,
    { isCompiled := hk.works h
      isActivation :=
        { lt := hfree.lt
          context := hfree.format
          fields := hfree.fields
          sender := hfield Context.senderField _ rfl
          method := hfield Context.methodField _ rfl
          receiver := hfield Context.receiverField _ rfl
          room := hroom.trans_eq hfree.len.symm }
      values := fun i v hi => by
        rw [hself]
        exact (Node.element_filled ..).trans (congrArg (Option.getD · _) hi)
      fits := htemps ▸ Nat.le_add_right ..
      pc_lt := by decide
      pc_eq := hfield Context.pcField _ rfl
      sp_eq := hfield Context.spField _ rfl }⟩

variable {g : Graph} {w : World} {held busy : List Nat} {c n pc : Nat} {j : Job} {k : Compiled}
  {below args : List Value} {receiver : Value}

theorem World.Runs.topValues (hr : w.Runs g held c j pc (below ++ args)) :
    g.topValues args.length = some args := by
  unfold Graph.topValues
  rw [hr.active?]
  show (if args.length ≤ g.registers.sp then _ else _) = _
  rw [hr.sp_eq, List.length_append, if_pos (Nat.le_add_left ..), Nat.add_sub_cancel]
  refine congrArg some (List.ext_getElem (by simp) fun i hi hi' => ?_)
  rw [List.getElem_map, List.getElem_range]
  refine hr.values _ _ ?_
  rw [List.getElem?_append_right (Nat.le_add_right ..), Nat.add_sub_cancel_left]
  exact List.getElem?_eq_getElem hi'

/-- The sender waits, and a context that was filled in for a method becomes the active one. -/
theorem World.Runs.leaveFor {α : Type} {f : Unit → Spec α} {Q : α → Graph → Prop}
    {E : Failure → Graph → Prop} {S : Fatal → Prop} {j' : Job} {pc' : Nat} {stack' above : List Value}
    (hr : w.Runs g held c j pc (below ++ above)) {argCount : Nat} (hcount : argCount + 1 = above.length)
    (hwaits : w.Waits g n j' pc' stack') (hguides : w.Guides g (n :: c :: held)) (hn : n ∉ c :: held)
    (hnext : ∀ g', w.Runs g' (c :: held) n j' pc' stack' → w.Waits g' c j pc below → Works held g g' →
      (f ()).Finishes g' Q E S) : (Spec.leaveFor (.object n) argCount >>= f).Finishes g Q E S := by
  have hne : n ≠ c := fun heq => hn (heq ▸ List.mem_cons_self)
  unfold Spec.leaveFor
  rw [Spec.bind_assoc]
  refine .popMany hr hcount fun g₁ hr₁ h₁ heq₁ => ?_
  obtain ⟨hwaits₂, h₂, -⟩ := hr₁.suspended
  rw [Spec.bind_assoc]
  refine .write hr₁.flush ?_
  let g₂ := g₁.setNode c ((g₁.nodes c).suspended pc below.length)
  have hworks : Works held g g₂ := h₁.trans h₂
  have hnode : g₂.nodes n = g.nodes n := by
    rw [show g₂.nodes n = g₁.nodes n from Function.update_of_ne hne .., heq₁]
    rfl
  have hmemo : g₂.memo = g.memo := by rw [show g₂.memo = g₁.memo from rfl, heq₁]; rfl
  have hpool : g₂.pool = g.pool := by rw [show g₂.pool = g₁.pool from rfl, heq₁]; rfl
  have hwaits' : w.Waits g₂ n j' pc' stack' :=
    { toIsAt := hwaits.toIsAt.same hworks hnode
      pc_eq := by rw [hnode]; exact hwaits.pc_eq
      sp_eq := by rw [hnode]; exact hwaits.sp_eq }
  obtain ⟨g₃, hload, hr₃, h₃, -⟩ := hwaits'.load
    (hguides.works hworks hmemo (hguides.pooled.works hworks hpool)) hn
  refine .write hload (hnext g₃ hr₃ (hwaits₂.works h₃ (by simp)) (hworks.trans (h₃.mono fun _ h => ?_)))
  exact List.mem_cons_of_mem _ (List.mem_cons_of_mem _ h)

end Graph

namespace Spec.Finishes

open ObjectMachine.Graph

variable {α : Type} {f : Unit → Spec α} {g : Graph} {w : World} {held : List Nat} {c pc : Nat} {j : Job}
  {k : Compiled} {below args : List Value} {receiver : Value} {Q : α → Graph → Prop}
  {E : Failure → Graph → Prop} {S : Fatal → Prop}

/-- The method found is activated, and the sender waits. -/
theorem activateNewMethod (hr : w.Runs g held c j pc (below ++ receiver :: args)) (hk : w.IsCompiled g k)
    (hmethod : g.registers.newMethod = .object k.method) (hargs : g.registers.argCount = args.length)
    (hcount : k.draft.header.argCount = args.length) (htemps : k.draft.header.tempCount = args.length)
    (hS : S (.fault .overflow))
    (hnext : ∀ g' n, w.Runs g' (c :: held) n ⟨k, receiver, .object c⟩ 0 args →
      w.Waits g' c j pc below → Works held g g' → (f ()).Finishes g' Q E S) :
    (Spec.activateNewMethod >>= f).Finishes g Q E S := by
  have hendures := World.Runs.endures w held c j pc (below ++ receiver :: args)
  unfold Spec.activateNewMethod
  rw [Spec.bind_assoc]
  refine ask ?_
  rw [Spec.bind_assoc]
  refine read (a := k.draft.header) (by rw [hmethod]; exact hk.header_eq) ?_
  rw [if_pos (by rw [hcount, hargs]), Spec.bind_assoc]
  refine ask ?_
  rw [Spec.bind_assoc]
  refine bind (newContext k.draft.header.frameSize .methodContext hendures hr hS) ?_
  rintro _ g₁ ⟨n, rfl, hr₁, h₁, hguides₁, hn, hfree⟩
  have hroom := ContextPool.le_frameSizeFor k.draft.header.frameSize
  have htemp : args.length ≤ k.draft.header.frameSize := htemps ▸ Nat.le_add_right ..
  have hne : n ≠ c := fun heq => hn (heq ▸ List.mem_cons_self)
  have hactive : ¬ g₁.registers.active = .object n := by
    rw [hr₁.active]
    intro heq
    exact hne (Value.object.inj heq).symm
  rw [Spec.bind_assoc]
  refine peek hr₁ hargs ?_
  rw [Spec.bind_assoc]
  refine ask ?_
  rw [Spec.bind_assoc, hr₁.active, h₁.registers, hmethod, htemps, hargs]
  refine write (hfree.initMethod hactive (htemp.trans hroom)) ?_
  generalize ho : (g₁.nodes n).filled _ _ = o
  have hlayout : Node.SameLayout (g₁.nodes n) o := ho ▸ Node.sameLayout_filled ..
  have hhash : o.hash = (g₁.nodes n).hash := ho ▸ Node.hash_filled ..
  unfold Spec.enterContext
  rw [Spec.bind_assoc]
  have hself : (g₁.setNode n o).nodes n = o := Function.update_self ..
  have hcopy : (g₁.setNode n o).copyTop (.object n) args.length =
      some (g₁.setNode n (o.filled [] args)) := by
    have h : Works (c :: held) g₁ (g₁.setNode n o) := .setNode hlayout hhash hfree.format hn
    have hr₂ := hendures.works hr₁ h rfl
      ((hguides₁.works h rfl (hguides₁.pooled.works h rfl)).mono (List.subset_cons_self ..))
    rw [List.append_cons] at hr₂
    unfold Graph.copyTop
    rw [hr₂.topValues]
    have hroom : args.length ≤ o.len := (htemp.trans hroom).trans_eq (hlayout.len.trans hfree.len).symm
    have hfill : (g₁.setNode n o).fill (.object n) [] args =
        some ((g₁.setNode n o).setNode n (((g₁.setNode n o).nodes n).filled [] args)) :=
      if_pos ⟨hactive, by rw [hself, hlayout.format, hfree.format]; rfl, Nat.zero_le _, by rwa [hself],
        fun v hv => nomatch hv⟩
    rw [hself, setNode_setNode] at hfill
    exact hfill
  refine write hcopy ?_
  obtain ⟨h₃, hwaits⟩ := (hk.works h₁.toWorks).begun receiver (.object c) hfree hroom htemps hn
  rw [Node.begun, ho] at h₃ hwaits
  have hguides₃ := hguides₁.works h₃ rfl (hguides₁.pooled.works h₃ rfl)
  have hr₃ := hendures.works hr₁ h₃ rfl (hguides₃.mono (List.subset_cons_self ..))
  exact hr₃.leaveFor (by simp) hwaits hguides₃ hn fun g' hr' hwaits' h' =>
    hnext g' n hr' hwaits' (h₁.toWorks.trans ((h₃.mono (List.subset_cons_self ..)).trans h'))

end Spec.Finishes

/-! ## Returns -/

/-- The context without a sender and a position. -/
def Node.killed (o : Node) (nil : Value) : Node :=
  (o.withField Context.senderField nil).withField Context.pcField nil

namespace Graph

variable {g g' : Graph} {w : World} {held : List Nat} {c pc : Nat} {j : Job} {stack : List Value}

theorem kill_eq {n : Nat} (hfields : (g.nodes n).fields = contextFields) :
    g.kill (.object n) = some (g.setNode n ((g.nodes n).killed g.nil)) := by
  have hstore : ∀ (g : Graph) (index : Nat) (v : Value), (g.nodes n).fields = contextFields →
      index < contextFields → index ≠ contextStackPointer →
        g.storeField (.object n) index v = some (g.setNode n ((g.nodes n).withField index v)) := by
    intro g index v hfields hindex hne
    refine if_pos ⟨hfields ▸ hindex, ?_⟩
    rw [Node.live_withField fun _ => hne]
    exact g.live_le_known n
  have hself : (g.setNode n ((g.nodes n).withField Context.senderField g.nil)).nodes n =
      (g.nodes n).withField Context.senderField g.nil := Function.update_self ..
  unfold kill
  rw [hstore g _ _ hfields (by decide) (by decide)]
  refine (hstore _ _ _ (by rw [hself]; exact hfields) (by decide) (by decide)).trans ?_
  rw [hself, setNode_setNode]
  rfl

/-- A context that nothing goes on in any more may be put into the pool. -/
theorem Pooled.put {busy : List Nat} {n size : Nat} (hp : g.Pooled (n :: busy)) (hn : n ∉ busy)
    (hfree : g.IsFree size n) : ({ g with pool := g.pool.put (.object n) size } : Graph).Pooled busy := by
  have hold := hp.mono (List.subset_cons_self n busy)
  have hsame : ∀ {pool : Pool} {size n : Nat}, g.IsFree size n → ({ g with pool } : Graph).IsFree size n :=
    fun h => { h with }
  have hsmall : Value.object n ∉ g.pool.small := fun hmem => by
    obtain ⟨n', heq, -, hbusy⟩ := hp.small _ hmem
    cases heq
    exact hbusy List.mem_cons_self
  have hlarge : Value.object n ∉ g.pool.large := fun hmem => by
    obtain ⟨n', heq, -, hbusy⟩ := hp.large _ hmem
    cases heq
    exact hbusy List.mem_cons_self
  have hrest : ∀ {pool : Pool}, pool = g.pool → ({ g with pool } : Graph).Pooled busy := fun heq =>
    hold.of_free (Nat.le_refl _) hsame heq
  unfold Pool.put
  split
  · rename_i hsize
    split
    · refine ⟨hold.busy_lt, fun v hv => ?_, fun v hv => ?_, List.nodup_cons.mpr ⟨hsmall, hold.smallOnce⟩,
        hold.largeOnce⟩
      · rcases List.mem_cons.mp hv with rfl | hv
        · exact ⟨n, rfl, hsame (hsize ▸ hfree), hn⟩
        · obtain ⟨n', rfl, hn', hbusy⟩ := hold.small v hv
          exact ⟨n', rfl, hsame hn', hbusy⟩
      · obtain ⟨n', rfl, hn', hbusy⟩ := hold.large v hv
        exact ⟨n', rfl, hsame hn', hbusy⟩
    · exact hrest rfl
  · split
    · rename_i hsize
      split
      · refine ⟨hold.busy_lt, fun v hv => ?_, fun v hv => ?_, hold.smallOnce,
          List.nodup_cons.mpr ⟨hlarge, hold.largeOnce⟩⟩
        · obtain ⟨n', rfl, hn', hbusy⟩ := hold.small v hv
          exact ⟨n', rfl, hsame hn', hbusy⟩
        · rcases List.mem_cons.mp hv with rfl | hv
          · exact ⟨n, rfl, hsame (hsize ▸ hfree), hn⟩
          · obtain ⟨n', rfl, hn', hbusy⟩ := hold.large v hv
            exact ⟨n', rfl, hsame hn', hbusy⟩
      · exact hrest rfl
    · exact hrest rfl

theorem isLink_context {n : Nat} (hw : w.Describes g.atRest) (hcontext : (g.nodes n).format = .context) :
    g.isLink (.object n) = true := by
  refine Ascends.isLink_of_ne (g := g) hw.nil_eq ?_
  rintro rfl
  rw [show (g.nodes 0).format = _ from hw.nil.1] at hcontext
  cases hcontext

end Graph

namespace Spec.Finishes

open ObjectMachine.Graph

variable {α : Type} {f : Value → Spec α} {g : Graph} {w : World} {held : List Nat} {c pc : Nat} {j : Job}
  {stack : List Value} {target : Value} {E : Failure → Graph → Prop} {S : Fatal → Prop}

/-- A computation that may be given as much fuel as it takes. -/
theorem finish {x : Nat → Spec α} {R : α → Graph → Prop}
    (hx : ∀ fuel, (x fuel).Finishes g R E fun cause => cause = .fault .endless ∨ S cause) :
    (Spec.finish x).Finishes g R E S := by
  refine ⟨?_, ?_⟩
  · rintro r ⟨hne, fuel, hr⟩
    have hknown := (hx fuel).1 r hr
    cases r with
    | stopped cause =>
      rcases hknown with rfl | hS
      · exact absurd rfl hne
      · exact hS
    | _ => exact hknown
  · rintro ⟨-, fuel, hr⟩
    exact (hx fuel).2 hr

/-- The active context is left for its sender. -/
theorem retireUpTo (hr : w.Runs g held c j pc stack) (hsender : j.sender = target)
    (hne : target ≠ .object c) :
    (Spec.finish (Spec.retireUpTo target (.object c))).Finishes g
      (fun _ g' => Works held g g' ∧ w.Guides g' held ∧ g'.registers = g.registers) E S := by
  have hc := hr.isActivation
  let o := (g.nodes c).killed g.nil
  have hself : (g.setNode c o).nodes c = o := Function.update_self ..
  have hnode : Works held g (g.setNode c o) := .setNode ⟨rfl, rfl, rfl⟩ rfl hc.context hr.apart
  have hguides := hr.guides.works hnode rfl (hr.guides.pooled.works hnode rfl)
  have hfree : (g.setNode c o).IsFree (g.nodes c).len c :=
    ⟨hc.lt, by rw [hself]; exact hc.context, by rw [hself]; exact hc.fields, by rw [hself]; rfl⟩
  have hlast : ∀ fuel g', (Spec.retireUpTo target target fuel).Finishes g' (fun _ g'' => g'' = g') E
      fun cause => cause = .fault .endless ∨ S cause := by
    intro fuel g'
    cases fuel with
    | zero => exact ⟨.stop fun _ h => .inl h, fun ⟨_, _, h⟩ => nomatch h⟩
    | succ fuel =>
      refine ask ?_
      rw [decide_eq_false fun h => h rfl]
      exact pure rfl
  refine finish fun fuel => ?_
  cases fuel with
  | zero => exact ⟨.stop fun _ h => .inl h, fun ⟨_, _, h⟩ => nomatch h⟩
  | succ fuel =>
    refine ask ?_
    rw [decide_eq_true hne.symm, isLink_context hr.guides.describes hc.context]
    have hfield : g.field (.object c) Context.senderField = some target :=
      (field_of_lt (by rw [hc.fields]; decide)).trans (congrArg some (hc.sender.trans hsender))
    refine read hfield ?_
    unfold Spec.retire
    rw [Spec.bind_assoc]
    refine write (kill_eq hc.fields) ?_
    let pool := if o.captured then g.pool else g.pool.put (.object c) o.len
    have hpool : (g.setNode c o).recycled (.object c) = some pool := by
      unfold Graph.recycled
      rw [node?_object, hself]
      rfl
    rw [Spec.bind_assoc]
    refine read hpool ?_
    refine modify ((hlast fuel _).mono ?_ (fun _ _ h => h) fun _ h => h)
    rintro _ _ rfl
    have hother : Works held (g.setNode c o) { g.setNode c o with pool } := .other _ _ _ _
    refine ⟨hnode.trans hother, hguides.works hother rfl ?_, rfl⟩
    by_cases hcaptured : o.captured = true
    · have hsame : pool = (g.setNode c o).pool := if_pos hcaptured
      exact (hguides.pooled.works hother hsame).mono (List.subset_cons_self ..)
    · have hput : pool = (g.setNode c o).pool.put (.object c) (g.nodes c).len := if_neg hcaptured
      rw [hput]
      exact hguides.pooled.put hr.apart hfree

/-- The sender that waits goes on. -/
theorem leaveTo_waiting {c' pc' : Nat} {j' : Job} {stack' : List Value}
    (hr : w.Runs g (c' :: held) c j pc stack) (hsender : j.sender = .object c')
    (hwaits : w.Waits g c' j' pc' stack') (hc' : c' ∉ held) :
    (Spec.leaveTo (.object c')).Finishes g (fun found g' => found = true ∧ w.Runs g' held c' j' pc' stack' ∧
      Works held g g') E S := by
  have hne : Value.object c' ≠ .object c := fun heq =>
    hr.apart (Value.object.inj heq ▸ List.mem_cons_self)
  refine ask ?_
  rw [hr.active]
  refine bind (retireUpTo hr hsender hne) ?_
  rintro _ g₁ ⟨h₁, hguides₁, -⟩
  have hwaits₁ := hwaits.works h₁ List.mem_cons_self
  obtain ⟨g₂, hload, hr₂, h₂, -⟩ := hwaits₁.load hguides₁ hc'
  refine ask ?_
  rw [isLink_context hguides₁.describes hwaits₁.isActivation.context]
  exact write hload (pure ⟨rfl, hr₂, (h₁.trans h₂).mono (List.subset_cons_self ..)⟩)

/-- Nobody waits. -/
theorem leaveTo_nil (hr : w.Runs g held c j pc stack) (hsender : j.sender = .object 0) :
    (Spec.leaveTo (.object 0)).Finishes g (fun found g' => found = false ∧ Works held g g' ∧
      w.Guides g' held) E S := by
  have hne : Value.object 0 ≠ .object c := by
    intro heq
    have hlink := isLink_context hr.guides.describes hr.isActivation.context
    rw [← heq, Ascends.not_isLink hr.kernel.nil] at hlink
    cases hlink
  refine ask ?_
  rw [hr.active]
  refine bind (retireUpTo hr hsender hne) ?_
  rintro _ g₁ ⟨h₁, hguides₁, -⟩
  refine ask ?_
  rw [Ascends.not_isLink hguides₁.kernel.nil]
  exact pure ⟨rfl, h₁, hguides₁⟩

/-- A method returns to its sender. -/
theorem methodReturn {R : Option Value → Graph → Prop} {v : Value} (hr : w.Runs g held c j pc stack)
    (hreturn : (Spec.returnTo j.sender v).Finishes g R E S) :
    (Spec.methodReturn v).Finishes g R E S := by
  have hsender : g.field (.object c) Context.senderField = some j.sender :=
    (field_of_lt (by rw [hr.isActivation.fields]; decide)).trans (congrArg some hr.isActivation.sender)
  refine ask ?_
  rw [if_pos (hr.active.trans hr.home.symm), hr.active]
  exact read hsender hreturn

end Spec.Finishes

namespace Spec.Halts

open ObjectMachine.Graph

variable {g : Graph} {w : World} {held : List Nat} {c c' pc pc' n : Nat} {j j' : Job}
  {below stack' : List Value} {v : Value} {Q : Value → Graph → Prop} {E : Failure → Graph → Prop}
  {S : Fatal → Prop}

/-- A method answers what is on top of its stack, and its sender goes on. -/
theorem returnTop (hr : w.Runs g (c' :: held) c j pc (below ++ [v]))
    (hi : Instruction.decode? j.draft.bytes pc = some (.methodReturn .top)) (hpc : pc + 1 < Ref.addressLimit)
    (hsender : j.sender = .object c') (hwaits : w.Waits g c' j' pc' stack') (hc' : c' ∉ held)
    (hroom : stack'.length < j'.draft.header.frameSize)
    (hnext : ∀ g', w.Runs g' held c' j' pc' (stack' ++ [v]) → Works held g g' → Halts n g' Q E S) :
    Halts (n + 1) g Q E S := by
  refine step hr hi hpc fun g₁ hr₁ h₁ => .pop hr₁ fun g₂ hr₂ h₂ => .methodReturn hr₂ ?_
  have hwaits₂ := hwaits.works (h₁.trans h₂) List.mem_cons_self
  rw [hsender]
  refine .bind (.leaveTo_waiting hr₂ hsender hwaits₂ hc') ?_
  rintro _ g₃ ⟨rfl, hr₃, h₃⟩
  refine .push hr₃ hroom fun g₄ hr₄ h₄ => .pure (hnext g₄ hr₄ ?_)
  exact ((h₁.trans h₂).mono (List.subset_cons_self ..)).trans (h₃.trans h₄)

/-- A method without a sender answers what is on top of its stack, and the run is over. -/
theorem returnLast (hr : w.Runs g [] c j pc (below ++ [v]))
    (hi : Instruction.decode? j.draft.bytes pc = some (.methodReturn .top)) (hpc : pc + 1 < Ref.addressLimit)
    (hsender : j.sender = .object 0)
    (hend : ∀ g', w.Guides g' [] → g'.Idle → Works [] g g' → Q v g') : Halts 1 g Q E S := by
  refine step (n := 0) hr hi hpc fun g₁ hr₁ h₁ => .pop hr₁ fun g₂ hr₂ h₂ => .methodReturn hr₂ ?_
  rw [hsender]
  refine .bind (.leaveTo_nil hr₂ hsender) ?_
  rintro _ g₃ ⟨rfl, h₃, hguides₃⟩
  have h₄ : Works [] g₃ { g₃ with registers := g₃.registers.cleared } := .other _ _ _ _
  refine .modify (.pure ?_)
  exact hend _ (hguides₃.works h₄ rfl (hguides₃.pooled.works h₄ rfl)) rfl
    ((h₁.trans h₂).trans (h₃.trans h₄))

end Spec.Halts

end ObjectMachine
