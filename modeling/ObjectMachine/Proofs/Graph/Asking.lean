import ObjectMachine.Proofs.Graph.Layers
import ObjectMachine.Proofs.Graph.Runs

/-!
# Messages from outside

A message that is sent to an integer from outside of all methods: a method that passes it on is built, begun
on a graph where nothing is active, and run to its end. It is answered as long as the classes of integers
have the methods of the kernel, as they have on a fresh machine, and as definitions leave it that do not
touch these methods.

## Main results

* `Spec.Finishes.start`, `Spec.Finishes.execute`: a method runs without a sender, and nothing is active again.
* `Spec.Finishes.sendMessage`: the message is answered, or a primitive failed.
* `Graph.World.Integers.leads`: definitions that leave the methods of integers alone.
* `Spec.Ends.bootstrapGuides`: a fresh machine has these methods, and lookups find them.
-/

namespace ObjectMachine

/-! ## Runs from outside -/

namespace Graph

variable {g g' : Graph} {w : World} {n index : Nat} {values : List Value}

/-- Values are stored one after the other. -/
theorem storeElements_withElements (htail : (g.nodes n).format.hasReferenceTail = true)
    (hlen : index + values.length ≤ (g.nodes n).len) :
    g.storeElements (.object n) index values = some (g.setNode n ((g.nodes n).withElements index values)) := by
  induction values generalizing g index with
  | nil => simp [storeElements, Node.withElements, setNode]
  | cons v rest ih =>
    rw [List.length_cons] at hlen
    have hself : (g.setNode n ((g.nodes n).withElement index v)).nodes n = (g.nodes n).withElement index v :=
      Function.update_self ..
    have hstore : g.storeElement (.object n) index v = some (g.setNode n ((g.nodes n).withElement index v)) :=
      if_pos ⟨htail, by omega⟩
    show (g.storeElement (.object n) index v).bind _ = _
    rw [hstore]
    refine (ih (by rw [hself]; exact htail) (by rw [hself]; show _ ≤ (g.nodes n).len; omega)).trans ?_
    rw [hself, setNode_setNode]
    rfl

end Graph

namespace Spec.Finishes

open ObjectMachine.Graph

variable {α : Type} {f : Unit → Spec α} {g : Graph} {w : World} {k : Compiled} {receiver : Value}
  {args : List Value} {Q : α → Graph → Prop} {E : Failure → Graph → Prop} {S : Fatal → Prop}

theorem pinAll {values : List Value} (hf : (f ()).Finishes (g.withPinned (g.pinned ++ values)) Q E S) :
    (Spec.pinAll values >>= f).Finishes g Q E S := by
  induction values generalizing g with
  | nil =>
    rw [List.append_nil] at hf
    exact of_eq (congrFun (Spec.pure_bind () f) g) hf
  | cons v rest ih =>
    show ((Spec.pin v >>= fun _ => Spec.pinAll rest) >>= f).Finishes g Q E S
    rw [Spec.bind_assoc]
    refine pin (ih ?_)
    rw [List.append_cons] at hf
    exact hf

theorem pinnedAt {f : Value → Spec α} {values : List Value} {position : Nat} {v : Value}
    (hpinned : g.pinned = values) (hv : values[position]? = some v) (hf : (f v).Finishes g Q E S) :
    (Spec.pinnedAt position >>= f).Finishes g Q E S :=
  read (by rw [hpinned, hv]) hf

theorem pinnedFrom {f : List Value → Spec α} (before values rest : List Value) {position : Nat}
    (hpinned : g.pinned = before ++ values ++ rest) (hposition : position = before.length)
    (hf : (f values).Finishes g Q E S) : (Spec.pinnedFrom position values.length >>= f).Finishes g Q E S := by
  induction values generalizing before position f with
  | nil => exact of_eq (congrFun (Spec.pure_bind [] f) g) hf
  | cons v values ih =>
    show ((Spec.pinnedAt position >>= fun v => Spec.pinnedFrom (position + 1) values.length >>= fun rest =>
      Pure.pure (v :: rest)) >>= f).Finishes g Q E S
    rw [Spec.bind_assoc]
    refine pinnedAt (v := v) hpinned (by simp [hposition]) ?_
    rw [Spec.bind_assoc]
    refine ih (before ++ [v]) (by rw [hpinned]; simp) (by simp [hposition]) ?_
    rw [Spec.pure_bind]
    exact hf

theorem unpinTo (values rest : List Value) (hpinned : g.pinned = values ++ rest)
    (hf : (f ()).Finishes (g.withPinned values) Q E S) :
    (Spec.unpinTo values.length >>= f).Finishes g Q E S := by
  refine modify ?_
  rw [hpinned, List.take_left]
  exact hf

/-- A method runs without a sender. -/
theorem start (hidle : g.Idle) (hg : w.Guides g []) (hk : w.IsCompiled g k)
    (hcount : k.draft.header.argCount = args.length) (htemps : k.draft.header.tempCount = args.length)
    (hS : S (.fault .overflow))
    (hnext : ∀ g' c, w.Runs g' [] c ⟨k, receiver, .object 0⟩ 0 args → Works [] g g' →
      (f ()).Finishes g' Q E S) :
    (Spec.start receiver (.object k.method) args >>= f).Finishes g Q E S := by
  unfold Spec.start
  rw [Spec.bind_assoc]
  refine ask ?_
  rw [show g.registers.active.isObject = false from hidle, if_neg Bool.false_ne_true, Spec.bind_assoc]
  refine read hk.header_eq ?_
  rw [if_neg (not_not_intro hcount), Spec.bind_assoc]
  refine ask ?_
  rw [Spec.bind_assoc]
  refine pin ?_
  rw [Spec.bind_assoc]
  refine pin ?_
  rw [Spec.bind_assoc]
  refine pinAll ?_
  rw [Spec.bind_assoc]
  refine ask ?_
  let pinned := g.pinned ++ [.object k.method] ++ [receiver] ++ args
  rw [Spec.bind_assoc]
  refine bind (newContext (g := g.withPinned pinned) k.draft.header.frameSize .methodContext
    (World.endures_idle w) ⟨hidle, hg.withPinned pinned⟩ hS) ?_
  rintro _ g₁ ⟨n, rfl, ⟨hidle₁, hg₁⟩, h₁, hguides₁, -, hfree⟩
  have hpinned : g₁.pinned = pinned := h₁.pinned
  rw [Spec.bind_assoc]
  refine pinnedAt (v := .object k.method) hpinned (by simp [pinned]) ?_
  rw [Spec.bind_assoc]
  refine pinnedAt (v := receiver) hpinned (by simp [pinned]) ?_
  rw [Spec.bind_assoc]
  refine pinnedFrom (g.pinned ++ [.object k.method] ++ [receiver]) args []
    (by simp [hpinned, pinned]) (by simp) ?_
  rw [Spec.bind_assoc]
  refine unpinTo g.pinned ([.object k.method] ++ [receiver] ++ args)
    (by simp [hpinned, pinned]) ?_
  rw [Spec.bind_assoc]
  let g₂ := g₁.withPinned g.pinned
  have h₂ : Works [] g g₂ := h₁.toWorks.unpinned
  have hfree₂ : g₂.IsFree (ContextPool.frameSizeFor k.draft.header.frameSize) n := { hfree with }
  have hroom := ContextPool.le_frameSizeFor k.draft.header.frameSize
  have htemp : args.length ≤ k.draft.header.frameSize := htemps ▸ Nat.le_add_right ..
  have hactive : ¬ g₂.registers.active = .object n := by
    intro heq
    have hidle₂ : g₂.registers.active.isObject = false := hidle₁
    rw [heq] at hidle₂
    cases hidle₂
  have hnil : g.nil = .object 0 := hg.kernel.nil
  obtain ⟨h₃, hwaits⟩ := (hk.works h₂).begun receiver (.object 0) hfree₂ hroom
    htemps List.not_mem_nil
  let o := (g₂.nodes n).begun (.object 0) (.object k.method) g₂.nil receiver args
  have hfilled : (do
      let g ← g₂.initMethod (.object n) g₂.nil (.object k.method) receiver k.draft.header.tempCount
      g.storeElements (.object n) 0 args) = some (g₂.setNode n o) := by
    have hsender : g₂.nil = .object 0 := h₂.nil.trans hnil
    rw [htemps, hfree₂.initMethod hactive (htemp.trans hroom), Option.bind_eq_bind, Option.bind_some]
    generalize ho : (g₂.nodes n).filled _ _ = first
    have hlayout : Node.SameLayout (g₂.nodes n) first := ho ▸ Node.sameLayout_filled ..
    have hself : (g₂.setNode n first).nodes n = first := Function.update_self ..
    rw [storeElements_withElements (by rw [hself, hlayout.format, hfree₂.format]; rfl)
      (by rw [hself, hlayout.len, hfree₂.len, Nat.zero_add]; exact htemp.trans hroom), hself, setNode_setNode, ← ho]
    simp only [o, Node.begun, hsender]
    rfl
  refine write hfilled ?_
  have hpooled₂ : g₂.Pooled [n] := (hguides₁.withPinned g.pinned).pooled
  have hguides₃ : w.Guides (g₂.setNode n o) [n] :=
    (hguides₁.withPinned g.pinned).works h₃ rfl (hpooled₂.works h₃ rfl)
  obtain ⟨g₄, hload, hr₄, h₄, -⟩ := hwaits.load hguides₃ List.not_mem_nil
  refine write hload (hnext g₄ n hr₄ (h₂.trans (h₃.trans (h₄.mono (List.nil_subset _)))))

/-- What was active before is made active again, which was nothing. -/
theorem resumeContext {R : Unit → Graph → Prop} {v : Value} (hv : v.isObject = false)
    (hR : R () { g with registers := g.registers.cleared }) : (Spec.resumeContext v).Finishes g R E S := by
  unfold Spec.resumeContext
  rw [hv, if_neg Bool.false_ne_true]
  exact modify_last hR

/-- A method runs to its end, and nothing is active again. -/
theorem execute (receiver : Value) (args : List Value) {n fuel : Nat} {P : Value → Graph → Prop} {F : Failure → Prop}
    (hidle : g.Idle)
    (hg : w.Guides g []) (hk : w.IsCompiled g k) (hcount : k.draft.header.argCount = args.length)
    (htemps : k.draft.header.tempCount = args.length) (hS : S (.fault .overflow)) (hfuel : n ≤ fuel)
    (hP : ∀ {v g'} registers pinned, P v g' → P v { g' with registers, pinned })
    (hrun : ∀ g' c, w.Runs g' [] c ⟨k, receiver, .object 0⟩ 0 args → Works [] g (g'.withPinned g.pinned) →
      Halts n g' (fun v g'' => w.Guides g'' [] ∧ Works [] g' g'' ∧ P v g'')
        (fun e g'' => w.Guides g'' [] ∧ Works [] g' g'' ∧ F e) S) :
    (Spec.execute fuel receiver (.object k.method) args).Finishes g
      (fun v g' => g'.Idle ∧ w.Guides g' [] ∧ Works [] g g' ∧ P v g')
      (fun e g' => g'.Idle ∧ w.Guides g' [] ∧ Works [] g g' ∧ F e) S := by
  let pinned := g.pinned ++ [g.registers.active]
  let g₁ : Graph := { g with registers := g.registers.cleared, pinned }
  have hflush : g.flush = some g := by
    have hactive : g.registers.active.isObject = false := hidle
    unfold Graph.flush
    cases heq : g.registers.active with
    | immediate r => rfl
    | object c =>
      rw [heq] at hactive
      cases hactive
  have hother : Works [] (g.withPinned pinned) g₁ := .other _ _ _ _
  have hg₁ : w.Guides g₁ [] :=
    (hg.withPinned pinned).works hother rfl ((hg.withPinned pinned).pooled.works hother rfl)
  -- Whatever the run has come to, the graph is at rest once nothing is active.
  have hrest : ∀ g', w.Guides g' [] → Works [] g₁ g' →
      let g'' : Graph := { g' with registers := g'.registers.cleared, pinned := g.pinned }
      g''.Idle ∧ w.Guides g'' [] ∧ Works [] g g'' := by
    intro g' hg' h'
    have hcleared : Works [] (g'.withPinned g.pinned)
        { g'.withPinned g.pinned with registers := g'.registers.cleared } := .other _ _ _ _
    have hg'' := hg'.withPinned g.pinned
    exact ⟨rfl, hg''.works hcleared rfl (hg''.pooled.works hcleared rfl), (hother.trans h').unpinned.trans hcleared⟩
  unfold Spec.execute Spec.flushRegisters
  refine write hflush (ask (ask (pin (modify ?_))))
  refine bind (attempt (R := fun v g' => w.Guides g' [] ∧ Works [] g₁ g' ∧ P v g')
    (E := fun e g' => w.Guides g' [] ∧ Works [] g₁ g' ∧ F e) ?_) fun result g' hresult => ?_
  · refine start (g := g₁) rfl hg₁ (hk.of_nodes id (fun _ _ => rfl) id) hcount htemps hS fun g' c hr' h' => ?_
    exact ((hrun g' c hr' (hother.trans h').unpinned) fuel hfuel).mono
      (fun v g'' h'' => ⟨h''.1, h'.trans h''.2.1, h''.2.2⟩) (fun e g'' h'' => ⟨h''.1, h'.trans h''.2.1, h''.2.2⟩)
      fun _ h => h
  have hguides : w.Guides g' [] ∧ Works [] g₁ g' := by
    cases result with
    | ok v => exact ⟨hresult.1, hresult.2.1⟩
    | error failure => exact ⟨hresult.1, hresult.2.1⟩
  obtain ⟨hidle'', hg'', h''⟩ := hrest g' hguides.1 hguides.2
  have hpinned : g'.pinned = g.pinned ++ [g.registers.active] := hguides.2.pinned
  refine pinnedAt (v := g.registers.active) hpinned (by simp) ?_
  refine unpinTo g.pinned [g.registers.active] hpinned ?_
  refine bind (resumeContext (R := fun _ g'' => g'' = { g' with registers := g'.registers.cleared, pinned := g.pinned })
    hidle rfl) ?_
  rintro _ _ rfl
  cases result with
  | ok v => exact pure ⟨hidle'', hg'', h'', hP _ _ hresult.2.2⟩
  | error failure => exact fail fun e he => he ▸ ⟨hidle'', hg'', h'', hresult.2.2⟩

end Spec.Finishes

/-! ## Messages to integers -/

/-- A method of a class decides what is answered to messages to integers. -/
def KernelClass.Guards (k : KernelClass) (name : String) : Prop :=
  k ∈ Graph.integerClasses ∧ (name = "primitiveFailed" ∨ name = "doesNotUnderstand:" ∨
    ∃ o : Operator, name = o.selector ∧
      (k = .smallInteger ∨ o.isWide = true ∧ (k = .integer ∨ k = .largeInteger)))

namespace Graph

variable {g g' : Graph} {w w' : World} {k : KernelClass} {fallback : Fallback} {name : String} {primitive : Primitive}

theorem World.Tries.leads (ht : w.Tries g k fallback name primitive) (h : w.Leads g w' g')
    (hlog : (w'.log (classNode k)).lookup name = (w.log (classNode k)).lookup name) :
    w'.Tries g' k fallback name primitive := by
  obtain ⟨method, hmethod, hcls, hlookup, hrest⟩ := ht
  exact ⟨method, hmethod.advances h.advances, hcls, hlog.trans hlookup, hrest⟩

/-- Definitions that leave the methods of integers alone. -/
theorem World.Integers.leads (hi : w.Integers g) (hw : w.Describes g) (h : w.Leads g w' g')
    (hroster : w.roster <:+ w'.roster)
    (hlog : ∀ k name, k.Guards name →
      (w'.log (classNode k)).lookup name = (w.log (classNode k)).lookup name) : w'.Integers g' where
  spoken := hi.spoken.evolves h.advances.evolves
  mem k hk := World.classes_subset hroster (hi.mem k hk)
  superclass k hk := (hw.superclass_leads h hroster (hi.mem k hk)).trans (hi.superclass k hk)
  small o := (hi.small o).leads h <| hlog _ _ ⟨by decide, .inr (.inr ⟨o, rfl, .inl rfl⟩)⟩
  general o ho := (hi.general o ho).leads h <|
    hlog _ _ ⟨by decide, .inr (.inr ⟨o, rfl, .inr ⟨ho, .inl rfl⟩⟩)⟩
  large o ho := (hlog _ _ ⟨by decide, .inr (.inr ⟨o, rfl, .inr ⟨ho, .inr rfl⟩⟩)⟩).trans (hi.large o ho)
  lacks k hk := ⟨(hlog _ _ ⟨hk, .inl rfl⟩).trans (hi.lacks k hk).1,
    (hlog _ _ ⟨hk, .inr (.inl rfl)⟩).trans (hi.lacks k hk).2⟩

theorem World.Integers.withPinned (hi : w.Integers g) (values : List Value) : w.Integers (g.withPinned values) where
  spoken := { hi.spoken with }
  mem := hi.mem
  superclass := hi.superclass
  small o := by
    obtain ⟨method, hmethod, hrest⟩ := hi.small o
    exact ⟨method, hmethod.withPinned values, hrest⟩
  general o ho := by
    obtain ⟨method, hmethod, hrest⟩ := hi.general o ho
    exact ⟨method, hmethod.withPinned values, hrest⟩
  large := hi.large
  lacks := hi.lacks

end Graph

namespace Spec.Finishes

open ObjectMachine.Graph

variable {g : Graph} {w : World} {receiver argument : Value} {a b : Int} {o : Operator} {fuel : Nat}
  {S : Fatal → Prop}

/-- A message to an integer is answered, or a primitive failed, and nothing is active again. -/
theorem sendMessage (hidle : g.Idle) (hg : w.Guides g []) (hi : w.Integers g) (ha : g.IsInteger receiver a)
    (hb : g.IsInteger argument b) (ho : o.isWide = true ∨ Ref.isSmall a = true) (hfuel : 8 ≤ fuel)
    (hS : S (.fault .overflow)) :
    (Spec.sendMessage fuel receiver o.selector [argument]).Finishes g
      (fun v g' => g'.Idle ∧ w.Guides g' [] ∧ w.Integers g' ∧ g'.pinned = g.pinned ∧
        ∃ reply, o.answer? a b = some reply ∧ g'.IsReply v reply)
      (fun e g' => g'.Idle ∧ w.Guides g' [] ∧ w.Integers g' ∧ g'.pinned = g.pinned ∧
        o.answer? a b = none ∧ ∃ text, e = .primitiveFailed text) S := by
  let pinned := g.pinned ++ [receiver] ++ [argument]
  have hfinish := Machine.finish_trampoline o.selector
  have hw : w.Describes (g.withPinned pinned) := (hg.describes_idle hidle).withPinned pinned
  refine ask (pin (pinAll (ask ?_)))
  -- A method that passes the message on is built.
  have hends : (Spec.attempt (Spec.build (Machine.trampoline o.selector 1) g.core.nil)).Ends (g.withPinned pinned)
      _ (fun _ _ => False) S :=
    .attempt (Ends.build hw hS _ (fun cause heq => by rw [hfinish] at heq; cases heq) g.core.nil)
  have hbuild := of_modest hends (Modest.build (Machine.trampoline o.selector 1) g.core.nil).attempt
  refine bind (hbuild.mono (fun _ _ h => h) (fun _ _ h => h.1.elim) fun _ h => h) ?_
  rintro (failure | v) g₁ ⟨hanswer, hless⟩
  · obtain ⟨-, cause, heq⟩ := hanswer
    rw [hfinish] at heq
    cases heq
  obtain ⟨draft, heq, hleads, hbuilt⟩ := hanswer
  obtain rfl := Except.ok.inj (hfinish.symm.trans heq)
  obtain ⟨n, frame, code, rfl, hcompiled⟩ := hbuilt.exists_compiled
  have hpinned : g₁.pinned = pinned := hleads.pinned
  refine pinnedAt (v := receiver) hpinned (by simp [pinned]) ?_
  refine pinnedFrom (g.pinned ++ [receiver]) [argument] []
    (by simp [hpinned, pinned]) (by simp) ?_
  refine unpinTo g.pinned [receiver, argument] (by simp [hpinned, pinned]) ?_
  refine of_eq (congrFun (Spec.pure_bind (.object n) fun method => Spec.execute fuel receiver method [argument]) _) ?_
  -- It is run to its end.
  let g₂ := g₁.withPinned g.pinned
  have hidle₂ : g₂.Idle := hleads.describes.settled.idle
  have hg₂ : w.Guides g₂ [] :=
    ((hg.withPinned pinned).leads hidle hleads hless List.suffix_rfl fun _ _ => rfl).withPinned g.pinned
  have hi₂ : w.Integers g₂ :=
    ((hi.withPinned pinned).leads hw hleads List.suffix_rfl fun _ _ _ => rfl).withPinned g.pinned
  have ha₁ : g₁.IsInteger receiver a := IsInteger.advances (g := g.withPinned pinned) ha hw hleads.advances
  have hb₁ : g₁.IsInteger argument b := IsInteger.advances (g := g.withPinned pinned) hb hw hleads.advances
  obtain ⟨hcount, htemps, -⟩ := header_relay o.selector
  have hrun := execute receiver [argument] (P := fun v g' => ∃ reply, o.answer? a b = some reply ∧ g'.IsReply v reply)
    (F := fun e => o.answer? a b = none ∧ ∃ text, e = .primitiveFailed text) hidle₂ hg₂
    (hcompiled.withPinned g.pinned) hcount htemps hS hfuel
    (fun _ _ ⟨reply, hreply, hv⟩ => ⟨reply, hreply, by cases reply <;> exact hv⟩) fun g' c hr h => ?_
  · refine hrun.mono (fun v g' h' => ?_) (fun e g' h' => ?_) fun _ h' => h'
    · exact ⟨h'.1, h'.2.1, hi₂.works hg₂.describes h'.2.2.1, h'.2.2.1.pinned, h'.2.2.2⟩
    · exact ⟨h'.1, h'.2.1, hi₂.works hg₂.describes h'.2.2.1, h'.2.2.1.pinned, h'.2.2.2⟩
  · have hi' : w.Integers g' := (hi₂.works hg₂.describes h).withPinned g'.pinned
    have ha' : g'.IsInteger receiver a := h.isInteger ha₁
    have hb' : g'.IsInteger argument b := h.isInteger hb₁
    refine Halts.relay hr hi' ha' hb' ho rfl hS (fun g'' v reply hreply hv hg'' _ h'' => ?_)
      fun hanswer g'' text hg'' h'' => ?_
    · exact ⟨hg'', h'', reply, hreply, hv⟩
    · exact ⟨hg'', h'', hanswer, text, rfl⟩

end Spec.Finishes

/-! ## The methods of the kernel -/

namespace KernelMethod

/-- The kernel method of a name that a class got last. -/
def last? (owner : Owner) (name : String) : Option KernelMethod :=
  (all.filter (·.owner = owner)).reverse.find? (name == ·.selector)

/-- Small integers try the primitives for small integers. -/
theorem last?_smallInteger (o : Operator) : ∃ index ≤ 255, Primitive.ofIndex? index = some o.small ∧
    last? (.cls .smallInteger) o.selector =
      some (trying (.cls .smallInteger) o.fallback o.selector index) := by
  cases o with
  | arithmetic op => cases op <;> refine ⟨_, ?_, ?_, rfl⟩ <;> decide
  | comparison op => cases op <;> refine ⟨_, ?_, ?_, rfl⟩ <;> decide

/-- All integers try the primitives for integers. -/
theorem last?_integer {o : Operator} (ho : o.isWide = true) :
    ∃ index ≤ 255, Primitive.ofIndex? index = some o.integer ∧
      last? (.cls .integer) o.selector = some (trying (.cls .integer) o.lastFallback o.selector index) := by
  cases o with
  | arithmetic op =>
    cases op with
    | add | subtract | multiply | divide | modulo | floorDivide => refine ⟨_, ?_, ?_, rfl⟩ <;> decide
    | _ => cases ho
  | comparison op => cases op <;> refine ⟨_, ?_, ?_, rfl⟩ <;> decide

/-- Large integers have no methods of their own. -/
theorem last?_largeInteger (name : String) : last? (.cls .largeInteger) name = none := by
  have hnone : all.filter (·.owner = .cls .largeInteger) = [] := rfl
  unfold last?
  rw [hnone]
  rfl

/-- Integers do not understand that a primitive failed. -/
theorem last?_eq_none : ∀ k ∈ Graph.integerClasses,
    last? (.cls k) "primitiveFailed" = none ∧ last? (.cls k) "doesNotUnderstand:" = none := by
  decide +kernel

end KernelMethod

theorem Operator.selectorArgCount_eq (o : Operator) : selectorArgCount o.selector = 1 := by
  cases o with
  | arithmetic op => cases op <;> decide
  | comparison op => cases op <;> decide

/-! ## Fresh graphs -/

namespace Graph

variable {g : Graph} {w : World} {c : Nat} {k : KernelClass} {name : String}

/-- What is looked up among methods is a kernel method of its name. -/
theorem rel_lookup {methods : List KernelMethod} {log : List (String × Value)}
    (h : List.Forall₂ (IsKernelMethod w g c) methods log) (name : String) :
    Option.Rel (fun method v => IsKernelMethod w g c method (name, v)) (methods.find? (name == ·.selector))
      (log.lookup name) := by
  induction h with
  | nil => exact .none
  | @cons method added methods log hadded _ ih =>
    rw [List.find?_cons, List.lookup_cons, hadded.1]
    cases hname : name == method.selector with
    | true => exact .some ⟨beq_iff_eq.mp hname, hadded.2⟩
    | false => exact ih

namespace Booted

/-- What a kernel class has for a name is the kernel method that it got last. -/
theorem rel_last? (h : Booted w g) (k : KernelClass) (name : String) :
    Option.Rel (fun method v => IsKernelMethod w g (classNode k) method (name, v))
      (KernelMethod.last? (.cls k) name) ((w.log (classNode k)).lookup name) :=
  rel_lookup (h.log (.cls k) _ rfl) name

theorem tries (h : Booted w g) {fallback : Fallback} {primitive : Primitive} {index : Nat}
    (hcount : selectorArgCount name = 1) (hindex : index ≤ 255) (hprimitive : Primitive.ofIndex? index = some primitive)
    (hlast : KernelMethod.last? (.cls k) name = some (.trying (.cls k) fallback name index)) :
    w.Tries g k fallback name primitive := by
  have hrel := h.rel_last? k name
  rw [hlast] at hrel
  cases hlookup : (w.log (classNode k)).lookup name with
  | none =>
    rw [hlookup] at hrel
    cases hrel
  | some v =>
    rw [hlookup] at hrel
    cases hrel with
    | some hmethod =>
      obtain ⟨-, draft, hdraft, hbuilt⟩ := hmethod
      obtain rfl := Except.ok.inj ((KernelMethod.finish_trying (.cls k) fallback hcount hindex).symm.trans hdraft)
      obtain ⟨n, frame, code, rfl, hcompiled⟩ := hbuilt.exists_compiled
      exact ⟨_, hcompiled, rfl, hlookup, index, hindex, hprimitive, rfl⟩

theorem lookup_eq_none (h : Booted w g) (hlast : KernelMethod.last? (.cls k) name = none) :
    (w.log (classNode k)).lookup name = none := by
  have hrel := h.rel_last? k name
  rw [hlast] at hrel
  cases hlookup : (w.log (classNode k)).lookup name with
  | none => rfl
  | some v =>
    rw [hlookup] at hrel
    cases hrel

/-- The classes of integers have the methods of the kernel. -/
theorem integers (h : Booted w g) : w.Integers g where
  spoken := h.spoken
  mem k _ := h.mem_classes (show w.Owns (.cls k) _ from rfl)
  superclass k _ := by
    obtain ⟨e, he, hentry⟩ := h.exists_entry k
    obtain ⟨older, -, hlinked⟩ := h.describes.linked.isEntry he
    rw [← hentry.superclass, ← hentry.cls, h.describes.superclass_field (mem_classesOf.mpr ⟨e, he, .inl rfl⟩)]
    exact congrArg some hlinked.cls.superclass
  small o := by
    obtain ⟨index, hle, hindex, hlast⟩ := KernelMethod.last?_smallInteger o
    exact h.tries o.selectorArgCount_eq hle hindex hlast
  general o ho := by
    obtain ⟨index, hle, hindex, hlast⟩ := KernelMethod.last?_integer ho
    exact h.tries o.selectorArgCount_eq hle hindex hlast
  large o _ := h.lookup_eq_none (KernelMethod.last?_largeInteger o.selector)
  lacks k hk := ⟨h.lookup_eq_none (KernelMethod.last?_eq_none k hk).1, h.lookup_eq_none (KernelMethod.last?_eq_none k hk).2⟩

end Booted

/-- Nothing is remembered and nothing is kept. -/
structure IsFresh (g : Graph) : Prop where
  memo : ∀ cls selector method, ¬ g.memo cls selector method
  pool : g.pool = ⟨[], []⟩

theorem IsFresh.guides (hg : g.IsFresh) {g' : Graph} (hless : g.LessStock g') (hw : w.Describes g') : w.Guides g' [] where
  describes := hw.withRegisters .idle rfl
  remembers hm := absurd (hless.memo hm) (hg.memo _ _ _)
  pooled := .empty nofun (hless.pool.elim (fun heq => heq.trans hg.pool) id)

end Graph

/-- Lookups on a fresh machine find what was installed. -/
theorem Spec.Ends.bootstrapGuides {g : Graph} {E : Failure → Graph → Prop} {S : Fatal → Prop} (hg : g.Unborn)
    (hfresh : g.IsFresh) (hS : S (.fault .overflow)) :
    Spec.bootstrap.Ends g (fun _ g' => ∃ w, Graph.Booted w g' ∧ w.Guides g' [] ∧ w.Integers g')
      (fun e g' => E e g' ∧ g.LessStock g') S := by
  refine (Spec.Finishes.of_modest (bootstrap hg hS) Spec.Modest.bootstrap).1.mono ?_ (fun _ _ h => h) fun _ h => h
  rintro - g' ⟨⟨w, hbooted⟩, hless⟩
  exact ⟨w, hbooted, hfresh.guides hless hbooted.describes, hbooted.integers⟩

end ObjectMachine
