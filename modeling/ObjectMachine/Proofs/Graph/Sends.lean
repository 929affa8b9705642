import ObjectMachine.Execution.Send
import ObjectMachine.Proofs.Graph.Primitives

/-!
# Sends

Lookups and sends as computations on graphs. A lookup may be answered by what the cache remembers,
which is all that shows of the cache.

## Main results

* `Simulates.lookup`: the method that a class answers a selector with.
* `Simulates.sendToClass`: a send whose lookup starts at a class.
* `Simulates.send`: a send to the receiver below its arguments.
-/

namespace ObjectMachine

/-! ## The cache -/

namespace MethodCache

variable {c : MethodCache} {cls selector method : Ref}

@[simp] theorem entries_record (c : MethodCache) (hit : Bool) :
    (c.record hit).entries = c.entries := by
  cases hit <;> rfl

theorem mem_of_find? (h : c.find? cls selector = some method) :
    ∃ entry ∈ c.entries.toList, entry.cls = cls ∧ entry.selector = selector ∧
      entry.method = method ∧ entry.method.isNull = false := by
  unfold find? at h
  split at h
  · rename_i entry hentry
    split at h
    · rename_i hall
      obtain ⟨hcls, hselector, hnull⟩ := hall
      cases h
      exact ⟨entry, Array.mem_toList_iff.mpr (Array.mem_of_getElem? hentry), hcls, hselector, rfl,
        by simpa using hnull⟩
    · cases h
  · cases h

theorem mem_insert {entry : CacheEntry} (h : entry ∈ (c.insert cls selector method).entries.toList) :
    entry ∈ c.entries.toList ∨ entry = ⟨cls, selector, method⟩ := by
  unfold insert at h
  rw [Array.toList_setIfInBounds] at h
  exact List.mem_or_eq_of_mem_set h

end MethodCache

/-! ## The send in progress -/

namespace Machine

variable {m : Machine} {g : Graph} {p : Placement} {starts : List Nat}

/-- The send in progress may be any. -/
theorem Realizes.withSend (hm : m.Realizes g p starts) {selector lookupClass newMethod : Ref}
    {selectorValue classValue methodValue : Value} (hselector : p.Shows selector selectorValue)
    (hclass : p.Shows lookupClass classValue) (hmethod : p.Shows newMethod methodValue)
    {argCount count : Nat} (hargs : argCount = count) :
    { m with registers := { m.registers with selector, argCount, lookupClass, newMethod } }.Realizes
      { g with registers := { g.registers with
        selector := selectorValue
        argCount := count
        lookupClass := classValue
        newMethod := methodValue } } p starts where
  toHolds := hm.toHolds.withRegisters { hm.roots.registers with
    selector := hselector, argCount := hargs, lookupClass := hclass, newMethod := hmethod }
  positions c hc := { hm.positions c hc with }

/-- The cache may be any that remembers nothing else. -/
theorem Realizes.withCache (hm : m.Realizes g p starts) {cache : MethodCache}
    {memo : Value → Value → Value → Prop}
    (hcache : ∀ entry ∈ cache.entries.toList, entry.method.isNull = false →
      ∃ cls selector method, p.Shows entry.cls cls ∧ p.Shows entry.selector selector ∧
        p.Shows entry.method method ∧ memo cls selector method) :
    { m with cache }.Realizes { g with memo } p starts :=
  { hm with
    roots := { hm.roots with }
    cache := hcache
    positions := fun c h => (hm.positions c h).congr (fun _ => .refl _) rfl }

end Machine

/-! ## Lookup -/

namespace Machine

open ObjectMachine.Action

/-- The method that a class answers a selector with, by a walk along its superclasses. -/
def searchMethod (cls selector : Ref) : Action (Option Ref) := do
  match ← read (Class.lookupMethod? · cls selector) with
  | some method =>
    modify fun m => { m with cache := m.cache.insert cls selector method }
    return some method
  | none => return none

variable {m : Machine} {cls selector method : Ref}

theorem lookup_of_find? (h : m.cache.find? cls selector = some method) :
    lookup cls selector m = .ok (some method) { m with cache := m.cache.record true } := by
  refine (bind_of_ok rfl).trans ?_
  dsimp only
  rw [h]
  rfl

theorem lookup_of_find?_eq_none (h : m.cache.find? cls selector = none) :
    lookup cls selector m = searchMethod cls selector { m with cache := m.cache.record false } := by
  refine (bind_of_ok rfl).trans ?_
  dsimp only
  rw [h]
  rfl

end Machine

namespace Graph

variable (g : Graph)

/-- The graph with one more method remembered. -/
def remember (cls selector method : Value) : Graph :=
  { g with memo := fun c s m => g.memo c s m ∨ c = cls ∧ s = selector ∧ m = method }

/-- The number of literals of a method. -/
def literalCount (method : Value) : Option Nat := do
  g.length (← g.field method Method.literalsField)

/-- A literal of a method. -/
def literal (method : Value) (index : Nat) : Option Value := do
  g.element (← g.field method Method.literalsField) index

/-- The selector to report when not even the message for messages that are not understood is
understood. -/
def unknownSelector : Option Value := do
  let argument ← g.stackValue 0
  if g.isInstance .message argument then g.field argument Message.selectorField
  else some g.registers.selector

end Graph

namespace Spec

/-- A method that the cache remembers. -/
def remembered (cls selector : Value) : Spec (Option Value) := fun g r =>
  ∃ method, g.memo cls selector method ∧ r = .ok (some method) g

/-- The method that a class answers a selector with, by a walk along its superclasses. -/
noncomputable def search (cls selector : Value) : Spec (Option Value) := do
  match ← read (·.lookupMethod? cls selector) with
  | some method =>
    modify (·.remember cls selector method)
    return some method
  | none => return none

/-- The method that a class answers a selector with. -/
noncomputable def lookup (cls selector : Value) : Spec (Option Value) :=
  either (remembered cls selector) (search cls selector)

/-- Replaces the arguments of the send in progress by a message with its selector and arguments. -/
def reifyMessage : Spec Unit := do
  let argCount := (← getRegisters).argCount
  let arguments ← newArray argCount
  write (·.copyTop arguments argCount)
  pin arguments
  let message ← allocate ((← getCore).cls .message) .plain Message.fieldCount 0
  let arguments ← unpin
  let selector := (← getRegisters).selector
  write fun g => do
    let g ← g.storeField message Message.selectorField selector
    g.storeField message Message.argumentsField arguments
  replaceTop argCount message
  modifyRegisters fun r => { r with argCount := 1 }

/-- Finds the method of the send in progress. Answers whether there is one. -/
noncomputable def findMethod : Spec Bool := do
  let r ← getRegisters
  match ← lookup r.lookupClass r.selector with
  | some method =>
    modifyRegisters fun r => { r with newMethod := method }
    return true
  | none => return false

/-- Fails because a receiver understands nothing that could be sent to it. -/
noncomputable def failNotUnderstood {α : Type} : Spec α := do
  let receiver ← peek (← getRegisters).argCount
  let selector ← read Graph.unknownSelector
  let receiver ← read (·.describe receiver)
  let selector ← read (·.describe selector)
  fail (· = .execution (.notUnderstood receiver selector))

/-- Finds the method of the send in progress, which becomes another send if there is none. -/
noncomputable def findNewMethod : Spec Unit := do
  if ← findMethod then return
  let doesNotUnderstand := (← getCore).doesNotUnderstand
  if (← getRegisters).selector = doesNotUnderstand then failNotUnderstood
  else
    reifyMessage
    let doesNotUnderstand := (← getCore).doesNotUnderstand
    modifyRegisters fun r => { r with selector := doesNotUnderstand }
    if ← findMethod then return
    failNotUnderstood

/-- Runs the primitive of a method, if it has one. -/
def invokeFor (header : MethodHeader) (argCount : Nat) : Spec Graph.Verdict :=
  if header.primitiveIndex = 0 then pure .failed else invoke header.primitiveIndex argCount

/-- Goes on after the primitive of a method. -/
noncomputable def afterPrimitive : Graph.Verdict → Spec (Option Value)
  | .done => return none
  | .failed => do
    activateNewMethod
    return none
  | .exit v => do
    clearRegisters
    return some v

/-- Executes the method found, unless it can be answered at once. Answers the result of the run if
that is over. -/
noncomputable def executeNewMethod : Spec (Option Value) := do
  let r ← getRegisters
  let header ← read (·.header r.newMethod)
  match header.flag? with
  | some .normal => afterPrimitive (← invokeFor header r.argCount)
  | some .returnSelf =>
    popMany r.argCount
    return none
  | some .returnField =>
    let receiver ← peek r.argCount
    if ← ask (·.hasField receiver header.primitiveIndex) then
      replaceTop (r.argCount + 1) (← read (·.field receiver header.primitiveIndex))
      return none
    else
      let receiver ← read (·.describe receiver)
      fail (· = .execution (.noFieldToAnswer receiver header.primitiveIndex))
  | some .returnLiteral =>
    if (← read (·.literalCount r.newMethod)) = 0 then
      fail fun failure => ∃ method, failure = .execution (.noLiteralToAnswer method)
    else
      replaceTop (r.argCount + 1) (← read (·.literal r.newMethod 0))
      return none
  | none => fail fun failure => ∃ method, failure = .execution (.reservedFlag method header)

/-- Sends a selector with the lookup starting at a class. -/
noncomputable def sendToClass (selector cls : Value) (argCount : Nat) : Spec (Option Value) := do
  modifyRegisters fun r => { r with selector, argCount, lookupClass := cls }
  findNewMethod
  executeNewMethod

/-- Sends a selector to the receiver below a number of arguments. -/
noncomputable def send (selector : Value) (argCount : Nat) : Spec (Option Value) := do
  let receiver ← peek argCount
  let cls ← read (·.classOf receiver)
  sendToClass selector cls argCount

end Spec

namespace Simulates

variable {p : Placement} {r s : Ref} {v w : Value}

/-- Registers of the send in progress are changed. -/
theorem modifySend {f : Registers → Registers} {h : Graph.Registers → Graph.Registers}
    (hf : ∀ (m : Machine) g starts, m.Realizes g p starts →
      { m with registers := f m.registers }.Realizes { g with registers := h g.registers } p starts) :
    Simulates p (· = p) (Action.modifyRegisters f) (Spec.modifyRegisters h) :=
  modify hf

/-- A search along superclasses is remembered. -/
theorem searchMethod (hr : p.Shows r v) (hs : p.Shows s w) :
    Simulates p (· = p) (Machine.searchMethod r s) (Spec.search v w) := by
  refine (read (Reads.lookupMethod? hr hs)).bind_still fun found foundValue hfound => ?_
  cases hfound with
  | none => exact pure .none rfl
  | @some method methodValue hmethod =>
    refine (modify fun m g starts hm => ?_).bind_still fun _ _ _ => pure (.some hmethod) rfl
    refine hm.withCache fun entry hentry hnull => ?_
    obtain hentry | rfl := MethodCache.mem_insert hentry
    · obtain ⟨c, s', m', hc, hs', hm', hmemo⟩ := hm.cache entry hentry hnull
      exact ⟨c, s', m', hc, hs', hm', .inl hmemo⟩
    · exact ⟨v, w, methodValue, hr, hs, hmethod, .inr ⟨rfl, rfl, rfl⟩⟩

theorem lookup (hr : p.Shows r v) (hs : p.Shows s w) :
    Simulates p (· = p) (Machine.lookup r s) (Spec.lookup v w) := by
  intro m g starts hm hright
  have hcount : ∀ hit, { m with cache := m.cache.record hit }.Realizes g p starts := by
    intro hit
    refine hm.withCache fun entry hentry => hm.cache entry ?_
    rwa [MethodCache.entries_record] at hentry
  cases hfind : m.cache.find? r s with
  | some method =>
    obtain ⟨entry, hentry, rfl, rfl, rfl, hnull⟩ := MethodCache.mem_of_find? hfind
    obtain ⟨cls, selector, method, hcls, hselector, hmethod, hmemo⟩ := hm.cache entry hentry hnull
    cases hr.value_eq hcls
    cases hs.value_eq hselector
    rw [Machine.lookup_of_find? hfind]
    exact ⟨_, g, p, starts, .inl ⟨method, hmemo, rfl⟩, rfl, .some hmethod, hcount true⟩
  | none =>
    rw [Machine.lookup_of_find?_eq_none hfind]
    exact (searchMethod hr hs _ g starts (hcount false) fun hwrong => hright (.inr hwrong)).mono
      (fun _ h => .inr h) (.refl p) fun _ h => h

theorem reifyMessage : Simulates p p.Steady Machine.reifyMessage Spec.reifyMessage := by
  refine bind_registers fun r s hs => ?_
  rw [← hs.argCount]
  refine (newArray r.argCount).bind_steady fun p₁ _ arguments argumentsValue ha => ?_
  have hrest : Simulates p₁ p₁.Steady (do
      Machine.pin arguments
      let message ← Machine.allocate ((← Action.getCore).cls .message) .plain Message.fieldCount 0
      let arguments ← Machine.unpin
      let selector := (← Action.getRegisters).selector
      Action.write fun h => do
        let h ← h.storeField message Message.selectorField selector
        h.storeField message Message.argumentsField arguments
      Machine.replaceTop r.argCount message
      Action.modifyRegisters fun r => { r with argCount := 1 }) (do
      Spec.pin argumentsValue
      let message ← Spec.allocate ((← Spec.getCore).cls .message) .plain Message.fieldCount 0
      let arguments ← Spec.unpin
      let selector := (← Spec.getRegisters).selector
      Spec.write fun g => do
        let g ← g.storeField message Message.selectorField selector
        g.storeField message Message.argumentsField arguments
      Spec.replaceTop r.argCount message
      Spec.modifyRegisters fun r => { r with argCount := 1 }) := by
    refine (pin ha).bind_still fun _ _ _ => ?_
    refine bind_core fun core c hcore => ?_
    refine (allocate (hcore.cls .message)).bind_steady fun p₂ _ message messageValue hmessage => ?_
    refine unpin.bind_still fun arguments argumentsValue ha => ?_
    refine bind_registers fun r' s' hs' => ?_
    refine (write ((Writes.storeField hmessage hs'.selector).bind
      (Writes.storeField hmessage ha))).bind_still fun _ _ _ => ?_
    refine (replaceTop _ hmessage).bind_still fun _ _ _ => Simulates.steady ?_
    exact modifySend fun m g starts hm =>
      hm.withSend hm.roots.registers.selector hm.roots.registers.lookupClass
        hm.roots.registers.newMethod rfl
  have hall := (copyTop ha r.argCount).bind_still fun _ _ _ => hrest
  rw [Machine.copyTop_bind] at hall
  exact hall

theorem findMethod : Simulates p (· = p) Machine.findMethod Spec.findMethod := by
  refine bind_registers fun r s hs => ?_
  refine (lookup hs.lookupClass hs.selector).bind_still fun method methodValue hmethod => ?_
  cases hmethod with
  | none => exact pure rfl rfl
  | some hmethod =>
    refine (modifySend fun m g starts hm => ?_).bind_still fun _ _ _ => pure rfl rfl
    have hr := hm.roots.registers
    exact hm.withSend hr.selector hr.lookupClass hmethod hr.argCount

end Simulates

namespace Reads

variable {p : Placement} {r : Ref} {v : Value}

theorem literalCount (hr : p.Shows r v) :
    Reads p (fun m => Method.literalCount m.heap r) (·.literalCount v) :=
  (field hr Method.literalsField).bind fun _ _ hs => length hs

theorem literal (hr : p.Shows r v) (index : Nat) :
    Reads p (fun m => Method.literal m.heap r index) (·.literal v index) :=
  (field hr Method.literalsField).bind fun _ _ hs => element hs index

theorem unknownSelector : Reads p Machine.unknownSelector Graph.unknownSelector := by
  refine .intro fun m g starts hm b hb => ?_
  obtain ⟨argument, hargument, hb⟩ := Option.bind_eq_some_iff.mp hb
  obtain ⟨a, ha, hshows⟩ := (stackValue 0).ok hm hargument
  obtain ⟨_, hmessage, rfl⟩ := (isInstance hshows .message).ok hm rfl
  unfold Machine.unknownSelector
  rw [ha]
  show ∃ a', (m.isInstance .message a >>= fun message =>
    if message then m.heap.fetchField a Message.selectorField else .ok m.registers.selector) = .ok a' ∧ _
  rw [hmessage]
  replace hb : (if g.isInstance .message argument = true then _ else _) = some b := hb
  split at hb
  · rename_i hyes
    rw [hyes]
    exact (field hshows _).ok hm hb
  · rename_i hno
    cases hb
    rw [Bool.eq_false_iff.mpr hno]
    exact ⟨_, rfl, hm.roots.registers.selector⟩

end Reads

namespace Simulates

variable {p : Placement} {r s : Ref} {v w : Value}

theorem failNotUnderstood {α β : Type} [Depicted α β] (f : Unit → Action α) :
    Simulates p p.Steady (Machine.failNotUnderstood >>= f) (Spec.failNotUnderstood : Spec β) := by
  unfold Machine.failNotUnderstood
  simp only [Action.bind_assoc]
  refine bind_registers fun r s hs => ?_
  rw [← hs.argCount]
  refine (peek _).bind_still fun receiver receiverValue hreceiver => ?_
  refine (inspect Reads.unknownSelector).bind_still fun selector selectorValue hselector => ?_
  refine (inspect (Reads.describe hreceiver)).bind_still fun receiver _ heq => ?_
  cases heq
  refine (inspect (Reads.describe hselector)).bind_still fun selector _ heq => ?_
  cases heq
  exact failRun_bind rfl

theorem findNewMethod : Simulates p p.Steady Machine.findNewMethod Spec.findNewMethod := by
  have hfail : ∀ p : Placement,
      Simulates p p.Steady Machine.failNotUnderstood (Spec.failNotUnderstood : Spec Unit) := by
    intro p
    have hbind := failNotUnderstood (p := p) (β := Unit) (Pure.pure : Unit → Action Unit)
    rwa [bind_pure] at hbind
  refine findMethod.bind_still fun found _ heq => ?_
  cases heq
  cases found with
  | true => exact pure trivial (.refl p)
  | false =>
    refine bind_core fun core c hcore => ?_
    refine bind_registers fun r s hs => ?_
    dsimp only
    by_cases hsame : r.selector = core.doesNotUnderstand
    · rw [if_pos hsame, if_pos ((hs.selector.eq_iff hcore.doesNotUnderstand).mp hsame)]
      exact hfail p
    · rw [if_neg hsame, if_neg (mt (hs.selector.eq_iff hcore.doesNotUnderstand).mpr hsame)]
      refine reifyMessage.bind_steady fun p' _ _ _ _ => ?_
      refine bind_core fun core' c' hcore' => ?_
      refine (modifySend fun m g starts hm => ?_).bind_still fun _ _ _ => ?_
      · have hr := hm.roots.registers
        exact hm.withSend hcore'.doesNotUnderstand hr.lookupClass hr.newMethod hr.argCount
      refine findMethod.bind_still fun found _ heq => ?_
      cases heq
      cases found with
      | true => exact pure trivial (.refl p')
      | false => exact hfail p'

theorem afterPrimitive {verdict : Verdict} {w : Graph.Verdict} (h : p.ShowsVerdict verdict w) :
    Simulates p p.Steady
      (match verdict with
        | .done => Pure.pure none
        | .failed => Machine.activateNewMethod >>= fun _ => Pure.pure none
        | .exit value => Machine.clearRegisters >>= fun _ => Pure.pure (some value))
      (Spec.afterPrimitive w) := by
  cases h with
  | done => exact pure .none (.refl p)
  | failed => exact activateNewMethod.bind_steady fun p' _ _ _ _ => pure .none (.refl p')
  | exit hr => exact clearRegisters.bind_still fun _ _ _ => pure (.some hr) (.refl p)

theorem executeNewMethod :
    Simulates p p.Steady Machine.executeNewMethod Spec.executeNewMethod := by
  refine bind_registers fun r s hs => ?_
  dsimp only
  rw [← hs.argCount]
  refine (read (Reads.header hs.newMethod)).bind_still fun header _ heq => ?_
  cases heq
  cases header.flag? with
  | none => exact fail ⟨_, rfl⟩
  | some flag =>
    cases flag with
    | normal =>
      unfold Spec.invokeFor
      dsimp only
      split
      · exact (pure (Placement.ShowsVerdict.failed (p := p)) (.refl p)).bind_steady
          fun p' _ verdict w hw => afterPrimitive hw
      · exact (invoke _ _).bind_steady fun p' _ verdict w hw => afterPrimitive hw
    | returnSelf =>
      exact (popMany _).bind_still fun _ _ _ => pure .none (.refl p)
    | returnField =>
      refine (peek _).bind_still fun receiver receiverValue hreceiver => ?_
      refine (lookAt (Reads.hasField hreceiver _)).bind_still fun has _ heq => ?_
      cases heq
      cases has with
      | true =>
        refine (read (Reads.field hreceiver _)).bind_still fun field fieldValue hfield => ?_
        exact (replaceTop _ hfield).bind_still fun _ _ _ => pure .none (.refl p)
      | false =>
        refine (inspect (Reads.describe hreceiver)).bind_still fun receiver _ heq => ?_
        cases heq
        exact fail rfl
    | returnLiteral =>
      refine (read (Reads.literalCount hs.newMethod)).bind_still fun count _ heq => ?_
      cases heq
      split
      · exact failRun_bind ⟨_, rfl⟩
      · refine (read (Reads.literal hs.newMethod 0)).bind_still fun literal literalValue hliteral => ?_
        exact (replaceTop _ hliteral).bind_still fun _ _ _ => pure .none (.refl p)

theorem sendToClass {cls : Ref} {clsValue : Value} (hs : p.Shows s w) (hcls : p.Shows cls clsValue)
    (argCount : Nat) :
    Simulates p p.Steady (Machine.sendToClass s cls argCount)
      (Spec.sendToClass w clsValue argCount) := by
  refine (modifySend fun m g starts hm => ?_).bind_still fun _ _ _ => ?_
  · exact hm.withSend hs hcls hm.roots.registers.newMethod rfl
  · exact findNewMethod.bind_steady fun p' _ _ _ _ => executeNewMethod

theorem send (hs : p.Shows s w) (argCount : Nat) :
    Simulates p p.Steady (Machine.send s argCount) (Spec.send w argCount) := by
  refine (peek argCount).bind_still fun receiver receiverValue hreceiver => ?_
  refine (inspect (Reads.classOf hreceiver)).bind_still fun cls clsValue hcls => ?_
  exact sendToClass hs hcls argCount

end Simulates

end ObjectMachine
