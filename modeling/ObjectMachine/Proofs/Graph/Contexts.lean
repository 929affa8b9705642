import ObjectMachine.Proofs.Graph.Defining
import ObjectMachine.Proofs.Graph.Descriptions
import ObjectMachine.Proofs.Graph.Filling

/-!
# Activation

Contexts for activations, as computations on graphs: one from the pool or a new one, filled in with
what a method or a block starts from and entered with the arguments on the stack.

## Main results

* `Simulates.newContext`: a context for an activation.
* `Simulates.activateNewMethod`, `Simulates.activateBlock`: the activations.
-/

namespace ObjectMachine

/-! ## The pool -/

namespace Graph

/-- Takes out the context that was put in last among those of a frame size. -/
def Pool.take (pool : Pool) (frameSize : Nat) : Option Value × Pool :=
  if frameSize = ContextPool.smallFrame then
    match pool.small with
    | [] => (none, pool)
    | context :: rest => (some context, { pool with small := rest })
  else if frameSize = ContextPool.largeFrame then
    match pool.large with
    | [] => (none, pool)
    | context :: rest => (some context, { pool with large := rest })
  else (none, pool)

/-- Puts in a context of a frame size, if it is one of the two and there is room. -/
def Pool.put (pool : Pool) (context : Value) (frameSize : Nat) : Pool :=
  if frameSize = ContextPool.smallFrame then
    if pool.small.length < ContextPool.limit then { pool with small := context :: pool.small }
    else pool
  else if frameSize = ContextPool.largeFrame then
    if pool.large.length < ContextPool.limit then { pool with large := context :: pool.large }
    else pool
  else pool

end Graph

/-- The contexts in a pool stand for those in the pool of a graph. -/
structure Placement.ShowsPool (p : Placement) (c : ContextPool) (pool : Graph.Pool) : Prop where
  small : List.Forall₂ p.Shows c.small pool.small
  large : List.Forall₂ p.Shows c.large pool.large

namespace Placement.ShowsPool

variable {p : Placement} {c : ContextPool} {pool : Graph.Pool}

theorem take (hc : p.ShowsPool c pool) (frameSize : Nat) :
    Option.Rel p.Shows (c.take frameSize).1 (pool.take frameSize).1 ∧
      p.ShowsPool (c.take frameSize).2 (pool.take frameSize).2 := by
  obtain ⟨small, large, reused⟩ := c
  obtain ⟨smallValues, largeValues⟩ := pool
  obtain ⟨hsmall, hlarge⟩ := hc
  unfold ContextPool.take Graph.Pool.take
  split
  · cases hsmall with
    | nil => exact ⟨.none, .nil, hlarge⟩
    | cons hr hrest => exact ⟨.some hr, hrest, hlarge⟩
  · split
    · cases hlarge with
      | nil => exact ⟨.none, hsmall, .nil⟩
      | cons hr hrest => exact ⟨.some hr, hsmall, hrest⟩
    · exact ⟨.none, hsmall, hlarge⟩

theorem put (hc : p.ShowsPool c pool) {r : Ref} {v : Value} (hr : p.Shows r v) (frameSize : Nat) :
    p.ShowsPool (c.put r frameSize) (pool.put v frameSize) := by
  have hsmall := hc.small.length_eq
  have hlarge := hc.large.length_eq
  unfold ContextPool.put Graph.Pool.put
  rw [hsmall, hlarge]
  split
  · split
    · exact ⟨.cons hr hc.small, hc.large⟩
    · exact hc
  · split
    · split
      · exact ⟨hc.small, .cons hr hc.large⟩
      · exact hc
    · exact hc

end Placement.ShowsPool

namespace Machine.Realizes

variable {m : Machine} {g : Graph} {p : Placement} {starts : List Nat}

theorem pool (hm : m.Realizes g p starts) : p.ShowsPool m.contexts g.pool := ⟨hm.small, hm.large⟩

theorem withPool (hm : m.Realizes g p starts) {contexts : ContextPool} {pool : Graph.Pool}
    (hc : p.ShowsPool contexts pool) :
    { m with contexts }.Realizes { g with pool } p starts :=
  { hm with
    roots := { hm.roots with }
    small := hc.small
    large := hc.large
    positions := fun c h => (hm.positions c h).congr (fun _ => .refl _) rfl }

end Machine.Realizes

/-! ## Filling in -/

namespace Graph

variable (g : Graph)

/-- The topmost values of the stack, the lowest first. -/
def topValues (count : Nat) : Option (List Value) := do
  let c ← g.active?
  if count ≤ g.registers.sp then
    some ((List.range count).map fun k => (g.nodes c).element (g.registers.sp - count + k))
  else none

/-- Fills in the first fields and elements of an object other than the active context. -/
def fill (target : Value) (fields elements : List Value) : Option Graph :=
  match target with
  | .immediate _ => none
  | .object n =>
    if g.registers.active ≠ .object n ∧ (g.nodes n).format.hasReferenceTail = true ∧
        fields.length ≤ (g.nodes n).fields ∧ elements.length ≤ (g.nodes n).len ∧
        (∀ v ∈ fields[contextStackPointer]?, (g.nodes n).format = .context ∧
          v = .immediate (.ofNat elements.length)) then
      some (g.setNode n ((g.nodes n).filled fields elements))
    else none

/-- Copies the topmost values of the stack to the first elements of an object. -/
def copyTop (target : Value) (count : Nat) : Option Graph := do
  g.fill target [] (← g.topValues count)

/-- Fills in a method context at the beginning of its method. -/
def initMethod (context sender method receiver : Value) (tempCount : Nat) : Option Graph :=
  g.fill context [sender, .immediate .zero, .immediate (.ofNat tempCount), method, g.nil, receiver]
    (List.replicate tempCount g.nil)

/-- Fills in a block context at the beginning of its block, with its arguments from the stack. -/
def initBlock (context caller block : Value) (argCount : Nat) : Option Graph := do
  let initialPc ← g.field block Context.initialPcField
  let blockArgs ← g.field block Context.argCountField
  let home ← g.field block Context.homeField
  g.fill context [caller, initialPc, .immediate (.ofNat argCount), blockArgs, initialPc, home]
    (← g.topValues argCount)

variable {g} {g' : Graph} {target : Value} {fields elements : List Value}

theorem of_fill (h : g.fill target fields elements = some g') :
    ∃ n, target = .object n ∧ g.registers.active ≠ .object n ∧
      (g.nodes n).format.hasReferenceTail = true ∧ fields.length ≤ (g.nodes n).fields ∧
      elements.length ≤ (g.nodes n).len ∧
      (∀ v, fields[contextStackPointer]? = some v →
        (g.nodes n).format = .context ∧ v = .immediate (.ofNat elements.length)) ∧
      g' = g.setNode n ((g.nodes n).filled fields elements) := by
  cases target with
  | immediate r => cases h
  | object n =>
    unfold fill at h
    dsimp only at h
    split at h
    · rename_i hall
      exact ⟨n, rfl, hall.1, hall.2.1, hall.2.2.1, hall.2.2.2.1,
        fun v hv => hall.2.2.2.2 v hv, (Option.some.inj h).symm⟩
    · cases h

theorem of_topValues {count : Nat} {values : List Value} (h : g.topValues count = some values) :
    ∃ c, g.registers.active = .object c ∧ count ≤ g.registers.sp ∧
      values = (List.range count).map fun k => (g.nodes c).element (g.registers.sp - count + k) := by
  obtain ⟨c, hc, h⟩ := Option.bind_eq_some_iff.mp h
  split at h
  · rename_i hle
    exact ⟨c, active?_eq_some.mp hc, hle, (Option.some.inj h).symm⟩
  · cases h

end Graph

theorem forall₂_replicate {α β : Type} {R : α → β → Prop} {a : α} {b : β} (hab : R a b)
    (count : Nat) : List.Forall₂ R (List.replicate count a) (List.replicate count b) := by
  induction count with
  | zero => exact .nil
  | succ count ih => exact .cons hab ih

namespace Machine.Realizes

variable {m : Machine} {g g' : Graph} {p : Placement} {starts : List Nat}

/-- The topmost values of the stack are slots in a row. -/
theorem topSlots (hm : m.Realizes g p starts) {count : Nat} {values : List Value}
    (hvalues : g.topValues count = some values) :
    ∃ refs, List.Forall₂ p.Shows refs values ∧ refs.length = count ∧
      ∀ k r, refs[k]? = some r →
        m.heap.slot (m.registers.stackBase + m.registers.sp - count + k) = .ok r := by
  obtain ⟨c, hc, hle, rfl⟩ := Graph.of_topValues hvalues
  have hsp := hm.roots.registers.sp
  have hknown := hm.sp_le_known hc
  have hslot : ∀ k, k < count → ∃ r,
      m.heap.slot (m.registers.stackBase + m.registers.sp - count + k) = .ok r ∧
      p.Shows r ((g.nodes c).element (g.registers.sp - count + k)) := by
    intro k hk
    obtain ⟨r, hr, hshows⟩ := hm.slot_stack hc
      (show g.registers.sp - count + k < g.known c by omega)
    refine ⟨r, ?_, hshows⟩
    rw [← hr, hsp]
    congr 1
    omega
  choose! f hf using hslot
  refine ⟨(List.range count).map f, ?_, by simp, ?_⟩
  · rw [List.forall₂_map_left_iff, List.forall₂_map_right_iff, List.forall₂_same]
    intro k hk
    exact (hf k (List.mem_range.mp hk)).2
  · intro k r hr
    rw [List.getElem?_map, Option.map_eq_some_iff] at hr
    obtain ⟨k', hk', rfl⟩ := hr
    obtain ⟨hlt, rfl⟩ := List.getElem?_eq_some_iff.mp hk'
    rw [List.getElem_range]
    rw [List.length_range] at hlt
    exact (hf k hlt).1

/-- The stack of the active context lies outside other objects. -/
theorem stack_apart (hm : m.Realizes g p starts) {c n i : Nat}
    (hc : g.registers.active = .object c) (hne : g.registers.active ≠ .object n)
    (hi : p.find? n = some i) {k : Nat} (hk : k < (g.nodes c).len) :
    m.registers.stackBase + k < i ∨ i + (m.heap.view i).size ≤ m.registers.stackBase + k := by
  have hp := hm.positions c hc
  obtain ⟨j, hj, hbase, -⟩ := hp.stack
  have hd := hm.depicts
  have hs := hd.shows hj
  have hin : headerWords + (g.nodes c).fields + 1 + k < (m.heap.view j).size :=
    View.elements_lt_size (by rw [hs.format, hp.context]; rfl)
      (by rw [hs.elements_eq, hs.len]; omega)
  have hji : j ≠ i := by
    rintro rfl
    exact hne (by rw [hc, p.injective hj hi])
  rcases Nat.lt_or_gt_of_ne hji with hlt | hlt
  · have hend : j + (m.heap.view j).size ≤ i :=
      hd.laidOut.tiles.apart (hd.placed hj) (hd.placed hi) hlt
    omega
  · have hend : i + (m.heap.view i).size ≤ j :=
      hd.laidOut.tiles.apart (hd.placed hi) (hd.placed hj) hlt
    omega

/-- The topmost values of the stack are copied. -/
theorem copySlots (hm : m.Realizes g p starts) {n i count : Nat} {values : List Value} {refs : List Ref}
    {h : Heap} (hi : p.find? n = some i) (hidle : g.registers.active ≠ .object n)
    (htail : (g.nodes n).format.hasReferenceTail = true) (hvalues : g.topValues count = some values)
    (hlen : count ≤ (g.nodes n).len) (hrefs : refs.length = count)
    (hslots : ∀ k r, refs[k]? = some r →
      m.heap.slot (m.registers.stackBase + m.registers.sp - count + k) = .ok r)
    (ht : Heap.Touches i m.heap h) :
    Context.copySlots h (.ofWordIndex i) (m.registers.stackBase + m.registers.sp - count) 0 count =
      .ok (h.pokeRun (i + (headerWords + (g.nodes n).fields + 1)) refs) := by
  obtain ⟨c, hc, hle, -⟩ := Graph.of_topValues hvalues
  have hs := hm.depicts.shows hi
  have hsp := hm.roots.registers.sp
  have hbound : g.registers.sp ≤ (g.nodes c).len := by
    obtain ⟨j, hj, -⟩ := (hm.positions c hc).stack
    exact (hm.sp_le_known hc).trans (hm.depicts.shows hj).le_len
  subst hrefs
  have hcopy := Context.copySlots_eq ht hm.depicts.laidOut (hm.depicts.placed hi)
    (by rw [hs.format]; exact htail) (show 0 + refs.length ≤ (m.heap.view i).len by
      rw [hs.len, Nat.zero_add]
      exact hlen)
    (by
      intro k hk
      have hapart := hm.stack_apart hc hidle hi (show g.registers.sp - refs.length + k < _ by omega)
      omega)
    hslots
  rw [hs.elements_eq, Nat.add_zero] at hcopy
  exact hcopy

end Machine.Realizes

namespace Writes

variable {p : Placement} {context sender method receiver : Ref}
  {contextValue senderValue methodValue receiverValue : Value}

theorem initMethod (hc : p.Shows context contextValue) (hs : p.Shows sender senderValue)
    (hmethod : p.Shows method methodValue) (hr : p.Shows receiver receiverValue) (tempCount : Nat) :
    Writes p (Context.initMethod · context sender method receiver tempCount)
      (·.initMethod contextValue senderValue methodValue receiverValue tempCount) := by
  intro m g starts hm g' hg'
  obtain ⟨n, rfl, hidle, htail, hfields, hlen, hsp, rfl⟩ := Graph.of_fill hg'
  obtain ⟨i, hi, rfl⟩ := hc
  obtain ⟨hcontext, -⟩ := hsp _ rfl
  have hn := hm.depicts.shows hi
  rw [List.length_replicate] at hlen
  have htemps : tempCount ≤ (m.heap.view i).len := by
    rw [hn.len]
    exact hlen
  have hinit := Context.initMethod_eq hm.depicts.laidOut (hm.depicts.placed hi)
    (hn.format.trans hcontext) (by rw [hn.fields]; exact hfields) htemps sender method receiver
  rw [hn.elements_eq] at hinit
  have hroom : [sender, .zero, .ofNat tempCount, method, m.heap.nil, receiver].length ≤
      (g.nodes n).fields := hfields
  refine ⟨_, hinit, hm.filled hi htail hidle ?_ hroom (forall₂_replicate hm.nil _)
    (by rw [List.length_replicate]; exact hlen) ?_⟩
  · exact .cons hs (.cons (p.shows_small 0) (.cons (p.shows_ofNat _) (.cons hmethod (.cons hm.nil
      (.cons hr .nil)))))
  · intro v hv
    cases hv
    exact ⟨hcontext, by rw [List.length_replicate]⟩

end Writes

/-! ## The actions -/

namespace Machine

open ObjectMachine.Action

/-- Copies the topmost values of the stack to the first elements of an object. -/
def copyTop (target : Ref) (count : Nat) : Action Unit := do
  let r ← getRegisters
  let position := r.stackBase + r.sp
  require (decide (count ≤ position)) .overflow
  write (Context.copySlots · target (position - count) 0 count)

theorem copyTop_eq {m : Machine} {target : Ref} {count : Nat} {h : Heap}
    (hle : count ≤ m.registers.stackBase + m.registers.sp)
    (hcopy : Context.copySlots m.heap target (m.registers.stackBase + m.registers.sp - count) 0 count =
      .ok h) : copyTop target count m = .ok () { m with heap := h } := by
  show (liftM (require (decide (count ≤ m.registers.stackBase + m.registers.sp)) .overflow) >>=
    fun _ => write (Context.copySlots · target (m.registers.stackBase + m.registers.sp - count) 0
      count) : Action Unit) m = _
  rw [decide_eq_true hle]
  show write (Context.copySlots · target (m.registers.stackBase + m.registers.sp - count) 0 count) m =
    _
  exact write_ok hcopy

/-- Leaves the active context, less the arguments and the receiver of a message, for another one. -/
def leaveFor (context : Ref) (argCount : Nat) : Action Unit := do
  popMany (argCount + 1)
  flushRegisters
  loadContext context

theorem copyTop_bind {α : Type} (target : Ref) (count : Nat) (k : Unit → Action α) :
    copyTop target count >>= k = (do
      let r ← getRegisters
      let position := r.stackBase + r.sp
      require (decide (count ≤ position)) .overflow
      write (Context.copySlots · target (position - count) 0 count)
      k ()) := by
  unfold copyTop
  rw [Action.bind_assoc]
  congr
  funext r
  exact Action.bind_assoc ..

theorem enterContext_eq (context : Ref) (argCount : Nat) :
    enterContext context argCount =
      copyTop context argCount >>= fun _ => leaveFor context argCount := by
  rw [copyTop_bind]
  rfl

/-- Fills in a context for a block and copies the arguments to it. -/
def beginBlock (context caller block : Ref) (argCount : Nat) : Action Unit := do
  write fun h => do
    let initialPc ← h.fetchField block Context.initialPcField
    let blockArgs ← h.fetchField block Context.argCountField
    let home ← h.fetchField block Context.homeField
    Context.initBlock h context caller initialPc home blockArgs argCount
  copyTop context argCount

end Machine

namespace Spec

/-- Takes a context of a frame size out of the pool. -/
def takeContext (frameSize : Nat) : Spec (Option Value) := fun g r =>
  r = .ok (g.pool.take frameSize).1 { g with pool := (g.pool.take frameSize).2 }

/-- A context with at least as many slots as needed, for another activation if the pool has one. -/
def newContext (needed : Nat) (cls : Value) : Spec Value := do
  let size := ContextPool.frameSizeFor needed
  match ← takeContext size with
  | some context =>
    write (·.storeClass context cls)
    return context
  | none => allocate cls .context contextFields size

/-- Leaves the active context, less the arguments and the receiver of a message, for another one. -/
def leaveFor (context : Value) (argCount : Nat) : Spec Unit := do
  popMany (argCount + 1)
  flushRegisters
  loadContext context

/-- Moves the arguments on the stack to a context, pops them and the receiver, and makes the context
active. -/
def enterContext (context : Value) (argCount : Nat) : Spec Unit := do
  write (·.copyTop context argCount)
  leaveFor context argCount

/-- Activates the method found for the send in progress, if it takes as many arguments. -/
def activateNewMethod : Spec Unit := do
  let r ← getRegisters
  let header ← read (·.header r.newMethod)
  if header.argCount = r.argCount then
    let context ← newContext header.frameSize ((← getCore).cls .methodContext)
    let receiver ← peek r.argCount
    let r' ← getRegisters
    write (·.initMethod context r'.active r'.newMethod receiver header.tempCount)
    enterContext context r.argCount
  else
    let selector ← read (·.describe r.selector)
    fail (· = .execution (.wrongArgumentCount selector header.argCount r.argCount))

/-- Activates the block that lies below its arguments on the stack. -/
def activateBlock (argCount : Nat) : Spec Unit := do
  let block ← peek argCount
  let frame ← read (·.length block)
  let context ← newContext frame ((← getCore).cls .blockContext)
  let block ← peek argCount
  let caller := (← getRegisters).active
  write (·.initBlock context caller block argCount)
  leaveFor context argCount

end Spec

namespace Simulates

variable {p : Placement} {context cls : Ref} {contextValue clsValue : Value}

/-- Nothing is done after a failure. -/
theorem failRun_bind {α β γ : Type} [Depicted α β] {K : Placement → Prop} {problem : ExecutionProblem}
    {f : γ → Action α} {P : Failure → Prop} (hP : P (.execution problem)) :
    Simulates p K (Action.failRun problem >>= f) (Spec.fail P : Spec β) := by
  intro m g starts hm _
  exact ⟨g, p, starts, ⟨_, hP, rfl⟩, .refl p, hm⟩

theorem takeContext (frameSize : Nat) :
    Simulates p (· = p) (modifyGet fun m : Machine =>
        ((m.contexts.take frameSize).1, { m with contexts := (m.contexts.take frameSize).2 }) :
      Action (Option Ref)) (Spec.takeContext frameSize) := by
  intro m g starts hm _
  obtain ⟨htaken, hrest⟩ := hm.pool.take frameSize
  exact ⟨_, _, p, starts, rfl, rfl, htaken, hm.withPool hrest⟩

theorem newContext (hcls : p.Shows cls clsValue) (needed : Nat) :
    Simulates p p.Steady (Machine.newContext needed cls) (Spec.newContext needed clsValue) := by
  refine (takeContext _).bind_still fun taken takenValue htaken => ?_
  cases htaken with
  | some hr => exact (write (Writes.storeClass hr hcls)).bind_still fun _ _ _ => pure hr (.refl p)
  | none => exact allocate hcls

theorem copyTop (hc : p.Shows context contextValue) (count : Nat) :
    Simulates p (· = p) (Machine.copyTop context count)
      (Spec.write (·.copyTop contextValue count)) := by
  refine change fun m g starts hm g' hg' => ?_
  obtain ⟨values, hvalues, hfill⟩ := Option.bind_eq_some_iff.mp hg'
  obtain ⟨n, rfl, hidle, htail, hfields, hlen, -, rfl⟩ := Graph.of_fill hfill
  obtain ⟨i, hi, rfl⟩ := hc
  obtain ⟨refs, hrefs, hcount, hslots⟩ := hm.topSlots hvalues
  have hlen' : refs.length ≤ (g.nodes n).len := hrefs.length_eq ▸ hlen
  have hcopy := hm.copySlots hi hidle htail hvalues (hcount ▸ hlen') hcount hslots (.refl i m.heap)
  obtain ⟨c, hc, hle, -⟩ := Graph.of_topValues hvalues
  have hsp := hm.roots.registers.sp
  exact ⟨_, Machine.copyTop_eq (by omega) hcopy,
    hm.filled hi htail hidle .nil hfields hrefs hlen' (by simp)⟩

theorem leaveFor (hc : p.Shows context contextValue) (argCount : Nat) :
    Simulates p (· = p) (Machine.leaveFor context argCount)
      (Spec.leaveFor contextValue argCount) :=
  (popMany _).bind_still fun _ _ _ => flushRegisters.bind_still fun _ _ _ => loadContext hc

theorem enterContext (hc : p.Shows context contextValue) (argCount : Nat) :
    Simulates p (· = p) (Machine.enterContext context argCount)
      (Spec.enterContext contextValue argCount) := by
  rw [Machine.enterContext_eq]
  exact (copyTop hc argCount).bind_still fun _ _ _ => leaveFor hc argCount

theorem beginBlock {caller block : Ref} {callerValue blockValue : Value}
    (hc : p.Shows context contextValue) (hcaller : p.Shows caller callerValue)
    (hblock : p.Shows block blockValue) (argCount : Nat) :
    Simulates p (· = p) (Machine.beginBlock context caller block argCount)
      (Spec.write (·.initBlock contextValue callerValue blockValue argCount)) := by
  refine change fun m g starts hm g' hg' => ?_
  obtain ⟨initialPc, hpc, hg'⟩ := Option.bind_eq_some_iff.mp hg'
  obtain ⟨blockArgs, hargs, hg'⟩ := Option.bind_eq_some_iff.mp hg'
  obtain ⟨home, hhome, hg'⟩ := Option.bind_eq_some_iff.mp hg'
  obtain ⟨values, hvalues, hfill⟩ := Option.bind_eq_some_iff.mp hg'
  obtain ⟨n, rfl, hidle, htail, hfields, hlen, hsp, rfl⟩ := Graph.of_fill hfill
  obtain ⟨i, hi, rfl⟩ := hc
  obtain ⟨hcontext, -⟩ := hsp _ rfl
  obtain ⟨pcRef, hpcRef, hpcShows⟩ := (Reads.field hblock _).ok hm hpc
  obtain ⟨argsRef, hargsRef, hargsShows⟩ := (Reads.field hblock _).ok hm hargs
  obtain ⟨homeRef, hhomeRef, hhomeShows⟩ := (Reads.field hblock _).ok hm hhome
  obtain ⟨refs, hrefs, hcount, hslots⟩ := hm.topSlots hvalues
  have hn := hm.depicts.shows hi
  have hlen' : refs.length ≤ (g.nodes n).len := hrefs.length_eq ▸ hlen
  obtain ⟨hinit, htouch⟩ := Context.initBlock_eq hm.depicts.laidOut (hm.depicts.placed hi)
    (hn.format.trans hcontext) (by rw [hn.fields]; exact hfields) caller pcRef homeRef argsRef argCount
  have hcopy := hm.copySlots hi hidle htail hvalues (hcount ▸ hlen') hcount hslots htouch
  have hroom : [caller, pcRef, .ofNat argCount, argsRef, pcRef, homeRef].length ≤
      (g.nodes n).fields := hfields
  -- The fields come first in memory and last in the graph.
  rw [Heap.pokeRun_comm _ (.inl (by
    simp only [List.length_cons, List.length_nil] at hroom ⊢
    omega))] at hcopy
  refine ⟨_, ?_, hm.filled hi htail hidle ?_ hroom hrefs hlen' ?_⟩
  · obtain ⟨c, hc, hle, -⟩ := Graph.of_topValues hvalues
    have hspEq := hm.roots.registers.sp
    have hwrite : Action.write (fun h => do
        let initialPc ← h.fetchField block Context.initialPcField
        let blockArgs ← h.fetchField block Context.argCountField
        let home ← h.fetchField block Context.homeField
        Context.initBlock h (.ofWordIndex i) caller initialPc home blockArgs argCount) m = _ :=
      Action.write_ok (bind_eq_ok.mpr ⟨_, hpcRef, bind_eq_ok.mpr ⟨_, hargsRef,
        bind_eq_ok.mpr ⟨_, hhomeRef, hinit⟩⟩⟩)
    rw [Machine.beginBlock, Action.bind_of_ok hwrite]
    refine Machine.copyTop_eq ?_ hcopy
    show argCount ≤ m.registers.stackBase + m.registers.sp
    omega
  · exact .cons hcaller (.cons hpcShows (.cons (p.shows_ofNat _) (.cons hargsShows
      (.cons hpcShows (.cons hhomeShows .nil)))))
  · intro v hv
    cases hv
    exact ⟨hcontext, by rw [hcount]⟩

theorem activateNewMethod :
    Simulates p p.Steady Machine.activateNewMethod Spec.activateNewMethod := by
  refine bind_registers fun r s hs => ?_
  refine (read (Reads.header hs.newMethod)).bind_still fun header _ heq => ?_
  cases heq
  dsimp only
  rw [← hs.argCount]
  by_cases hargs : header.argCount = r.argCount
  · rw [if_neg (not_not_intro hargs), if_pos hargs]
    refine bind_core fun core c hcore => ?_
    refine (newContext (hcore.cls .methodContext) _).bind_steady fun p' _ context contextValue hc => ?_
    refine (peek _).bind_still fun receiver receiverValue hreceiver => ?_
    refine bind_registers fun r' s' hs' => ?_
    refine (write (Writes.initMethod hc hs'.active hs'.newMethod hreceiver _)).bind_still fun _ _ _ => ?_
    exact (enterContext hc _).steady
  · rw [if_pos hargs, if_neg hargs]
    refine (inspect (Reads.describe hs.selector)).bind_still fun selector _ heq => ?_
    cases heq
    exact failRun_bind rfl

theorem activateBlock (argCount : Nat) :
    Simulates p p.Steady (Machine.activateBlock argCount) (Spec.activateBlock argCount) := by
  refine (peek argCount).bind_still fun block blockValue hblock => ?_
  refine (read (Reads.length hblock)).bind_still fun frame _ heq => ?_
  cases heq
  refine bind_core fun core c hcore => ?_
  refine (newContext (hcore.cls .blockContext) _).bind_steady fun p' _ context contextValue hc => ?_
  refine (peek argCount).bind_still fun block blockValue hblock => ?_
  refine bind_registers fun r s hs => ?_
  have hbegin := (beginBlock hc hs.active hblock argCount).bind_still fun _ _ _ =>
    leaveFor hc argCount
  rw [Machine.beginBlock, Action.bind_assoc] at hbegin
  refine Simulates.steady ?_
  dsimp only
  rw [Machine.enterContext_eq]
  exact hbegin

end Simulates

end ObjectMachine
