import ObjectMachine.Execution.Stack
import ObjectMachine.Proofs.Graph.Making

/-!
# The operand stack

The stack of the active context and the registers of the activation, as computations on graphs. A
value that is read below the bottom of the stack is no value at all, so a computation that does so
goes wrong; a push that finds no free slot stops the machine.

## Main results

* `Simulates.push`, `Simulates.pop`, `Simulates.peek` and so on: the operand stack.
* `Simulates.loadContext`, `Simulates.flushRegisters`: the registers.
-/

namespace ObjectMachine

instance : Depicted Registers Graph.Registers := ⟨fun p r s => p.ShowsRegisters r s⟩

/-! ## Positions -/

namespace Graph

variable (g : Graph)

/-- The name of the active context. -/
def active? : Option Nat :=
  match g.registers.active with
  | .object c => some c
  | .immediate _ => none

/-- The graph with another stack pointer. -/
def withSp (sp : Nat) : Graph := { g with registers := { g.registers with sp } }

/-- The graph with another position. -/
def withPc (pc : Nat) : Graph := { g with registers := { g.registers with pc } }

/-- The graph with a value on top of the stack. -/
def pushed (c : Nat) (v : Value) : Graph :=
  (g.setNode c ((g.nodes c).withElement g.registers.sp v)).withSp (g.registers.sp + 1)

/-- The value a number of slots below the top. -/
def stackValue (depth : Nat) : Option Value := do
  let c ← g.active?
  if depth < g.registers.sp then some ((g.nodes c).element (g.registers.sp - 1 - depth)) else none

/-- The slots that are left above the top. -/
def stackRoom : Option Nat := do
  let c ← g.active?
  if g.registers.sp ≤ (g.nodes c).len then some ((g.nodes c).len - g.registers.sp) else none

/-- The registers without an activation. -/
def Registers.cleared (s : Registers) : Registers :=
  { s with
    active := .immediate .null
    home := .immediate .null
    method := .immediate .null
    receiver := .immediate .null
    literals := .immediate .null
    code := .immediate .null
    pc := 0
    sp := 0
    tempLimit := 0 }

@[simp] theorem nodes_withSp (sp : Nat) : (g.withSp sp).nodes = g.nodes := rfl
@[simp] theorem next_withSp (sp : Nat) : (g.withSp sp).next = g.next := rfl
@[simp] theorem core_withSp (sp : Nat) : (g.withSp sp).core = g.core := rfl
@[simp] theorem pool_withSp (sp : Nat) : (g.withSp sp).pool = g.pool := rfl
@[simp] theorem registers_withSp (sp : Nat) :
    (g.withSp sp).registers = { g.registers with sp } := rfl
@[simp] theorem nodes_withPc (pc : Nat) : (g.withPc pc).nodes = g.nodes := rfl
@[simp] theorem next_withPc (pc : Nat) : (g.withPc pc).next = g.next := rfl
@[simp] theorem core_withPc (pc : Nat) : (g.withPc pc).core = g.core := rfl
@[simp] theorem pool_withPc (pc : Nat) : (g.withPc pc).pool = g.pool := rfl
@[simp] theorem registers_withPc (pc : Nat) :
    (g.withPc pc).registers = { g.registers with pc } := rfl

variable {g}

theorem active?_eq_some {c : Nat} : g.active? = some c ↔ g.registers.active = .object c := by
  unfold active?
  cases g.registers.active <;> simp

theorem of_stackValue {depth : Nat} {v : Value} (hv : g.stackValue depth = some v) :
    ∃ c, g.registers.active = .object c ∧ depth < g.registers.sp ∧
      v = (g.nodes c).element (g.registers.sp - 1 - depth) := by
  obtain ⟨c, hc, hv⟩ := Option.bind_eq_some_iff.mp hv
  split at hv
  · rename_i hlt
    exact ⟨c, active?_eq_some.mp hc, hlt, (Option.some.inj hv).symm⟩
  · cases hv

/-- No more elements are known of a graph with a lower stack pointer. -/
theorem known_withSp_le {sp : Nat} (hsp : sp ≤ g.registers.sp) (n : Nat) :
    (g.withSp sp).known n ≤ g.known n := by
  show (if g.registers.active = .object n then max (g.nodes n).live sp else (g.nodes n).live) ≤
    if g.registers.active = .object n then max (g.nodes n).live g.registers.sp
    else (g.nodes n).live
  split
  · omega
  · exact Nat.le_refl _

end Graph

namespace Machine

variable {m : Machine} {g : Graph} {p : Placement} {starts : List Nat} {known : Nat → Nat}

/-- Other registers, as long as they stand for those of the graph. -/
theorem Holds.withRegisters {r : Registers} {s : Graph.Registers} (hm : m.Holds g p starts known)
    (hs : p.ShowsRegisters r s) :
    { m with registers := r }.Holds { g with registers := s } p starts known :=
  { hm with roots := { hm.roots with registers := hs } }

/-- The stack pointer may be lowered. -/
theorem Realizes.withSp (hm : m.Realizes g p starts) {sp : Nat} (hsp : sp ≤ g.registers.sp) :
    { m with registers := { m.registers with sp } }.Realizes (g.withSp sp) p starts where
  toHolds := by
    have hlower : m.Holds g p starts (g.withSp sp).known :=
      { hm.toHolds with
        depicts := hm.depicts.withKnown (fun n _ _ => (g.withSp sp).live_le_known n)
          (fun n _ _ => Graph.known_withSp_le hsp n) }
    exact hlower.withRegisters { hm.roots.registers with sp := rfl }
  positions c hc := { hm.positions c hc with }

/-- The position may be any. -/
theorem Realizes.withPc (hm : m.Realizes g p starts) (pc : Nat) :
    { m with registers := { m.registers with pc } }.Realizes (g.withPc pc) p starts where
  toHolds := hm.toHolds.withRegisters { hm.roots.registers with pc := rfl }
  positions c hc := { hm.positions c hc with }

/-- A slot of the active context that is known. -/
theorem Realizes.slot_stack (hm : m.Realizes g p starts) {c k : Nat}
    (hc : g.registers.active = .object c) (hk : k < g.known c) :
    ∃ r, m.heap.slot (m.registers.stackBase + k) = .ok r ∧ p.Shows r ((g.nodes c).element k) := by
  obtain ⟨i, hi, hbase, -⟩ := (hm.positions c hc).stack
  obtain ⟨r, hr, hshows⟩ := hm.depicts.slot_element hi
    (by rw [(hm.positions c hc).context]; rfl) hk
  refine ⟨r, ?_, hshows⟩
  rw [hbase, ← hr]
  congr 1
  omega

theorem Realizes.sp_le_known (_hm : m.Realizes g p starts) {c : Nat}
    (hc : g.registers.active = .object c) : g.registers.sp ≤ g.known c := by
  unfold Graph.known
  rw [if_pos hc]
  exact Nat.le_max_right ..

theorem Realizes.stackLimit_eq (hm : m.Realizes g p starts) {c : Nat}
    (hc : g.registers.active = .object c) : m.registers.stackLimit = (g.nodes c).len := by
  obtain ⟨i, -, -, hlimit⟩ := (hm.positions c hc).stack
  exact hlimit

/-- A value stored above the top is on the stack. -/
theorem Realizes.pushed (hm : m.Realizes g p starts) {c : Nat} {r : Ref} {v : Value}
    (hc : g.registers.active = .object c) (hroom : g.registers.sp < (g.nodes c).len)
    (hr : p.Shows r v) :
    ∃ h, m.heap.setSlot (m.registers.stackBase + m.registers.sp) r = .ok h ∧
      { m with heap := h, registers := { m.registers with sp := m.registers.sp + 1 } }.Realizes
        (g.pushed c v) p starts := by
  have hp := hm.positions c hc
  obtain ⟨i, hi, hbase, hlimit⟩ := hp.stack
  have hd := hm.depicts
  have hn := hd.shows hi
  have hsp := hm.roots.registers.sp
  have htail : (g.nodes c).format.hasReferenceTail = true := by rw [hp.context]; rfl
  have hallows : (g.nodes c).format.allowsFields = true := by rw [hp.context]; rfl
  have hin : headerWords + (g.nodes c).fields + 1 + g.registers.sp < (g.nodes c).size := by
    rw [← hn.size_eq]
    exact View.elements_lt_size (by rw [hn.format]; exact htail)
      (by rw [hn.elements_eq, hn.len]; omega)
  have hfit := hd.laidOut.fits_memory (hd.placed hi)
  rw [hn.size_eq] at hfit
  have hposition : m.registers.stackBase + m.registers.sp =
      i + (headerWords + (g.nodes c).fields + 1 + g.registers.sp) := by
    rw [hbase, hsp]
    omega
  have hwrite : m.heap.setSlot (m.registers.stackBase + m.registers.sp) r =
      .ok (m.heap.poke (i + (headerWords + (g.nodes c).fields + 1 + g.registers.sp)) r.bits) := by
    rw [hposition]
    exact Heap.setSlot_eq (by omega) r
  have hknown : (g.pushed c v).known c = max (g.nodes c).live (g.registers.sp + 1) := by
    show (if g.registers.active = .object c then _ else _) = _
    rw [if_pos hc]
    show max (((g.setNode c _).nodes c).live) _ = _
    rw [Graph.nodes_setNode, Function.update_self, Node.live_withElement]
    rfl
  have hother : ∀ n', n' ≠ c → (g.pushed c v).known n' = g.known n' := by
    intro n' hne
    show (if g.registers.active = .object n' then max ((g.setNode c _).nodes n').live _
      else ((g.setNode c _).nodes n').live) = if g.registers.active = .object n' then _ else _
    rw [hc, if_neg (by simpa using Ne.symm hne), if_neg (by simpa using Ne.symm hne),
      Graph.nodes_setNode, Function.update_of_ne hne]
  have hold : g.known c = max (g.nodes c).live g.registers.sp := if_pos hc
  have hlen := hn.le_len
  have hdepicts : (m.heap.poke (i + (headerWords + (g.nodes c).fields + 1 + g.registers.sp))
      r.bits).Depicts starts p
      (Function.update g.nodes c ((g.nodes c).withElement g.registers.sp v))
      (g.pushed c v).known := hd.poked hi (by omega) hin (by omega) (.inr hallows) hr
    ⟨rfl, rfl, rfl⟩ rfl rfl rfl rfl
    (by
      rw [if_neg (by simp only [headerWords]; omega)]
      rfl)
    (by
      intro j hj
      rw [if_neg (by omega)]
      rfl)
    (by
      intro j hj
      rw [hknown] at hj
      rw [Node.element_withElement, Function.update_apply]
      by_cases heq : j = g.registers.sp
      · exact .inl ⟨by rw [heq], if_pos heq⟩
      · exact .inr ⟨by omega, by omega, if_neg heq⟩)
    (by
      rw [hknown, Node.live_withElement]
      exact Nat.le_max_left ..)
    (by
      rw [hknown]
      omega)
    hother
  refine ⟨_, hwrite, ?_⟩
  have hstored : ({ m with
      heap := m.heap.poke (i + (headerWords + (g.nodes c).fields + 1 + g.registers.sp))
        r.bits } : Machine).Holds
      (g.setNode c ((g.nodes c).withElement g.registers.sp v)) p starts (g.pushed c v).known :=
    hm.toHolds.stored ⟨rfl, rfl, rfl⟩ rfl (Heap.size_poke ..) hdepicts
  have hlayout : Node.SameLayout (g.nodes c) ((g.nodes c).withElement g.registers.sp v) :=
    ⟨rfl, rfl, rfl⟩
  exact
    { toHolds := hstored.withRegisters { hm.roots.registers with sp := by rw [hsp] }
      positions := fun c' hc' => by
        have hstill : p.Positions m.registers
            (g.setNode c ((g.nodes c).withElement g.registers.sp v)) c' :=
          (hm.positions c' hc').congr hlayout.of_update rfl
        exact { hstill with } }

end Machine

/-! ## The computations -/

namespace Spec

def getRegisters : Spec Graph.Registers := ask (·.registers)

/-- Changes the registers of the send in progress. -/
def modifyRegisters (f : Graph.Registers → Graph.Registers) : Spec Unit :=
  modify fun g => { g with registers := f g.registers }

/-- Reads the value a number of slots below the top. -/
def peek (depth : Nat) : Spec Value := read (·.stackValue depth)

/-- Pushes a value. -/
def push (v : Value) : Spec Unit := do
  let c ← read Graph.active?
  if ← ask fun g => decide (g.registers.sp < (g.nodes c).len) then modify (·.pushed c v)
  else stop fun cause => ∃ context slots, cause = .operandStackOverflow context slots

/-- Pops a number of values. -/
def popMany (count : Nat) : Spec Unit := do
  if ← ask fun g => decide (count ≤ g.registers.sp) then
    modify fun g => g.withSp (g.registers.sp - count)
  else stop (· = .fault .operand)

/-- Pops a value. -/
def pop : Spec Value := do
  if ← ask fun g => decide (0 < g.registers.sp) then
    let value ← peek 0
    modify fun g => g.withSp (g.registers.sp - 1)
    return value
  else stop (· = .fault .operand)

/-- Replaces a number of values by one. -/
def replaceTop (count : Nat) (v : Value) : Spec Unit := do
  popMany count
  push v

/-- Pushes values, the first one lowest. -/
def pushAll : List Value → Spec Unit
  | [] => pure ()
  | v :: rest => do
    push v
    pushAll rest

/-- Writes the position and the stack pointer back to the active context. -/
def flushRegisters : Spec Unit := write Graph.flush

/-- Makes a context the active one. -/
def loadContext (v : Value) : Spec Unit := write (·.load v)

/-- Forgets the activation. -/
def clearRegisters : Spec Unit := modifyRegisters Graph.Registers.cleared

end Spec

namespace Reads

variable {p : Placement}

theorem stackValue (depth : Nat) : Reads p (·.stackValue depth) (·.stackValue depth) := by
  intro m g starts hm v hv
  obtain ⟨c, hc, hlt, rfl⟩ := Graph.of_stackValue hv
  have hsp := hm.roots.registers.sp
  have hbelow : g.registers.sp - 1 - depth < g.registers.sp := by omega
  obtain ⟨r, hslot, hr⟩ := hm.slot_stack hc (Nat.lt_of_lt_of_le hbelow (hm.sp_le_known hc))
  refine ⟨r, ?_, hr⟩
  show (if _ then _ else _) = _
  rw [if_pos (by omega), ← hslot, hsp]
  congr 1
  omega

theorem stackRoom : Reads p Machine.stackRoom Graph.stackRoom := by
  intro m g starts hm room hroom
  obtain ⟨c, hc, hroom⟩ := Option.bind_eq_some_iff.mp hroom
  have hsp := hm.roots.registers.sp
  have hlimit := hm.stackLimit_eq (Graph.active?_eq_some.mp hc)
  split at hroom
  · rename_i hle
    cases hroom
    refine ⟨m.registers.stackLimit - m.registers.sp, ?_, ?_⟩
    · unfold Machine.stackRoom
      rw [require, if_pos (decide_eq_true (by omega))]
      rfl
    · show m.registers.stackLimit - m.registers.sp = _
      rw [hlimit, hsp]
  · cases hroom

end Reads

namespace Simulates

variable {p : Placement} {r : Ref} {v : Value} {α β : Type} [Depicted α β]

theorem getRegisters : Simulates p (· = p) Action.getRegisters Spec.getRegisters :=
  ask fun _ _ _ hm => hm.roots.registers

/-- What is done with the registers. -/
theorem bind_registers {K : Placement → Prop} {f : Registers → Action α}
    {h : Graph.Registers → Spec β}
    (hf : ∀ r s, p.ShowsRegisters r s → Simulates p K (f r) (h s)) :
    Simulates p K (Action.getRegisters >>= f) (Spec.getRegisters >>= h) :=
  getRegisters.bind_still hf

theorem peek (depth : Nat) : Simulates p (· = p) (Machine.peek depth) (Spec.peek depth) :=
  inspect (.stackValue depth)

theorem push (hr : p.Shows r v) : Simulates p (· = p) (Machine.push r) (Spec.push v) := by
  intro m g starts hm hright
  cases hc : g.registers.active with
  | immediate r' =>
    refine absurd ⟨.wrong, ?_, rfl⟩ hright
    rw [Spec.read_of_none (by unfold Graph.active?; rw [hc])]
  | object c =>
    have hactive := Graph.active?_eq_some.mpr hc
    have hsp := hm.roots.registers.sp
    have hlimit := hm.stackLimit_eq hc
    have hread : Spec.read Graph.active? g (.ok c g) := by
      rw [Spec.read_of_some hactive]
    by_cases hroom : g.registers.sp < (g.nodes c).len
    · obtain ⟨h, hwrite, hm'⟩ := hm.pushed hc hroom hr
      have hpush : Machine.push r m = .ok ()
          { m with heap := h, registers := { m.registers with sp := m.registers.sp + 1 } } := by
        show (if m.registers.sp < m.registers.stackLimit then _ else _ : Action Unit) m = _
        rw [if_pos (by omega), Action.bind_of_ok (Action.write_of_ok hwrite)]
        rfl
      rw [hpush]
      refine ⟨(), _, p, starts, ⟨_, hread, _, rfl, ?_⟩, rfl, trivial, hm'⟩
      show (if decide _ = true then _ else _ : Spec Unit) g _
      rw [if_pos (decide_eq_true hroom)]
      rfl
    · have hpush : Machine.push r m =
          .stopped (.operandStackOverflow m.registers.activeContext m.registers.stackLimit) := by
        show (if m.registers.sp < m.registers.stackLimit then _ else _ : Action Unit) m = _
        rw [if_neg (by omega)]
        rfl
      rw [hpush]
      refine .inr ⟨_, hread, _, rfl, ?_⟩
      show (if decide _ = true then _ else _ : Spec Unit) g _
      rw [if_neg (by simpa using hroom)]
      exact ⟨_, ⟨_, _, rfl⟩, rfl⟩

/-- Whether the stack is high enough. -/
theorem bind_depth {K : Placement → Prop} {count : Nat} {x : Action α} {y : Spec β} {cause : Fatal}
    (hx : ∀ m g starts, m.Realizes g p starts → count ≤ g.registers.sp → ¬ y g .wrong →
      (x m).Fits (y g) p K) :
    Simulates p K
      (Action.getRegisters >>= fun r => if count ≤ r.sp then x else Action.stop cause)
      (Spec.ask (fun g => decide (count ≤ g.registers.sp)) >>= fun b =>
        if b then y else Spec.stop (· = cause)) := by
  intro m g starts hm hright
  have hsp := hm.roots.registers.sp
  show ((if count ≤ m.registers.sp then x else Action.stop cause) m).Fits _ p K
  by_cases hle : count ≤ g.registers.sp
  · have hy : ∀ r, y g r → (Spec.ask (fun g => decide (count ≤ g.registers.sp)) >>= fun b =>
        if b then y else Spec.stop (· = cause)) g r := by
      intro r hr
      refine ⟨_, rfl, ?_⟩
      show (if decide _ = true then _ else _ : Spec β) g r
      rw [if_pos (decide_eq_true hle)]
      exact hr
    rw [if_pos (by omega)]
    exact (hx m g starts hm hle fun hwrong => hright (hy _ hwrong)).mono hy (.refl p) fun _ h => h
  · rw [if_neg (by omega)]
    refine .inr ⟨_, rfl, ?_⟩
    show (if decide _ = true then _ else _ : Spec β) g _
    rw [if_neg (by simpa using hle)]
    exact ⟨_, rfl, rfl⟩

theorem popMany (count : Nat) :
    Simulates p (· = p) (Machine.popMany count) (Spec.popMany count) := by
  refine bind_depth fun m g starts hm hle _ => ?_
  have hsp := hm.roots.registers.sp
  refine ⟨(), _, p, starts, rfl, rfl, trivial, ?_⟩
  show ({ m with registers := { m.registers with sp := m.registers.sp - count } } : Machine).Realizes
    (g.withSp (g.registers.sp - count)) p starts
  rw [hsp]
  exact hm.withSp (Nat.sub_le ..)

theorem pop : Simulates p (· = p) Machine.pop Spec.pop := by
  refine bind_depth fun m g starts hm hle hright => ?_
  refine ((peek 0).bind_still fun a b hab => ?_) m g starts hm hright
  intro m g starts hm hright
  have hsp := hm.roots.registers.sp
  refine ⟨b, _, p, starts, ⟨_, rfl, rfl⟩, rfl, hab, ?_⟩
  show ({ m with registers := { m.registers with sp := m.registers.sp - 1 } } : Machine).Realizes
    (g.withSp (g.registers.sp - 1)) p starts
  rw [hsp]
  exact hm.withSp (Nat.sub_le ..)

theorem replaceTop (count : Nat) (hr : p.Shows r v) :
    Simulates p (· = p) (Machine.replaceTop count r) (Spec.replaceTop count v) :=
  (popMany count).bind_still fun _ _ _ => push hr

theorem pushAll {refs : List Ref} {values : List Value} (hall : List.Forall₂ p.Shows refs values) :
    Simulates p (· = p) (Machine.pushAll refs) (Spec.pushAll values) := by
  induction hall with
  | nil => exact pure trivial rfl
  | cons hr _ ih => exact (push hr).bind_still fun _ _ _ => ih

theorem flushRegisters : Simulates p (· = p) Machine.flushRegisters Spec.flushRegisters :=
  change fun m g starts hm g' hg' => by
    obtain ⟨h, hflush, hm'⟩ := hm.flush hg'
    exact ⟨_, hflush, hm'⟩

theorem loadContext (hr : p.Shows r v) :
    Simulates p (· = p) (Machine.loadContext r) (Spec.loadContext v) :=
  change fun m g starts hm g' hg' => by
    obtain ⟨registers, hload, hm'⟩ := hm.holds.load hr hg'
    refine ⟨_, ?_, hm'⟩
    unfold Machine.loadContext
    rw [hload]

theorem clearRegisters : Simulates p (· = p) Machine.clearRegisters Spec.clearRegisters := by
  intro m g starts hm hright
  refine ⟨(), _, p, starts, rfl, rfl, trivial, ?_⟩
  refine Machine.Realizes.of_holds ?_ fun c hc => by cases hc
  have hnull := Placement.shows_null p
  exact
    { hm.holds with
      roots :=
        { hm.roots with
          registers :=
            { hm.roots.registers with
              active := hnull, home := hnull, method := hnull, receiver := hnull
              literals := hnull, pc := rfl, sp := rfl } } }

end Simulates

end ObjectMachine
