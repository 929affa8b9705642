import ObjectMachine.Proofs.Primitive.Blocks
import ObjectMachine.Proofs.Primitive.Computing

/-!
# Primitives fail without a trace

A method whose primitive fails goes on with its instructions, which read the receiver and the
arguments again. So a primitive that fails must leave the stack, the registers and all objects as
they were; only a collection may have run. One that succeeds replaces its operands by its result, or
enters a block.

## Main results

* `Machine.KeepsStack.answer`: an answer takes the place of the operands.
* `Machine.Poised.blockValue`, `Machine.Poised.blockValueWithArguments`: the evaluation of blocks.
* `Machine.Poised.invoke_atomic`: what primitives come to.
-/

namespace ObjectMachine

namespace Machine

open ObjectMachine.Action

variable {m n m' : Machine} {starts : List Nat} {argCount initialPc : Nat} {f : Ref → Ref}
  {value : Ref}

/-! ## Answering -/

/-- The receiver and the arguments were replaced by a value, after some collections that take the
objects to where `f` says. -/
structure Replaces (m : Machine) (argCount : Nat) (f : Ref → Ref) (value : Ref) (m' : Machine) :
    Prop where
  registers : ∃ n, Collections m f n ∧
    m'.registers = { n.registers with sp := m.registers.sp - argCount }
  below : ∀ k < m.registers.sp - (argCount + 1), ∃ v,
    m.heap.slot (m.registers.stackBase + k) = .ok v ∧
      m'.heap.slot (m'.registers.stackBase + k) = .ok (f v)
  top : m'.stackValue 0 = .ok value

theorem KeepsStack.answer (hs : m.KeepsStack f n) (hm : m.Activated starts)
    (hargs : argCount < m.registers.sp) (value : Ref) :
    (n.answer argCount value).Meets
      (fun verdict m' => verdict = .done ∧ m.Replaces argCount f value m') fun _ => False := by
  obtain ⟨n₀, hf, hregisters, hslots⟩ := hs
  have hsp : n.registers.sp = m.registers.sp := by rw [hregisters, hf.sp_eq]
  unfold Machine.answer Machine.replaceTop
  rw [Action.bind_assoc]
  refine .step (popMany_eq (by omega)) ?_
  refine .bind_of_never (R := fun _ m' => m.Replaces argCount f value m') ?_ fun _ m' h => ⟨rfl, h⟩
  unfold Machine.push
  refine .step rfl ?_
  split
  · refine .write fun h hok => ?_
    have hok' : n.heap.setWord (n.registers.stackBase + (n.registers.sp - (argCount + 1)))
        value.bits = .ok h := hok
    have hlt : n.registers.stackBase + (n.registers.sp - (argCount + 1)) < n.heap.memory.size := by
      by_contra hge
      simp [Heap.setWord, hge] at hok'
    rw [Heap.setWord_eq hlt] at hok'
    cases hok'
    constructor
    · refine ⟨n₀, hf, ?_⟩
      rw [← hregisters]
      show ({ n.registers with sp := n.registers.sp - (argCount + 1) + 1 } : Registers) = _
      rw [show n.registers.sp - (argCount + 1) + 1 = m.registers.sp - argCount by omega]
    · intro k hk
      obtain ⟨v, hv, hv'⟩ := hf.operands hm (k := k) (by omega)
      refine ⟨v, hv, ?_⟩
      have hbase : n.registers.stackBase = n₀.registers.stackBase := by rw [hregisters]
      show (n.heap.poke _ _).slot (n.registers.stackBase + k) = _
      rw [Heap.slot_congr (h := n.heap) (by omega) (by rw [Heap.size_poke])
        (Heap.cell_poke_ne (by omega) _), hbase, hslots k (by omega), hv']
    · unfold Machine.stackValue
      rw [if_pos (by
        show 0 < n.registers.stackBase + (n.registers.sp - (argCount + 1) + 1)
        omega)]
      show (n.heap.poke _ _).slot
        (n.registers.stackBase + (n.registers.sp - (argCount + 1) + 1) - 1 - 0) = _
      rw [show n.registers.stackBase + (n.registers.sp - (argCount + 1) + 1) - 1 - 0 =
        n.registers.stackBase + (n.registers.sp - (argCount + 1)) by omega,
        Heap.slot_eq (by rw [Heap.size_poke]; exact hlt), Heap.cell_poke_self hlt]
  · trivial

/-- What a primitive that does not change the flow comes to. -/
theorem Working.run_result (hm : m.Working starts) {p : Primitive} (hp : p.changesFlow = false)
    (hargs : argCount < m.registers.sp) :
    (p.run argCount m).Meets
      (fun verdict m' =>
        verdict = .failed ∧ m.Idles m' ∨
        verdict = .done ∧ ∃ f value n, p.result m = .ok (some value) n ∧
          m.Replaces argCount f value m')
      fun _ => False := by
  rw [p.run_eq hp]
  unfold Machine.expecting
  split
  · rename_i harity
    subst harity
    have hresult := hm.result p hargs
    generalize hout : p.result m = out at hresult
    cases out with
    | ok value? n =>
      refine .step hout ?_
      cases value? with
      | none => exact .inl ⟨rfl, hresult⟩
      | some value =>
        obtain ⟨f, hs⟩ := hresult
        refine (hs.answer hm.toActivated hargs value).mono ?_ fun _ h => h
        rintro verdict m' ⟨rfl, hreplaces⟩
        exact .inr ⟨rfl, f, value, n, rfl, hreplaces⟩
    | failed failure n => exact absurd hresult id
    | stopped cause =>
      rw [Action.bind_of_stopped hout]
      trivial
    | unfinished =>
      show Outcome.Meets (Action.bind _ _ _) _ _
      unfold Action.bind
      rw [hout]
      trivial
  · exact .inl ⟨rfl, .inl rfl⟩

/-! ## Blocks -/

/-- A machine with the receiver and the arguments of a message on its stack, above the temporaries.
A receiver that is an instance of the class of blocks is a block, and instances of the class of
arrays are arrays. -/
structure Poised (m : Machine) (starts : List Nat) (argCount : Nat) : Prop extends
    Ready m starts where
  operands : argCount < m.registers.sp
  above : m.registers.homeContext = m.registers.activeContext →
    m.registers.tempLimit + argCount < m.registers.sp
  blocks : ∀ r, m.stackValue argCount = .ok r → m.isInstance .blockContext r = .ok true →
    ∃ argCount initialPc home, m.heap.IsBlock starts r argCount initialPc home
  arrays : ∀ i ∈ starts, (m.heap.view i).ref 1 = m.core.cls .array →
    (m.heap.view i).format = .array

/-- The machine goes on with a fresh activation of a block after some collections. The caller is left
with the values below the block, and the arguments are found in their order. -/
def Evaluates (m : Machine) (argument : Nat → Except Fatal Ref) (argCount initialPc : Nat)
    (home : Ref) (m' : Machine) : Prop :=
  ∃ f n, Collections m f n ∧ n.Enters argCount initialPc (f home) m' ∧
    (∀ k < argCount, ∃ v, argument k = .ok v ∧
      m'.heap.slot (m'.registers.stackBase + k) = .ok (f v)) ∧
    ∀ k < m.registers.sp - (argCount + 1), ∃ v,
      m.heap.slot (m.registers.stackBase + k) = .ok v ∧
        m'.heap.slot (n.registers.stackBase + k) = .ok (f v)

/-- A block on the stack is evaluated with the values above it. -/
theorem Ready.evaluates (hm : m.Ready starts) (hargs : argCount < m.registers.sp) {block home : Ref}
    (hblock : m.heap.slot (m.registers.stackBase + (m.registers.sp - 1 - argCount)) = .ok block)
    (hb : m.heap.IsBlock starts block argCount initialPc home) :
    (m.activateBlock argCount).Meets
      (fun _ m' => m.Evaluates (fun k => m.heap.slot
        (m.registers.stackBase + (m.registers.sp - argCount + k))) argCount initialPc home m')
      fun _ => False := by
  refine (hm.activateBlock hargs hblock hb).mono ?_ fun _ h => h
  rintro _ m' ⟨f, n, hf, henters⟩
  refine ⟨f, n, hf, henters, ?_, ?_⟩
  · intro k hk
    obtain ⟨v, hv, hv'⟩ := hf.operands hm.toActivated
      (k := m.registers.sp - argCount + k) (by omega)
    refine ⟨v, hv, ?_⟩
    rw [henters.arguments k hk, hf.sp_eq]
    exact hv'
  · intro k hk
    obtain ⟨v, hv, hv'⟩ := hf.operands hm.toActivated (k := k) (by omega)
    refine ⟨v, hv, ?_⟩
    rw [henters.callerStack k (by rw [hf.sp_eq]; exact hk)]
    exact hv'

theorem Poised.isBlock (hm : m.Poised starts argCount) {block : Ref} {count : Nat}
    (hvalue : m.stackValue argCount = .ok block)
    (hinstance : m.isInstance .blockContext block = .ok true)
    (hcount : Context.blockArgCount m.heap block = .ok count) :
    ∃ initialPc home, m.heap.IsBlock starts block count initialPc home := by
  obtain ⟨argCount, initialPc, home, hb⟩ := hm.blocks block hvalue hinstance
  unfold Context.blockArgCount at hcount
  rw [hb.argCount] at hcount
  have hsame : (Ref.ofNat argCount).toCount = count := Except.ok.inj hcount
  rw [Ref.toCount_ofNat hb.argCount_lt] at hsame
  exact ⟨initialPc, home, hsame ▸ hb⟩

/-- The value of a block with the arguments on the stack. -/
theorem Poised.blockValue (hm : m.Poised starts argCount) :
    (m.blockValue argCount).Meets
      (fun verdict m' => verdict = .failed ∧ m' = m ∨
        verdict = .done ∧ ∃ block initialPc home, m.stackValue argCount = .ok block ∧
          m.heap.IsBlock starts block argCount initialPc home ∧
          m.Evaluates (fun k => m.heap.slot
            (m.registers.stackBase + (m.registers.sp - argCount + k))) argCount initialPc home m')
      fun _ => False := by
  obtain ⟨block, hvalue, hslot, -⟩ := hm.stackValue hm.operands
  unfold Machine.blockValue
  refine .inspect fun block' hblock' => .inspect fun isBlock hisBlock => ?_
  rw [hvalue] at hblock'
  cases hblock'
  split
  · rename_i htrue
    subst htrue
    obtain ⟨isInstance, hinstance, hisBlock⟩ := ObjectMachine.bind_eq_ok.mp hisBlock
    split at hisBlock
    · rename_i htrue
      subst htrue
      obtain ⟨count, hcount, heq⟩ := ObjectMachine.bind_eq_ok.mp hisBlock
      have hsame : count = argCount := by simpa [pure, Except.pure] using heq
      obtain ⟨initialPc, home, hb⟩ := hm.isBlock hvalue hinstance (hsame ▸ hcount)
      refine .bind_of_never (hm.toReady.evaluates hm.operands hslot hb) ?_
      intro _ m' hm'
      exact .inr ⟨rfl, block, initialPc, home, hvalue, hb, hm'⟩
    · cases hisBlock
  · exact .inl ⟨rfl, rfl⟩

/-- What is collected from a list of answers. -/
theorem mapM_ok {α β : Type} {g : α → Except Fatal β} {xs : List α} {ys : List β}
    (hok : xs.mapM g = .ok ys) :
    ys.length = xs.length ∧
      ∀ (k : Nat) (y : β), ys[k]? = some y → ∃ x, xs[k]? = some x ∧ g x = .ok y := by
  induction xs generalizing ys with
  | nil =>
    cases hok
    exact ⟨rfl, fun k y hy => by simp at hy⟩
  | cons x xs ih =>
    rw [List.mapM_cons] at hok
    obtain ⟨y, hy, hok⟩ := ObjectMachine.bind_eq_ok.mp hok
    obtain ⟨rest, hrest, heq⟩ := ObjectMachine.bind_eq_ok.mp hok
    cases heq
    obtain ⟨hlen, hget⟩ := ih hrest
    refine ⟨by simp [hlen], ?_⟩
    intro k z hz
    cases k with
    | zero =>
      cases hz
      exact ⟨x, rfl, hy⟩
    | succ k => exact hget k z hz

/-- What is known of the arguments that an array holds for a block. -/
theorem spreadArguments?_eq_some {block arguments : Ref} {values : List Ref}
    (hok : m.spreadArguments? block arguments = .ok (some values)) :
    m.isInstance .blockContext block = .ok true ∧
      Context.blockArgCount m.heap block = .ok values.length ∧
      m.isInstance .array arguments = .ok true ∧ m.heap.length arguments = .ok values.length ∧
      m.registers.sp + values.length ≤ m.registers.stackLimit + 1 ∧
      ∀ k v, values[k]? = some v → m.heap.fetchElement arguments k = .ok v := by
  unfold Machine.spreadArguments? at hok
  obtain ⟨isBlock, hblock, hok⟩ := ObjectMachine.bind_eq_ok.mp hok
  cases isBlock with
  | false => cases hok
  | true =>
    obtain ⟨arity, harity, hok⟩ := ObjectMachine.bind_eq_ok.mp hok
    obtain ⟨isArray, harray, hok⟩ := ObjectMachine.bind_eq_ok.mp hok
    cases isArray with
    | false => cases hok
    | true =>
      obtain ⟨len, hlen, hok⟩ := ObjectMachine.bind_eq_ok.mp hok
      split at hok
      · cases hok
      rename_i hlenEq
      obtain ⟨room, hroom, hok⟩ := ObjectMachine.bind_eq_ok.mp hok
      split at hok
      · cases hok
      rename_i hroomLe
      obtain ⟨values', hvalues, hok⟩ := ObjectMachine.bind_eq_ok.mp hok
      cases hok
      obtain ⟨hcount, hget⟩ := mapM_ok hvalues
      rw [List.length_range] at hcount
      obtain ⟨_, hrequire, hroom⟩ := ObjectMachine.bind_eq_ok.mp hroom
      cases hroom
      have hle : m.registers.sp ≤ m.registers.stackLimit := of_decide_eq_true (require_ok hrequire)
      have hlen' : len = values.length := by
        rw [hcount]
        simpa using hlenEq
      refine ⟨hblock, hcount ▸ harity, harray, hlen' ▸ hlen, by omega, ?_⟩
      intro k v hv
      obtain ⟨x, hx, hfetch⟩ := hget k v hv
      obtain ⟨_, hx⟩ := List.getElem?_eq_some_iff.mp hx
      rw [List.getElem_range] at hx
      exact hx ▸ hfetch

/-- The elements of an array on the stack can be reached. -/
theorem Poised.reachable_element (hm : m.Poised starts argCount) {arguments v : Ref} {depth k : Nat}
    (hdepth : depth < m.registers.sp) (hvalue : m.stackValue depth = .ok arguments)
    (harray : m.isInstance .array arguments = .ok true)
    (hok : m.heap.fetchElement arguments k = .ok v) (hp : v.isPointer = true) :
    m.settled.Reachable m.roots v := by
  obtain ⟨arguments', hvalue', hslot, hknown⟩ := hm.stackValue hdepth
  rw [hvalue] at hvalue'
  cases hvalue'
  unfold Machine.isInstance at harray
  split at harray
  · rename_i hpointer
    obtain ⟨i, hi, rfl⟩ := hknown hpointer
    rw [hm.laidOut.classOf hi] at harray
    have hformat := hm.arrays i hi (of_decide_eq_true (Except.ok.inj harray))
    have htail : (m.heap.view i).format.hasReferenceTail = true := by
      rw [hformat]
      rfl
    have hlayout := hm.layout_settled hi
    obtain ⟨hlt, rfl⟩ := Heap.fetchElement_ok hm.laidOut hi htail hok
    have hin := View.elements_lt_size htail (Nat.add_lt_add_left hlt (m.heap.view i).elements)
    have hreach := hm.reachable_operand (by omega) hslot hpointer
    refine .step hreach ((hm.wellFormed.toLaidOut.refers_iff hi).mpr
      ⟨hp, (m.heap.view i).elements + k, ?_, ?_⟩)
    · refine .inr (.inr ⟨?_, ?_, ?_⟩)
      · rw [hlayout.format_eq]
        exact htail
      · rw [hlayout.elements_eq]
        omega
      · unfold View.live
        rw [hlayout.format_eq, hformat, hlayout.elements_eq, hlayout.len_eq]
        exact Nat.add_lt_add_left hlt _
    · unfold View.ref
      rw [hm.view_settled hi hin]
      intro hactive
      rw [hm.format_active hi hactive] at hformat
      cases hformat
  · cases harray

/-- The value on top of the stack makes way for values that can be reached anyway. -/
theorem Poised.spread (hm : m.Poised starts argCount) {values : List Ref} (hpos : 0 < argCount)
    (hreach : ∀ v ∈ values, v.isPointer = true → m.settled.Reachable m.roots v)
    (hroom : m.registers.sp - 1 + values.length ≤ m.registers.stackLimit) :
    ∃ a ∈ starts, ∃ h, m.heap.Refills a h ∧
      pushAll values (m.restacked m.heap m.registers.pc (m.registers.sp - 1)) =
        .ok () (m.restacked h m.registers.pc (m.registers.sp - 1 + values.length)) ∧
      (m.restacked h m.registers.pc (m.registers.sp - 1 + values.length)).Ready starts ∧
      (∀ k < m.registers.sp - 1, h.slot (m.registers.stackBase + k) =
        m.heap.slot (m.registers.stackBase + k)) ∧
      ∀ k v, values[k]? = some v →
        h.slot (m.registers.stackBase + (m.registers.sp - 1 + k)) = .ok v := by
  obtain ⟨a, ha, hactive, -⟩ := hm.context
  have hpopped : (m.restacked m.heap m.registers.pc (m.registers.sp - 1)).Working starts := by
    apply hm.popped
    intro hhome
    have := hm.above hhome
    omega
  obtain ⟨h, hpush, hw, hworking, hbelow, habove⟩ := hpopped.pushedAll ha hactive
    (fun v hv hp => hm.wellFormed.designates_of_reachable hm.rootsIn (hreach v hv hp)) hroom
  change ∀ k < m.registers.sp - 1, h.slot (m.registers.stackBase + k) =
    m.heap.slot (m.registers.stackBase + k) at hbelow
  change ∀ k v, values[k]? = some v →
    h.slot (m.registers.stackBase + (m.registers.sp - 1 + k)) = .ok v at habove
  refine ⟨a, ha, h, hw, hpush, { hworking with spare := ?_ }, hbelow, habove⟩
  intro r hr
  obtain ⟨hcontext, hspare⟩ := hm.spare r hr
  refine ⟨hw.isOf hm.laidOut ha hcontext, fun hreach' => hspare ?_⟩
  refine reachable_restacked hm.toActivated ha hactive hw hm.pc_lt hroom ?_ hreach'
  intro k hk v hv hp
  by_cases hlt : k < m.registers.sp - 1
  · rw [hbelow k hlt] at hv
    exact hm.reachable_operand (by omega) hv hp
  · obtain ⟨l, rfl⟩ : ∃ l, k = m.registers.sp - 1 + l := ⟨k - (m.registers.sp - 1), by omega⟩
    have hl : l < values.length := by omega
    rw [habove l (values.get ⟨l, hl⟩) (by simp)] at hv
    cases hv
    exact hreach _ (List.get_mem ..) hp

/-- The value of a block with the arguments in an array, which take the place of the array. -/
theorem Poised.blockValueWithArguments (hm : m.Poised starts 1) :
    (Machine.blockValueWithArguments m).Meets
      (fun verdict m' => verdict = .failed ∧ m' = m ∨
        verdict = .done ∧ ∃ block arguments argCount initialPc home h,
          m.stackValue 1 = .ok block ∧ m.stackValue 0 = .ok arguments ∧
          m.heap.IsBlock starts block argCount initialPc home ∧
          m.heap.length arguments = .ok argCount ∧
          (∀ k < m.registers.sp - 1, h.slot (m.registers.stackBase + k) =
            m.heap.slot (m.registers.stackBase + k)) ∧
          (m.restacked h m.registers.pc (m.registers.sp - 1 + argCount)).Evaluates
            (m.heap.fetchElement arguments) argCount initialPc home m')
      fun _ => False := by
  have hoperands := hm.operands
  obtain ⟨block, hblock, hblockSlot, -⟩ := hm.stackValue hm.operands
  obtain ⟨arguments, harguments, -, -⟩ := hm.stackValue (show 0 < m.registers.sp by omega)
  unfold Machine.blockValueWithArguments
  refine .inspect fun block' hblock' => .inspect fun arguments' harguments' =>
    .inspect fun values? hvalues => ?_
  rw [hblock] at hblock'
  rw [harguments] at harguments'
  cases hblock'
  cases harguments'
  cases values? with
  | none => exact .inl ⟨rfl, rfl⟩
  | some values =>
    obtain ⟨hinstance, hcount, harray, hlen, hroom, hget⟩ := spreadArguments?_eq_some hvalues
    obtain ⟨initialPc, home, hb⟩ := hm.isBlock hblock hinstance hcount
    have hreach : ∀ v ∈ values, v.isPointer = true → m.settled.Reachable m.roots v := by
      intro v hv
      obtain ⟨k, hk⟩ := List.mem_iff_getElem?.mp hv
      exact hm.reachable_element (by omega) harguments harray (hget k v hk)
    obtain ⟨a, ha, h, hw, hpush, hready, hbelow, habove⟩ := hm.spread Nat.one_pos hreach (by omega)
    have hb' : h.IsBlock starts block values.length initialPc home := by
      obtain ⟨i, hi, rfl, hcontext⟩ := hb.context
      have hfield := hw.fetchField hm.laidOut ha hi (by rw [hcontext]; rfl)
      exact ⟨hw.isOf hm.laidOut ha hb.context, hb.argCount_lt, hb.initialPc_lt,
        (hfield _).trans hb.argCount, (hfield _).trans hb.initialPc, (hfield _).trans hb.home⟩
    have hslot : h.slot (m.registers.stackBase +
        (m.registers.sp - 1 + values.length - 1 - values.length)) = .ok block := by
      rw [show m.registers.sp - 1 + values.length - 1 - values.length = m.registers.sp - 1 - 1 by
        omega, hbelow _ (by omega)]
      exact hblockSlot
    have hless : values.length < m.registers.sp - 1 + values.length := by omega
    refine .step (pop_eq (by omega) harguments) (.step hpush ?_)
    refine .bind_of_never (hready.evaluates hless hslot hb') ?_
    rintro _ m' ⟨f, n, hf, henters, hargs, hrest⟩
    refine .inr ⟨rfl, block, arguments, values.length, initialPc, home, h, hblock, harguments, hb,
      hlen, hbelow, f, n, hf, henters, ?_, hrest⟩
    intro k hk
    obtain ⟨v, hv, hv'⟩ := hargs k hk
    refine ⟨v, ?_, hv'⟩
    change h.slot (m.registers.stackBase +
      (m.registers.sp - 1 + values.length - values.length + k)) = .ok v at hv
    rw [Nat.add_sub_cancel, habove k (values.get ⟨k, hk⟩) (by simp)] at hv
    exact (hget k _ (by simp)).trans hv

/-! ## All primitives -/

/-- What a primitive may come to, and the machine that it leaves. -/
inductive Yields (m : Machine) (starts : List Nat) (argCount : Nat) :
    Primitive → Verdict → Machine → Prop
  | unchanged {p : Primitive} : Yields m starts argCount p .failed m
  | collected {p : Primitive} {m' : Machine} {f : Ref → Ref} (hstep : m.CollectsTo m' f) :
      Yields m starts argCount p .failed m'
  | answered {p : Primitive} {m' n : Machine} {f : Ref → Ref} {value : Ref}
      (hp : p.changesFlow = false) (hresult : p.result m = .ok (some value) n)
      (hreplaces : m.Replaces argCount f value m') : Yields m starts argCount p .done m'
  | evaluated {m' : Machine} {block home : Ref} {initialPc : Nat}
      (hblock : m.stackValue argCount = .ok block)
      (hb : m.heap.IsBlock starts block argCount initialPc home)
      (hm' : m.Evaluates (fun k => m.heap.slot
        (m.registers.stackBase + (m.registers.sp - argCount + k))) argCount initialPc home m') :
      Yields m starts argCount .blockValue .done m'
  | spread {m' : Machine} {block arguments home : Ref} {count initialPc : Nat} {h : Heap}
      (hone : argCount = 1) (hblock : m.stackValue 1 = .ok block)
      (harguments : m.stackValue 0 = .ok arguments)
      (hb : m.heap.IsBlock starts block count initialPc home)
      (hlen : m.heap.length arguments = .ok count)
      (hbelow : ∀ k < m.registers.sp - 1, h.slot (m.registers.stackBase + k) =
        m.heap.slot (m.registers.stackBase + k))
      (hm' : (m.restacked h m.registers.pc (m.registers.sp - 1 + count)).Evaluates
        (m.heap.fetchElement arguments) count initialPc home m') :
      Yields m starts argCount .blockValueWithArguments .done m'
  | exited {value : Ref} (hvalue : m.stackValue 0 = .ok value) :
      Yields m starts argCount .exit (.exit value) m

theorem Poised.yields (hm : m.Poised starts argCount) (p : Primitive) :
    (p.run argCount m).Meets (Yields m starts argCount p) fun _ => False := by
  by_cases hp : p.changesFlow = false
  · refine (hm.run_result hp hm.operands).mono ?_ fun _ h => h
    rintro verdict m' (⟨rfl, rfl | ⟨f, starts', hstep, -⟩⟩ | ⟨rfl, f, value, n, hresult, hreplaces⟩)
    · exact .unchanged
    · exact .collected hstep
    · exact .answered hp hresult hreplaces
  · cases p with
    | blockValue =>
      refine hm.blockValue.mono ?_ fun _ h => h
      rintro verdict m' (⟨rfl, rfl⟩ | ⟨rfl, block, initialPc, home, hblock, hb, hm'⟩)
      · exact .unchanged
      · exact .evaluated hblock hb hm'
    | blockValueWithArguments =>
      show Outcome.Meets (Machine.expecting 1 argCount Machine.blockValueWithArguments m) _ _
      unfold Machine.expecting
      split
      · rename_i hone
        subst hone
        refine hm.blockValueWithArguments.mono ?_ fun _ h => h
        rintro verdict m' (⟨rfl, rfl⟩ | ⟨rfl, block, arguments, count, initialPc, home, h, hblock,
          harguments, hb, hlen, hbelow, hm'⟩)
        · exact .unchanged
        · exact .spread rfl hblock harguments hb hlen hbelow hm'
      · exact .unchanged
    | exit =>
      show Outcome.Meets (Machine.expecting 1 argCount Machine.exit m) _ _
      unfold Machine.expecting
      split
      · exact .inspect fun value hvalue => .exited hvalue
      · exact .unchanged
    | _ => exact absurd rfl hp

end Machine

namespace Primitive

theorem index_of_blockValue {index : Nat} (h : ofIndex? index = some .blockValue) : index = 81 := by
  unfold ofIndex? at h
  split at h <;> simp at h ⊢

theorem index_of_blockValueWithArguments {index : Nat}
    (h : ofIndex? index = some .blockValueWithArguments) : index = 82 := by
  unfold ofIndex? at h
  split at h <;> simp at h ⊢

theorem index_of_exit {index : Nat} (h : ofIndex? index = some .exit) : index = 113 := by
  unfold ofIndex? at h
  split at h <;> simp at h ⊢

end Primitive

namespace Machine

variable {m : Machine} {starts : List Nat} {argCount : Nat}

theorem Poised.invoke (hm : m.Poised starts argCount) (index : Nat) :
    (m.invoke index argCount).Meets
      (fun verdict m' => verdict = .failed ∧ m' = m ∨
        ∃ p, Primitive.ofIndex? index = some p ∧ Yields m starts argCount p verdict m')
      fun _ => False := by
  unfold Machine.invoke
  cases hp : Primitive.ofIndex? index with
  | none => exact .inl ⟨rfl, rfl⟩
  | some p =>
    refine (hm.yields p).mono ?_ fun _ h => h
    intro verdict m' hyields
    exact .inr ⟨p, rfl, hyields⟩

/-- Primitives fail without a trace. If one fails, the machine is what it was, or what a collection
made of it. If one answers, other than for a block, its result has taken the place of the receiver
and the arguments, and the stack below is what it was, up to collections. The evaluation of a block
leaves the caller without the block and its arguments, which are found in a fresh context. -/
theorem Poised.invoke_atomic (hm : m.Poised starts argCount) (index : Nat) :
    (∀ m', m.invoke index argCount = .ok .failed m' → m' = m ∨ ∃ f, m.CollectsTo m' f) ∧
    (∀ m', index ≠ 81 → index ≠ 82 → m.invoke index argCount = .ok .done m' →
      ∃ p f value n, Primitive.ofIndex? index = some p ∧ p.result m = .ok (some value) n ∧
        m.Replaces argCount f value m') ∧
    (∀ m', m.invoke 81 argCount = .ok .done m' → ∃ block initialPc home,
      m.stackValue argCount = .ok block ∧ m.heap.IsBlock starts block argCount initialPc home ∧
      m.Evaluates (fun k => m.heap.slot (m.registers.stackBase + (m.registers.sp - argCount + k)))
        argCount initialPc home m') ∧
    (∀ m', m.invoke 82 argCount = .ok .done m' → ∃ block arguments count initialPc home h,
      argCount = 1 ∧ m.stackValue 1 = .ok block ∧ m.stackValue 0 = .ok arguments ∧
      m.heap.IsBlock starts block count initialPc home ∧ m.heap.length arguments = .ok count ∧
      (∀ k < m.registers.sp - 1, h.slot (m.registers.stackBase + k) =
        m.heap.slot (m.registers.stackBase + k)) ∧
      (m.restacked h m.registers.pc (m.registers.sp - 1 + count)).Evaluates
        (m.heap.fetchElement arguments) count initialPc home m') ∧
    (∀ value m', m.invoke index argCount = .ok (.exit value) m' →
      index = 113 ∧ m' = m ∧ m.stackValue 0 = .ok value) ∧
    ∀ failure m', m.invoke index argCount ≠ .failed failure m' := by
  have hmeets := hm.invoke index
  refine ⟨?_, ?_, ?_, ?_, ?_, ?_⟩
  · intro m' hok
    rcases hmeets.of_ok hok with ⟨-, hsame⟩ | ⟨p, -, hyields⟩
    · exact .inl hsame
    · cases hyields with
      | unchanged => exact .inl rfl
      | collected hstep => exact .inr ⟨_, hstep⟩
  · intro m' h81 h82 hok
    rcases hmeets.of_ok hok with ⟨hfailed, -⟩ | ⟨p, hp, hyields⟩
    · cases hfailed
    · cases hyields with
      | answered _ hresult hreplaces => exact ⟨p, _, _, _, hp, hresult, hreplaces⟩
      | evaluated => exact absurd (Primitive.index_of_blockValue hp) h81
      | spread => exact absurd (Primitive.index_of_blockValueWithArguments hp) h82
  · intro m' hok
    rcases (hm.invoke 81).of_ok hok with ⟨hfailed, -⟩ | ⟨p, hp, hyields⟩
    · cases hfailed
    · cases hp
      cases hyields with
      | answered hflow => cases hflow
      | evaluated hblock hb hm' => exact ⟨_, _, _, hblock, hb, hm'⟩
  · intro m' hok
    rcases (hm.invoke 82).of_ok hok with ⟨hfailed, -⟩ | ⟨p, hp, hyields⟩
    · cases hfailed
    · cases hp
      cases hyields with
      | answered hflow => cases hflow
      | spread hone hblock harguments hb hlen hbelow hm' =>
        exact ⟨_, _, _, _, _, _, hone, hblock, harguments, hb, hlen, hbelow, hm'⟩
  · intro value m' hok
    rcases hmeets.of_ok hok with ⟨hfailed, -⟩ | ⟨p, hp, hyields⟩
    · cases hfailed
    · cases hyields with
      | exited hvalue => exact ⟨Primitive.index_of_exit hp, rfl, hvalue⟩
  · intro failure m' hfailed
    rw [hfailed] at hmeets
    exact hmeets

/-- A machine with a block on its stack, below its argument and above another value. -/
def oneBlock : Machine :=
  let heap : Heap :=
    { memory := #[0,
        (Header.pack .plain 0 3).bits, Ref.null.bits,
        (Header.pack .plain 0 4).bits, Ref.null.bits,
        (Header.pack .byteArray 0 5).bits, Ref.null.bits, 0, 0,
        (Header.pack .array 0 6).bits, (Ref.ofWordIndex 3).bits, 0,
        (Header.pack .plain 3 7).bits, Ref.null.bits, (Ref.ofNat 0).bits, (Ref.ofWordIndex 9).bits,
        (Ref.ofWordIndex 5).bits,
        (Header.pack .context 6 8).bits, Ref.null.bits, Ref.null.bits, (Ref.ofNat 0).bits,
        (Ref.ofNat 1).bits, (Ref.ofWordIndex 12).bits, Ref.null.bits, (Ref.ofNat 7).bits, 4,
        (Ref.ofNat 5).bits, (Ref.ofWordIndex 30).bits, (Ref.ofNat 6).bits, Ref.null.bits,
        (Header.pack .context 6 9).bits, (Ref.ofWordIndex 1).bits, Ref.null.bits,
        (Ref.ofNat 0).bits, (Ref.ofNat 0).bits, (Ref.ofNat 1).bits, (Ref.ofNat 0).bits,
        (Ref.ofWordIndex 17).bits, 2, Ref.null.bits, Ref.null.bits]
      top := 41
      reservedWords := 128
      sinceCollection := 0
      config := {}
      hashState := 1
      nil := .null
      largeIntegers := .empty
      stats := {} }
  { ofHeap heap ⟨#[], 0, 0⟩ with
    core := (CoreObjects.empty.setClass .blockContext (.ofWordIndex 1)).setClass .array
      (.ofWordIndex 3)
    registers := { Registers.empty with
      activeContext := .ofWordIndex 17
      homeContext := .ofWordIndex 17
      method := .ofWordIndex 12
      receiver := .ofNat 7
      literals := .ofWordIndex 9
      sp := 3
      stackBase := 26
      stackLimit := 4
      tempBase := 26
      codeBase := 64 } }

theorem oneBlock_laidOut : oneBlock.heap.LaidOut [1, 3, 5, 9, 12, 17, 30] where
  committed := by decide
  addressable := by decide
  tiles := .cons (.cons (.cons (.cons (.cons (.cons (.cons (.nil 41)))))))
  readable i hi := by
    have hall : ∀ i ∈ [1, 3, 5, 9, 12, 17, 30], (oneBlock.heap.view i).header.isValid = true ∧
        Format.ofCode? (oneBlock.heap.view i).header.formatCode =
          some (oneBlock.heap.view i).format ∧
        ((oneBlock.heap.view i).format = .context → 3 ≤ (oneBlock.heap.view i).fields) := by decide
    obtain ⟨hvalid, hknown, hctx⟩ := hall i hi
    exact ⟨hvalid, hknown, hctx⟩

theorem oneBlock_wellFormed : oneBlock.settled.WellFormed [1, 3, 5, 9, 12, 17, 30] := by
  have htouch := touches_flushedHeap oneBlock_laidOut (show 17 ∈ _ by decide) (by decide)
  exact (htouch.laidOut oneBlock_laidOut (by decide)).wellFormed_of_checked (b := 13) (by decide)
    (by decide) (by decide) (by decide)

theorem oneBlock_poised : oneBlock.Poised [1, 3, 5, 9, 12, 17, 30] 1 where
  laidOut := oneBlock_laidOut
  context := ⟨17, by decide, rfl, by decide⟩
  home := ⟨17, by decide, rfl, by decide⟩
  method := ⟨12, by decide, rfl, by decide⟩
  header word hword := by
    have hread : oneBlock.heap.fetchField oneBlock.registers.method Method.headerField =
        .ok (.ofNat 0) := by rfl
    rw [hread] at hword
    cases hword
    decide
  literals := ⟨9, by decide, rfl, by decide⟩
  code code hcode := by
    have hread : Method.code oneBlock.heap oneBlock.registers.method = .ok (.ofWordIndex 5) := by rfl
    rw [hread] at hcode
    cases hcode
    exact ⟨5, by decide, rfl, by decide⟩
  loaded := ⟨.empty, 0, 1, rfl⟩
  pc_lt := by decide
  sp_le := by decide
  temporaries := by decide
  wellFormed := oneBlock_wellFormed
  rootsIn := by
    have hroots : ∀ r ∈ oneBlock.roots, r.isPointer = true →
        ∃ j ∈ [1, 3, 5, 9, 12, 17, 30], r = .ofWordIndex j := by
      rw [roots_eq]
      decide
    exact ⟨hroots, fun hp => by cases hp⟩
  reserved := by decide
  allowed := by decide
  table := by constructor <;> simp [oneBlock, settled, flushedHeap, ofHeap, LargeIntegers.empty]
  spare r hr := by
    rcases hr with hr | hr <;> cases hr
  operands := by decide
  above := by decide
  blocks r hr _ := by
    have hread : oneBlock.stackValue 1 = .ok (.ofWordIndex 30) := by rfl
    rw [hread] at hr
    cases hr
    exact ⟨1, 0, .ofWordIndex 17, ⟨30, by decide, rfl, by decide⟩, by decide, by decide, rfl, rfl,
      rfl⟩
  arrays := by decide

/-- The sum of a block and a number fails without a trace, and the value of the block with that number
is found in a fresh context. -/
theorem oneBlock_atomic : oneBlock.invoke 1 1 = .ok .failed oneBlock ∧
    ∃ m' block initialPc home, oneBlock.invoke 81 1 = .ok .done m' ∧
      oneBlock.stackValue 1 = .ok block ∧
      oneBlock.heap.IsBlock [1, 3, 5, 9, 12, 17, 30] block 1 initialPc home ∧
      oneBlock.Evaluates (fun k => oneBlock.heap.slot
        (oneBlock.registers.stackBase + (oneBlock.registers.sp - 1 + k))) 1 initialPc home m' := by
  have hfails : oneBlock.invoke 1 1 = .ok .failed oneBlock := by rfl
  have hevaluates : (oneBlock.invoke 81 1).answer?.map (·.1) = some .done := by decide +kernel
  obtain ⟨⟨verdict, m'⟩, hanswer, hdone⟩ := Option.map_eq_some_iff.mp hevaluates
  cases hdone
  have hok := Outcome.eq_ok_of_answer? hanswer
  obtain ⟨-, -, h81, -, -, -⟩ := oneBlock_poised.invoke_atomic 81
  obtain ⟨block, initialPc, home, hblock, hb, hm'⟩ := h81 m' hok
  exact ⟨hfails, m', block, initialPc, home, hok, hblock, hb, hm'⟩

end Machine

end ObjectMachine
