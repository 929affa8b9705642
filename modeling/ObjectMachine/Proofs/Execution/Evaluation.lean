import ObjectMachine.Execution.Shortcut
import ObjectMachine.Primitive.Invoke
import ObjectMachine.Proofs.Execution.Activation
import ObjectMachine.Proofs.Execution.Chains

/-!
# Which objects are evaluated

Two instructions and two primitives evaluate blocks. All of them look at one field of the receiver, in
which a block keeps the number of its arguments. A block that was made for a home takes part in an
evaluation if it is given as many arguments as it takes, and whatever else lies below the arguments,
the stack is left as it is.

An instance of the class of blocks that was never filled in holds nil there, which stands for some
number too. The results are about receivers for which this is not the number of the arguments.

## Main results

* `Machine.Collections.runsMethod`: the home of a block on the stack is a home after collections.
* `Machine.Supplied.activateBlock`: the activation of a block succeeds unless memory runs out.
* `Machine.Calling.evaluates_iff_callable`: which receivers are evaluated.
-/

namespace ObjectMachine

namespace Heap

variable {h h' : Heap} {starts : List Nat} {a argCount initialPc : Nat} {r home : Ref}

/-- A context that activates a method. -/
structure RunsMethod (h : Heap) (starts : List Nat) (home : Ref) : Prop where
  context : h.IsOf starts .context home
  method : ∃ method header literals code, h.fetchField home Context.methodField = .ok method ∧
    h.IsMethod starts method header literals code
  receiver : ∃ v, h.fetchField home Context.receiverField = .ok v

/-- A block whose home activates a method, and whose frame has room for its arguments. -/
structure IsCallable (h : Heap) (starts : List Nat) (r : Ref) (argCount initialPc : Nat)
    (home : Ref) : Prop where
  isBlock : h.IsBlock starts r argCount initialPc home
  runs : h.RunsMethod starts home
  room : ∃ frame, Context.frameSize h r = .ok frame ∧ argCount ≤ frame

/-- A block stays one while the elements of an object change. -/
theorem IsCallable.refilled (hb : h.IsCallable starts r argCount initialPc home)
    (hw : h.Refills a h') (hl : h.LaidOut starts) (ha : a ∈ starts) :
    h'.IsCallable starts r argCount initialPc home := by
  have hfield : ∀ {r format index v}, h.IsOf starts format r → format.allowsFields = true →
      h.fetchField r index = .ok v → h'.fetchField r index = .ok v := by
    rintro _ _ index v ⟨i, hi, rfl, rfl⟩ hallows hok
    exact (hw.fetchField hl ha hi hallows index).trans hok
  obtain ⟨method, header, literals, code, hmethod, his⟩ := hb.runs.method
  obtain ⟨v, hv⟩ := hb.runs.receiver
  obtain ⟨frame, hframe, hle⟩ := hb.room
  have hhome := hb.runs.context
  have hblock := hb.isBlock
  constructor
  · exact ⟨hw.isOf hl ha hblock.context, hblock.argCount_lt, hblock.initialPc_lt,
      hfield hblock.context rfl hblock.argCount, hfield hblock.context rfl hblock.initialPc,
      hfield hblock.context rfl hblock.home⟩
  · exact ⟨hw.isOf hl ha hhome,
      ⟨method, header, literals, code, hfield hhome rfl hmethod,
        (hw.keepsContext hl ha (c := a)).isMethod his⟩, v, hfield hhome rfl hv⟩
  · obtain ⟨i, hi, rfl, -⟩ := hblock.context
    exact ⟨frame, (hw.length hl ha hi).trans hframe, hle⟩

/-- A block takes one number of arguments only. -/
theorem IsBlock.argCount_eq {count : Nat} (hb : h.IsBlock starts r argCount initialPc home)
    (hcount : Context.blockArgCount h r = .ok count) : count = argCount := by
  unfold Context.blockArgCount at hcount
  rw [hb.argCount] at hcount
  exact (Except.ok.inj hcount).symm.trans (Ref.toCount_ofNat hb.argCount_lt)

/-- What a block is. -/
theorem IsBlock.unique {count pc : Nat} {context : Ref}
    (hb : h.IsBlock starts r argCount initialPc home) (hb' : h.IsBlock starts r count pc context) :
    count = argCount ∧ pc = initialPc ∧ context = home := by
  have hcount := congrArg Ref.toCount (Except.ok.inj (hb'.argCount.symm.trans hb.argCount))
  have hpc := congrArg Ref.toCount (Except.ok.inj (hb'.initialPc.symm.trans hb.initialPc))
  rw [Ref.toCount_ofNat hb'.argCount_lt, Ref.toCount_ofNat hb.argCount_lt] at hcount
  rw [Ref.toCount_ofNat hb'.initialPc_lt, Ref.toCount_ofNat hb.initialPc_lt] at hpc
  exact ⟨hcount, hpc, Except.ok.inj (hb'.home.symm.trans hb.home)⟩

theorem IsBlock.blockArgCount (hb : h.IsBlock starts r argCount initialPc home) :
    Context.blockArgCount h r = .ok argCount := by
  unfold Context.blockArgCount
  rw [hb.argCount]
  exact congrArg Except.ok (Ref.toCount_ofNat hb.argCount_lt)

/-- A frame stays one while the elements of an object change. -/
theorem IsFrame.refilled {i size : Nat} (hi : i ∈ starts) (hf : h.IsFrame i size)
    (hw : h.Refills a h') (hl : h.LaidOut starts) (ha : a ∈ starts) : h'.IsFrame i size := by
  have hlayout := hw.touches.sameLayout hl ha hi
  refine ⟨hlayout.format_eq.trans hf.context, hlayout.fields_eq.trans hf.fields,
    hlayout.len_eq.trans hf.len, ?_⟩
  have hheader : h'.view i 0 = h.view i 0 :=
    hw.view_eq hl ha hi (by have := (h.view i).two_le_size; omega)
      fun _ => by simp [View.elements, headerWords]
  rw [View.header, hheader]
  exact hf.captured

end Heap

namespace Machine

open ObjectMachine.Action

variable {m n m' : Machine} {starts starts' : List Nat} {c k argCount initialPc : Nat}
  {f : Ref → Ref} {r home receiver : Ref} {h : Heap}

/-! ## Homes and collections -/

/-- A home that can be reached is one after a collection. -/
theorem CollectsTo.runsMethod (hstep : m.CollectsTo n f) (hm : m.Working starts)
    (hn : n.Working starts') (hr : m.settled.Reachable m.roots home)
    (hruns : m.heap.RunsMethod starts home) : n.heap.RunsMethod starts' (home.image f) := by
  have hhome : home.isPointer = true := by
    obtain ⟨i, hi, rfl, -⟩ := hruns.context
    exact hm.laidOut.isPointer hi
  obtain ⟨method, header, literals, code, hmethod, his⟩ := hruns.method
  obtain ⟨v, hv⟩ := hruns.receiver
  have hp : method.isPointer = true := by
    obtain ⟨i, hi, rfl, -⟩ := his.plain
    exact hm.laidOut.isPointer hi
  have hreach := hm.reachable_field hr hruns.context rfl (fun _ => by decide) hmethod hp
  have hfield := @CollectsTo.fetchField _ _ _ _ _ _ hstep hm hn hr _ hruns.context rfl
  rw [Ref.image, if_pos hhome]
  refine ⟨hstep.isOf hm hn hr hruns.context,
    ⟨f method, header, _, _, ?_, hstep.isMethod hm hn hreach his⟩, _, hfield (fun _ => by decide) hv⟩
  rw [hfield (fun _ => by decide) hmethod, Ref.image, if_pos hp]

/-- The home of a block on the stack can be reached. -/
theorem Working.reachable_home (hm : m.Working starts) (hk : k < m.registers.sp)
    (hslot : m.heap.slot (m.registers.stackBase + k) = .ok r)
    (hb : m.heap.IsBlock starts r argCount initialPc home) (hruns : m.heap.RunsMethod starts home) :
    m.settled.Reachable m.roots home := by
  have hp : home.isPointer = true := by
    obtain ⟨i, hi, rfl, -⟩ := hruns.context
    exact hm.laidOut.isPointer hi
  obtain ⟨i, hi, hr, -⟩ := id hb.context
  have hreach := hm.reachable_operand hk hslot (hr ▸ hm.laidOut.isPointer hi)
  exact hm.reachable_field hreach hb.context rfl (fun _ => by decide) hb.home hp

/-- The home of a block on the stack is a home after collections. -/
theorem Collections.runsMethod (hf : Collections m f n) (hm : m.Working starts)
    (hn : n.Working starts') (hk : k < m.registers.sp)
    (hslot : m.heap.slot (m.registers.stackBase + k) = .ok r)
    (hb : m.heap.IsBlock starts r argCount initialPc home) (hruns : m.heap.RunsMethod starts home) :
    n.heap.RunsMethod starts' (f home) := by
  induction hf generalizing starts' with
  | none =>
    have hmem : ∀ {format r}, m.heap.IsOf starts format r → m.heap.IsOf starts' format r := by
      rintro _ _ ⟨i, hi, rfl, hformat⟩
      exact ⟨i, hm.laidOut.mem_of_laidOut hn.laidOut hi, rfl, hformat⟩
    obtain ⟨method, header, literals, code, hmethod, his⟩ := hruns.method
    exact ⟨hmem hruns.context, ⟨method, header, literals, code, hmethod,
      { his with plain := hmem his.plain, bytes := hmem his.bytes }⟩, hruns.receiver⟩
  | after hf hw hstep ih =>
    obtain ⟨v, hv, hv'⟩ := hf.operands hm.toActivated hk
    rw [hslot] at hv
    cases hv
    have hreach := hw.reachable_home (by rw [hf.sp_eq]; exact hk) hv'
      (hf.isBlock hm hw hk hslot hb) (ih hw)
    exact hstep.runsMethod hw hn hreach (ih hw)

/-! ## Contexts that wait to be entered -/

/-- A context that waits is entered with arguments from the stack. -/
theorem Working.enterSuspended {pc sp : Nat} (hn : n.Working starts)
    (hr : n.heap.Retains starts c starts' h) (hne : n.registers.activeContext ≠ .ofWordIndex c)
    (hargs : argCount < n.registers.sp) (hlen : argCount ≤ (h.view c).len)
    (hc : h.IsSuspended starts' c pc sp) (hregisters : m.registers = n.registers)
    (hheap : m.heap = h) : ∃ m', m.enterContext (.ofWordIndex c) argCount = .ok () m' := by
  obtain ⟨a, h', refs, ha, hac, -, hcontext, -, -, hrefill, htouch, heq⟩ :=
    hn.enterContext_eq hr hne hargs hlen hregisters hheap
  have ha' := hr.kept a ha hac
  have hl' := hrefill.touches.laidOut hr.laidOut hr.mem
  have hkeeps := (hrefill.keepsContext (c := c) hr.laidOut hr.mem).trans
    (htouch.keepsContext hl' ha' hac hcontext fun k hk hk' => view_flushedHeap hk hk')
  obtain ⟨registers, hload, -⟩ := (hkeeps.isSuspended hc).load (htouch.laidOut hl' ha')
    (m.leaving h' argCount).registers
  refine ⟨{ m.leaving h' argCount with
    heap := (m.leaving h' argCount).flushedHeap a, registers }, ?_⟩
  rw [heq]
  unfold Machine.loadContext
  dsimp only
  rw [hload]

end Machine

/-- A context that was filled in for a block waits at its beginning. -/
theorem Heap.Retains.isSuspended {h h₁ h' : Heap} {starts starts' : List Nat} {c argCount initialPc : Nat}
    {caller home : Ref} (hr : h.Retains starts c starts' h₁) (hl : h.LaidOut starts)
    (htaken : c ∈ starts → (h.view c).format = .context) (hhome : home ≠ .ofWordIndex c)
    (hruns : h.RunsMethod starts home) (hargs : argCount < Ref.addressLimit)
    (hpc : initialPc < Ref.addressLimit)
    (hok : Context.initBlock h₁ (.ofWordIndex c) caller (.ofNat initialPc) home (.ofNat argCount)
      argCount = .ok h') :
    h'.IsSuspended starts' c initialPc argCount := by
  obtain ⟨ht, hfields, -, -, hpcWord, hspWord, hargsWord, hhomeWord⟩ :=
    Context.initBlock_ok hr.laidOut hr.mem hr.context hok
  have hr' := hr.touches ht
  have hfield : ∀ field ≤ Context.homeField, h'.fetchField (.ofWordIndex c) field =
      .ok ((h'.view c).ref (headerWords + field)) := fun field hle =>
    Heap.fetchField_eq hr'.laidOut hr.mem (Nat.lt_of_le_of_lt hle hfields)
      (View.fields_lt_size (by rw [hr'.context]; rfl)
        (Nat.add_lt_add_left (Nat.lt_of_le_of_lt hle hfields) _))
  obtain ⟨i, hi, rfl, hcontext⟩ := hruns.context
  have hic : i ≠ c := by
    rintro rfl
    exact hhome rfl
  obtain ⟨method, header, literals, code, hmethod, his⟩ := hruns.method
  obtain ⟨receiver, hreceiver⟩ := hruns.receiver
  have hkept := @Heap.Retains.fetchField _ _ _ _ _ _ hr' hl hi hic (by rw [hcontext]; rfl)
  refine ⟨hr.mem, hr'.context, ⟨i, method, receiver, header, literals, code, ?_, hr.kept i hi hic,
    (hr'.layout hi hic).format_eq.trans hcontext, hkept hmethod, hkept hreceiver,
    his.retained hr' hl htaken⟩, ?_, ?_⟩
  · unfold Context.home Context.isBlock
    rw [hfield _ (by decide), hfield _ (by decide), hargsWord, hhomeWord]
    show (if (Ref.ofNat argCount).isSmallInteger = true then _ else _) = _
    rw [if_pos (Ref.isSmallInteger_ofNat hargs)]
  · exact Machine.register?_eq hr'.laidOut hr.mem hr'.context (by decide) hpc hpcWord
  · exact Machine.register?_eq hr'.laidOut hr.mem hr'.context (by decide) hargs hspWord

namespace Machine

open ObjectMachine.Action

variable {m n m' : Machine} {starts starts' : List Nat} {c k argCount initialPc : Nat}
  {f : Ref → Ref} {r home receiver cls : Ref} {h : Heap}

/-! ## Activating a block -/

/-- A machine that can activate methods and blocks: nothing leads to the contexts that it keeps for
reuse, and they have the size they are kept for. -/
structure Supplied (m : Machine) (starts : List Nat) : Prop extends Ready m starts, Stocked m starts where
  blockClass : m.heap.IsOf starts .plain (m.core.cls .blockContext)

/-- There is a context for a block unless memory runs out. -/
theorem Supplied.newContext (hm : m.Supplied starts) {needed : Nat}
    (hcount : m.Counts (ContextPool.frameSizeFor needed)) :
    (m.newContext needed (m.core.cls .blockContext)).Reaches fun r m' => ∃ f n starts' c,
      r = .ofWordIndex c ∧ m.Provides (m.core.cls .blockContext) f n starts' c m' ∧
        m'.heap.IsFrame c (ContextPool.frameSizeFor needed) := by
  have hknown := hm.known (root_cls m .blockContext)
  refine ((hm.toStocked.newContext hm.blockClass hcount).and_meets
    (hm.toReady.newContext hknown needed)).mono ?_
  rintro _ m' ⟨⟨_, _, _, c, rfl, hf⟩, f, n, starts', c', hcc, hp⟩
  obtain ⟨_, hr⟩ := hf.retains
  obtain ⟨_, hr'⟩ := hp.retains
  obtain rfl := Ref.ofWordIndex_inj (hr.laidOut.lt_addressLimit hr.mem)
    (hr'.laidOut.lt_addressLimit hr'.mem) hcc
  exact ⟨f, n, starts', c, rfl, hp, hf.frame⟩

/-- A block on the stack is activated unless memory runs out. -/
theorem Supplied.activateBlock (hm : m.Supplied starts) (hargs : argCount < m.registers.sp)
    (hblock : m.heap.slot (m.registers.stackBase + (m.registers.sp - 1 - argCount)) = .ok r)
    (hb : m.heap.IsCallable starts r argCount initialPc home)
    (hcount : ∀ frame, Context.frameSize m.heap r = .ok frame →
      m.Counts (ContextPool.frameSizeFor frame)) :
    (m.activateBlock argCount).Reaches fun _ m' => m.Evaluates (fun k => m.heap.slot
      (m.registers.stackBase + (m.registers.sp - argCount + k))) argCount initialPc home m' := by
  refine (Outcome.Reaches.and_meets (R := fun _ _ => True) ?_
    (hm.toReady.evaluates hargs hblock hb.isBlock)).mono fun _ _ h => h.2
  obtain ⟨frame, hframe, hle⟩ := hb.room
  have hvalue : m.stackValue argCount = .ok r := (stackValue_eq hargs).trans hblock
  unfold Machine.activateBlock
  refine .step (peek_of_ok hvalue) (.step (Action.read_of_ok hframe) (.step rfl ?_))
  refine (hm.newContext (hcount frame hframe)).bind ?_
  rintro _ m₁ ⟨f, n, starts', c, rfl, hp, hfree⟩
  obtain ⟨starts₂, hr⟩ := hp.retains
  have hn := hp.working
  have hsp := hp.collections.sp_eq
  have hneeded : argCount ≤ (m₁.heap.view c).len :=
    hle.trans (ContextPool.frameSizeFor_le.trans_eq hfree.len.symm)
  obtain ⟨hvalue', hb', hreach⟩ := hp.block hm.toWorking hargs hblock hb.isBlock
  have hfield := @Provides.fetchField _ _ _ _ _ _ _ _ hp hreach _ hb'.context rfl
  -- The home of the block is another object than the fresh context.
  obtain ⟨v, hv, hslot⟩ := hp.collections.operands hm.toActivated
    (k := m.registers.sp - 1 - argCount) (by omega)
  rw [hblock] at hv
  cases hv
  have hruns := hp.collections.runsMethod hm.toWorking hn (by omega) hblock hb.isBlock hb.runs
  have hhome := hp.apart (hn.reachable_home (by omega) hslot hb' hruns)
  obtain ⟨h, hinit, ht⟩ : ∃ h, Context.initBlock m₁.heap (.ofWordIndex c) m₁.registers.activeContext
      (.ofNat initialPc) (f home) (.ofNat argCount) argCount = .ok h ∧ m₁.heap.Touches c h :=
    ⟨_, Context.initBlock_eq hr.laidOut hr.mem hr.context (by rw [hfree.fields]; decide) ..⟩
  have hsuspended := hr.isSuspended hn.laidOut hp.taken hhome hruns hb'.argCount_lt
    hb'.initialPc_lt hinit
  obtain ⟨m', hok⟩ := hn.enterSuspended (m := { m₁ with heap := h }) (hr.touches ht)
    (hp.apart hn.reachable_active) (show argCount < n.registers.sp by omega)
    (by rw [ht.layout.len_eq]; exact hneeded) hsuspended hp.registers rfl
  refine .step (peek_of_ok hvalue') (.step rfl (.step (Action.write_of_ok (h := h) ?_) ?_))
  · rw [hfield hb'.initialPc, hfield hb'.argCount, hfield hb'.home]
    exact hinit
  · rw [hok]
    trivial

/-- Other values on the stack leave a machine supplied. -/
theorem Supplied.restacked {a pc sp : Nat} (hm : m.Supplied starts) (ha : a ∈ starts)
    (hw : m.heap.Refills a h) (hready : (m.restacked h pc sp).Ready starts) :
    (m.restacked h pc sp).Supplied starts := by
  have hspare : ∀ {size r}, m.IsSpare starts size r → (m.restacked h pc sp).IsSpare starts size r := by
    rintro size r ⟨i, hi, rfl, hne, hframe⟩
    exact ⟨i, hi, rfl, hne, hframe.refilled hi hw hm.laidOut ha⟩
  exact { hready with
    small := fun r hr => hspare (hm.small r hr)
    large := fun r hr => hspare (hm.large r hr)
    blockClass := hw.isOf hm.laidOut ha hm.blockClass }

/-! ## What is found below the arguments -/

/-- A machine with a receiver and a number of arguments on its stack, above the temporaries. Instances
of the class of arrays are arrays. -/
structure Calling (m : Machine) (starts : List Nat) (argCount : Nat) : Prop extends
    Supplied m starts where
  operands : argCount < m.registers.sp
  above : m.registers.homeContext = m.registers.activeContext →
    m.registers.tempLimit + argCount < m.registers.sp
  arrays : ∀ i ∈ starts, (m.heap.view i).ref 1 = m.core.cls .array →
    (m.heap.view i).format = .array

/-- A block that takes a number of arguments. -/
def IsEvaluable (m : Machine) (starts : List Nat) (receiver : Ref) (argCount initialPc : Nat)
    (home : Ref) : Prop :=
  m.isInstance .blockContext receiver = .ok true ∧
    m.heap.IsCallable starts receiver argCount initialPc home

/-- Instances of the class of blocks are blocks that were made for a home, or were never filled in. -/
def IsMade (m : Machine) (starts : List Nat) (receiver : Ref) : Prop :=
  m.isInstance .blockContext receiver = .ok true →
    (∃ argCount initialPc home, m.heap.IsCallable starts receiver argCount initialPc home) ∨
      m.heap.fetchField receiver Context.argCountField = .ok m.heap.nil

/-- What an instance that was never filled in holds for the number of its arguments stands for this
number. -/
def Confuses (m : Machine) (receiver : Ref) (argCount : Nat) : Prop :=
  m.heap.fetchField receiver Context.argCountField = .ok m.heap.nil ∧
    m.heap.nil.toCount = argCount

theorem isInstance_of_known (known : KernelClass) (hl : m.heap.LaidOut starts)
    (hr : Known starts r) : ∃ answer, m.isInstance known r = .ok answer := by
  unfold Machine.isInstance
  split
  · rename_i hp
    obtain ⟨i, hi, rfl⟩ := hr hp
    rw [hl.classOf hi]
    exact ⟨_, rfl⟩
  · exact ⟨_, rfl⟩

/-- What an instance of the class of blocks holds for the number of its arguments. -/
theorem IsMade.count (hmade : m.IsMade starts receiver)
    (hinstance : m.isInstance .blockContext receiver = .ok true) :
    ∃ count, Context.blockArgCount m.heap receiver = .ok count ∧
      ((∃ initialPc home, m.heap.IsCallable starts receiver count initialPc home) ∨
        m.Confuses receiver count) := by
  rcases hmade hinstance with ⟨count, initialPc, home, hb⟩ | hblank
  · exact ⟨count, hb.isBlock.blockArgCount, .inl ⟨initialPc, home, hb⟩⟩
  · refine ⟨m.heap.nil.toCount, ?_, .inr ⟨hblank, rfl⟩⟩
    unfold Context.blockArgCount
    rw [hblank]
    rfl

/-- The test for a block answers whether there is one that takes the arguments. -/
theorem IsMade.isBlockOf (hmade : m.IsMade starts receiver) (hl : m.heap.LaidOut starts)
    (hknown : Known starts receiver) (hnil : ¬ m.Confuses receiver argCount) :
    (∃ initialPc home, m.IsEvaluable starts receiver argCount initialPc home ∧
      m.isBlockOf argCount receiver = .ok true) ∨
    (∀ initialPc home, ¬ m.IsEvaluable starts receiver argCount initialPc home) ∧
      m.isBlockOf argCount receiver = .ok false := by
  obtain ⟨answer, hinstance⟩ := isInstance_of_known .blockContext hl hknown
  unfold Machine.isBlockOf
  rw [hinstance]
  cases answer with
  | false =>
    refine .inr ⟨fun _ _ hanswers => ?_, rfl⟩
    rw [hanswers.1] at hinstance
    cases hinstance
  | true =>
    obtain ⟨count, hcount, hkind⟩ := hmade.count hinstance
    have htest : (Context.blockArgCount m.heap receiver >>= fun count =>
        pure (count == argCount) : Except Fatal Bool) = .ok (count == argCount) := by
      rw [hcount]
      rfl
    by_cases heq : count = argCount
    · subst heq
      obtain ⟨initialPc, home, hb⟩ := hkind.resolve_right hnil
      exact .inl ⟨initialPc, home, ⟨hinstance, hb⟩, htest.trans (by rw [beq_self_eq_true])⟩
    · refine .inr ⟨fun initialPc home hanswers => heq (hanswers.2.isBlock.argCount_eq hcount), ?_⟩
      exact htest.trans (by rw [beq_eq_false_iff_ne.mpr heq])

/-- The elements of an array. -/
theorem array_elements {array : Ref} (hl : m.heap.LaidOut starts) (hknown : Known starts array)
    (harrays : ∀ i ∈ starts, (m.heap.view i).ref 1 = m.core.cls .array →
      (m.heap.view i).format = .array)
    (hinstance : m.isInstance .array array = .ok true) :
    ∃ values, m.heap.length array = .ok values.length ∧
      (List.range values.length).mapM (m.heap.fetchElement array ·) = .ok values := by
  unfold Machine.isInstance at hinstance
  split at hinstance
  · rename_i hp
    obtain ⟨i, hi, rfl⟩ := hknown hp
    rw [hl.classOf hi] at hinstance
    have hformat := harrays i hi (of_decide_eq_true (Except.ok.inj hinstance))
    obtain ⟨values, hvalues⟩ : ∃ values : List Ref, values = (List.range (m.heap.view i).len).map
        fun k => (m.heap.view i).ref ((m.heap.view i).elements + k) := ⟨_, rfl⟩
    have hlen : values.length = (m.heap.view i).len := by rw [hvalues]; simp
    refine ⟨values, (hl.length hi).trans (congrArg _ hlen.symm), ?_⟩
    rw [hlen, hvalues]
    refine Heap.mapM_eq_map fun k hk => ?_
    exact Heap.fetchElement_eq hl hi (by rw [hformat]; rfl) (List.mem_range.mp hk)
  · cases hinstance

theorem spreadArguments?_of_not_block {arguments : Ref}
    (hinstance : m.isInstance .blockContext receiver = .ok false) :
    m.spreadArguments? receiver arguments = .ok none := by
  unfold Machine.spreadArguments?
  rw [hinstance]
  rfl

theorem spreadArguments?_of_not_array {arguments : Ref} {count : Nat}
    (hinstance : m.isInstance .blockContext receiver = .ok true)
    (hcount : Context.blockArgCount m.heap receiver = .ok count)
    (hinstance' : m.isInstance .array arguments = .ok false) :
    m.spreadArguments? receiver arguments = .ok none := by
  unfold Machine.spreadArguments?
  rw [hinstance, hcount, hinstance']
  rfl

/-- The arguments of a block in an array are its elements, if they are as many as the block takes and
there is room. -/
theorem spreadArguments?_eq {arguments : Ref} {count : Nat} {values : List Ref}
    (hinstance : m.isInstance .blockContext receiver = .ok true)
    (hcount : Context.blockArgCount m.heap receiver = .ok count)
    (hinstance' : m.isInstance .array arguments = .ok true)
    (hlen : m.heap.length arguments = .ok values.length)
    (hvalues : (List.range values.length).mapM (m.heap.fetchElement arguments ·) = .ok values)
    (hsp : m.registers.sp ≤ m.registers.stackLimit) :
    m.spreadArguments? receiver arguments = .ok (if values.length = count ∧
      m.registers.sp + count ≤ m.registers.stackLimit + 1 then some values else none) := by
  have hroom : m.stackRoom = .ok (m.registers.stackLimit - m.registers.sp) := by
    unfold Machine.stackRoom require
    rw [if_pos (decide_eq_true hsp)]
    rfl
  unfold Machine.spreadArguments?
  rw [hinstance, hcount, hinstance', hlen, hroom]
  by_cases heq : values.length = count
  · subst heq
    by_cases hle : m.registers.sp + values.length ≤ m.registers.stackLimit + 1
    · have hlt : ¬ m.registers.stackLimit - m.registers.sp + 1 < values.length := by omega
      simp [bind, Except.bind, pure, Except.pure, hle, hlt, hvalues]
    · have hlt : m.registers.stackLimit - m.registers.sp + 1 < values.length := by omega
      simp [bind, Except.bind, pure, Except.pure, hle, hlt]
  · simp [bind, Except.bind, pure, Except.pure, heq]

/-- A block that takes its arguments from an array. -/
structure Spreads (m : Machine) (starts : List Nat) (receiver arguments : Ref)
    (argCount initialPc : Nat) (home : Ref) : Prop where
  answers : m.IsEvaluable starts receiver argCount initialPc home
  array : m.isInstance .array arguments = .ok true
  length : m.heap.length arguments = .ok argCount
  room : m.registers.sp + argCount ≤ m.registers.stackLimit + 1

/-- The test for a block and its arguments in an array answers these if there is a block that takes
them. -/
theorem IsMade.spreadArguments? {arguments : Ref} (hmade : m.IsMade starts receiver)
    (hl : m.heap.LaidOut starts) (hknown : Known starts receiver) (hknown' : Known starts arguments)
    (harrays : ∀ i ∈ starts, (m.heap.view i).ref 1 = m.core.cls .array →
      (m.heap.view i).format = .array)
    (hsp : m.registers.sp ≤ m.registers.stackLimit)
    (hnil : ∀ count, m.heap.length arguments = .ok count → ¬ m.Confuses receiver count) :
    (∃ values initialPc home, m.Spreads starts receiver arguments values.length initialPc home ∧
      m.spreadArguments? receiver arguments = .ok (some values)) ∨
    (∀ count initialPc home, ¬ m.Spreads starts receiver arguments count initialPc home) ∧
      m.spreadArguments? receiver arguments = .ok none := by
  obtain ⟨answer, hinstance⟩ := isInstance_of_known .blockContext hl hknown
  cases answer with
  | false =>
    refine .inr ⟨fun _ _ _ hspreads => ?_, spreadArguments?_of_not_block hinstance⟩
    cases hinstance.symm.trans hspreads.answers.1
  | true =>
    obtain ⟨count, hcount, hkind⟩ := hmade.count hinstance
    obtain ⟨answer, hinstance'⟩ := isInstance_of_known .array hl hknown'
    cases answer with
    | false =>
      refine .inr ⟨fun _ _ _ hspreads => ?_, spreadArguments?_of_not_array hinstance hcount hinstance'⟩
      cases hinstance'.symm.trans hspreads.array
    | true =>
      obtain ⟨values, hlen, hvalues⟩ := array_elements hl hknown' harrays hinstance'
      rw [spreadArguments?_eq hinstance hcount hinstance' hlen hvalues hsp]
      split
      · rename_i htakes
        obtain ⟨rfl, hroom⟩ := htakes
        obtain ⟨initialPc, home, hb⟩ := hkind.resolve_right (hnil _ hlen)
        exact .inl ⟨values, initialPc, home, ⟨⟨hinstance, hb⟩, hinstance', hlen, hroom⟩, rfl⟩
      · rename_i hnot
        refine .inr ⟨fun count' _ _ hspreads => hnot ?_, rfl⟩
        cases hlen.symm.trans hspreads.length
        obtain rfl := hspreads.answers.2.isBlock.argCount_eq hcount
        exact ⟨rfl, hspreads.room⟩

/-! ## Evaluating -/

namespace Calling

theorem known (hm : m.Calling starts argCount) (hvalue : m.stackValue argCount = .ok receiver) :
    Known starts receiver :=
  hm.known_stackValue hm.operands hvalue

/-- A block below its arguments is evaluated. -/
theorem activateBlock (hm : m.Calling starts argCount)
    (hvalue : m.stackValue argCount = .ok receiver)
    (hanswers : m.IsEvaluable starts receiver argCount initialPc home)
    (hcount : ∀ frame, Context.frameSize m.heap receiver = .ok frame →
      m.Counts (ContextPool.frameSizeFor frame)) :
    (m.activateBlock argCount).Reaches fun _ m' => m.Evaluates (fun k => m.heap.slot
      (m.registers.stackBase + (m.registers.sp - argCount + k))) argCount initialPc home m' :=
  hm.toSupplied.activateBlock hm.operands ((stackValue_eq hm.operands).symm.trans hvalue) hanswers.2
    hcount

theorem blockValue_cases (hm : m.Calling starts argCount)
    (hvalue : m.stackValue argCount = .ok receiver) (hmade : m.IsMade starts receiver)
    (hnil : ¬ m.Confuses receiver argCount)
    (hcount : ∀ frame, Context.frameSize m.heap receiver = .ok frame →
      m.Counts (ContextPool.frameSizeFor frame)) :
    (∃ initialPc home, m.IsEvaluable starts receiver argCount initialPc home ∧
      (Machine.takeShortcut (.blockValue argCount) m).Reaches (fun taken m' => taken = true ∧
        m.Evaluates (fun k => m.heap.slot
          (m.registers.stackBase + (m.registers.sp - argCount + k))) argCount initialPc home m') ∧
      (m.invoke 81 argCount).Reaches (fun verdict m' => verdict = .done ∧
        m.Evaluates (fun k => m.heap.slot
          (m.registers.stackBase + (m.registers.sp - argCount + k))) argCount initialPc home m')) ∨
    (∀ initialPc home, ¬ m.IsEvaluable starts receiver argCount initialPc home) ∧
      Machine.takeShortcut (.blockValue argCount) m = .ok false m ∧
      m.invoke 81 argCount = .ok .failed m := by
  have hinspect : ∀ {answer}, m.isBlockOf argCount receiver = .ok answer →
      Action.inspect (·.isBlockOf argCount receiver) m = .ok answer m := by
    intro answer hanswer
    unfold Action.inspect
    dsimp only
    rw [hanswer]
  rcases hmade.isBlockOf hm.laidOut (hm.known hvalue) hnil with
    ⟨initialPc, home, hanswers, htest⟩ | ⟨hnot, htest⟩
  · have hactivates := hm.activateBlock hvalue hanswers hcount
    refine .inl ⟨initialPc, home, hanswers, ?_, ?_⟩
    · refine .step (peek_of_ok hvalue) (.step (hinspect htest) ?_)
      exact hactivates.bind fun _ _ h => ⟨rfl, h⟩
    · refine .step (peek_of_ok hvalue) (.step (hinspect htest) ?_)
      exact hactivates.bind fun _ _ h => ⟨rfl, h⟩
  · refine .inr ⟨hnot, ?_, ?_⟩
    · exact (Action.bind_of_ok (peek_of_ok hvalue)).trans (Action.bind_of_ok (hinspect htest))
    · exact (Action.bind_of_ok (peek_of_ok hvalue)).trans (Action.bind_of_ok (hinspect htest))

theorem poised {count : Nat} (hm : m.Calling starts argCount)
    (hvalue : m.stackValue argCount = .ok receiver)
    (hb : m.heap.IsBlock starts receiver count initialPc home) : m.Poised starts argCount where
  toReady := hm.toReady
  operands := hm.operands
  above := hm.above
  blocks r hr _ := by
    cases hvalue.symm.trans hr
    exact ⟨_, _, _, hb⟩
  arrays := hm.arrays

/-- A block is evaluated with the arguments in an array above it. -/
theorem blockValueWithArguments_reaches {arguments : Ref} {values : List Ref}
    (hm : m.Calling starts 1) (hvalue : m.stackValue 1 = .ok receiver)
    (harguments : m.stackValue 0 = .ok arguments)
    (hspreads : m.Spreads starts receiver arguments values.length initialPc home)
    (hspread : m.spreadArguments? receiver arguments = .ok (some values))
    (hcount : ∀ frame, Context.frameSize m.heap receiver = .ok frame →
      m.Counts (ContextPool.frameSizeFor frame)) :
    (Machine.blockValueWithArguments m).Reaches fun verdict _ => verdict = .done := by
  have hoperands := hm.operands
  have hb := hspreads.answers.2
  have hpoised := hm.poised hvalue hb.isBlock
  obtain ⟨-, -, -, -, hroom, hget⟩ := spreadArguments?_eq_some hspread
  have hreach : ∀ v ∈ values, v.isPointer = true → m.settled.Reachable m.roots v := by
    intro v hv
    obtain ⟨k, hk⟩ := List.mem_iff_getElem?.mp hv
    exact hpoised.reachable_element (by omega) harguments hspreads.array (hget k v hk)
  obtain ⟨a, ha, h, hw, hpush, hready, hbelow, -⟩ := hpoised.spread Nat.one_pos hreach (by omega)
  have hsupplied := hm.toSupplied.restacked ha hw hready
  have hb' := hb.refilled hw hm.laidOut ha
  have hinspect : Action.inspect (·.spreadArguments? receiver arguments) m =
      .ok (some values) m := by
    unfold Action.inspect
    dsimp only
    rw [hspread]
  refine .step (peek_of_ok hvalue) (.step (peek_of_ok harguments) (.step hinspect ?_))
  refine .step (pop_eq (by omega) harguments) (.step hpush ?_)
  refine (hsupplied.activateBlock ?_ ?_ hb' ?_).bind fun _ _ _ => rfl
  · show values.length < m.registers.sp - 1 + values.length
    omega
  · show h.slot (m.registers.stackBase +
      (m.registers.sp - 1 + values.length - 1 - values.length)) = .ok receiver
    rw [show m.registers.sp - 1 + values.length - 1 - values.length = m.registers.sp - 1 - 1 by omega,
      hbelow _ (by omega)]
    exact (stackValue_eq hoperands).symm.trans hvalue
  · intro frame hframe
    obtain ⟨i, hi, rfl, -⟩ := hb.isBlock.context
    have hcounts := hcount frame ((hw.length hm.laidOut ha hi).symm.trans hframe)
    unfold Counts at hcounts ⊢
    rw [show (m.restacked h m.registers.pc (m.registers.sp - 1 + values.length)).heap = h from rfl,
      hw.eq_withMemory]
    exact hcounts

theorem blockValueWithArguments_cases {arguments : Ref} (hm : m.Calling starts 1)
    (hvalue : m.stackValue 1 = .ok receiver) (harguments : m.stackValue 0 = .ok arguments)
    (hmade : m.IsMade starts receiver)
    (hnil : ∀ count, m.heap.length arguments = .ok count → ¬ m.Confuses receiver count)
    (hcount : ∀ frame, Context.frameSize m.heap receiver = .ok frame →
      m.Counts (ContextPool.frameSizeFor frame)) :
    (∃ count initialPc home, m.Spreads starts receiver arguments count initialPc home ∧
      (m.invoke 82 1).Reaches fun verdict m' => verdict = .done ∧ ∃ h,
        (∀ k < m.registers.sp - 1, h.slot (m.registers.stackBase + k) =
          m.heap.slot (m.registers.stackBase + k)) ∧
        (m.restacked h m.registers.pc (m.registers.sp - 1 + count)).Evaluates
          (m.heap.fetchElement arguments) count initialPc home m') ∨
    (∀ count initialPc home, ¬ m.Spreads starts receiver arguments count initialPc home) ∧
      m.invoke 82 1 = .ok .failed m := by
  have hoperands := hm.operands
  rcases hmade.spreadArguments? hm.laidOut (hm.known hvalue)
    (hm.known_stackValue (by omega) harguments) hm.arrays hm.sp_le hnil with
    ⟨values, initialPc, home, hspreads, hspread⟩ | ⟨hnot, hspread⟩
  · refine .inl ⟨values.length, initialPc, home, hspreads, ?_⟩
    have hdone := hm.blockValueWithArguments_reaches hvalue harguments hspreads hspread hcount
    have hb := hspreads.answers.2.isBlock
    refine (hdone.and_meets (hm.poised hvalue hb).blockValueWithArguments).mono ?_
    rintro _ m' ⟨rfl, hfailed | ⟨-, block, arguments', count, pc, context, h, hblock, harguments', hb',
      -, hbelow, hevaluates⟩⟩
    · cases hfailed.1
    · cases hvalue.symm.trans hblock
      cases harguments.symm.trans harguments'
      obtain ⟨rfl, rfl, rfl⟩ := hb.unique hb'
      exact ⟨rfl, h, hbelow, hevaluates⟩
  · refine .inr ⟨hnot, ?_⟩
    have hinspect : Action.inspect (·.spreadArguments? receiver arguments) m = .ok none m := by
      unfold Action.inspect
      dsimp only
      rw [hspread]
    exact (Action.bind_of_ok (peek_of_ok hvalue)).trans
      ((Action.bind_of_ok (peek_of_ok harguments)).trans (Action.bind_of_ok hinspect))

/-- Which receivers are evaluated, whatever lies on the stack. A block that was made for a home is
evaluated with as many arguments as it takes, on the stack or in an array; for everything else the
stack is left as it is. Of the instances that were never filled in this holds unless what they hold
stands for the number of the arguments. -/
theorem evaluates_iff_callable (hm : m.Calling starts argCount)
    (hvalue : m.stackValue argCount = .ok receiver) (hmade : m.IsMade starts receiver)
    (hcount : ∀ frame, Context.frameSize m.heap receiver = .ok frame →
      m.Counts (ContextPool.frameSizeFor frame)) :
    (¬ m.Confuses receiver argCount →
      (∃ initialPc home, m.IsEvaluable starts receiver argCount initialPc home ∧
        (Machine.takeShortcut (.blockValue argCount) m).Reaches (fun taken m' => taken = true ∧
          m.Evaluates (fun k => m.heap.slot
            (m.registers.stackBase + (m.registers.sp - argCount + k))) argCount initialPc home m') ∧
        (m.invoke 81 argCount).Reaches (fun verdict m' => verdict = .done ∧
          m.Evaluates (fun k => m.heap.slot
            (m.registers.stackBase + (m.registers.sp - argCount + k))) argCount initialPc home m')) ∨
      (∀ initialPc home, ¬ m.IsEvaluable starts receiver argCount initialPc home) ∧
        Machine.takeShortcut (.blockValue argCount) m = .ok false m ∧
        m.invoke 81 argCount = .ok .failed m) ∧
    (∀ arguments, argCount = 1 → m.stackValue 0 = .ok arguments →
      (∀ count, m.heap.length arguments = .ok count → ¬ m.Confuses receiver count) →
      (∃ count initialPc home, m.Spreads starts receiver arguments count initialPc home ∧
        (m.invoke 82 argCount).Reaches fun verdict m' => verdict = .done ∧ ∃ h,
          (∀ k < m.registers.sp - 1, h.slot (m.registers.stackBase + k) =
            m.heap.slot (m.registers.stackBase + k)) ∧
          (m.restacked h m.registers.pc (m.registers.sp - 1 + count)).Evaluates
            (m.heap.fetchElement arguments) count initialPc home m') ∨
      (∀ count initialPc home, ¬ m.Spreads starts receiver arguments count initialPc home) ∧
        m.invoke 82 argCount = .ok .failed m) ∧
    (argCount ≠ 1 → m.invoke 82 argCount = .ok .failed m) := by
  refine ⟨fun hnil => hm.blockValue_cases hvalue hmade hnil hcount, ?_, fun hne => ?_⟩
  · rintro arguments rfl harguments hnil
    exact hm.blockValueWithArguments_cases hvalue harguments hmade hnil hcount
  · show Machine.expecting 1 argCount Machine.blockValueWithArguments m = _
    unfold Machine.expecting
    rw [if_neg hne]
    rfl

end Calling

theorem oneBlock_calling : oneBlock.Calling [1, 3, 5, 9, 12, 17, 30] 1 :=
  { oneBlock_poised, oneBlock_poised.stocked rfl rfl with
    blockClass := ⟨1, by decide, rfl, by decide⟩ }

theorem oneBlock_callable : oneBlock.heap.IsCallable [1, 3, 5, 9, 12, 17, 30] (.ofWordIndex 30) 1 0
    (.ofWordIndex 17) where
  isBlock := ⟨⟨30, by decide, rfl, by decide⟩, by decide, by decide, rfl, rfl, rfl⟩
  runs := ⟨⟨17, by decide, rfl, by decide⟩, ⟨.ofWordIndex 12, .ofRef (.ofNat 0), .ofWordIndex 9,
    .ofWordIndex 5, rfl, ⟨12, by decide, rfl, by decide⟩, ⟨.ofNat 0, rfl, by decide, rfl⟩, rfl, rfl,
    ⟨5, by decide, rfl, by decide⟩⟩, _, rfl⟩
  room := ⟨2, rfl, by decide⟩

theorem oneBlock_counts {frame : Nat}
    (hframe : Context.frameSize oneBlock.heap (.ofWordIndex 30) = .ok frame) :
    oneBlock.Counts (ContextPool.frameSizeFor frame) := by
  have hread : Context.frameSize oneBlock.heap (.ofWordIndex 30) = .ok 2 := by rfl
  rw [← Except.ok.inj (hread.symm.trans hframe)]
  unfold Counts
  decide

/-- The block is evaluated with its argument, by the instruction and by the primitive. -/
theorem oneBlock_evaluates :
    ∃ initialPc home m', oneBlock.IsEvaluable [1, 3, 5, 9, 12, 17, 30] (.ofWordIndex 30) 1 initialPc home ∧
      Machine.takeShortcut (.blockValue 1) oneBlock = .ok true m' ∧
      oneBlock.Evaluates (fun k => oneBlock.heap.slot
        (oneBlock.registers.stackBase + (oneBlock.registers.sp - 1 + k))) 1 initialPc home m' := by
  have hnil : ¬ oneBlock.Confuses (.ofWordIndex 30) 1 := fun hconfuses => by
    have hread : oneBlock.heap.fetchField (.ofWordIndex 30) Context.argCountField = .ok (.ofNat 1) := by
      rfl
    exact absurd (Except.ok.inj (hread.symm.trans hconfuses.1)) (by decide)
  have hreceiver : oneBlock.stackValue 1 = .ok (.ofWordIndex 30) := by rfl
  have hcases := (oneBlock_calling.evaluates_iff_callable hreceiver
    (fun _ => .inl ⟨1, 0, _, oneBlock_callable⟩) fun _ => oneBlock_counts).1 hnil
  have htaken : (Machine.takeShortcut (.blockValue 1) oneBlock).answer?.isSome = true := by
    decide +kernel
  obtain ⟨⟨taken, m'⟩, hanswer⟩ := Option.isSome_iff_exists.mp htaken
  have hok := Outcome.eq_ok_of_answer? hanswer
  rw [hok] at hcases
  rcases hcases with ⟨initialPc, home, hanswers, ⟨rfl, hevaluates⟩, -⟩ | ⟨hnot, -⟩
  · exact ⟨initialPc, home, m', hanswers, hok, hevaluates⟩
  · exact absurd ⟨rfl, oneBlock_callable⟩ (hnot 0 (.ofWordIndex 17))

end Machine

end ObjectMachine
