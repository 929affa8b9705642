import ObjectMachine.Proofs.Interface.Table
import ObjectMachine.Proofs.Machine.Soundness

/-!
# Collections during an activation

An allocation may collect, even more than once, while a method runs. Each collection leaves a machine
that goes on where it was, and that can be collected again: what was written back to the active
context is what its registers say, so writing it back once more changes nothing.

## Main results

* `Machine.Activated.collected`: the machine after a collection is in the middle of the same
  activation.
* `Machine.Working.collectGarbage_cases`: a collection succeeds unless marking overflows.
* `Machine.Working.allocate`: what an allocation makes of a machine that runs.
-/

namespace ObjectMachine

/-! ## Fewer roots -/

namespace Heap

variable {h : Heap} {roots roots' : List Ref} {c : Collected} {f : Ref → Ref} {o : Ref}

theorem Reachable.mono (ho : h.Reachable roots o) (hsub : ∀ r ∈ roots, r ∈ roots') :
    h.Reachable roots' o := by
  induction ho with
  | root hmem hp => exact .root (hsub _ hmem) hp
  | nil hp => exact .nil hp
  | step _ hrefers ih => exact .step ih hrefers

/-- What is carried over from some roots is carried over from fewer. -/
theorem Carries.restrict (hc : h.Carries roots' c f) (hsub : ∀ r ∈ roots, r ∈ roots') :
    h.Carries roots { c with roots := roots.map (·.image f) } f where
  injective a b ha hb := hc.injective a b (ha.mono hsub) (hb.mono hsub)
  objects := by
    obtain ⟨objects, hobjects, hmem⟩ := hc.objects
    exact ⟨objects, hobjects, fun o ho => hmem o (ho.mono hsub)⟩
  same o ho := hc.same o (ho.mono hsub)
  nil := hc.nil
  roots := rfl

end Heap

namespace Machine

variable {m n m' : Machine} {starts : List Nat} {a : Nat} {live : Nat → Bool} {c : Collected}
  {f g : Ref → Ref} {r : Ref} {format : Format}

/-! ## After a collection -/

theorem Collecting.Kept.isOf (hc : m.Collecting a starts live c)
    (hr : Collecting.Kept m starts live format r) :
    c.heap.IsOf ((m.flushedHeap a).survivors starts live) format
      ((m.flushedHeap a).moveRef starts live r) := by
  obtain ⟨i, hi, hlive, rfl, rfl⟩ := hr
  exact ⟨_, Collecting.mem_survivors hi hlive, hc.moveRef_eq hi, (hc.layout hi hlive).format_eq⟩

/-- The machine that a collection leaves, with positions computed again. -/
def resumed (m : Machine) (f : Ref → Ref) (c : Collected) (stackBase tempBase codeBase : Nat) :
    Machine :=
  { m.mapRoots f with
    heap := c.heap
    contexts := m.contexts.clear
    cache := m.cache.flush
    registers := { m.registers.mapRefs f with stackBase, tempBase, codeBase } }

theorem roots_resumed (m : Machine) (f : Ref → Ref) (c : Collected)
    (stackBase tempBase codeBase : Nat) :
    (m.resumed f c stackBase tempBase codeBase).roots = m.roots.map f := by
  rw [← roots_mapRoots, roots_eq, roots_eq]
  rfl

namespace Activated

/-- What was written back before a collection needs not be written back after it. -/
theorem settled_resumed (hm : m.Activated starts) (hc : m.Collecting a starts live c)
    (hactive : m.registers.activeContext = .ofWordIndex a) (stackBase tempBase codeBase : Nat) :
    (m.resumed ((m.flushedHeap a).moveRef starts live) c stackBase tempBase codeBase).settled =
      c.heap := by
  have hlive := hm.kept_context hc hactive
  have hl := hc.collects.laidOut hc.wellFormed
  have hmem := Collecting.mem_survivors (m := m) (a := a) hc.mem hlive
  have hcell : ∀ {field n : Nat}, field < 3 → n < Ref.addressLimit →
      ((m.flushedHeap a).view a).ref (headerWords + field) = .ofNat n →
      c.heap.cell (slide (m.flushedHeap a).sizeOf live starts a + (headerWords + field)) =
        (Ref.ofNat n).bits := by
    intro field n hfield hn href
    have hallows : (m.heap.view a).format.allowsFields = true := by
      rw [hc.context]
      rfl
    have htraced := hc.isTraced_field hc.mem hallows
      (contextField_bounds hc.laidOut hc.mem hc.context hfield).1
    have hmoved := hc.collects.ref_of_isTraced hc.mem hlive htraced
    rw [href, Heap.moveRef, if_neg] at hmoved
    · exact congrArg Ref.bits hmoved
    · intro hp
      have hsmall := Ref.isSmallInteger_ofNat hn
      rw [Ref.not_isSmallInteger_of_isPointer hp] at hsmall
      cases hsmall
  have hpc := hcell pcField_lt hm.pc_lt (position_flushedHeap hc.laidOut hc.mem hc.context)
  have hsp := hcell spField_lt hm.sp_lt (stackPointer_flushedHeap hc.laidOut hc.mem hc.context)
  have hindex : (m.resumed ((m.flushedHeap a).moveRef starts live) c stackBase tempBase
      codeBase).registers.activeContext.wordIndex = slide (m.flushedHeap a).sizeOf live starts a := by
    show ((m.flushedHeap a).moveRef starts live m.registers.activeContext).wordIndex = _
    rw [hactive, hc.moveRef_eq hc.mem]
    exact hl.wordIndex hmem
  unfold settled
  rw [hindex]
  show ((c.heap.poke (_ + (headerWords + Context.pcField)) (Ref.ofNat m.registers.pc).bits).poke
    (_ + (headerWords + Context.spField)) (Ref.ofNat m.registers.sp).bits) = c.heap
  rw [← hpc, Heap.poke_cell, ← hsp, Heap.poke_cell]

/-- The machine after a collection is in the middle of the same activation. -/
theorem collected (hm : m.Activated starts) (hc : m.Collecting a starts live c)
    (hactive : m.registers.activeContext = .ofWordIndex a) {stackBase tempBase codeBase : Nat}
    (hload : (m.registers.mapRefs ((m.flushedHeap a).moveRef starts live)).load c.heap
        ((m.flushedHeap a).moveRef starts live m.registers.activeContext) =
      .ok { m.registers.mapRefs ((m.flushedHeap a).moveRef starts live) with
        stackBase, tempBase, codeBase }) :
    (m.resumed ((m.flushedHeap a).moveRef starts live) c stackBase tempBase codeBase).Activated
      ((m.flushedHeap a).survivors starts live) := by
  have hreads := hm.reads
  have hcontext := hc.kept_register (by simp [Registers.refs]) hm.context
  have hhome := hc.kept_register (by simp [Registers.refs]) hm.home
  have hmethod := hc.kept_register (by simp [Registers.refs]) hm.method
  have hliterals := hc.kept_register (by simp [Registers.refs]) hm.literals
  have hsettled := hm.settled_resumed hc hactive stackBase tempBase codeBase
  obtain ⟨code, hcode, -, -⟩ := hreads.code
  have hplain : Format.plain = .context → ∀ {p : Prop}, p := fun h => absurd h (by decide)
  have hkept := hc.kept_field hmethod rfl (fun h => hplain h) hcode (hm.code code hcode)
  exact
    { laidOut := hc.collects.laidOut hc.wellFormed
      context := hcontext.isOf hc
      home := hhome.isOf hc
      method := hmethod.isOf hc
      header := by
        intro word hword
        obtain ⟨header, len, hheader, -, -⟩ := hreads.tempLimit
        obtain ⟨word', hword', -⟩ := ObjectMachine.bind_eq_ok.mp hheader
        have hnot := hm.header word' hword'
        have hsame := (hc.fetchField hmethod rfl (fun h => hplain h) hword').symm.trans hword
        rw [Heap.moveRef, if_neg (by simp [hnot])] at hsame
        rw [← Except.ok.inj hsame]
        exact hnot
      literals := hliterals.isOf hc
      code := by
        intro code' hcode'
        have hsame := (hc.fetchField hmethod rfl (fun h => hplain h) hcode).symm.trans hcode'
        rw [← Except.ok.inj hsame]
        exact hkept.isOf hc
      loaded := ⟨_, _, _, hload⟩
      pc_lt := hm.pc_lt
      sp_le := hm.sp_le
      temporaries := by
        rw [hsettled]
        obtain ⟨i, hi, hlive, heq, -⟩ := hhome
        have hcovered := hm.temporaries
        unfold settled at hcovered
        rw [hactive, hc.laidOut.wordIndex hc.mem, heq, hc.laidOut.wordIndex hi] at hcovered
        show m.registers.tempLimit ≤
          (c.heap.view ((m.flushedHeap a).moveRef starts live m.registers.homeContext).wordIndex).live
        rw [heq, hc.moveRef_eq hi, (hc.collects.laidOut hc.wellFormed).wordIndex
          (Collecting.mem_survivors hi hlive), (hc.collects.agrees hc.wellFormed hi hlive).live_eq]
        exact hcovered
      wellFormed := by
        rw [hsettled]
        exact hc.collects.wellFormed hc.wellFormed hc.rootsIn hc.keeps
      rootsIn := by
        rw [hsettled, roots_resumed, ← hc.collects.roots]
        exact hc.collects.rootsIn hc.wellFormed hc.rootsIn hc.keeps }

end Activated

/-! ## Machines that can allocate -/

/-- A machine in the middle of an activation whose memory may grow, with large integers that are
accounted for. -/
structure Working (m : Machine) (starts : List Nat) : Prop extends Activated m starts where
  reserved : m.heap.reservedWords ≤ Ref.addressLimit
  /-- Fields are where the format allows them. -/
  allowed : ∀ i ∈ starts, (m.heap.view i).fields = 0 ∨ (m.heap.view i).format.allowsFields = true
  table : m.settled.TableOwned starts

/-- A machine that one collection makes of another, which takes the objects to where `f` says. -/
def CollectsTo (m m' : Machine) (f : Ref → Ref) : Prop :=
  ∃ c, m'.heap = c.heap ∧ m.settled.Carries m.roots c f ∧ m.Resumes m' (·.image f)

/-- A machine that some collections make of another, one after the other. -/
inductive Collections : Machine → (Ref → Ref) → Machine → Prop
  | none (m : Machine) : Collections m id m
  | after {m n m' : Machine} {f g : Ref → Ref} {starts : List Nat} : Collections m f n →
      n.Working starts → n.CollectsTo m' g → Collections m (fun r => (f r).image g) m'

namespace Working

/-- Other references may be pinned. -/
theorem withPinned (hm : m.Working starts) {pinned : Array Ref}
    (hknown : ∀ r ∈ pinned.toList, Known starts r) :
    ({ m with pinned } : Machine).Working starts := by
  refine { hm with rootsIn := ⟨?_, hm.rootsIn.nil⟩ }
  intro r hr
  rcases mem_roots.mp hr with h | h | h | h | h
  · exact hm.rootsIn.roots r (mem_roots.mpr (.inl h))
  · exact hm.rootsIn.roots r (mem_roots.mpr (.inr (.inl h)))
  · exact hm.rootsIn.roots r (mem_roots.mpr (.inr (.inr (.inl h))))
  · exact hm.rootsIn.roots r (mem_roots.mpr (.inr (.inr (.inr (.inl h)))))
  · exact hknown r h

theorem known (hm : m.Working starts) (hr : r ∈ m.roots) : Known starts r :=
  hm.rootsIn.roots r hr

/-- A collection succeeds unless marking overflows. -/
theorem collectGarbage_cases (hm : m.Working starts) :
    m.collectGarbage = .stopped (.markStackOverflow m.heap.config.markLimit) ∨
      ∃ c f stackBase tempBase codeBase starts', m.settled.Carries m.roots c f ∧
        m.collectGarbage = .ok c.reclaimed
          (m.resumed (·.image f) c stackBase tempBase codeBase) ∧
        m.Resumes (m.resumed (·.image f) c stackBase tempBase codeBase) (·.image f) ∧
        (m.resumed (·.image f) c stackBase tempBase codeBase).Working starts' := by
  obtain ⟨a, ha, hactive, hformat⟩ := hm.context
  have hsettled : m.settled = m.flushedHeap a := by
    unfold settled
    rw [hactive, hm.laidOut.wordIndex ha]
  have hflush := flushRegisters_eq hm.laidOut ha hactive hformat
  have hroots : ({ m with heap := m.flushedHeap a } : Machine).roots = m.roots := by
    rw [roots_eq, roots_eq]
  have hw : (m.flushedHeap a).WellFormed starts := hsettled ▸ hm.wellFormed
  have hr : (m.flushedHeap a).RootsIn starts m.roots := hsettled ▸ hm.rootsIn
  rcases Heap.collect_spec hw hr with ⟨-, hoverflow⟩ | ⟨c, live, hcollect, hkeeps, hcollects⟩
  · left
    refine (Action.bind_of_ok hflush).trans ((Action.bind_of_ok rfl).trans
      ((Action.bind_of_ok rfl).trans (Action.bind_of_stopped ?_)))
    have hroots' : ({ m with heap := m.flushedHeap a, contexts := m.contexts.clear } :
        Machine).roots = m.roots := by
      rw [roots_eq, roots_eq]
    apply Action.onHeap_of_error
    show (Heap.collect (m.flushedHeap a) (Machine.roots _) >>= _) = _
    rw [hroots', hoverflow]
    rfl
  · right
    have hc := hm.collecting hactive ha hkeeps hcollects
    obtain ⟨stackBase, tempBase, codeBase, hload⟩ := hm.load_collected hc hactive
    have hpointer : ((m.flushedHeap a).moveRef starts live m.registers.activeContext).isPointer =
        true := by
      rw [hactive]
      exact (Heap.isPointer_moveRef hw.toLaidOut fun _ => ⟨a, ha, rfl⟩).trans
        (hm.laidOut.isPointer ha)
    have hreload := reloadRegisters_eq
      (m := { m.mapRoots ((m.flushedHeap a).moveRef starts live) with
        heap := c.heap, contexts := m.contexts.clear, cache := m.cache.flush }) hpointer hload
    refine ⟨c, (m.flushedHeap a).moveRef starts live, stackBase, tempBase, codeBase,
      (m.flushedHeap a).survivors starts live, ?_⟩
    simp only [Heap.Collects.image_moveRef]
    refine ⟨hsettled ▸ hcollects.carries hw hr hkeeps,
      collectGarbage_eq hflush (by rw [hroots]; exact hcollect)
        (by rw [hroots]; exact hcollects.roots) hreload, hm.resumes hc hactive hload,
      { hm.collected hc hactive hload with reserved := ?_, allowed := ?_, table := ?_ }⟩
    · exact hcollects.reservedWords.trans_le hm.reserved
    · intro j hj
      obtain ⟨i, hi, hlive, rfl⟩ := Heap.mem_survivors.mp hj
      have hlayout := hc.layout hi hlive
      show (c.heap.view _).fields = 0 ∨ (c.heap.view _).format.allowsFields = true
      rw [hlayout.fields_eq, hlayout.format_eq]
      exact hm.allowed i hi
    · rw [hm.settled_resumed hc hactive]
      exact hcollects.tableOwned hw (hsettled ▸ hm.table)

theorem collectGarbage (hm : m.Working starts) :
    m.collectGarbage = .stopped (.markStackOverflow m.heap.config.markLimit) ∨
      ∃ reclaimed m' f starts', m.collectGarbage = .ok reclaimed m' ∧ m.CollectsTo m' f ∧
        m'.Working starts' := by
  rcases hm.collectGarbage_cases with hstopped |
    ⟨c, f, stackBase, tempBase, codeBase, starts', hcarries, hok, hresumes, hworking⟩
  · exact .inl hstopped
  · exact .inr ⟨_, _, _, _, hok, ⟨c, rfl, hcarries, hresumes⟩, hworking⟩

/-- A collection that keeps one more object. -/
theorem collectKeeping (hm : m.Working starts) (hr : Known starts r) :
    m.collectKeeping r = .stopped (.markStackOverflow m.heap.config.markLimit) ∨
      ∃ m' f starts', m.collectKeeping r = .ok (r.image f) m' ∧ m.CollectsTo m' f ∧
        m'.Working starts' ∧ Known starts' (r.image f) := by
  have hpinned : ({ m with pinned := m.pinned.push r } : Machine).Working starts := by
    apply hm.withPinned
    intro x hx
    rcases List.mem_append.mp (Array.toList_push ▸ hx) with hold | hnew
    · exact hm.known (mem_roots.mpr (.inr (.inr (.inr (.inr hold)))))
    · rw [List.mem_singleton.mp hnew]
      exact hr
  have hsub : ∀ x ∈ m.roots, x ∈ ({ m with pinned := m.pinned.push r } : Machine).roots := by
    simp only [roots_eq, Array.toList_push]
    intro x hx
    simp only [List.mem_append] at hx ⊢
    tauto
  rcases hpinned.collectGarbage_cases with hstopped |
    ⟨c, f, stackBase, tempBase, codeBase, starts', hcarries, hok, hresumes, hworking⟩
  · left
    exact (Action.bind_of_ok rfl).trans (Action.bind_of_stopped hstopped)
  · right
    have hback : (({ m with pinned := m.pinned.push r } : Machine).resumed (·.image f) c stackBase
        tempBase codeBase).pinned = (m.pinned.map (·.image f)).push (r.image f) := Array.map_push ..
    have hknown : ∀ x ∈ (m.pinned.map (·.image f)).toList ++ [r.image f], Known starts' x := by
      intro x hx
      apply hworking.known
      refine mem_roots.mpr (.inr (.inr (.inr (.inr ?_))))
      rw [hback, Array.toList_push]
      exact hx
    refine ⟨m.resumed (·.image f) c stackBase tempBase codeBase, f, starts', ?_,
      ⟨{ c with roots := m.roots.map (·.image f) }, rfl, hcarries.restrict hsub,
        { hresumes with pinned := rfl }⟩, ?_, hknown _ (by simp)⟩
    · refine (Action.bind_of_ok rfl).trans ((Action.bind_of_ok hok).trans ?_)
      unfold unpin
      rw [hback, Array.back?_push, Array.pop_push]
      rfl
    · exact hworking.withPinned fun x hx => hknown x (List.mem_append_left _ hx)

end Working

/-! ## The operand stack -/

/-- The stack pointer that is written back counts the slots in use. -/
theorem live_flushed (hl : m.heap.LaidOut starts) (ha : a ∈ starts)
    (hactive : m.registers.activeContext = .ofWordIndex a)
    (hcontext : (m.heap.view a).format = .context) (hle : m.registers.sp ≤ (m.heap.view a).len)
    (hlt : m.registers.sp < Ref.addressLimit) : (m.settled.view a).live = m.registers.sp := by
  have hsp : (m.settled.view a).stackPointer = .ofNat m.registers.sp := by
    unfold settled
    rw [hactive, hl.wordIndex ha]
    exact stackPointer_flushedHeap hl ha hcontext
  have hlayout : View.SameLayout (m.heap.view a) (m.settled.view a) := by
    unfold settled
    rw [hactive, hl.wordIndex ha]
    exact (touches_flushedHeap hl ha hcontext).layout
  unfold View.live
  rw [hlayout.format_eq, hcontext, hsp]
  dsimp only
  rw [if_pos (Ref.isSmallInteger_ofNat hlt), Ref.toInt_ofNat hlt, hlayout.len_eq]
  exact Nat.min_eq_left hle

namespace Activated

variable {i k : Nat}

theorem settled_eq (hm : m.Activated starts) (ha : a ∈ starts)
    (hactive : m.registers.activeContext = .ofWordIndex a) : m.settled = m.flushedHeap a := by
  unfold settled
  rw [hactive, hm.laidOut.wordIndex ha]

theorem format_active (hm : m.Activated starts) (ha : a ∈ starts)
    (hactive : m.registers.activeContext = .ofWordIndex a) : (m.heap.view a).format = .context := by
  obtain ⟨b, hb, heq, hformat⟩ := hm.context
  rw [hm.laidOut.ofWordIndex_inj ha hb (hactive.symm.trans heq)]
  exact hformat

/-- Writing the registers back changes the active context only. -/
theorem touches_settled (hm : m.Activated starts) (ha : a ∈ starts)
    (hactive : m.registers.activeContext = .ofWordIndex a) : Heap.Touches a m.heap m.settled := by
  rw [hm.settled_eq ha hactive]
  exact touches_flushedHeap hm.laidOut ha (hm.format_active ha hactive)

theorem layout_settled (hm : m.Activated starts) (hi : i ∈ starts) :
    View.SameLayout (m.heap.view i) (m.settled.view i) := by
  obtain ⟨a, ha, hactive, -⟩ := hm.context
  exact (hm.touches_settled ha hactive).sameLayout hm.laidOut ha hi

/-- It changes the position and the stack pointer, and no other word. -/
theorem view_settled (hm : m.Activated starts) (hi : i ∈ starts) (hk : k < (m.heap.view i).size)
    (hne : m.registers.activeContext = .ofWordIndex i →
      k ≠ headerWords + Context.pcField ∧ k ≠ headerWords + Context.spField) :
    m.settled.view i k = m.heap.view i k := by
  obtain ⟨a, ha, hactive, -⟩ := hm.context
  by_cases heq : i = a
  · subst heq
    obtain ⟨hpc, hsp⟩ := hne hactive
    rw [hm.settled_eq hi hactive]
    unfold flushedHeap Heap.view
    rw [Heap.cell_poke_ne (by omega), Heap.cell_poke_ne (by omega)]
  · exact (hm.touches_settled ha hactive).view_eq hm.laidOut ha hi heq hk

/-- As many slots of the active context are live as the stack pointer says. -/
theorem live_settled (hm : m.Activated starts) (ha : a ∈ starts)
    (hactive : m.registers.activeContext = .ofWordIndex a) :
    (m.settled.view a).live = m.registers.sp := by
  have hlimit := hm.reads.stackLimit
  rw [hactive, hm.laidOut.length ha] at hlimit
  exact live_flushed hm.laidOut ha hactive (hm.format_active ha hactive)
    (Except.ok.inj hlimit ▸ hm.sp_le) hm.sp_lt

/-- The slots of the stack are words of the active context. -/
theorem slot_operand (hm : m.Activated starts) (ha : a ∈ starts)
    (hactive : m.registers.activeContext = .ofWordIndex a) (hk : k < m.registers.stackLimit) :
    (m.heap.view a).elements + k < (m.heap.view a).size ∧
      m.registers.stackBase = a + (m.heap.view a).elements ∧
      m.heap.slot (m.registers.stackBase + k) =
        .ok ((m.heap.view a).ref ((m.heap.view a).elements + k)) := by
  have hbase := hm.reads.stackBase
  have hlimit := hm.reads.stackLimit
  rw [hactive, Heap.elementsIndex_eq hm.laidOut ha] at hbase
  rw [hactive, hm.laidOut.length ha] at hlimit
  have htail : (m.heap.view a).format.hasReferenceTail = true := by
    rw [hm.format_active ha hactive]
    rfl
  have hlen : k < (m.heap.view a).len := (Except.ok.inj hlimit).symm ▸ hk
  have hin := View.elements_lt_size htail (Nat.add_lt_add_left hlen (m.heap.view a).elements)
  refine ⟨hin, (Except.ok.inj hbase).symm, ?_⟩
  rw [← Except.ok.inj hbase, Nat.add_assoc]
  exact hm.laidOut.slot_offset ha hin

/-- What is on the stack is traced, and is not written over when the registers are written back. -/
theorem operand_traced (hm : m.Activated starts) (ha : a ∈ starts)
    (hactive : m.registers.activeContext = .ofWordIndex a) (hk : k < m.registers.sp) :
    (m.settled.view a).IsTraced ((m.heap.view a).elements + k) ∧
      (m.settled.view a).ref ((m.heap.view a).elements + k) =
        (m.heap.view a).ref ((m.heap.view a).elements + k) := by
  have hformat := hm.format_active ha hactive
  have hlayout := hm.layout_settled ha
  obtain ⟨hin, -, -⟩ := hm.slot_operand ha hactive (Nat.lt_of_lt_of_le hk hm.sp_le)
  constructor
  · refine .inr (.inr ⟨?_, ?_, ?_⟩)
    · rw [hlayout.format_eq, hformat]
      rfl
    · rw [hlayout.elements_eq]
      omega
    · rw [hlayout.elements_eq, hm.live_settled ha hactive]
      omega
  · unfold View.ref
    rw [hm.view_settled ha hin]
    intro _
    have hthree := (hm.laidOut.readable a ha).context hformat
    simp only [View.elements, Context.pcField, Context.spField, contextStackPointer]
    omega

/-- What is on the stack leads to objects. -/
theorem operand (hm : m.Activated starts) (hk : k < m.registers.sp) :
    ∃ v, m.heap.slot (m.registers.stackBase + k) = .ok v ∧ Known starts v := by
  obtain ⟨a, ha, hactive, -⟩ := hm.context
  obtain ⟨-, -, hslot⟩ := hm.slot_operand ha hactive (Nat.lt_of_lt_of_le hk hm.sp_le)
  obtain ⟨htraced, hsame⟩ := hm.operand_traced ha hactive hk
  refine ⟨_, hslot, ?_⟩
  rw [← hsame]
  exact hm.wellFormed.traced a ha _ htraced

theorem reachable_active (hm : m.Activated starts) :
    m.settled.Reachable m.roots m.registers.activeContext := by
  obtain ⟨a, ha, hactive, -⟩ := hm.context
  refine .root ?_ (hactive ▸ hm.laidOut.isPointer ha)
  rw [roots_eq]
  exact List.mem_append_left _ (by simp [Registers.refs])

theorem reachable_operand (hm : m.Activated starts) (hk : k < m.registers.sp)
    (hslot : m.heap.slot (m.registers.stackBase + k) = .ok r) (hp : r.isPointer = true) :
    m.settled.Reachable m.roots r := by
  obtain ⟨a, ha, hactive, -⟩ := hm.context
  obtain ⟨-, -, hslot'⟩ := hm.slot_operand ha hactive (Nat.lt_of_lt_of_le hk hm.sp_le)
  obtain ⟨htraced, hsame⟩ := hm.operand_traced ha hactive hk
  rw [hslot'] at hslot
  refine .step (hactive ▸ hm.reachable_active) ?_
  exact (hm.wellFormed.toLaidOut.refers_iff ha).mpr
    ⟨hp, _, htraced, hsame.trans (Except.ok.inj hslot)⟩

end Activated

namespace Collections

theorem trans (hf : Collections m f n) (hg : Collections n g m') :
    Collections m (fun r => g (f r)) m' := by
  induction hg with
  | none => exact hf
  | after _ hn hstep ih => exact .after ih hn hstep

/-- References are mapped, and positions computed again. -/
theorem registers (hf : Collections m f n) : n.registers = { m.registers.mapRefs f with
    stackBase := n.registers.stackBase
    tempBase := n.registers.tempBase
    codeBase := n.registers.codeBase } := by
  induction hf with
  | none => rfl
  | after _ _ hstep ih =>
    obtain ⟨c, -, -, hresumes⟩ := hstep
    rw [hresumes.registers, ih]
    rfl

theorem sp_eq (hf : Collections m f n) : n.registers.sp = m.registers.sp := by
  rw [hf.registers]
  rfl

theorem core (hf : Collections m f n) : n.core = m.core.mapRefs f := by
  induction hf with
  | none => simp [CoreObjects.mapRefs]
  | after _ _ hstep ih =>
    obtain ⟨c, -, -, hresumes⟩ := hstep
    rw [hresumes.core, ih]
    simp [CoreObjects.mapRefs, Function.comp_def]

/-- The stack holds the images of what it held. -/
theorem operands (hf : Collections m f n) (hm : m.Activated starts) {k : Nat}
    (hk : k < m.registers.sp) : ∃ v, m.heap.slot (m.registers.stackBase + k) = .ok v ∧
      n.heap.slot (n.registers.stackBase + k) = .ok (f v) := by
  induction hf with
  | none =>
    obtain ⟨v, hv, -⟩ := hm.operand hk
    exact ⟨v, hv, hv⟩
  | after hf _ hstep ih =>
    obtain ⟨v, hv, hv'⟩ := ih
    obtain ⟨c, -, -, hresumes⟩ := hstep
    obtain ⟨v', hv₁, hv₂⟩ := hresumes.operands k (by rw [hf.registers]; exact hk)
    rw [hv'] at hv₁
    cases hv₁
    exact ⟨v, hv, hv₂⟩

/-- No context is kept for reuse after a collection. -/
theorem contexts (hf : Collections m f n) :
    (n = m ∧ f = id) ∨ (n.contexts.small = [] ∧ n.contexts.large = []) := by
  cases hf with
  | none => exact .inl ⟨rfl, rfl⟩
  | after _ _ hstep =>
    obtain ⟨c, -, -, hresumes⟩ := hstep
    exact .inr hresumes.contexts

end Collections

/-! ## Bytes since a collection -/

/-- Loading a context reads the registers from memory and leaves everything else. -/
theorem loadContext_meets {context : Ref} {Q : Unit → Machine → Prop} {E : Machine → Prop}
    (hQ : ∀ registers, m.registers.load m.heap context = .ok registers →
      Q () { m with registers }) : (m.loadContext context).Meets Q E := by
  unfold Machine.loadContext
  cases hload : m.registers.load m.heap context with
  | ok registers => exact hQ registers hload
  | error cause => trivial

/-- Computing the registers again leaves memory alone. -/
theorem reloadRegisters_heap (m : Machine) :
    m.reloadRegisters.Meets (fun _ m' => m'.heap = m.heap) fun _ => True := by
  refine .step rfl ?_
  by_cases hpointer : m.registers.activeContext.isPointer = true
  · rw [if_pos hpointer]
    exact loadContext_meets fun _ _ => rfl
  · rw [if_neg hpointer]
    exact rfl

/-- Nothing was allocated since a collection. -/
theorem collectGarbage_counts (m : Machine) :
    m.collectGarbage.Meets (fun _ m' => m'.heap.sinceCollection = 0) fun _ => True := by
  have hany : ∀ {α : Type} (x : Action α) (n : Machine),
      (x n).Meets (fun _ _ => True) fun _ => True := by
    intro α x n
    cases x n <;> trivial
  unfold Machine.collectGarbage
  refine .bind (hany _ _) fun _ n _ => .step rfl (.step rfl (.onHeap fun collected h hok => ?_))
  obtain ⟨c, hcollect, heq⟩ := bind_eq_ok.mp hok
  cases heq
  have hzero : c.heap.sinceCollection = 0 := by
    unfold Heap.collect at hcollect
    obtain ⟨_, -, hcollect⟩ := bind_eq_ok.mp hcollect
    obtain ⟨_, -, hcollect⟩ := bind_eq_ok.mp hcollect
    obtain ⟨_, -, hcollect⟩ := bind_eq_ok.mp hcollect
    obtain ⟨_, -, hcollect⟩ := bind_eq_ok.mp hcollect
    obtain ⟨_, -, hcollect⟩ := bind_eq_ok.mp hcollect
    cases hcollect
    rfl
  refine .step rfl (.step rfl (.bind (reloadRegisters_heap _) fun _ m' hm' => ?_))
  exact (congrArg Heap.sinceCollection hm').trans hzero

theorem collectKeeping_counts (m : Machine) (r : Ref) :
    (m.collectKeeping r).Meets (fun _ m' => m'.heap.sinceCollection = 0) fun _ => True := by
  refine .step rfl (.bind (collectGarbage_counts _) fun _ n hn => ?_)
  unfold Machine.unpin
  split
  · exact hn
  · trivial

/-! ## Allocation -/

/-- An object was placed after some collections, which took its class along. -/
def Places (m : Machine) (cls : Ref) (format : Format) (fields len : Nat) (r : Ref)
    (m' : Machine) : Prop :=
  ∃ n f starts h, Collections m f n ∧ n.Working starts ∧ Known starts (f cls) ∧
    n.heap.Allocated (f cls) format fields len h ∧ r = .ofWordIndex n.heap.top ∧
    m' = { n with heap := h }

theorem Working.allocate {cls : Ref} {fields len : Nat} (hm : m.Working starts)
    (hcls : Known starts cls) :
    (m.allocate cls format fields len).Meets (m.Places cls format fields len) fun _ => False := by
  refine allocate_meets (P := fun r n => ∃ f starts', Collections m f n ∧ n.Working starts' ∧
    Known starts' r ∧ r = f cls) ⟨id, starts, .none m, hm, hcls, rfl⟩ ?_ ?_
  · rintro r n ⟨f, starts', hf, hn, hr, rfl⟩
    rcases hn.collectKeeping hr with hstopped | ⟨n', g, starts'', hok, hstep, hn', hr'⟩
    · rw [hstopped]
      trivial
    · rw [hok]
      exact ⟨_, starts'', .after hf hn hstep, hn', hr', rfl⟩
  · rintro r n h ⟨f, starts', hf, hn, hr, rfl⟩ ha
    exact ⟨n, f, starts', h, hf, hn, hr, ha, rfl, rfl⟩

end Machine

end ObjectMachine
