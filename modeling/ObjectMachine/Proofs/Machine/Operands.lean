import ObjectMachine.Execution.Stack
import ObjectMachine.Proofs.Machine.Continuation

/-!
# The operand stack of an activation

Pushing and popping change elements of the active context and the stack pointer. Neither is read
when the registers are loaded, so the machine stays in the middle of its activation, as long as what
is on the stack leads to objects and the temporaries are not popped.

## Main results

* `Machine.Working.restacked`: other values on the stack of the active context.
* `Machine.Working.popped`, `Machine.Working.pushed`: one value less, or one more.
-/

namespace ObjectMachine

/-! ## Elements are not fields -/

namespace Heap

variable {h h' : Heap} {starts : List Nat} {a i k index : Nat} {r : Ref}

theorem Within.eq_withMemory {first last : Nat} (hw : h.Within first last h') :
    h' = { h with memory := h'.memory } := by
  have hrest := hw.rest
  cases h
  cases h'
  cases hrest
  rfl

/-- A field that holds the same word of an object of the same layout is read the same. -/
theorem LaidOut.fetchField_congr {starts' : List Nat} (hl : h.LaidOut starts)
    (hl' : h'.LaidOut starts') (hi : i ∈ starts) (hi' : i ∈ starts')
    (hlayout : View.SameLayout (h.view i) (h'.view i))
    (hallows : (h.view i).format.allowsFields = true)
    (hword : index < (h.view i).fields →
      h'.view i (headerWords + index) = h.view i (headerWords + index)) :
    h'.fetchField (.ofWordIndex i) index = h.fetchField (.ofWordIndex i) index := by
  by_cases hlt : index < (h.view i).fields
  · have hin := View.fields_lt_size hallows (Nat.add_lt_add_left hlt headerWords)
    rw [fetchField_eq hl hi hlt hin, fetchField_eq hl' hi' (hlayout.fields_eq ▸ hlt)
      (hlayout.size_eq ▸ hin)]
    exact congrArg (Except.ok ∘ Ref.mk) (hword hlt)
  · have hlt' : ¬ index < (h'.view i).fields := hlayout.fields_eq ▸ hlt
    unfold Heap.fetchField fieldIndex
    rw [hl.header hi, hl'.header hi']
    unfold View.fields at hlt hlt'
    dsimp only
    rw [if_neg hlt, if_neg hlt']

/-- Memory that differs in the elements of an object only. -/
def Refills (a : Nat) (h h' : Heap) : Prop :=
  h.Within (a + (h.view a).elements) (a + (h.view a).size) h'

namespace Refills

theorem refl (a : Nat) (h : Heap) : h.Refills a h :=
  Within.refl ..

theorem trans {h'' : Heap} (hw : h.Refills a h') (hw' : h'.Refills a h'')
    (hlayout : View.SameLayout (h.view a) (h'.view a)) : h.Refills a h'' := by
  unfold Refills at hw'
  rw [hlayout.elements_eq, hlayout.size_eq] at hw'
  exact Within.trans hw hw'

theorem poke (hk : (h.view a).elements + k < (h.view a).size) (value : UInt64) :
    h.Refills a (h.poke (a + ((h.view a).elements + k)) value) :=
  Within.poke (by omega) (by omega) value

/-- What lies outside the object is read as before. -/
theorem slot_outside {p : Nat} (hw : h.Refills a h')
    (hp : p < a ∨ a + (h.view a).size ≤ p) : h'.slot p = h.slot p := by
  have hcell : h'.cell p = h.cell p := by
    apply hw.outside
    omega
  by_cases hlt : p < h.memory.size
  · rw [slot_eq hlt, slot_eq (hw.size.symm ▸ hlt), hcell]
  · have hlt' : ¬ p < h'.memory.size := hw.size.symm ▸ hlt
    unfold slot word
    rw [dif_neg hlt, dif_neg hlt']

theorem touches (hw : h.Refills a h') : h.Touches a h' := by
  have hview : ∀ k < (h.view a).elements, h'.view a k = h.view a k := by
    intro k hk
    exact hw.outside (a + k) (by omega)
  refine Within.touches hw (by omega) (Nat.le_refl _) ⟨?_, ?_⟩
  · unfold View.header
    rw [hview 0 (by simp [View.elements, headerWords])]
    exact .refl _
  · intro _
    exact hview _ (by simp [View.elements])

/-- All words but those elements are as they were. -/
theorem view_eq (hw : h.Refills a h') (hl : h.LaidOut starts) (ha : a ∈ starts) (hi : i ∈ starts)
    (hk : k < (h.view i).size) (hne : i = a → k < (h.view a).elements) :
    h'.view i k = h.view i k := by
  by_cases heq : i = a
  · subst heq
    exact hw.outside (i + k) (.inl (Nat.add_lt_add_left (hne rfl) i))
  · exact hw.touches.view_eq hl ha hi heq hk

section Reading

variable (hw : h.Refills a h') (hl : h.LaidOut starts) (ha : a ∈ starts)

include hw hl ha

theorem fetchField (hi : i ∈ starts) (hallows : (h.view i).format.allowsFields = true)
    (index : Nat) :
    h'.fetchField (.ofWordIndex i) index = h.fetchField (.ofWordIndex i) index := by
  refine hl.fetchField_congr (hw.touches.laidOut hl ha) hi hi (hw.touches.sameLayout hl ha hi)
    hallows fun hlt => ?_
  refine hw.view_eq hl ha hi (View.fields_lt_size hallows (Nat.add_lt_add_left hlt headerWords)) ?_
  rintro rfl
  simp only [View.elements]
  omega

theorem length (hi : i ∈ starts) : h'.length (.ofWordIndex i) = h.length (.ofWordIndex i) := by
  rw [hl.length hi, (hw.touches.laidOut hl ha).length hi,
    (hw.touches.sameLayout hl ha hi).len_eq]

theorem elementsIndex (hi : i ∈ starts) :
    h'.elementsIndex (.ofWordIndex i) = h.elementsIndex (.ofWordIndex i) := by
  rw [elementsIndex_eq hl hi, elementsIndex_eq (hw.touches.laidOut hl ha) hi,
    (hw.touches.sameLayout hl ha hi).elements_eq]

theorem isOf {format : Format} (hr : h.IsOf starts format r) : h'.IsOf starts format r := by
  obtain ⟨i, hi, rfl, hformat⟩ := hr
  exact ⟨i, hi, rfl, (hw.touches.sameLayout hl ha hi).format_eq.trans hformat⟩

end Reading

end Refills

end Heap

theorem Ref.isPointer_ofNat {n : Nat} (hn : n < addressLimit) : (ofNat n).isPointer = false := by
  have hsmall := isSmallInteger_ofNat hn
  by_contra hp
  rw [not_isSmallInteger_of_isPointer (by simpa using hp)] at hsmall
  cases hsmall

/-! ## Registers -/

namespace Machine

variable {m : Machine} {starts : List Nat} {a i k pc sp : Nat} {h : Heap} {r : Ref}

/-- Two fields of a context are written back, and none of its elements. -/
theorem view_flushedHeap (hk : k ≠ headerWords + Context.pcField)
    (hk' : k ≠ headerWords + Context.spField) : (m.flushedHeap a).view a k = m.heap.view a k := by
  unfold flushedHeap Heap.view
  rw [Heap.cell_poke_ne (by omega), Heap.cell_poke_ne (by omega)]

/-- The machine with other memory, and at another position with another depth of the stack. -/
def restacked (m : Machine) (h : Heap) (pc sp : Nat) : Machine :=
  { m with heap := h, registers := { m.registers with pc, sp } }

theorem roots_restacked (m : Machine) (h : Heap) (pc sp : Nat) :
    (m.restacked h pc sp).roots = m.roots := by
  rw [roots_eq, roots_eq]
  rfl

namespace Activated

/-- The registers are loaded from memory that does not change. -/
theorem reads_refilled (hm : m.Activated starts) (ha : a ∈ starts) (hw : m.heap.Refills a h) :
    m.registers.Reads h := by
  have hl := hm.laidOut
  have hreads := hm.reads
  obtain ⟨c, hc, hactive, hcontext⟩ := hm.context
  obtain ⟨o, ho, hhome, homeFormat⟩ := hm.home
  obtain ⟨q, hq, hmethod, hplain⟩ := hm.method
  have hfieldc := hw.fetchField hl ha hc (by rw [hcontext]; rfl)
  have hfieldo := hw.fetchField hl ha ho (by rw [homeFormat]; rfl)
  have hfieldq := hw.fetchField hl ha hq (by rw [hplain]; rfl)
  rw [← hactive] at hfieldc
  rw [← hhome] at hfieldo
  rw [← hmethod] at hfieldq
  constructor
  · unfold Context.home Context.isBlock
    rw [hfieldc, hfieldc]
    exact hreads.home
  · exact (hfieldo _).trans hreads.method
  · exact (hfieldo _).trans hreads.receiver
  · exact (hfieldq _).trans hreads.literals
  · obtain ⟨code, hcode, hoffset, hlength⟩ := hreads.code
    obtain ⟨b, hb, rfl, -⟩ := hm.code code hcode
    refine ⟨_, (hfieldq _).trans hcode, ?_, (hw.length hl ha hb).trans hlength⟩
    unfold Heap.bytesOffset at hoffset ⊢
    rw [hw.elementsIndex hl ha hb]
    exact hoffset
  · have hbase := hreads.stackBase
    rw [hactive] at hbase ⊢
    exact (hw.elementsIndex hl ha hc).trans hbase
  · have hlimit := hreads.stackLimit
    rw [hactive] at hlimit ⊢
    exact (hw.length hl ha hc).trans hlimit
  · have hbase := hreads.tempBase
    rw [hhome] at hbase ⊢
    exact (hw.elementsIndex hl ha ho).trans hbase
  · obtain ⟨header, len, hheader, hlen, hlimit⟩ := hreads.tempLimit
    refine ⟨header, len, ?_, ?_, hlimit⟩
    · unfold Method.header
      rw [hfieldq]
      exact hheader
    · rw [hhome] at hlen ⊢
      exact (hw.length hl ha ho).trans hlen

theorem loaded_refilled (hm : m.Activated starts) (ha : a ∈ starts) (hw : m.heap.Refills a h) :
    ∃ (r : Registers) (pc sp : Nat),
      r.load h m.registers.activeContext = .ok { m.registers with pc, sp } := by
  obtain ⟨r, pc, sp, hload⟩ := hm.loaded
  obtain ⟨-, -, hpc, hsp, hrest⟩ := Registers.load_ok_iff.mp hload
  obtain ⟨c, hc, hactive, hcontext⟩ := hm.context
  have hfield := hw.fetchField hm.laidOut ha hc (by rw [hcontext]; rfl)
  have hreads := hm.reads_refilled ha hw
  refine ⟨r, pc, sp, Registers.load_ok_iff.mpr ⟨rfl, ?_, ?_, ?_, hrest⟩⟩
  · exact ⟨hreads.home, hreads.method, hreads.receiver, hreads.literals, hreads.code,
      hreads.stackBase, hreads.stackLimit, hreads.tempBase, hreads.tempLimit⟩
  · unfold Context.pc? Context.register? at hpc ⊢
    rw [hactive] at hpc ⊢
    rw [hfield]
    exact hpc
  · unfold Context.sp? Context.register? at hsp ⊢
    rw [hactive] at hsp ⊢
    rw [hfield]
    exact hsp

/-- The words of the active context that are written back. -/
theorem registers_settled (hl : m.heap.LaidOut starts) (ha : a ∈ starts)
    (hcontext : (m.heap.view a).format = .context)
    (hactive : m.registers.activeContext = .ofWordIndex a) :
    (m.settled.view a).ref (headerWords + Context.pcField) = .ofNat m.registers.pc ∧
      (m.settled.view a).ref (headerWords + Context.spField) = .ofNat m.registers.sp := by
  unfold settled
  rw [hactive, hl.wordIndex ha]
  exact ⟨position_flushedHeap hl ha hcontext, stackPointer_flushedHeap hl ha hcontext⟩

end Activated

section Restacked

variable (hm : m.Activated starts) (ha : a ∈ starts)
  (hactive : m.registers.activeContext = .ofWordIndex a) (hw : m.heap.Refills a h)

include hm ha hactive hw

theorem touches_restacked : Heap.Touches a h (m.restacked h pc sp).settled := by
  have hl' := hw.touches.laidOut hm.laidOut ha
  have hcontext := (hw.touches.sameLayout hm.laidOut ha ha).format_eq.trans
    (hm.format_active ha hactive)
  unfold settled
  rw [show (m.restacked h pc sp).registers.activeContext = m.registers.activeContext from rfl,
    hactive, hm.laidOut.wordIndex ha]
  exact touches_flushedHeap (m := m.restacked h pc sp) hl' ha hcontext

/-- Other words than those of the registers and the stack are as they were. -/
theorem view_restacked (hi : i ∈ starts) (hk : k < (m.heap.view i).size)
    (hne : i = a → k < (m.heap.view a).elements ∧ k ≠ headerWords + Context.pcField ∧
      k ≠ headerWords + Context.spField) :
    (m.restacked h pc sp).settled.view i k = m.settled.view i k := by
  have hl' := hw.touches.laidOut hm.laidOut ha
  have hlayout := hw.touches.sameLayout hm.laidOut ha hi
  have hcontext := hm.format_active ha hactive
  rw [hm.view_settled hi hk fun hi' => (hne (hm.laidOut.ofWordIndex_inj hi ha
    (hi'.symm.trans hactive))).2, ← hw.view_eq hm.laidOut ha hi hk fun heq => (hne heq).1]
  by_cases heq : i = a
  · subst heq
    obtain ⟨-, hpc, hsp⟩ := hne rfl
    unfold settled
    rw [show (m.restacked h pc sp).registers.activeContext = m.registers.activeContext from rfl,
      hactive, hm.laidOut.wordIndex ha]
    exact view_flushedHeap hpc hsp
  · exact (touches_restacked hm ha hactive hw).view_eq hl' ha hi heq (hlayout.size_eq ▸ hk)

/-- Once the registers are written back, only the active context has changed. -/
theorem touches_settled_restacked :
    Heap.Touches a m.settled (m.restacked h pc sp).settled := by
  have hlayout := hm.layout_settled ha
  have hcontext := hm.format_active ha hactive
  have hthree := (hm.laidOut.readable a ha).context hcontext
  have htouch : h.Touches a (m.restacked h pc sp).settled := touches_restacked hm ha hactive hw
  have htouch' := hm.touches_settled ha hactive
  have hview : ∀ k < (m.heap.view a).elements, k ≠ headerWords + Context.pcField →
      k ≠ headerWords + Context.spField → k < (m.heap.view a).size →
      (m.restacked h pc sp).settled.view a k = m.settled.view a k :=
    fun k hk hpc hsp hin => view_restacked hm ha hactive hw ha hin fun _ => ⟨hk, hpc, hsp⟩
  have hcount : headerWords + (m.heap.view a).fields < (m.heap.view a).size :=
    View.count_lt_size (by rw [hcontext]; rfl)
  constructor
  · unfold settled flushedHeap
    rw [hw.eq_withMemory]
    rfl
  · rw [htouch.size, hw.size, htouch'.size]
  · intro p hp
    rw [hlayout.size_eq] at hp
    rw [htouch.outside p (by rw [(hw.touches.sameLayout hm.laidOut ha ha).size_eq]; exact hp),
      htouch'.outside p hp, hw.outside p (by
        simp only [View.elements] at *
        omega)]
  · constructor
    · unfold View.header
      rw [hview 0 (by simp [View.elements, headerWords]) (by decide) (by decide) (by omega)]
      exact .refl _
    · intro _
      rw [hlayout.fields_eq]
      apply hview _ (by simp [View.elements]) _ _ hcount
      · simp only [Context.pcField]
        omega
      · simp only [Context.spField, contextStackPointer]
        omega

omit hw in
/-- A stack pointer can be written back as a small integer. -/
theorem stackPointer_bounds (hsp : sp ≤ m.registers.stackLimit) :
    sp ≤ (m.heap.view a).len ∧ sp < Ref.addressLimit := by
  have hlimit := hm.reads.stackLimit
  rw [hactive, hm.laidOut.length ha] at hlimit
  have hle : sp ≤ (m.heap.view a).len := Except.ok.inj hlimit ▸ hsp
  have hfit := hm.laidOut.fits_memory ha
  have haddr := hm.laidOut.addressable
  have hsize := View.size_of_isIndexable (o := m.heap.view a)
    (by rw [hm.format_active ha hactive]; rfl)
  rw [hm.format_active ha hactive] at hsize
  simp only [Format.tailWords, View.elements, headerWords] at hsize
  omega

theorem live_restacked (hsp : sp ≤ m.registers.stackLimit) :
    ((m.restacked h pc sp).settled.view a).live = sp := by
  have hlayout := hw.touches.sameLayout hm.laidOut ha ha
  obtain ⟨hle, hlt⟩ := stackPointer_bounds hm ha hactive hsp
  exact live_flushed (m := m.restacked h pc sp) (hw.touches.laidOut hm.laidOut ha) ha hactive
    (hlayout.format_eq.trans (hm.format_active ha hactive)) (hlayout.len_eq ▸ hle) hlt

/-- What is traced in the active context: the registers, what was traced before, and the stack. -/
theorem traced_restacked (hpc : pc < Ref.addressLimit) (hsp : sp ≤ m.registers.stackLimit)
    (hk : ((m.restacked h pc sp).settled.view a).IsTraced k) :
    (((m.restacked h pc sp).settled.view a).ref k).isPointer = false ∨
      ((m.settled.view a).IsTraced k ∧
        ((m.restacked h pc sp).settled.view a).ref k = (m.settled.view a).ref k) ∨
      ∃ l < sp, h.slot (m.registers.stackBase + l) =
        .ok (((m.restacked h pc sp).settled.view a).ref k) := by
  have hcontext := hm.format_active ha hactive
  have hlayout := hw.touches.sameLayout hm.laidOut ha ha
  have htouch : m.settled.Touches a (m.restacked h pc sp).settled :=
    touches_settled_restacked hm ha hactive hw
  have hsettled := hm.layout_settled ha
  have hfields : ((m.restacked h pc sp).settled.view a).fields = (m.heap.view a).fields :=
    htouch.layout.fields_eq.trans hsettled.fields_eq
  have hsize : k < (m.heap.view a).size := by
    rw [← hsettled.size_eq, ← htouch.layout.size_eq]
    exact hk.bounds.2
  have helements : ((m.restacked h pc sp).settled.view a).elements = (m.heap.view a).elements :=
    htouch.layout.elements_eq.trans hsettled.elements_eq
  obtain ⟨hpcWord, hspWord⟩ := Activated.registers_settled (m := m.restacked h pc sp)
    (hw.touches.laidOut hm.laidOut ha) ha (hlayout.format_eq.trans hcontext) hactive
  by_cases hpcField : k = headerWords + Context.pcField
  · rw [hpcField, hpcWord]
    exact .inl (Ref.isPointer_ofNat hpc)
  by_cases hspField : k = headerWords + Context.spField
  · rw [hspField, hspWord]
    exact .inl (Ref.isPointer_ofNat (stackPointer_bounds hm ha hactive hsp).2)
  by_cases helement : k < (m.heap.view a).elements
  · have hsame : (m.restacked h pc sp).settled.view a k = m.settled.view a k :=
      view_restacked hm ha hactive hw ha hsize fun _ => ⟨helement, hpcField, hspField⟩
    refine .inr (.inl ⟨?_, congrArg Ref.mk hsame⟩)
    rcases hk with rfl | ⟨hallows, hlo, hhi⟩ | ⟨-, hlo, -⟩
    · exact .inl rfl
    · refine .inr (.inl ⟨?_, hlo, ?_⟩)
      · rw [← htouch.layout.format_eq]
        exact hallows
      · rw [← htouch.layout.fields_eq]
        exact hhi
    · omega
  · obtain ⟨l, rfl⟩ : ∃ l, k = (m.heap.view a).elements + l :=
      ⟨k - (m.heap.view a).elements, by omega⟩
    have hl : l < sp := by
      rcases hk with heq | ⟨-, -, hhi⟩ | ⟨-, -, hhi⟩
      · simp only [View.elements, headerWords] at heq
        omega
      · rw [hfields] at hhi
        simp only [View.elements] at hhi
        omega
      · rw [live_restacked hm ha hactive hw hsp] at hhi
        omega
    have hword : (m.restacked h pc sp).settled.view a ((m.heap.view a).elements + l) =
        h.view a ((m.heap.view a).elements + l) := by
      unfold settled
      rw [show (m.restacked h pc sp).registers.activeContext = m.registers.activeContext from rfl,
        hactive, hm.laidOut.wordIndex ha]
      exact view_flushedHeap hpcField hspField
    obtain ⟨hin, hbase, -⟩ := hm.slot_operand ha hactive (Nat.lt_of_lt_of_le hl hsp)
    refine .inr (.inr ⟨l, hl, ?_⟩)
    rw [hbase, Nat.add_assoc, (hw.touches.laidOut hm.laidOut ha).slot_offset ha
      (hlayout.size_eq ▸ hin)]
    exact congrArg (Except.ok ∘ Ref.mk) hword.symm

/-- Nothing can be reached that could not be reached before or from the stack. -/
theorem reachable_restacked (hpc : pc < Ref.addressLimit) (hsp : sp ≤ m.registers.stackLimit)
    (hslots : ∀ k < sp, ∀ v, h.slot (m.registers.stackBase + k) = .ok v → v.isPointer = true →
      m.settled.Reachable m.roots v)
    (hr : (m.restacked h pc sp).settled.Reachable (m.restacked h pc sp).roots r) :
    m.settled.Reachable m.roots r := by
  have hl := hm.wellFormed.toLaidOut
  have htouch : m.settled.Touches a (m.restacked h pc sp).settled :=
    touches_settled_restacked hm ha hactive hw
  induction hr with
  | root hmem hp => exact .root (roots_restacked m h pc sp ▸ hmem) hp
  | nil hp =>
    rw [htouch.nil] at hp ⊢
    exact .nil hp
  | step _ hrefers ih =>
    obtain ⟨i, hi, rfl⟩ := hm.wellFormed.designates_of_reachable hm.rootsIn ih
    obtain ⟨hp, k, hk, hv⟩ := ((htouch.laidOut hl ha).refers_iff hi).mp hrefers
    by_cases heq : i = a
    · subst heq
      rcases traced_restacked hm ha hactive hw hpc hsp hk with hnot | ⟨hk', hsame⟩ | ⟨l, hlt, hslot⟩
      · rw [hv, hp] at hnot
        cases hnot
      · exact .step ih ((hl.refers_iff hi).mpr ⟨hp, k, hk', hsame.symm.trans hv⟩)
      · exact hslots l hlt _ (hv ▸ hslot) hp
    · have hk' := ((htouch.agrees hl ha hi heq).isTraced_iff k).mp hk
      refine .step ih ((hl.refers_iff hi).mpr ⟨hp, k, hk', ?_⟩)
      rw [← hv]
      exact congrArg Ref.mk (htouch.view_eq hl ha hi heq hk'.bounds.2).symm

theorem wellFormed_restacked (hpc : pc < Ref.addressLimit) (hsp : sp ≤ m.registers.stackLimit)
    (hslots : ∀ k < sp, ∃ v, h.slot (m.registers.stackBase + k) = .ok v ∧ Known starts v) :
    (m.restacked h pc sp).settled.WellFormed starts := by
  have hwell := hm.wellFormed
  have htouch : m.settled.Touches a (m.restacked h pc sp).settled :=
    touches_settled_restacked hm ha hactive hw
  have hcontext : (m.settled.view a).format = .context :=
    (hm.layout_settled ha).format_eq.trans (hm.format_active ha hactive)
  have hslot : (m.restacked h pc sp).settled.largeSlot? a = m.settled.largeSlot? a := by
    unfold Heap.largeSlot?
    rw [htouch.layout.format_eq, hcontext]
    simp
  refine { htouch.laidOut hwell.toLaidOut ha, htouch.slotsOwned hwell.toLaidOut ha
    hwell.toSlotsOwned ?_ hslot with unmarked := ?_, traced := ?_ }
  · show h.largeIntegers = m.heap.largeIntegers
    rw [hw.eq_withMemory]
  · intro i hi
    have htwo := (m.heap.view i).two_le_size
    have hsame : (m.restacked h pc sp).settled.view i 0 = m.settled.view i 0 :=
      view_restacked hm ha hactive hw hi (by omega)
        fun _ => ⟨by simp [View.elements, headerWords], by decide, by decide⟩
    have hmarked := hwell.unmarked i hi
    unfold View.header at hmarked ⊢
    rw [hsame]
    exact hmarked
  · intro i hi k hk
    by_cases heq : i = a
    · subst heq
      rcases traced_restacked hm ha hactive hw hpc hsp hk with hnot | ⟨hk', hsame⟩ | ⟨l, hlt, hslot⟩
      · intro hp
        rw [hnot] at hp
        cases hp
      · rw [hsame]
        exact hwell.traced i hi k hk'
      · obtain ⟨v, hv, hknown⟩ := hslots l hlt
        rw [hslot] at hv
        exact Except.ok.inj hv ▸ hknown
    · have hagrees := htouch.agrees hwell.toLaidOut ha hi heq
      have hk' := (hagrees.isTraced_iff k).mp hk
      unfold View.ref
      rw [htouch.view_eq hwell.toLaidOut ha hi heq hk'.bounds.2]
      exact hwell.traced i hi k hk'

end Restacked

/-- What is in order once the registers are written back stays so with other values on the stack. -/
theorem Activated.restacked (hm : m.Activated starts) (ha : a ∈ starts)
    (hactive : m.registers.activeContext = .ofWordIndex a) (hw : m.heap.Refills a h)
    (hpc : pc < Ref.addressLimit) (hsp : sp ≤ m.registers.stackLimit)
    (hslots : ∀ k < sp, ∃ v, h.slot (m.registers.stackBase + k) = .ok v ∧ Known starts v)
    (htemps : m.registers.homeContext = m.registers.activeContext → m.registers.tempLimit ≤ sp) :
    (m.restacked h pc sp).Activated starts := by
  have hl := hm.laidOut
  have hwell := hm.wellFormed
  have htouch : m.settled.Touches a (m.restacked h pc sp).settled :=
    touches_settled_restacked hm ha hactive hw
  exact
    { laidOut := hw.touches.laidOut hl ha
      context := hw.isOf hl ha hm.context
      home := hw.isOf hl ha hm.home
      method := hw.isOf hl ha hm.method
      header := by
        intro word hword
        obtain ⟨q, hq, hmethod, hplain⟩ := hm.method
        apply hm.header word
        rw [hmethod, ← hw.fetchField hl ha hq (by rw [hplain]; rfl), ← hmethod]
        exact hword
      literals := hw.isOf hl ha hm.literals
      code := by
        intro code hcode
        obtain ⟨q, hq, hmethod, hplain⟩ := hm.method
        refine hw.isOf hl ha (hm.code code ?_)
        unfold Method.code
        rw [hmethod, ← hw.fetchField hl ha hq (by rw [hplain]; rfl), ← hmethod]
        exact hcode
      loaded := hm.loaded_refilled ha hw
      pc_lt := hpc
      sp_le := hsp
      temporaries := by
        obtain ⟨o, ho, hhome, -⟩ := hm.home
        show m.registers.tempLimit ≤ _
        rw [show (m.restacked h pc sp).registers.homeContext = m.registers.homeContext from rfl,
          hhome, hl.wordIndex ho]
        by_cases heq : o = a
        · subst heq
          rw [live_restacked hm ha hactive hw hsp]
          exact htemps (hhome.trans hactive.symm)
        · have hold := hm.temporaries
          rw [hhome, hl.wordIndex ho] at hold
          rw [(htouch.agrees hwell.toLaidOut ha ho heq).live_eq]
          exact hold
      wellFormed := wellFormed_restacked hm ha hactive hw hpc hsp hslots
      rootsIn := by
        rw [roots_restacked]
        refine ⟨hm.rootsIn.roots, ?_⟩
        rw [htouch.nil]
        exact hm.rootsIn.nil }

/-- Other values on the stack of the active context. -/
theorem Working.restacked (hm : m.Working starts) (ha : a ∈ starts)
    (hactive : m.registers.activeContext = .ofWordIndex a) (hw : m.heap.Refills a h)
    (hpc : pc < Ref.addressLimit) (hsp : sp ≤ m.registers.stackLimit)
    (hslots : ∀ k < sp, ∃ v, h.slot (m.registers.stackBase + k) = .ok v ∧ Known starts v)
    (htemps : m.registers.homeContext = m.registers.activeContext → m.registers.tempLimit ≤ sp) :
    (m.restacked h pc sp).Working starts := by
  have hact := hm.toActivated
  have htouch : m.settled.Touches a (m.restacked h pc sp).settled :=
    touches_settled_restacked hact ha hactive hw
  have hcontext : (m.settled.view a).format = .context :=
    (hact.layout_settled ha).format_eq.trans (hact.format_active ha hactive)
  refine { hact.restacked ha hactive hw hpc hsp hslots htemps with
    reserved := ?_, allowed := ?_, table := ?_ }
  · exact hw.touches.reservedWords.trans_le hm.reserved
  · intro i hi
    have hlayout := hw.touches.sameLayout hact.laidOut ha hi
    show (h.view i).fields = 0 ∨ (h.view i).format.allowsFields = true
    rw [hlayout.fields_eq, hlayout.format_eq]
    exact hm.allowed i hi
  · refine hm.table.touches htouch hact.wellFormed.toLaidOut ha ?_ ?_
    · show h.largeIntegers = m.heap.largeIntegers
      rw [hw.eq_withMemory]
    · unfold Heap.largeSlot?
      rw [htouch.layout.format_eq, hcontext]
      simp

/-! ## Popping and pushing -/

theorem Activated.stackValue (hm : m.Activated starts) {depth : Nat} (hd : depth < m.registers.sp) :
    ∃ v, m.stackValue depth = .ok v ∧
      m.heap.slot (m.registers.stackBase + (m.registers.sp - 1 - depth)) = .ok v ∧
      Known starts v := by
  obtain ⟨v, hslot, hv⟩ := hm.operand (k := m.registers.sp - 1 - depth) (by omega)
  refine ⟨v, ?_, hslot, hv⟩
  unfold Machine.stackValue
  rw [if_pos (by omega), ← hslot]
  congr 1
  omega

theorem Activated.known_stackValue (hm : m.Activated starts) {depth : Nat}
    (hd : depth < m.registers.sp) (hok : m.stackValue depth = .ok r) : Known starts r := by
  obtain ⟨v, hv, -, hknown⟩ := hm.stackValue hd
  rw [hv] at hok
  exact Except.ok.inj hok ▸ hknown

theorem pop_eq (hpos : 0 < m.registers.sp) (hvalue : m.stackValue 0 = .ok r) :
    m.pop = .ok r (m.restacked m.heap m.registers.pc (m.registers.sp - 1)) := by
  have hpeek : Machine.peek 0 m = .ok r m := by
    unfold Machine.peek Action.inspect
    dsimp only
    rw [hvalue]
  refine (Action.bind_of_ok rfl).trans ?_
  rw [if_pos hpos]
  exact (Action.bind_of_ok hpeek).trans rfl

namespace Working

/-- Values above the temporaries may be popped. -/
theorem popped (hm : m.Working starts) {count : Nat}
    (htemps : m.registers.homeContext = m.registers.activeContext →
      m.registers.tempLimit ≤ m.registers.sp - count) :
    (m.restacked m.heap m.registers.pc (m.registers.sp - count)).Working starts := by
  obtain ⟨a, ha, hactive, -⟩ := hm.context
  have hle := hm.sp_le
  exact hm.restacked ha hactive (.refl a m.heap) hm.pc_lt (by omega)
    (fun k hk => hm.operand (by omega)) htemps

/-- There is room for a value, which comes to lie on top of the others. -/
theorem pushed (hm : m.Working starts) (ha : a ∈ starts)
    (hactive : m.registers.activeContext = .ofWordIndex a) {v : Ref} (hv : Known starts v)
    (hroom : m.registers.sp < m.registers.stackLimit) :
    ∃ h, m.push v = .ok () (m.restacked h m.registers.pc (m.registers.sp + 1)) ∧
      m.heap.Refills a h ∧ (m.restacked h m.registers.pc (m.registers.sp + 1)).Working starts ∧
      (∀ k < m.registers.stackLimit, h.slot (m.registers.stackBase + k) =
        if k = m.registers.sp then .ok v else m.heap.slot (m.registers.stackBase + k)) := by
  have hfit := hm.laidOut.fits_memory ha
  obtain ⟨hin, hbase, -⟩ := hm.slot_operand ha hactive hroom
  have hw := Heap.Refills.poke hin v.bits
  have hposition : m.registers.stackBase + m.registers.sp =
      a + ((m.heap.view a).elements + m.registers.sp) := by omega
  have hwrite : m.heap.setSlot (m.registers.stackBase + m.registers.sp) v =
      .ok (m.heap.poke (a + ((m.heap.view a).elements + m.registers.sp)) v.bits) := by
    rw [hposition]
    exact Heap.setSlot_eq (by omega) v
  have hslots : ∀ k < m.registers.stackLimit,
      (m.heap.poke (a + ((m.heap.view a).elements + m.registers.sp)) v.bits).slot
        (m.registers.stackBase + k) =
      if k = m.registers.sp then .ok v else m.heap.slot (m.registers.stackBase + k) := by
    intro k hk
    obtain ⟨hin', -, -⟩ := hm.slot_operand ha hactive hk
    rw [hbase, Heap.slot_eq (by rw [Heap.size_poke]; omega), Heap.slot_eq (by omega)]
    split
    · rename_i heq
      rw [heq, Nat.add_assoc, Heap.cell_poke_self (by omega)]
    · rw [Heap.cell_poke_ne (by omega)]
  refine ⟨_, ?_, hw, hm.restacked ha hactive hw hm.pc_lt hroom ?_ ?_, hslots⟩
  · refine (Action.bind_of_ok rfl).trans ?_
    rw [if_pos hroom]
    exact (Action.bind_of_ok (Action.write_ok hwrite)).trans rfl
  · intro k hk
    rw [hslots k (by omega)]
    split
    · exact ⟨v, rfl, hv⟩
    · exact hm.operand (by omega)
  · intro hhome
    have htemps := hm.temporaries
    rw [hhome, hactive, hm.laidOut.wordIndex ha, hm.live_settled ha hactive] at htemps
    omega

/-- Values that are pushed one after the other lie on the stack in their order. -/
theorem pushedAll (hm : m.Working starts) (ha : a ∈ starts)
    (hactive : m.registers.activeContext = .ofWordIndex a) {values : List Ref}
    (hvalues : ∀ v ∈ values, Known starts v)
    (hroom : m.registers.sp + values.length ≤ m.registers.stackLimit) :
    ∃ h, m.pushAll values =
        .ok () (m.restacked h m.registers.pc (m.registers.sp + values.length)) ∧
      m.heap.Refills a h ∧
      (m.restacked h m.registers.pc (m.registers.sp + values.length)).Working starts ∧
      (∀ k < m.registers.sp, h.slot (m.registers.stackBase + k) =
        m.heap.slot (m.registers.stackBase + k)) ∧
      ∀ k v, values[k]? = some v →
        h.slot (m.registers.stackBase + (m.registers.sp + k)) = .ok v := by
  induction values generalizing m with
  | nil => exact ⟨m.heap, rfl, .refl .., hm, fun _ _ => rfl, fun k v hv => by simp at hv⟩
  | cons value rest ih =>
    rw [List.length_cons] at hroom
    obtain ⟨h₁, hpush, hw₁, hm₁, hslots₁⟩ :=
      hm.pushed ha hactive (hvalues value (by simp)) (by omega)
    obtain ⟨h₂, hpush₂, hw₂, hm₂, hbelow, habove⟩ := ih hm₁ hactive
      (fun v hv => hvalues v (by simp [hv])) (by
        show m.registers.sp + 1 + rest.length ≤ m.registers.stackLimit
        omega)
    have hcount : m.registers.sp + 1 + rest.length = m.registers.sp + (value :: rest).length := by
      rw [List.length_cons]
      omega
    have hmachine : (m.restacked h₁ m.registers.pc (m.registers.sp + 1)).restacked h₂
        m.registers.pc (m.registers.sp + 1 + rest.length) =
      m.restacked h₂ m.registers.pc (m.registers.sp + (value :: rest).length) := by
      rw [hcount]
      rfl
    refine ⟨h₂, ?_, hw₁.trans hw₂ hw₁.touches.layout, hmachine ▸ hm₂, ?_, ?_⟩
    · exact (Action.bind_of_ok hpush).trans (hpush₂.trans (congrArg (Outcome.ok ()) hmachine))
    · intro k hk
      have hlimit := hm.sp_le
      rw [show h₂.slot (m.registers.stackBase + k) = h₁.slot (m.registers.stackBase + k) from
        hbelow k (Nat.lt_succ_of_lt hk), hslots₁ k (by omega), if_neg (by omega)]
    · intro k v hv
      cases k with
      | zero =>
        cases hv
        rw [Nat.add_zero, show h₂.slot (m.registers.stackBase + m.registers.sp) =
          h₁.slot (m.registers.stackBase + m.registers.sp) from hbelow _ (Nat.lt_succ_self _),
          hslots₁ _ (by omega), if_pos rfl]
      | succ k =>
        rw [show m.registers.sp + (k + 1) = m.registers.sp + 1 + k by omega]
        exact habove k v hv

end Working

end Machine

end ObjectMachine
