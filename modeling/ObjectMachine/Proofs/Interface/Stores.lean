import ObjectMachine.Proofs.Heap.Allocation
import ObjectMachine.Proofs.Heap.Verification

/-!
# What stores change

Every store changes words of one object only, and leaves alone those that tell how many words the
object has. This is all that is needed to see that the objects stay where they are; what a store
does to the words themselves is said by the operations one by one.

## Main results

* `Touches`: memory in which one object may have other words, but takes the same ones.
* `Touches.laidOut`: the objects are still where they were.
* `storeField_eq`, `storeElement_eq` and so on: each store succeeds on an object that has what is
  stored to, and what it makes of memory.
-/

namespace ObjectMachine.Heap

/-! ## Changes inside a range -/

/-- Memory that differs from other memory between two positions only. -/
structure Within (first last : Nat) (h h' : Heap) : Prop where
  rest : { h' with memory := h.memory } = h
  size : h'.memory.size = h.memory.size
  outside : ∀ p, p < first ∨ last ≤ p → h'.cell p = h.cell p

namespace Within

variable {first last : Nat} {h h' h'' : Heap}

theorem refl (first last : Nat) (h : Heap) : Within first last h h :=
  ⟨rfl, rfl, fun _ _ => rfl⟩

theorem trans (hw : Within first last h h') (hw' : Within first last h' h'') :
    Within first last h h'' where
  rest := by
    have hrest := hw.rest
    rw [← hw'.rest] at hrest
    exact hrest
  size := hw'.size.trans hw.size
  outside := by
    intro p hp
    rw [hw'.outside p hp, hw.outside p hp]

theorem poke {p : Nat} (hlo : first ≤ p) (hhi : p < last) (value : UInt64) :
    Within first last h (h.poke p value) where
  rest := rfl
  size := size_poke ..
  outside := by
    intro q hq
    exact cell_poke_ne (by omega) value

end Within

/-! ## Changes inside an object -/

/-- Memory in which the object that begins at a position may have other words, but as many, and the
table of large integers may have changed. -/
structure Touches (i : Nat) (h h' : Heap) : Prop where
  rest : { h' with memory := h.memory, largeIntegers := h.largeIntegers } = h
  size : h'.memory.size = h.memory.size
  outside : ∀ p, p < i ∨ i + (h.view i).size ≤ p → h'.cell p = h.cell p
  layout : View.SameLayout (h.view i) (h'.view i)

theorem Within.touches {first last i : Nat} {h h' : Heap} (hw : Within first last h h')
    (hfirst : i ≤ first) (hlast : last ≤ i + (h.view i).size)
    (hlayout : View.SameLayout (h.view i) (h'.view i)) : Touches i h h' where
  rest := by
    have hrest := hw.rest
    have hlarge : h'.largeIntegers = h.largeIntegers := (congrArg Heap.largeIntegers hrest :)
    rw [hlarge] at hrest
    exact hrest
  size := hw.size
  outside := by
    intro p hp
    exact hw.outside p (by omega)
  layout := hlayout

namespace Touches

variable {h h' : Heap} {starts : List Nat} {i j : Nat}

theorem top (ht : Touches i h h') : h'.top = h.top :=
  (congrArg Heap.top ht.rest :)

theorem nil (ht : Touches i h h') : h'.nil = h.nil :=
  (congrArg Heap.nil ht.rest :)

theorem reservedWords (ht : Touches i h h') : h'.reservedWords = h.reservedWords :=
  (congrArg Heap.reservedWords ht.rest :)

theorem trans {h'' : Heap} (ht : Touches i h h') (ht' : Touches i h' h'') : Touches i h h'' where
  rest := by
    have hrest := ht.rest
    rw [← ht'.rest] at hrest
    exact hrest
  size := ht'.size.trans ht.size
  outside := by
    intro p hp
    have hsize := ht.layout.size_eq
    exact (ht'.outside p (by omega)).trans (ht.outside p hp)
  layout := ht.layout.trans ht'.layout

/-- No other object changes. -/
theorem view_eq (ht : Touches i h h') (hl : h.LaidOut starts) (hi : i ∈ starts) (hj : j ∈ starts)
    (hne : j ≠ i) {k : Nat} (hk : k < (h.view j).size) : h'.view j k = h.view j k := by
  apply ht.outside
  by_contra hinside
  have hk' : k < h.sizeOf j := hk
  have heq : j + k = i + (j + k - i) := by omega
  exact hne (hl.tiles.offset_inj hj hi hk' (show j + k - i < (h.view i).size by omega) heq).1

theorem header_eq (ht : Touches i h h') (hl : h.LaidOut starts) (hi : i ∈ starts)
    (hj : j ∈ starts) (hne : j ≠ i) : (h'.view j).header = (h.view j).header :=
  congrArg Header.mk (ht.view_eq hl hi hj hne (h.sizeOf_pos j))

theorem agrees (ht : Touches i h h') (hl : h.LaidOut starts) (hi : i ∈ starts) (hj : j ∈ starts)
    (hne : j ≠ i) : View.Agrees (h.view j) (h'.view j) := by
  refine View.agrees_of_words (hl.readable j hj) ?_ ?_
  · rw [ht.header_eq hl hi hj hne]
    exact .refl _
  · intro k _ hk
    exact ht.view_eq hl hi hj hne hk

theorem sameLayout (ht : Touches i h h') (hl : h.LaidOut starts) (hi : i ∈ starts)
    (hj : j ∈ starts) : View.SameLayout (h.view j) (h'.view j) := by
  by_cases hne : j = i
  · rw [hne]
    exact ht.layout
  · exact (ht.agrees hl hi hj hne).toSameLayout

/-- The objects are still where they were. -/
theorem laidOut (ht : Touches i h h') (hl : h.LaidOut starts) (hi : i ∈ starts) :
    h'.LaidOut starts where
  committed := by
    rw [ht.top, ht.size]
    exact hl.committed
  addressable := by
    rw [ht.size]
    exact hl.addressable
  tiles := by
    rw [ht.top]
    exact hl.tiles.congr fun j hj => (ht.sameLayout hl hi hj).size_eq
  readable := by
    intro j hj
    exact (ht.sameLayout hl hi hj).readable (hl.readable j hj)

theorem largeSlot?_of_ne (ht : Touches i h h') (hl : h.LaidOut starts) (hi : i ∈ starts)
    (hj : j ∈ starts) (hne : j ≠ i) : h'.largeSlot? j = h.largeSlot? j := by
  unfold Heap.largeSlot?
  rw [(ht.sameLayout hl hi hj).format_eq]
  by_cases hf : (h.view j).format = .largeInteger
  · have hsize : (h.view j).size = headerWords + 1 := by simp [View.size, hf, Format.sizeInWords]
    have hcell : h'.cell (j + headerWords) = h.cell (j + headerWords) :=
      ht.view_eq hl hi hj hne (by omega)
    rw [hcell]
  · simp [hf]

/-- The slots of the table still belong to the objects they belonged to. -/
theorem slotsOwned (ht : Touches i h h') (hl : h.LaidOut starts) (hi : i ∈ starts)
    (ho : h.SlotsOwned starts) (hlarge : h'.largeIntegers = h.largeIntegers)
    (hslot : h'.largeSlot? i = h.largeSlot? i) : h'.SlotsOwned starts := by
  have hall : ∀ j ∈ starts, h'.largeSlot? j = h.largeSlot? j := by
    intro j hj
    by_cases hne : j = i
    · rw [hne]
      exact hslot
    · exact ht.largeSlot?_of_ne hl hi hj hne
  refine ⟨?_, ?_⟩
  · intro j hj s hs
    rw [hlarge]
    exact ho.held j hj s (hall j hj ▸ hs)
  · intro j hj j' hj' s hs hs'
    exact ho.own j hj j' hj' s (hall j hj ▸ hs) (hall j' hj' ▸ hs')

end Touches

/-! ## One word of an object -/

section Poke

variable {h : Heap} {i k : Nat}

theorem view_poke (hk : i + k < h.memory.size) (value : UInt64) (l : Nat) :
    (h.poke (i + k) value).view i l = if l = k then value else h.view i l := by
  unfold view
  by_cases hl : l = k
  · rw [if_pos hl, hl, cell_poke_self hk]
  · rw [if_neg hl, cell_poke_ne (by omega)]

/-- A word that is neither the header nor the element count does not matter for the layout. -/
theorem sameLayout_poke (hk : i + k < h.memory.size) (hheader : k ≠ 0)
    (hcount : k ≠ headerWords + (h.view i).fields) (value : UInt64) :
    View.SameLayout (h.view i) ((h.poke (i + k) value).view i) where
  header := by
    unfold View.header
    rw [view_poke hk, if_neg (Ne.symm hheader)]
    exact .refl _
  count _ := by rw [view_poke hk, if_neg (Ne.symm hcount)]

theorem touches_poke (hin : k < (h.view i).size) (hfit : i + (h.view i).size ≤ h.memory.size)
    (hheader : k ≠ 0) (hcount : k ≠ headerWords + (h.view i).fields) (value : UInt64) :
    Touches i h (h.poke (i + k) value) := by
  have hwithin : Within (i + k) (i + k + 1) h (h.poke (i + k) value) :=
    .poke (Nat.le_refl _) (by omega) _
  exact hwithin.touches (by omega) (by omega) (sameLayout_poke (by omega) hheader hcount value)

theorem agrees_poke (hk : i + k < h.memory.size) (hheader : k ≠ 0)
    (hcount : k ≠ headerWords + (h.view i).fields)
    (hsp : (h.view i).format = .context → k ≠ headerWords + contextStackPointer) (value : UInt64) :
    View.Agrees (h.view i) ((h.poke (i + k) value).view i) where
  toSameLayout := sameLayout_poke hk hheader hcount value
  stackPointer hctx := by
    left
    unfold View.stackPointer
    rw [view_poke hk, if_neg (Ne.symm (hsp hctx))]

end Poke

/-! ## The stores -/

section Operations

variable {h : Heap} {starts : List Nat} {i : Nat}

theorem setClassOf_eq (hl : h.LaidOut starts) (hi : i ∈ starts) (cls : Ref) :
    h.setClassOf (.ofWordIndex i) cls = .ok (h.poke (i + 1) cls.bits) := by
  have htwo := (h.view i).two_le_size
  have hfit := hl.fits_memory hi
  unfold setClassOf
  rw [hl.wordIndex hi]
  exact setSlot_eq (by omega) cls

theorem setCaptured_eq (hl : h.LaidOut starts) (hi : i ∈ starts) (captured : Bool) :
    h.setCaptured (.ofWordIndex i) captured = .ok (h.poke (i + 0)
      (if captured then (h.view i).header.captured else (h.view i).header.uncaptured).bits) := by
  have htwo := (h.view i).two_le_size
  have hfit := hl.fits_memory hi
  unfold setCaptured
  rw [hl.header hi, hl.wordIndex hi]
  exact setWord_eq (by omega) _

theorem fieldIndex_eq (hl : h.LaidOut starts) (hi : i ∈ starts) {index : Nat}
    (hindex : index < (h.view i).fields) :
    h.fieldIndex (.ofWordIndex i) index = .ok (i + (headerWords + index)) := by
  have hindex' : index < (h.view i).header.fixedFields := hindex
  unfold fieldIndex
  rw [hl.header hi, hl.wordIndex hi]
  dsimp only
  rw [if_pos hindex', Nat.add_assoc]

theorem fetchField_eq (hl : h.LaidOut starts) (hi : i ∈ starts) {index : Nat}
    (hindex : index < (h.view i).fields) (hin : headerWords + index < (h.view i).size) :
    h.fetchField (.ofWordIndex i) index = .ok ((h.view i).ref (headerWords + index)) := by
  unfold fetchField
  rw [fieldIndex_eq hl hi hindex]
  exact hl.slot_offset hi hin

theorem storeField_eq (hl : h.LaidOut starts) (hi : i ∈ starts) {index : Nat}
    (hindex : index < (h.view i).fields) (hin : headerWords + index < (h.view i).size)
    (value : Ref) :
    h.storeField (.ofWordIndex i) index value =
      .ok (h.poke (i + (headerWords + index)) value.bits) := by
  have hfit := hl.fits_memory hi
  unfold storeField
  rw [fieldIndex_eq hl hi hindex]
  exact setSlot_eq (by omega) value

theorem elementsIndex_eq (hl : h.LaidOut starts) (hi : i ∈ starts) :
    h.elementsIndex (.ofWordIndex i) = .ok (i + (h.view i).elements) := by
  unfold elementsIndex
  rw [hl.header hi, hl.wordIndex hi]
  simp only [View.elements, View.fields, Nat.add_assoc]

theorem checkElement_eq (hl : h.LaidOut starts) (hi : i ∈ starts) {index : Nat}
    (hindex : index < (h.view i).len) : h.checkElement (.ofWordIndex i) index = .ok () := by
  unfold checkElement
  rw [hl.length hi]
  dsimp only
  rw [if_pos hindex]

theorem elementIndex_eq (hl : h.LaidOut starts) (hi : i ∈ starts) {index : Nat}
    (hindex : index < (h.view i).len) :
    h.elementIndex (.ofWordIndex i) index = .ok (i + ((h.view i).elements + index)) := by
  unfold elementIndex
  rw [checkElement_eq hl hi hindex, elementsIndex_eq hl hi, ← Nat.add_assoc]
  rfl

theorem storeElement_eq (hl : h.LaidOut starts) (hi : i ∈ starts) {index : Nat}
    (hindex : index < (h.view i).len) (hin : (h.view i).elements + index < (h.view i).size)
    (value : Ref) :
    h.storeElement (.ofWordIndex i) index value =
      .ok (h.poke (i + ((h.view i).elements + index)) value.bits) := by
  have hfit := hl.fits_memory hi
  unfold storeElement
  rw [elementIndex_eq hl hi hindex]
  exact setSlot_eq (by omega) value

theorem storeFloatElement_eq (hl : h.LaidOut starts) (hi : i ∈ starts) {index : Nat}
    (hindex : index < (h.view i).len) (hin : (h.view i).elements + index < (h.view i).size)
    (value : Binary64) :
    h.storeFloatElement (.ofWordIndex i) index value =
      .ok (h.poke (i + ((h.view i).elements + index)) value.bits) := by
  have hfit := hl.fits_memory hi
  unfold storeFloatElement
  rw [elementIndex_eq hl hi hindex]
  exact setWord_eq (by omega) value.bits

theorem setWord_within {first last p : Nat} (hlo : first ≤ p) (hhi : p < last)
    (hlast : last ≤ h.memory.size) (value : UInt64) :
    ∃ h', h.setWord p value = .ok h' ∧ Within first last h h' :=
  ⟨_, setWord_eq (by omega) value, .poke hlo hhi value⟩

theorem storeWordElement_within (hl : h.LaidOut starts) (hi : i ∈ starts) {index : Nat}
    (hindex : index < (h.view i).len) (hin : (h.view i).elements + index / 2 < (h.view i).size)
    (value : UInt32) :
    ∃ h', h.storeWordElement (.ofWordIndex i) index value = .ok h' ∧
      Within (i + (h.view i).elements) (i + (h.view i).size) h h' := by
  have hfit := hl.fits_memory hi
  unfold storeWordElement
  rw [checkElement_eq hl hi hindex, elementsIndex_eq hl hi]
  show ∃ h', (h.word (i + (h.view i).elements + index / 2) >>= _) = .ok h' ∧ _
  rw [word_eq (by omega)]
  exact setWord_within (by omega) (by omega) hfit _

theorem setByteAtOffset_within {first last offset : Nat} (hlo : first * 8 ≤ offset)
    (hhi : offset < last * 8) (hlast : last ≤ h.memory.size) (value : UInt8) :
    ∃ h', h.setByteAtOffset offset value = .ok h' ∧ Within first last h h' := by
  unfold setByteAtOffset
  rw [word_eq (by omega)]
  exact setWord_within (by omega) (by omega) hlast _

theorem setBytesFrom_within {first last offset : Nat} {values : List UInt8}
    (hlo : first * 8 ≤ offset) (hhi : offset + values.length ≤ last * 8)
    (hlast : last ≤ h.memory.size) :
    ∃ h', h.setBytesFrom offset values = .ok h' ∧ Within first last h h' := by
  induction values generalizing h offset with
  | nil => exact ⟨h, rfl, .refl first last h⟩
  | cons value values ih =>
    simp only [List.length_cons] at hhi
    obtain ⟨h₁, hbyte, hw₁⟩ :=
      setByteAtOffset_within (h := h) hlo (by omega) hlast value
    obtain ⟨h₂, hrest, hw₂⟩ : ∃ h₂, h₁.setBytesFrom (offset + 1) values = .ok h₂ ∧
        Within first last h₁ h₂ := ih (by omega) (by omega) (by rw [hw₁.size]; exact hlast)
    refine ⟨h₂, ?_, hw₁.trans hw₂⟩
    rw [setBytesFrom, hbyte]
    exact hrest

theorem bytesOffset_eq (hl : h.LaidOut starts) (hi : i ∈ starts) :
    h.bytesOffset (.ofWordIndex i) = .ok ((i + (h.view i).elements) * 8) := by
  unfold bytesOffset
  rw [elementsIndex_eq hl hi]
  rfl

theorem storeByte_within (hl : h.LaidOut starts) (hi : i ∈ starts) {index : Nat}
    (hindex : index < (h.view i).len)
    (hin : (h.view i).elements * 8 + index < (h.view i).size * 8) (value : UInt8) :
    ∃ h', h.storeByte (.ofWordIndex i) index value = .ok h' ∧
      Within (i + (h.view i).elements) (i + (h.view i).size) h h' := by
  unfold storeByte
  rw [checkElement_eq hl hi hindex, bytesOffset_eq hl hi]
  exact setByteAtOffset_within (by omega) (by omega) (hl.fits_memory hi) value

theorem storeBytes_within (hl : h.LaidOut starts) (hi : i ∈ starts) {values : List UInt8}
    (hlen : values.length ≤ (h.view i).len)
    (hin : (h.view i).elements * 8 + values.length ≤ (h.view i).size * 8) :
    ∃ h', h.storeBytes (.ofWordIndex i) values = .ok h' ∧
      Within (i + (h.view i).elements) (i + (h.view i).size) h h' := by
  unfold storeBytes
  rw [hl.length hi]
  show ∃ h', (require (decide (values.length ≤ (h.view i).len)) .position >>= _) = .ok h' ∧ _
  rw [require, if_pos (decide_eq_true hlen)]
  show ∃ h', (h.bytesOffset (.ofWordIndex i) >>= _) = .ok h' ∧ _
  rw [bytesOffset_eq hl hi]
  exact setBytesFrom_within (by omega) (by omega) (hl.fits_memory hi)

theorem setFloatValue_eq (hl : h.LaidOut starts) (hi : i ∈ starts)
    (hf : (h.view i).format = .float) (value : Binary64) :
    h.setFloatValue (.ofWordIndex i) value = .ok (h.poke (i + headerWords) value.bits) := by
  have hsize : (h.view i).size = headerWords + 1 := by simp [View.size, hf, Format.sizeInWords]
  have hfit := hl.fits_memory hi
  have hcheck := hl.checkFormat hi
  rw [hf] at hcheck
  unfold setFloatValue
  rw [hcheck, hl.wordIndex hi]
  exact setWord_eq (by omega) value.bits

end Operations

end ObjectMachine.Heap
