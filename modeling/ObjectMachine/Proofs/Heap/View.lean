import ObjectMachine.Heap.Access
import ObjectMachine.Heap.Layout
import ObjectMachine.Proofs.Heap.Bits

/-!
# Objects as views of memory

Every fact about an object is a fact about the words from its first one on. A `View` is these words
as a function of the offset; format, size and reference slots are read from it by total functions.
An object that moves keeps its view, so that what is read from it stays the same, wherever it is.

## Main results

* `headerAt_eq`, `sizeAt_eq`, `referenceSlotsAt_eq`: on an object that lies inside memory the
  checked readers of the heap answer what the view says.
* `View.SameLayout`, `View.Agrees`: two views of objects that take the same words, and two that show
  the same object, whose reference slots are the same too.
-/

namespace ObjectMachine

/-- The words of memory from the beginning of an object on, by their offsets. -/
abbrev View := Nat → UInt64

namespace View

/-- The header of an object. -/
def header (o : View) : Header := ⟨o 0⟩

/-- The format that the header names. -/
def format (o : View) : Format := (Format.ofCode? o.header.formatCode).getD .plain

/-- The number of fixed fields. -/
def fields (o : View) : Nat := o.header.fixedFields

/-- The number of elements, zero in the formats without any. -/
def len (o : View) : Nat :=
  if o.format.isIndexable then (o (headerWords + o.fields)).toNat else 0

/-- The number of words. -/
def size (o : View) : Nat := o.format.sizeInWords o.fields o.len

/-- The stack pointer, if the object is a context. -/
def stackPointer (o : View) : Ref := ⟨o (headerWords + contextStackPointer)⟩

/-- The elements that count as references in the formats with references as elements. -/
def live (o : View) : Nat :=
  match o.format with
  | .context =>
    if o.stackPointer.isSmallInteger then min o.stackPointer.toInt.toNat o.len else 0
  | _ => o.len

/-- The offset of the first element. -/
def elements (o : View) : Nat := headerWords + o.fields + 1

/-- Whether the word at an offset is a reference slot: a fixed field or a live element. -/
def IsSlot (o : View) (k : Nat) : Prop :=
  (o.format.allowsFields = true ∧ headerWords ≤ k ∧ k < headerWords + o.fields) ∨
    (o.format.hasReferenceTail = true ∧ o.elements ≤ k ∧ k < o.elements + o.live)

instance (o : View) (k : Nat) : Decidable (o.IsSlot k) := by
  unfold IsSlot
  infer_instance

/-- The word of an object that is followed by a collection: its class and its reference slots. -/
def IsTraced (o : View) (k : Nat) : Prop := k = 1 ∨ o.IsSlot k

instance (o : View) (k : Nat) : Decidable (o.IsTraced k) := by
  unfold IsTraced
  infer_instance

/-- A header that names a format which exists, in an object whose stack pointer, if it has one, is
one of its fields. -/
structure Readable (o : View) : Prop where
  valid : o.header.isValid = true
  known : Format.ofCode? o.header.formatCode = some o.format
  context : o.format = .context → 3 ≤ o.fields

theorem two_le_size (o : View) : 2 ≤ o.size :=
  Format.two_le_sizeInWords ..

theorem live_le_len (o : View) : o.live ≤ o.len := by
  unfold live
  split
  · split
    · exact Nat.min_le_right ..
    · exact Nat.zero_le _
  · exact Nat.le_refl _

/-- The element count lies inside the object. -/
theorem count_lt_size {o : View} (hi : o.format.isIndexable = true) :
    headerWords + o.fields < o.size := by
  unfold size
  cases hf : o.format <;> simp_all [Format.isIndexable, Format.sizeInWords] <;> omega

theorem fields_lt_size {o : View} {k : Nat} (hf : o.format.allowsFields = true)
    (hk : k < headerWords + o.fields) : k < o.size := by
  unfold size
  cases hfmt : o.format <;> simp_all [Format.allowsFields, Format.sizeInWords] <;> omega

theorem elements_lt_size {o : View} {k : Nat} (hf : o.format.hasReferenceTail = true)
    (hk : k < o.elements + o.len) : k < o.size := by
  unfold elements at hk
  unfold size
  cases hfmt : o.format <;>
    simp_all [Format.hasReferenceTail, Format.sizeInWords, Format.tailWords] <;> omega

/-- Reference slots lie strictly inside their object, behind its class. -/
theorem IsSlot.bounds {o : View} {k : Nat} (h : o.IsSlot k) : headerWords ≤ k ∧ k < o.size := by
  rcases h with ⟨hf, hlo, hhi⟩ | ⟨hf, hlo, hhi⟩
  · exact ⟨hlo, fields_lt_size hf hhi⟩
  · have hlive := o.live_le_len
    refine ⟨?_, elements_lt_size hf (by omega)⟩
    unfold elements at hlo
    omega

theorem IsTraced.bounds {o : View} {k : Nat} (h : o.IsTraced k) : 0 < k ∧ k < o.size := by
  rcases h with rfl | hs
  · have := o.two_le_size
    omega
  · have := hs.bounds
    simp only [headerWords] at this
    omega

/-- The stack pointer of a context is one of its reference slots. -/
theorem isSlot_stackPointer {o : View} (hr : o.Readable) (hf : o.format = .context) :
    o.IsSlot (headerWords + contextStackPointer) := by
  have h3 := hr.context hf
  left
  refine ⟨by simp [hf, Format.allowsFields], by omega, ?_⟩
  simp only [contextStackPointer]
  omega

/-- The element count is no reference slot. -/
theorem not_isSlot_count (o : View) : ¬ o.IsSlot (headerWords + o.fields) := by
  unfold IsSlot elements
  omega

/-- Objects without references are traced in their class only. -/
theorem isTraced_iff_class {o : View} (hf : o.format.allowsFields = false) (k : Nat) :
    o.IsTraced k ↔ k = 1 := by
  have htail : o.format.hasReferenceTail = false := by
    cases hfmt : o.format <;> simp_all [Format.allowsFields, Format.hasReferenceTail]
  simp [IsTraced, IsSlot, hf, htail]

theorem not_isTraced_header (o : View) : ¬ o.IsTraced 0 := fun h => by
  have := h.bounds
  omega

theorem not_isTraced_count (o : View) : ¬ o.IsTraced (headerWords + o.fields) := by
  rintro (hone | hslot)
  · simp only [headerWords] at hone
    omega
  · exact o.not_isSlot_count hslot

/-! ## Views of the same object -/

/-- Two views of objects that take the same words: of the same shape, with the same number of
elements. -/
structure SameLayout (o o' : View) : Prop where
  header : Header.SameShape o'.header o.header
  count : o.format.isIndexable = true → o' (headerWords + o.fields) = o (headerWords + o.fields)

/-- Two views that show one object: the stack pointer is the same too, as far as it is a small
integer. -/
structure Agrees (o o' : View) : Prop extends SameLayout o o' where
  stackPointer : o.format = .context →
    o'.stackPointer = o.stackPointer ∨
      (o'.stackPointer.isSmallInteger = false ∧ o.stackPointer.isSmallInteger = false)

section SameLayout

variable {o o' : View}

theorem SameLayout.refl (o : View) : SameLayout o o :=
  ⟨.refl _, fun _ => rfl⟩

theorem SameLayout.format_eq (h : SameLayout o o') : o'.format = o.format := by
  simp only [View.format, h.header.formatCode]

theorem SameLayout.fields_eq (h : SameLayout o o') : o'.fields = o.fields :=
  h.header.fixedFields

theorem SameLayout.len_eq (h : SameLayout o o') : o'.len = o.len := by
  simp only [View.len, h.format_eq, h.fields_eq]
  split
  · rw [h.count ‹_›]
  · rfl

theorem SameLayout.size_eq (h : SameLayout o o') : o'.size = o.size := by
  simp only [View.size, h.format_eq, h.fields_eq, h.len_eq]

theorem SameLayout.elements_eq (h : SameLayout o o') : o'.elements = o.elements := by
  simp only [View.elements, h.fields_eq]

theorem SameLayout.trans {o'' : View} (h : SameLayout o o') (h' : SameLayout o' o'') :
    SameLayout o o'' where
  header := h'.header.trans h.header
  count hidx := by
    rw [← h.count hidx, ← h.fields_eq]
    exact h'.count (by rw [h.format_eq]; exact hidx)

theorem SameLayout.readable (h : SameLayout o o') (hr : o.Readable) : o'.Readable where
  valid := by rw [h.header.valid, hr.valid]
  known := by rw [h.header.formatCode, h.format_eq, hr.known]
  context := by
    rw [h.format_eq, h.fields_eq]
    exact hr.context

theorem Agrees.live_eq (h : Agrees o o') : o'.live = o.live := by
  unfold View.live
  rw [h.format_eq, h.len_eq]
  split
  · rcases h.stackPointer ‹_› with heq | ⟨hs', hs⟩
    · rw [heq]
    · simp [hs', hs]
  · rfl

theorem Agrees.isSlot_iff (h : Agrees o o') (k : Nat) : o'.IsSlot k ↔ o.IsSlot k := by
  simp only [IsSlot, h.elements_eq, h.format_eq, h.fields_eq, h.live_eq]

theorem Agrees.isTraced_iff (h : Agrees o o') (k : Nat) : o'.IsTraced k ↔ o.IsTraced k := by
  simp only [IsTraced, h.isSlot_iff]

end SameLayout

/-- Views with the same words agree, if the headers differ in their marks at most. -/
theorem agrees_of_words {o o' : View} (hr : o.Readable)
    (hheader : Header.SameShape o'.header o.header)
    (hwords : ∀ k, 0 < k → k < o.size → o' k = o k) : Agrees o o' where
  header := hheader
  count hi := hwords _ (by simp only [headerWords]; omega) (count_lt_size hi)
  stackPointer hf := by
    have hb := (isSlot_stackPointer hr hf).bounds
    left
    simp only [View.stackPointer]
    rw [hwords _ (by simp only [headerWords]; omega) hb.2]

end View

/-! ## Memory as a function -/

namespace Heap

/-- The word at a position, and zero outside memory. -/
def cell (h : Heap) (i : Nat) : UInt64 := h.memory.getD i 0

/-- The words from a position on. -/
def view (h : Heap) (i : Nat) : View := fun k => h.cell (i + k)

/-- The heap with another word at a position. -/
def poke (h : Heap) (i : Nat) (value : UInt64) : Heap :=
  { h with memory := h.memory.setIfInBounds i value }

theorem word_eq {h : Heap} {i : Nat} (hi : i < h.memory.size) : h.word i = .ok (h.cell i) := by
  simp [word, cell, hi]

theorem slot_eq {h : Heap} {i : Nat} (hi : i < h.memory.size) : h.slot i = .ok ⟨h.cell i⟩ := by
  simp [slot, word_eq hi]

theorem setWord_eq {h : Heap} {i : Nat} (hi : i < h.memory.size) (value : UInt64) :
    h.setWord i value = .ok (h.poke i value) := by
  simp [setWord, poke, Array.setIfInBounds, hi]

theorem setSlot_eq {h : Heap} {i : Nat} (hi : i < h.memory.size) (value : Ref) :
    h.setSlot i value = .ok (h.poke i value.bits) :=
  setWord_eq hi value.bits

@[simp] theorem size_poke (h : Heap) (i : Nat) (value : UInt64) :
    (h.poke i value).memory.size = h.memory.size := by
  simp [poke]

@[simp] theorem top_poke (h : Heap) (i : Nat) (value : UInt64) : (h.poke i value).top = h.top := rfl

@[simp] theorem config_poke (h : Heap) (i : Nat) (value : UInt64) :
    (h.poke i value).config = h.config := rfl

@[simp] theorem largeIntegers_poke (h : Heap) (i : Nat) (value : UInt64) :
    (h.poke i value).largeIntegers = h.largeIntegers := rfl

@[simp] theorem cell_poke_self {h : Heap} {i : Nat} (hi : i < h.memory.size) (value : UInt64) :
    (h.poke i value).cell i = value := by
  simp [poke, cell, hi]

theorem cell_poke_ne {h : Heap} {i j : Nat} (hne : j ≠ i) (value : UInt64) :
    (h.poke i value).cell j = h.cell j := by
  simp [poke, cell, Ne.symm hne]

theorem poke_cell (h : Heap) (i : Nat) : h.poke i (h.cell i) = h := by
  have hmemory : h.memory.setIfInBounds i (h.memory.getD i 0) = h.memory := by
    apply Array.ext
    · simp
    · intro p hp hp'
      by_cases hip : i = p
      · subst hip
        simp [hp']
      · rw [Array.getElem_setIfInBounds_ne hp' hip]
  unfold poke cell
  rw [hmemory]

@[simp] theorem size_fillWords (memory : Array UInt64) (start : Nat) (value : UInt64) (n : Nat) :
    (fillWords memory start value n).size = memory.size := by
  induction n generalizing memory start with
  | zero => rfl
  | succ n ih => simp [fillWords, ih]

/-- Filling words changes those and no others. -/
theorem getD_fillWords {memory : Array UInt64} {start n : Nat} (value : UInt64)
    (hfit : start + n ≤ memory.size) (p : Nat) :
    (fillWords memory start value n).getD p 0 =
      if start ≤ p ∧ p < start + n then value else memory.getD p 0 := by
  induction n generalizing memory start with
  | zero =>
    rw [if_neg (by omega)]
    rfl
  | succ n ih =>
    rw [fillWords, ih (by simpa using by omega)]
    by_cases hp : p = start
    · subst hp
      rw [if_neg (by omega), if_pos (by omega)]
      simp [show p < memory.size by omega]
    · have hset : (memory.setIfInBounds start value).getD p 0 = memory.getD p 0 := by
        simp [Ne.symm hp]
      rw [hset]
      by_cases hin : start ≤ p ∧ p < start + (n + 1)
      · rw [if_pos hin, if_pos (by omega)]
      · rw [if_neg hin, if_neg (by omega)]

/-! ## The readers of a heap on a view -/

theorem headerAt_eq {h : Heap} {i : Nat} (hlo : firstWord ≤ i) (hhi : i < h.top)
    (htop : h.top ≤ h.memory.size) (hv : (h.view i).header.isValid = true) :
    h.headerAt i = .ok (h.view i).header := by
  have hout : (decide (i < firstWord) || decide (h.top ≤ i)) = false := by
    simp only [Bool.or_eq_false_iff, decide_eq_false_iff_not]
    omega
  have hi : i < h.memory.size := by omega
  unfold headerAt
  rw [hout, word_eq hi]
  have hv' : (⟨h.cell i⟩ : Header).isValid = true := hv
  simp [hv', View.header, view]

variable {h : Heap} {i : Nat} {header : Header}

theorem format_of_known {o : View} (hr : o.Readable) (hs : Header.SameShape header o.header) :
    header.format = .ok o.format := by
  simp [Header.format, hs.formatCode, hr.known]

theorem lengthAt_eq (hs : Header.SameShape header (h.view i).header)
    (hfit : i + (h.view i).size ≤ h.memory.size) :
    h.lengthAt i header (h.view i).format = .ok (h.view i).len := by
  unfold lengthAt View.len
  split
  · have hlt := View.count_lt_size ‹_›
    have hfields : header.fixedFields = (h.view i).fields := hs.fixedFields
    rw [hfields, word_eq (by omega)]
    simp [view, Nat.add_assoc]
  · rfl

/-- A size that lies inside addressable memory can be counted in a word. -/
theorem checkedSize_eq {f : Format} {fields len : Nat}
    (hfit : f.sizeInWords fields len ≤ Ref.addressLimit) :
    f.checkedSize fields len = .ok (f.sizeInWords fields len) := by
  simp only [Ref.addressLimit] at hfit
  have htail : f.tailFits len = true := by
    cases f with
    | byteArray =>
      simp only [Format.sizeInWords, Format.tailWords, headerWords] at hfit
      show decide (len + 1 < 18446744073709551616) = true
      rw [decide_eq_true_eq]
      omega
    | _ => rfl
  have hcount : f.sizeInWords fields len < countLimit := by
    simp only [countLimit]
    omega
  simp [Format.checkedSize, checkedCount, htail, hcount]

theorem sizeAt_eq (hr : (h.view i).Readable) (hs : Header.SameShape header (h.view i).header)
    (hfit : i + (h.view i).size ≤ h.memory.size) (haddr : h.memory.size ≤ Ref.addressLimit) :
    h.sizeAt i header = .ok (h.view i).size := by
  have hfields : header.fixedFields = (h.view i).fields := hs.fixedFields
  have hsize : (h.view i).format.sizeInWords (h.view i).fields (h.view i).len ≤ Ref.addressLimit :=
    Nat.le_trans (show (h.view i).size ≤ h.memory.size by omega) haddr
  unfold sizeAt
  rw [format_of_known hr hs]
  simp only [lengthAt_eq hs hfit, hfields]
  rw [checkedSize_eq hsize]
  rfl

/-- The positions of the reference slots of the object that begins at a position. -/
def slotsAt (h : Heap) (i : Nat) : ReferenceSlots :=
  let o := h.view i
  let fields := i + headerWords
  if o.format.hasReferenceTail then
    ⟨fields, fields + o.fields, fields + o.fields + 1, fields + o.fields + 1 + o.live⟩
  else if o.format = .plain then ⟨fields, fields + o.fields, 0, 0⟩
  else ⟨fields, fields, 0, 0⟩

theorem liveCount_eq (hr : (h.view i).Readable)
    (hfit : i + (h.view i).size ≤ h.memory.size) :
    h.liveCount (i + headerWords) (h.view i).format (h.view i).len = .ok (h.view i).live := by
  unfold liveCount View.live
  cases hf : (h.view i).format with
  | context =>
    have hb := (View.isSlot_stackPointer hr hf).bounds
    dsimp only
    rw [Nat.add_assoc, slot_eq (by omega)]
    rfl
  | _ => rfl

theorem referenceSlotsAt_eq (hr : (h.view i).Readable)
    (hs : Header.SameShape header (h.view i).header)
    (hfit : i + (h.view i).size ≤ h.memory.size) (haddr : h.memory.size ≤ Ref.addressLimit) :
    h.referenceSlotsAt i header = .ok (h.slotsAt i) := by
  have hfields : header.fixedFields = (h.view i).fields := hs.fixedFields
  unfold referenceSlotsAt slotsAt
  simp only [format_of_known hr hs, hfields]
  split
  · rename_i ht
    have hi : (h.view i).format.isIndexable = true := by
      cases hf : (h.view i).format <;> simp_all [Format.hasReferenceTail, Format.isIndexable]
    have hcount := View.count_lt_size hi
    have hlen : (h.cell (i + headerWords + (h.view i).fields)).toNat = (h.view i).len := by
      simp only [View.len, hi, if_true, view, Nat.add_assoc]
    have hlive := (h.view i).live_le_len
    have hlast : i + headerWords + (h.view i).fields + 1 + (h.view i).len ≤ h.memory.size := by
      have := View.elements_lt_size (o := h.view i) (k := (h.view i).elements + (h.view i).len - 1) ht
        (by simp only [View.elements]; omega)
      simp only [View.elements] at this
      omega
    have hlimit : i + headerWords + (h.view i).fields + 1 + (h.view i).live < countLimit := by
      simp only [Ref.addressLimit] at haddr
      simp only [countLimit]
      omega
    rw [word_eq (by omega)]
    simp only [hlen, liveCount_eq hr hfit, checkedCount, hlimit, if_true]
  · split <;> rfl

theorem mem_slotsAt_positions {p : Nat} :
    p ∈ (h.slotsAt i).positions ↔ ∃ k, p = i + k ∧ (h.view i).IsSlot k := by
  have hplain : (h.view i).format = .plain ∨ (h.view i).format.hasReferenceTail = true ↔
      (h.view i).format.allowsFields = true := by
    cases (h.view i).format <;> simp [Format.hasReferenceTail, Format.allowsFields]
  unfold slotsAt View.IsSlot View.elements ReferenceSlots.positions
  simp only [← hplain]
  constructor
  · intro hp
    refine ⟨p - i, ?_⟩
    split at hp
    · simp_all only [List.mem_append, List.mem_range'_1]
      grind
    · split at hp <;> simp_all [List.mem_range'_1]
      grind
  · rintro ⟨k, rfl, hk⟩
    split
    · simp_all only [List.mem_append, List.mem_range'_1]
      grind
    · split <;> simp_all [List.mem_range'_1]
      omega

/-- Both ranges of reference slots lie inside the object. -/
theorem slotsAt_bounds (h : Heap) (i : Nat) :
    (h.slotsAt i).fixedStart + ((h.slotsAt i).fixedEnd - (h.slotsAt i).fixedStart) ≤
        i + (h.view i).size ∧
      (h.slotsAt i).tailStart + ((h.slotsAt i).tailEnd - (h.slotsAt i).tailStart) ≤
        i + (h.view i).size := by
  have hlive := (h.view i).live_le_len
  cases hf : (h.view i).format <;>
    simp [slotsAt, View.size, hf, Format.hasReferenceTail, Format.sizeInWords, Format.tailWords,
      headerWords] <;> omega

theorem slotsAt_apart (h : Heap) (i : Nat) :
    i + headerWords ≤ (h.slotsAt i).fixedStart ∧
      ((h.slotsAt i).tailStart < (h.slotsAt i).tailEnd →
        (h.slotsAt i).fixedStart + ((h.slotsAt i).fixedEnd - (h.slotsAt i).fixedStart) <
          (h.slotsAt i).tailStart) := by
  unfold slotsAt
  dsimp only
  split
  · dsimp only
    omega
  · split <;> simp

theorem slotsAt_congr {h' : Heap} {i : Nat} (ha : View.Agrees (h.view i) (h'.view i)) :
    h'.slotsAt i = h.slotsAt i := by
  simp only [slotsAt, ha.format_eq, ha.fields_eq, ha.live_eq]

end Heap

end ObjectMachine
