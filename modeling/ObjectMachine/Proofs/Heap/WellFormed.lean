import ObjectMachine.Proofs.Heap.Tiling
import ObjectMachine.Proofs.Heap.View

/-!
# Well-formed memory

Memory is laid out if objects with valid headers tile the words in use. It is well formed if these
objects are unmarked, if every pointer in a class word or a reference slot is the reference of one of
them, and if the large integers hold slots of their own. This is what a collection needs, and what it
leaves behind.

An object is reachable if it can be got at from the roots and from nil through classes and reference
slots.

## Main results

* `LaidOut.headerAt`, `LaidOut.sizeAt`, `LaidOut.referenceSlotsAt`: nothing goes wrong when an
  object is read.
* `LaidOut.objects_eq`: walking memory enumerates exactly the objects of the tiling.
* `WellFormed.designates_of_reachable`: what can be reached is an object.
-/

namespace ObjectMachine

/-- The word of an object at an offset, as a reference. -/
def View.ref (o : View) (k : Nat) : Ref := ⟨o k⟩

/-- A reference to one of the objects that begin at some positions. -/
def Designates (starts : List Nat) (r : Ref) : Prop := ∃ i ∈ starts, r = .ofWordIndex i

theorem Designates.mono {starts starts' : List Nat} {r : Ref} (h : Designates starts r)
    (hsub : ∀ i ∈ starts, i ∈ starts') : Designates starts' r := by
  obtain ⟨i, hi, rfl⟩ := h
  exact ⟨i, hsub i hi, rfl⟩

namespace Heap

/-- The words of the object that begins at a position. -/
def sizeOf (h : Heap) (i : Nat) : Nat := (h.view i).size

theorem sizeOf_pos (h : Heap) (i : Nat) : 0 < h.sizeOf i :=
  Nat.lt_of_lt_of_le Nat.zero_lt_two (View.two_le_size _)

/-- The slot in the table of large integers that an object holds, if it is one with a value. -/
def largeSlot? (h : Heap) (i : Nat) : Option Nat :=
  if (h.view i).format = .largeInteger ∧ h.cell (i + headerWords) ≠ noSlot then
    some (h.cell (i + headerWords)).toNat
  else none

/-- Memory whose words in use are tiled by the objects that begin at `starts`. -/
structure LaidOut (h : Heap) (starts : List Nat) : Prop where
  committed : h.top ≤ h.memory.size
  addressable : h.memory.size ≤ Ref.addressLimit
  tiles : Tiles h.sizeOf firstWord starts h.top
  readable : ∀ i ∈ starts, (h.view i).Readable

/-- Large integers that hold slots of their own. -/
structure SlotsOwned (h : Heap) (starts : List Nat) : Prop where
  /-- The slot of a large integer holds a value. -/
  held : ∀ i ∈ starts, ∀ s, h.largeSlot? i = some s → (h.largeIntegers.get? s).isSome = true
  /-- No two large integers share a slot. -/
  own : ∀ i ∈ starts, ∀ j ∈ starts, ∀ s, h.largeSlot? i = some s → h.largeSlot? j = some s → i = j

/-- Memory whose objects begin at `starts` and are as they should be. -/
structure WellFormed (h : Heap) (starts : List Nat) : Prop extends
    LaidOut h starts, SlotsOwned h starts where
  unmarked : ∀ i ∈ starts, (h.view i).header.isMarked = false
  /-- Pointers in class words and reference slots lead to objects. -/
  traced : ∀ i ∈ starts, ∀ k, (h.view i).IsTraced k → ((h.view i).ref k).isPointer = true →
    Designates starts ((h.view i).ref k)

/-! ## Reachability -/

/-- An object refers to another one by its class or by a reference slot. -/
def Refers (h : Heap) (r v : Ref) : Prop :=
  v.isPointer = true ∧
    (h.classOf r = .ok v ∨
      ∃ slots p, h.referenceSlots r = .ok slots ∧ p ∈ slots.positions ∧ h.slot p = .ok v)

/-- What can be got at from the roots and from nil. -/
inductive Reachable (h : Heap) (roots : List Ref) : Ref → Prop
  | root {r : Ref} : r ∈ roots → r.isPointer = true → Reachable h roots r
  | nil : h.nil.isPointer = true → Reachable h roots h.nil
  | step {r v : Ref} : Reachable h roots r → h.Refers r v → Reachable h roots v

/-- Roots, and nil, that are objects as far as they are pointers. -/
structure RootsIn (h : Heap) (starts : List Nat) (roots : List Ref) : Prop where
  roots : ∀ r ∈ roots, r.isPointer = true → Designates starts r
  nil : h.nil.isPointer = true → Designates starts h.nil

/-! ## Reading objects -/

namespace LaidOut

variable {h : Heap} {starts : List Nat} {i : Nat}

theorem first_le (hl : h.LaidOut starts) (hi : i ∈ starts) : firstWord ≤ i :=
  (hl.tiles.bounds i hi).1

theorem fits (hl : h.LaidOut starts) (hi : i ∈ starts) : i + (h.view i).size ≤ h.top :=
  (hl.tiles.bounds i hi).2

theorem fits_memory (hl : h.LaidOut starts) (hi : i ∈ starts) :
    i + (h.view i).size ≤ h.memory.size :=
  Nat.le_trans (hl.fits hi) hl.committed

theorem lt_top (hl : h.LaidOut starts) (hi : i ∈ starts) : i < h.top := by
  have := hl.fits hi
  have := (h.view i).two_le_size
  omega

theorem lt_addressLimit (hl : h.LaidOut starts) (hi : i ∈ starts) : i < Ref.addressLimit :=
  Nat.lt_of_lt_of_le (hl.lt_top hi) (Nat.le_trans hl.committed hl.addressable)

theorem wordIndex (hl : h.LaidOut starts) (hi : i ∈ starts) :
    (Ref.ofWordIndex i).wordIndex = i :=
  Ref.wordIndex_ofWordIndex (hl.lt_addressLimit hi)

theorem isPointer (hl : h.LaidOut starts) (hi : i ∈ starts) :
    (Ref.ofWordIndex i).isPointer = true :=
  Ref.isPointer_ofWordIndex (hl.first_le hi) (hl.lt_addressLimit hi)

theorem ofWordIndex_inj (hl : h.LaidOut starts) {j : Nat} (hi : i ∈ starts) (hj : j ∈ starts)
    (heq : Ref.ofWordIndex i = Ref.ofWordIndex j) : i = j :=
  Ref.ofWordIndex_inj (hl.lt_addressLimit hi) (hl.lt_addressLimit hj) heq

theorem headerAt (hl : h.LaidOut starts) (hi : i ∈ starts) :
    h.headerAt i = .ok (h.view i).header :=
  headerAt_eq (hl.first_le hi) (hl.lt_top hi) hl.committed (hl.readable i hi).valid

theorem sizeAt (hl : h.LaidOut starts) (hi : i ∈ starts) :
    h.sizeAt i (h.view i).header = .ok (h.view i).size :=
  sizeAt_eq (hl.readable i hi) (.refl _) (hl.fits_memory hi) hl.addressable

theorem referenceSlotsAt (hl : h.LaidOut starts) (hi : i ∈ starts) :
    h.referenceSlotsAt i (h.view i).header = .ok (h.slotsAt i) :=
  referenceSlotsAt_eq (hl.readable i hi) (.refl _) (hl.fits_memory hi) hl.addressable

theorem referenceSlots (hl : h.LaidOut starts) (hi : i ∈ starts) :
    h.referenceSlots (.ofWordIndex i) = .ok (h.slotsAt i) := by
  unfold Heap.referenceSlots
  rw [hl.wordIndex hi, hl.headerAt hi]
  exact hl.referenceSlotsAt hi

theorem slot_offset (hl : h.LaidOut starts) (hi : i ∈ starts) {k : Nat}
    (hk : k < (h.view i).size) : h.slot (i + k) = .ok ((h.view i).ref k) := by
  have := hl.fits_memory hi
  exact slot_eq (by omega)

theorem word_offset (hl : h.LaidOut starts) (hi : i ∈ starts) {k : Nat}
    (hk : k < (h.view i).size) : h.word (i + k) = .ok (h.view i k) := by
  have := hl.fits_memory hi
  exact word_eq (by omega)

theorem sizeInWords (hl : h.LaidOut starts) (hi : i ∈ starts) :
    h.sizeInWords (.ofWordIndex i) = .ok (h.view i).size := by
  unfold Heap.sizeInWords
  rw [hl.wordIndex hi, hl.headerAt hi]
  exact hl.sizeAt hi

theorem header (hl : h.LaidOut starts) (hi : i ∈ starts) :
    h.header (.ofWordIndex i) = .ok (h.view i).header := by
  unfold Heap.header
  rw [hl.wordIndex hi, word_eq (Nat.lt_of_lt_of_le (hl.lt_top hi) hl.committed)]
  rfl

theorem format (hl : h.LaidOut starts) (hi : i ∈ starts) :
    h.format (.ofWordIndex i) = .ok (h.view i).format := by
  unfold Heap.format
  rw [hl.header hi]
  exact format_of_known (hl.readable i hi) (.refl _)

theorem fixedFields (hl : h.LaidOut starts) (hi : i ∈ starts) :
    h.fixedFields (.ofWordIndex i) = .ok (h.view i).fields := by
  unfold Heap.fixedFields
  rw [hl.header hi]
  rfl

theorem length (hl : h.LaidOut starts) (hi : i ∈ starts) :
    h.length (.ofWordIndex i) = .ok (h.view i).len := by
  unfold Heap.length
  rw [hl.header hi]
  dsimp only
  rw [format_of_known (hl.readable i hi) (.refl _), hl.wordIndex hi]
  exact lengthAt_eq (.refl _) (hl.fits_memory hi)

theorem checkFormat (hl : h.LaidOut starts) (hi : i ∈ starts) :
    h.checkFormat (.ofWordIndex i) (h.view i).format = .ok () := by
  unfold Heap.checkFormat
  rw [hl.format hi]
  show require (decide ((h.view i).format = (h.view i).format)) _ = _
  simp [require]

theorem largeInteger? (hl : h.LaidOut starts) (hi : i ∈ starts)
    (hf : (h.view i).format = .largeInteger) :
    h.largeInteger? (.ofWordIndex i) = .ok ((h.largeSlot? i).bind h.largeIntegers.get?) := by
  have hsize : (h.view i).size = headerWords + 1 := by simp [View.size, hf, Format.sizeInWords]
  have hcheck := hl.checkFormat hi
  rw [hf] at hcheck
  have hword : h.word (i + headerWords) = .ok (h.cell (i + headerWords)) :=
    hl.word_offset hi (by omega)
  unfold Heap.largeInteger?
  rw [hcheck, hl.wordIndex hi, hword]
  show Except.ok (if h.cell (i + headerWords) = noSlot then _ else _) = _
  unfold largeSlot?
  split <;> simp_all

theorem classOf (hl : h.LaidOut starts) (hi : i ∈ starts) :
    h.classOf (.ofWordIndex i) = .ok ((h.view i).ref 1) := by
  have := (h.view i).two_le_size
  unfold Heap.classOf
  rw [hl.wordIndex hi]
  exact hl.slot_offset hi (by omega)

/-- References lead through the traced words of an object, and through no others. -/
theorem refers_iff (hl : h.LaidOut starts) (hi : i ∈ starts) {v : Ref} :
    h.Refers (.ofWordIndex i) v ↔
      v.isPointer = true ∧ ∃ k, (h.view i).IsTraced k ∧ (h.view i).ref k = v := by
  unfold Refers
  rw [hl.classOf hi, hl.referenceSlots hi]
  refine and_congr_right fun _ => ⟨?_, ?_⟩
  · rintro (hcls | ⟨slots, p, hslots, hp, hv⟩)
    · exact ⟨1, .inl rfl, by simpa using hcls⟩
    · cases hslots
      obtain ⟨k, rfl, hk⟩ := mem_slotsAt_positions.mp hp
      rw [hl.slot_offset hi hk.bounds.2] at hv
      exact ⟨k, .inr hk, by simpa using hv⟩
  · rintro ⟨k, rfl | hk, rfl⟩
    · exact .inl rfl
    · exact .inr ⟨_, i + k, rfl, mem_slotsAt_positions.mpr ⟨k, rfl, hk⟩,
        hl.slot_offset hi hk.bounds.2⟩

/-! ## Enumeration -/

private theorem objectsFrom_eq (hl : h.LaidOut starts) {first : Nat} {rest : List Nat}
    (ht : Tiles h.sizeOf first rest h.top) (hmem : ∀ i ∈ rest, i ∈ starts) (found : List Nat) :
    h.objectsFrom first found = .ok (found.reverse ++ rest) := by
  induction rest generalizing first found with
  | nil =>
    cases ht
    unfold objectsFrom
    simp
  | cons i rest ih =>
    cases ht with
    | cons htail =>
      have hi : i ∈ starts := hmem i List.mem_cons_self
      have hcount : i + (h.view i).size < countLimit := by
        have := hl.fits_memory hi
        have := hl.addressable
        simp only [Ref.addressLimit] at this
        simp only [countLimit]
        omega
      have hrest := ih htail (fun j hj => hmem j (List.mem_cons_of_mem _ hj)) (i :: found)
      unfold objectsFrom
      rw [dif_pos (hl.lt_top hi), hl.headerAt hi]
      dsimp only
      split
      · rename_i e he
        rw [hl.sizeAt hi] at he
        cases he
      · rename_i size hs
        rw [hl.sizeAt hi] at hs
        cases hs
        simp only [checkedCount, hcount, if_true]
        rw [show i + (h.view i).size = i + h.sizeOf i from rfl, hrest]
        simp

/-- Walking memory enumerates exactly the objects of its tiling, in their order. -/
theorem objects_eq (hl : h.LaidOut starts) :
    h.objects = .ok (starts.map Ref.ofWordIndex) := by
  unfold objects
  rw [objectsFrom_eq hl hl.tiles (fun _ hi => hi) []]
  rfl

end LaidOut

/-! ## What can be reached -/

namespace WellFormed

variable {h : Heap} {starts : List Nat} {roots : List Ref} {i : Nat}

theorem designates_of_refers (hw : h.WellFormed starts) (hi : i ∈ starts) {v : Ref}
    (hv : h.Refers (.ofWordIndex i) v) : Designates starts v := by
  obtain ⟨hp, k, hk, rfl⟩ := (hw.refers_iff hi).mp hv
  exact hw.traced i hi k hk hp

/-- What can be reached is an object. -/
theorem designates_of_reachable (hw : h.WellFormed starts) (hr : h.RootsIn starts roots) {r : Ref}
    (hreach : h.Reachable roots r) : Designates starts r := by
  induction hreach with
  | root hmem hp => exact hr.roots _ hmem hp
  | nil hp => exact hr.nil hp
  | step _ hrefers ih =>
    obtain ⟨i, hi, rfl⟩ := ih
    exact hw.designates_of_refers hi hrefers

end WellFormed

/-! ## A small heap -/

/-- Memory without large integers is well-formed if the words of its objects, of which there is a
bound, lead to objects. -/
theorem LaidOut.wellFormed_of_checked {h : Heap} {starts : List Nat} {b : Nat}
    (hl : h.LaidOut starts) (hlarge : ∀ i ∈ starts, h.largeSlot? i = none)
    (hunmarked : ∀ i ∈ starts, (h.view i).header.isMarked = false)
    (hsize : ∀ i ∈ starts, (h.view i).size ≤ b)
    (htraced : ∀ i ∈ starts, ∀ k < b, (h.view i).IsTraced k →
      ((h.view i).ref k).isPointer = true → ∃ j ∈ starts, (h.view i).ref k = .ofWordIndex j) :
    h.WellFormed starts where
  toLaidOut := hl
  held i hi s hs := by
    rw [hlarge i hi] at hs
    cases hs
  own i hi j _ s hs _ := by
    rw [hlarge i hi] at hs
    cases hs
  unmarked := hunmarked
  traced i hi k hk hp := htraced i hi k (Nat.lt_of_lt_of_le hk.bounds.2 (hsize i hi)) hk hp

/-- Two objects that refer to each other, and one between them that nobody refers to. -/
def ringWithGap : Heap where
  memory := #[0,
    (Header.pack .plain 1 7).bits, (Ref.ofWordIndex 1).bits, (Ref.ofWordIndex 6).bits,
    (Header.pack .plain 0 8).bits, (Ref.ofWordIndex 1).bits,
    (Header.pack .array 0 9).bits, (Ref.ofWordIndex 1).bits, 1, (Ref.ofWordIndex 1).bits]
  top := 10
  reservedWords := pageWords
  sinceCollection := 0
  config := {}
  hashState := 1
  nil := .null
  largeIntegers := .empty
  stats := {}

theorem ringWithGap_laidOut : ringWithGap.LaidOut [1, 4, 6] where
  committed := by decide
  addressable := by decide
  tiles := .cons (.cons (.cons (.nil 10)))
  readable i hi := by
    have hall : ∀ i ∈ [1, 4, 6], (ringWithGap.view i).header.isValid = true ∧
        Format.ofCode? (ringWithGap.view i).header.formatCode = some (ringWithGap.view i).format ∧
        (ringWithGap.view i).format ≠ .context := by decide
    obtain ⟨hvalid, hknown, hctx⟩ := hall i hi
    exact ⟨hvalid, hknown, fun hc => absurd hc hctx⟩

theorem ringWithGap_wellFormed : ringWithGap.WellFormed [1, 4, 6] :=
  ringWithGap_laidOut.wellFormed_of_checked (b := 4) (by decide) (by decide) (by decide)
    (by decide)

theorem ringWithGap_rootsIn : ringWithGap.RootsIn [1, 4, 6] [.ofWordIndex 6] where
  roots := by
    intro r hr _
    rw [List.mem_singleton.mp hr]
    exact ⟨6, by decide, rfl⟩
  nil hp := by cases hp

end Heap

end ObjectMachine
