import ObjectMachine.Proofs.Collection.Collecting

/-!
# A collection preserves what can be reached

From outside, memory is a graph: objects with a format, an identity and raw words, and references
between them. A collection carries the part of this graph that can be reached over to new positions.
Nothing that a program can ask of an object tells whether there has been a collection.

## Main results

* `collect_carries`: the map of a collection is injective on the reachable objects, and every one of
  them has the same contents after it.
-/

namespace ObjectMachine

/-- Two readings that both succeed, with the same answer. -/
def SameAnswer {α : Type} (x y : Except Fatal α) : Prop := ∃ a, x = .ok a ∧ y = .ok a

/-- A reference carried over by a map of objects. Anything but a pointer stays. -/
def Ref.image (f : Ref → Ref) (r : Ref) : Ref := if r.isPointer then f r else r

namespace Heap

/-- What is at `f o` in the second heap is the object `o` of the first one, with `f` applied to its
references. -/
structure SameObject (h h' : Heap) (f : Ref → Ref) (o : Ref) : Prop where
  format : SameAnswer (h.format o) (h'.format (f o))
  fixedFields : SameAnswer (h.fixedFields o) (h'.fixedFields (f o))
  identityHash : SameAnswer (h.identityHash o) (h'.identityHash (f o))
  captured : SameAnswer (h.isCaptured o) (h'.isCaptured (f o))
  length : SameAnswer (h.length o) (h'.length (f o))
  size : SameAnswer (h.sizeInWords o) (h'.sizeInWords (f o))
  cls : ∃ cls, h.classOf o = .ok cls ∧ h'.classOf (f o) = .ok (cls.image f)
  /-- The reference slots are at the same offsets. -/
  offsets : ∃ slots slots', h.referenceSlots o = .ok slots ∧ h'.referenceSlots (f o) = .ok slots' ∧
    ∀ k, (f o).wordIndex + k ∈ slots'.positions ↔ o.wordIndex + k ∈ slots.positions
  slots : ∀ slots, h.referenceSlots o = .ok slots → ∀ k, o.wordIndex + k ∈ slots.positions →
    ∃ v, h.slot (o.wordIndex + k) = .ok v ∧ h'.slot ((f o).wordIndex + k) = .ok (v.image f)
  /-- All other words behind the class are the same: bytes, numbers, the count, and what is above
  the stack pointer of a context. -/
  payload : ∀ slots size, h.referenceSlots o = .ok slots → h.sizeInWords o = .ok size →
    ∀ k, headerWords ≤ k → k < size → o.wordIndex + k ∉ slots.positions →
      SameAnswer (h.word (o.wordIndex + k)) (h'.word ((f o).wordIndex + k))
  largeInteger : h.format o = .ok .largeInteger →
    SameAnswer (h.largeInteger? o) (h'.largeInteger? (f o))

/-- A map that carries what can be reached over to the heap and the roots after a collection. -/
structure Carries (h : Heap) (roots : List Ref) (c : Collected) (f : Ref → Ref) : Prop where
  injective : ∀ a b, h.Reachable roots a → h.Reachable roots b → f a = f b → a = b
  objects : ∃ objects, c.heap.objects = .ok objects ∧ ∀ o, h.Reachable roots o → f o ∈ objects
  same : ∀ o, h.Reachable roots o → h.SameObject c.heap f o
  nil : c.heap.nil = h.nil.image f
  roots : c.roots = roots.map (·.image f)

namespace Collects

variable {h : Heap} {starts : List Nat} {live : Nat → Bool} {roots : List Ref} {c : Collected}
  {i k : Nat}

theorem image_moveRef (r : Ref) : r.image (h.moveRef starts live) = h.moveRef starts live r := by
  unfold Ref.image
  split
  · rfl
  · rw [moveRef, if_neg ‹_›]

/-- Every survivor is the object that it was. -/
theorem sameObject (hc : h.Collects starts live roots c) (hw : h.WellFormed starts)
    (hi : i ∈ starts) (hlive : live i = true) :
    h.SameObject c.heap (h.moveRef starts live) (.ofWordIndex i) := by
  have hl := hw.toLaidOut
  have hl' := hc.laidOut hw
  have hj : slide h.sizeOf live starts i ∈ h.survivors starts live :=
    mem_survivors.mpr ⟨i, hi, hlive, rfl⟩
  have hagree := hc.agrees hw hi hlive
  have hheader := hc.header_eq hi hlive
  have hmove : h.moveRef starts live (.ofWordIndex i) =
      .ofWordIndex (slide h.sizeOf live starts i) := moveRef_ofWordIndex hl hi
  have hslot : ∀ k, i + k ∈ (h.slotsAt i).positions ↔ (h.view i).IsSlot k := fun k => by
    rw [mem_slotsAt_positions]
    exact ⟨fun ⟨l, heq, hs⟩ => (show l = k by omega) ▸ hs, fun hs => ⟨k, rfl, hs⟩⟩
  refine
    { format := ⟨_, hl.format hi, ?_⟩
      fixedFields := ⟨_, hl.fixedFields hi, ?_⟩
      identityHash := ⟨(h.view i).header.identityHash, ?_, ?_⟩
      captured := ⟨(h.view i).header.isCaptured, ?_, ?_⟩
      length := ⟨_, hl.length hi, ?_⟩
      size := ⟨_, hl.sizeInWords hi, ?_⟩
      cls := ⟨_, hl.classOf hi, ?_⟩
      offsets := ⟨_, _, hl.referenceSlots hi, by rw [hmove]; exact hl'.referenceSlots hj, ?_⟩
      slots := fun slots hs k hk => ?_
      payload := fun slots size hs hsize k hlo hhi hk => ?_
      largeInteger := fun hformat => ?_ }
  · rw [hmove, hl'.format hj, hagree.format_eq]
  · rw [hmove, hl'.fixedFields hj, hagree.fields_eq]
  · rw [identityHash, hl.header hi]
  · rw [hmove, identityHash, hl'.header hj, hheader]
  · rw [isCaptured, hl.header hi]
  · rw [hmove, isCaptured, hl'.header hj, hheader]
  · rw [hmove, hl'.length hj, hagree.len_eq]
  · rw [hmove, hl'.sizeInWords hj, hagree.size_eq]
  · rw [hmove, hl'.classOf hj, hc.ref_of_isTraced hi hlive (.inl rfl), image_moveRef]
  · intro k
    rw [hmove, hl'.wordIndex hj, hl.wordIndex hi, hslot, mem_slotsAt_positions]
    constructor
    · rintro ⟨l, heq, hs⟩
      have : l = k := by omega
      exact (hagree.isSlot_iff k).mp (this ▸ hs)
    · exact fun hs => ⟨k, rfl, (hagree.isSlot_iff k).mpr hs⟩
  · rw [hl.referenceSlots hi] at hs
    cases hs
    rw [hl.wordIndex hi, hslot] at hk
    refine ⟨(h.view i).ref k, ?_, ?_⟩
    · rw [hl.wordIndex hi, hl.slot_offset hi hk.bounds.2]
    · rw [hmove, hl'.wordIndex hj, hl'.slot_offset hj (by rw [hagree.size_eq]; exact hk.bounds.2),
        hc.ref_of_isTraced hi hlive (.inr hk), image_moveRef]
  · rw [hl.referenceSlots hi] at hs
    rw [hl.sizeInWords hi] at hsize
    cases hs
    cases hsize
    rw [hl.wordIndex hi, hslot] at hk
    have hnot : ¬ (h.view i).IsTraced k := by
      rintro (hone | hs)
      · simp only [headerWords] at hlo
        omega
      · exact hk hs
    refine ⟨h.view i k, ?_, ?_⟩
    · rw [hl.wordIndex hi, hl.word_offset hi hhi]
    · rw [hmove, hl'.wordIndex hj, hl'.word_offset hj (by rw [hagree.size_eq]; exact hhi),
        hc.word_of_not_isTraced hi hlive hhi hnot]
  · have hf : (h.view i).format = .largeInteger := Except.ok.inj ((hl.format hi).symm.trans hformat)
    refine ⟨(h.largeSlot? i).bind h.largeIntegers.get?, hl.largeInteger? hi hf, ?_⟩
    rw [hmove, hl'.largeInteger? hj (by rw [hagree.format_eq, hf]), hc.largeSlot? hw hi hlive]
    cases hs : h.largeSlot? i with
    | none => rfl
    | some s => exact congrArg Except.ok (hc.get?_largeSlot hw hi hlive hs)

/-- What can be reached is carried over by the map of a collection. -/
theorem carries (hc : h.Collects starts live roots c) (hw : h.WellFormed starts)
    (hr : h.RootsIn starts roots) (hk : h.KeepsReachable starts live roots) :
    h.Carries roots c (h.moveRef starts live) := by
  have hl := hw.toLaidOut
  refine
    { injective := fun a b ha hb heq => ?_
      objects := ⟨_, (hc.laidOut hw).objects_eq, fun o ho => ?_⟩
      same := fun o ho => ?_
      nil := ?_
      roots := ?_ }
  · obtain ⟨i, hi, hlive, rfl⟩ := hk.live_of_reachable hw hr ha
    obtain ⟨j, hj, hlive', rfl⟩ := hk.live_of_reachable hw hr hb
    rw [moveRef_ofWordIndex hl hi, moveRef_ofWordIndex hl hj] at heq
    have hpos := Ref.ofWordIndex_inj (slide_lt_addressLimit hl hi) (slide_lt_addressLimit hl hj) heq
    rw [hw.tiles.slide_inj h.sizeOf_pos hi hj hlive hlive' hpos]
  · obtain ⟨i, hi, hlive, rfl⟩ := hk.live_of_reachable hw hr ho
    rw [moveRef_ofWordIndex hl hi]
    exact List.mem_map.mpr ⟨_, mem_survivors.mpr ⟨i, hi, hlive, rfl⟩, rfl⟩
  · obtain ⟨i, hi, hlive, rfl⟩ := hk.live_of_reachable hw hr ho
    exact hc.sameObject hw hi hlive
  · rw [hc.nil, image_moveRef]
  · rw [hc.roots]
    exact List.map_congr_left fun r _ => (image_moveRef r).symm

end Collects

/-- A collection whose work list does not overflow succeeds, and carries everything that can be
reached from the roots and from nil over as it is. -/
theorem collect_carries {h : Heap} {starts : List Nat} {roots : List Ref}
    (hw : h.WellFormed starts) (hr : h.RootsIn starts roots)
    (hmark : h.mark roots ≠ .error (.markStackOverflow h.config.markLimit)) :
    ∃ c f, h.collect roots = .ok c ∧ h.Carries roots c f := by
  rcases collect_spec hw hr with ⟨hoverflow, -⟩ | ⟨c, live, hcollect, hk, hc⟩
  · exact absurd hoverflow hmark
  · exact ⟨c, h.moveRef starts live, hcollect, hc.carries hw hr hk⟩

theorem ringWithGap_carries : ∃ c f, ringWithGap.collect [.ofWordIndex 6] = .ok c ∧
    ringWithGap.Carries [.ofWordIndex 6] c f :=
  collect_carries ringWithGap_wellFormed ringWithGap_rootsIn ringWithGap_mark

end Heap

end ObjectMachine
