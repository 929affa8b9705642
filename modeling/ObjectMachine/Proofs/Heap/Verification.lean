import ObjectMachine.Heap.Verify
import ObjectMachine.Proofs.Collection.BitVector
import ObjectMachine.Proofs.Heap.WellFormed

/-!
# Verification finds nothing wrong with sound memory

Verification walks over memory twice: once to find where objects begin, once to look at their
references. On memory that is well formed, whose classes are objects and whose slots hold no markers,
both walks end without damage.

## Main results

* `startsFrom_spec`: the first walk finds exactly the beginnings of the objects.
* `damage?_eq_none`: the second walk finds no damage.
-/

namespace ObjectMachine

/-- A word that may stand in a reference slot: no marker, and an object if it is a pointer. -/
structure Genuine (starts : List Nat) (r : Ref) : Prop where
  isMarker : r.isMarker = false
  designates : r.isPointer = true → Designates starts r

theorem Genuine.mono {starts starts' : List Nat} {r : Ref} (hg : Genuine starts r)
    (hsub : ∀ i ∈ starts, i ∈ starts') : Genuine starts' r :=
  ⟨hg.isMarker, fun hp => (hg.designates hp).mono hsub⟩

theorem genuine_null (starts : List Nat) : Genuine starts .null :=
  ⟨rfl, fun hp => by cases hp⟩

namespace Heap

/-- Well-formed memory whose classes are objects and whose slots hold no markers. -/
structure Faultless (h : Heap) (starts : List Nat) : Prop extends WellFormed h starts where
  classes : ∀ i ∈ starts, ((h.view i).ref 1).isPointer = true
  slots : ∀ i ∈ starts, ∀ k, (h.view i).IsSlot k → ((h.view i).ref k).isMarker = false

variable {h : Heap} {starts : List Nat}

/-- The first walk sets a bit at the beginning of every object from a position on. -/
theorem startsFrom_spec (hw : h.WellFormed starts) {first : Nat} {rest : List Nat}
    (ht : Tiles h.sizeOf first rest h.top) (hmem : ∀ i ∈ rest, i ∈ starts) {bits : BitVector}
    (hroom : h.top ≤ bits.capacity) :
    ∃ found, h.startsFrom first bits = .ok (.ok found) ∧
      ∀ p, found.get p = true ↔ bits.get p = true ∨ p ∈ rest := by
  induction rest generalizing first bits with
  | nil =>
    cases ht
    refine ⟨bits, ?_, by simp⟩
    rw [startsFrom, dif_neg (Nat.lt_irrefl _), if_pos rfl]
  | cons i rest ih =>
    cases ht with
    | cons htail =>
      have hi : i ∈ starts := hmem i List.mem_cons_self
      have hlt := hw.lt_top hi
      have hword : h.word i = .ok (h.view i 0) := hw.word_offset hi (h.sizeOf_pos i)
      have hvalid : (⟨h.view i 0⟩ : Header).isValid = true := (hw.readable i hi).valid
      have hunmarked : (⟨h.view i 0⟩ : Header).isMarked = false := hw.unmarked i hi
      obtain ⟨bits', hset⟩ := BitVector.exists_set (Nat.lt_of_lt_of_le hlt hroom)
      have hroom' : h.top ≤ bits'.capacity := by
        rw [BitVector.capacity_set hset]
        exact hroom
      have hcount : i + (h.view i).size < countLimit := by
        have hfit := hw.fits_memory hi
        have haddr := hw.addressable
        simp only [Ref.addressLimit] at haddr
        simp only [countLimit]
        omega
      obtain ⟨found, hrest, hfound⟩ :=
        ih htail (fun j hj => hmem j (List.mem_cons_of_mem _ hj)) hroom'
      refine ⟨found, ?_, ?_⟩
      · unfold startsFrom
        rw [dif_pos hlt, hword]
        simp only [hvalid, hunmarked, hset, Bool.not_true, Bool.false_eq_true, if_false]
        split
        · rename_i e he
          have hsize : h.sizeAt i ⟨h.view i 0⟩ = .ok (h.view i).size := hw.sizeAt hi
          rw [hsize] at he
          cases he
        · rename_i size hs
          have hsize : h.sizeAt i ⟨h.view i 0⟩ = .ok (h.view i).size := hw.sizeAt hi
          rw [hsize] at hs
          cases hs
          simp only [checkedCount, hcount, if_true]
          exact hrest
      · intro p
        rw [hfound, BitVector.get_set hset, Bool.or_eq_true, decide_eq_true_eq, List.mem_cons,
          or_assoc, @eq_comm _ i p]

theorem pointsAtObject_eq (hl : h.LaidOut starts) {bits : BitVector}
    (hbits : ∀ p, bits.get p = true ↔ p ∈ starts) {r : Ref}
    (hr : r.isPointer = true → Designates starts r) : h.pointsAtObject bits r = true := by
  unfold pointsAtObject
  by_cases hp : r.isPointer = true
  · obtain ⟨i, hi, rfl⟩ := hr hp
    rw [hl.wordIndex hi, (hbits i).mpr hi, decide_eq_true (hl.lt_top hi)]
    simp
  · simp [hp]

theorem danglingSlot?_eq_none (hl : h.LaidOut starts) {bits : BitVector}
    (hbits : ∀ p, bits.get p = true ↔ p ∈ starts) {positions : List Nat}
    (hslots : ∀ p ∈ positions, ∃ r, h.slot p = .ok r ∧ Genuine starts r) :
    h.danglingSlot? bits positions = .ok none := by
  induction positions with
  | nil => rfl
  | cons p positions ih =>
    obtain ⟨r, hslot, hgenuine⟩ := hslots p List.mem_cons_self
    have hrest := ih fun q hq => hslots q (List.mem_cons_of_mem _ hq)
    have hpoints := pointsAtObject_eq hl hbits hgenuine.designates
    unfold danglingSlot?
    rw [hslot]
    show (if r.isMarker || !h.pointsAtObject bits r then _ else _) = _
    rw [hgenuine.isMarker, hpoints]
    exact hrest

theorem objectDamage?_eq_none (hf : h.Faultless starts) {bits : BitVector}
    (hbits : ∀ p, bits.get p = true ↔ p ∈ starts) {i : Nat} (hi : i ∈ starts) :
    h.objectDamage? bits (.ofWordIndex i) = .ok none := by
  have hclass := hf.classes i hi
  have hpoints := pointsAtObject_eq hf.toLaidOut hbits (hf.traced i hi 1 (.inl rfl))
  have hdangling : h.danglingSlot? bits (h.slotsAt i).positions = .ok none := by
    apply danglingSlot?_eq_none hf.toLaidOut hbits
    intro p hp
    obtain ⟨k, rfl, hk⟩ := mem_slotsAt_positions.mp hp
    exact ⟨_, hf.slot_offset hi hk.bounds.2, hf.slots i hi k hk, hf.traced i hi k (.inr hk)⟩
  unfold objectDamage?
  rw [hf.classOf hi]
  show (if !((h.view i).ref 1).isPointer || !h.pointsAtObject bits ((h.view i).ref 1) then _ else
    _) = _
  rw [hclass, hpoints]
  show (h.referenceSlots (.ofWordIndex i) >>= _) = _
  rw [hf.referenceSlots hi]
  show (h.danglingSlot? bits (h.slotsAt i).positions >>= _) = _
  rw [hdangling]
  rfl

theorem referenceDamage?_eq_none (hf : h.Faultless starts) {bits : BitVector}
    (hbits : ∀ p, bits.get p = true ↔ p ∈ starts) {rest : List Nat}
    (hmem : ∀ i ∈ rest, i ∈ starts) :
    h.referenceDamage? bits (rest.map Ref.ofWordIndex) = .ok none := by
  induction rest with
  | nil => rfl
  | cons i rest ih =>
    have hrest := ih fun j hj => hmem j (List.mem_cons_of_mem _ hj)
    rw [List.map_cons, referenceDamage?,
      objectDamage?_eq_none hf hbits (hmem i List.mem_cons_self)]
    exact hrest

/-- Verification finds no damage. -/
theorem damage?_eq_none (hf : h.Faultless starts) : h.damage? = .ok none := by
  obtain ⟨found, hstarts, hfound⟩ := startsFrom_spec hf.toWellFormed hf.tiles (fun _ hi => hi)
    (BitVector.capacity_empty h.top)
  have hbits : ∀ p, found.get p = true ↔ p ∈ starts := by
    intro p
    rw [hfound, BitVector.get_empty]
    simp
  unfold damage?
  rw [hstarts]
  show (h.objects >>= _) = _
  rw [hf.objects_eq]
  exact referenceDamage?_eq_none hf hbits fun _ hi => hi

end Heap

end ObjectMachine
