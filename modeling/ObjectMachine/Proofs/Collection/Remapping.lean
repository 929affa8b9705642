import ObjectMachine.Collection.Remap
import ObjectMachine.Proofs.Heap.WellFormed

/-!
# Remapping updates every reference once

Remapping walks over the survivors and replaces every traced word by the new form of the reference
in it. It reads the sizes and the stack pointers of objects that it is updating: it never touches a
header or an element count, and a stack pointer that is a number stays one.

## Main results

* `remapObject_spec`: the traced words of one object are updated, and no others.
* `remap_spec`: so are those of all objects, each of them once.
-/

namespace ObjectMachine.Heap

/-- Memory in which the references at some positions have been replaced by their new forms, and
which is as before otherwise. -/
structure Moves (move : Ref → Ref) (at' : Nat → Prop) (h h' : Heap) : Prop where
  rest : { h' with memory := h.memory } = h
  size : h'.memory.size = h.memory.size
  moved : ∀ p, at' p → h'.cell p = (move ⟨h.cell p⟩).bits
  kept : ∀ p, ¬ at' p → h'.cell p = h.cell p

namespace Moves

variable {move : Ref → Ref} {s s' : Nat → Prop} {h h' h'' : Heap}

theorem refl (hs : ∀ p, ¬ s p) : Moves move s h h :=
  ⟨rfl, rfl, fun p hp => absurd hp (hs p), fun _ _ => rfl⟩

theorem top (hm : Moves move s h h') : h'.top = h.top :=
  (congrArg Heap.top hm.rest :)

theorem congr (hm : Moves move s h h') (hs : ∀ p, s p ↔ s' p) : Moves move s' h h' :=
  ⟨hm.rest, hm.size, fun p hp => hm.moved p ((hs p).mpr hp), fun p hp =>
    hm.kept p fun hp' => hp ((hs p).mp hp')⟩

/-- Updates at different positions add up. -/
theorem trans (hm : Moves move s h h') (hm' : Moves move s' h' h'')
    (hdisjoint : ∀ p, s p → ¬ s' p) : Moves move (fun p => s p ∨ s' p) h h'' where
  rest := by
    have hrest := hm.rest
    rw [← hm'.rest] at hrest
    exact hrest
  size := hm'.size.trans hm.size
  moved p hp := by
    rcases hp with hp | hp
    · rw [hm'.kept p (hdisjoint p hp), hm.moved p hp]
    · rw [hm'.moved p hp, hm.kept p fun hp' => hdisjoint p hp' hp]
  kept p hp := by
    rw [hm'.kept p fun hp' => hp (.inr hp'), hm.kept p fun hp' => hp (.inl hp')]

end Moves

variable {h : Heap} {t : Relocation} {move : Ref → Ref}

theorem remapSlot_spec {p : Nat} (hp : p < h.memory.size)
    (hmove : t.relocate ⟨h.cell p⟩ = .ok (move ⟨h.cell p⟩)) :
    ∃ h', h.remapSlot t p = .ok h' ∧ Moves move (· = p) h h' := by
  refine ⟨h.poke p (move ⟨h.cell p⟩).bits, ?_, rfl, size_poke .., ?_, fun q hq => ?_⟩
  · unfold Relocation.relocate at hmove
    unfold remapSlot
    rw [slot_eq hp]
    dsimp only
    split at hmove
    · rw [if_pos ‹_›, hmove]
      exact setSlot_eq hp _
    · rw [if_neg ‹_›, ← Except.ok.inj hmove, poke_cell]
  · rintro q rfl
    exact cell_poke_self hp _
  · exact cell_poke_ne hq _

theorem remapSlots_spec {p n : Nat} (hp : p + n ≤ h.memory.size)
    (hmove : ∀ q, p ≤ q → q < p + n → t.relocate ⟨h.cell q⟩ = .ok (move ⟨h.cell q⟩)) :
    ∃ h', h.remapSlots t p n = .ok h' ∧ Moves move (fun q => p ≤ q ∧ q < p + n) h h' := by
  induction n generalizing h p with
  | zero => exact ⟨h, rfl, .refl fun q => by omega⟩
  | succ n ih =>
    obtain ⟨h₁, hfirst, hm₁⟩ := remapSlot_spec (by omega) (hmove p (Nat.le_refl _) (by omega))
    obtain ⟨h₂, hrest, hm₂⟩ := ih (h := h₁) (p := p + 1) (by rw [hm₁.size]; omega) fun q hlo hhi => by
      rw [hm₁.kept q (by omega)]
      exact hmove q (by omega) (by omega)
    refine ⟨h₂, ?_, (hm₁.trans hm₂ fun q => by omega).congr fun q => by omega⟩
    rw [remapSlots, hfirst]
    exact hrest

/-! ## One object -/

/-- The new forms of the traced words of an object are known, and pointers stay pointers. -/
def Movable (t : Relocation) (move : Ref → Ref) (o : View) : Prop :=
  ∀ k, o.IsTraced k → t.relocate (o.ref k) = .ok (move (o.ref k)) ∧
    ((o.ref k).isPointer = true → (move (o.ref k)).isPointer = true)

/-- Whether a position holds a traced word of the object that begins at another. -/
def TracedAt (h : Heap) (i p : Nat) : Prop := ∃ k, p = i + k ∧ (h.view i).IsTraced k

/-- An object is still the same after its references have been updated. -/
theorem Moves.agrees {h' : Heap} {i : Nat} {s : Nat → Prop} (hm : Moves move s h h')
    (hr : (h.view i).Readable) (hmovable : Movable t move (h.view i))
    (htraced : ∀ k, k < (h.view i).size → s (i + k) → (h.view i).IsTraced k) :
    View.Agrees (h.view i) (h'.view i) := by
  have htwo := (h.view i).two_le_size
  have hkept : ∀ k, k < (h.view i).size → ¬ (h.view i).IsTraced k → h'.view i k = h.view i k :=
    fun k hk hnot => hm.kept _ fun hs => hnot (htraced k hk hs)
  refine ⟨⟨?_, fun hidx => ?_⟩, fun hctx => ?_⟩
  · have hheader : h'.view i 0 = h.view i 0 := hkept 0 (by omega) (View.not_isTraced_header _)
    unfold View.header
    rw [hheader]
    exact .refl _
  · exact hkept _ (View.count_lt_size hidx) (View.not_isTraced_count _)
  · -- The stack pointer is a traced word, so it may have been replaced, but only if it is a pointer.
    have hslot := View.isSlot_stackPointer hr hctx
    by_cases hs : s (i + (headerWords + contextStackPointer))
    · obtain ⟨hrelocate, hpointer⟩ := hmovable _ (.inr hslot)
      have hnew : (h'.view i).stackPointer = move (h.view i).stackPointer :=
        congrArg Ref.mk (hm.moved _ hs)
      by_cases hp : (h.view i).stackPointer.isPointer = true
      · right
        rw [hnew]
        exact ⟨Ref.not_isSmallInteger_of_isPointer (hpointer hp),
          Ref.not_isSmallInteger_of_isPointer hp⟩
      · left
        rw [hnew]
        have hself : t.relocate (h.view i).stackPointer = .ok (h.view i).stackPointer := by
          rw [Relocation.relocate, if_neg hp]
        exact Except.ok.inj (hrelocate.symm.trans hself)
    · left
      exact congrArg Ref.mk (hm.kept _ hs)

/-- The reference slots of an object lie in two ranges, the second behind the first. -/
theorem tracedAt_iff {i p : Nat} :
    h.TracedAt i p ↔ p = i + 1 ∨
      ((h.slotsAt i).fixedStart ≤ p ∧
        p < (h.slotsAt i).fixedStart + ((h.slotsAt i).fixedEnd - (h.slotsAt i).fixedStart)) ∨
      ((h.slotsAt i).tailStart ≤ p ∧
        p < (h.slotsAt i).tailStart + ((h.slotsAt i).tailEnd - (h.slotsAt i).tailStart)) := by
  have hslots : (∃ k, p = i + k ∧ (h.view i).IsSlot k) ↔ p ∈ (h.slotsAt i).positions :=
    mem_slotsAt_positions.symm
  rw [ReferenceSlots.positions, List.mem_append, List.mem_range'_1, List.mem_range'_1] at hslots
  rw [← hslots]
  unfold TracedAt View.IsTraced
  constructor
  · rintro ⟨k, rfl, rfl | hk⟩
    · exact .inl rfl
    · exact .inr ⟨k, rfl, hk⟩
  · rintro (rfl | ⟨k, rfl, hk⟩)
    · exact ⟨1, rfl, .inl rfl⟩
    · exact ⟨k, rfl, .inr hk⟩

/-- The traced words of an object are updated, and no others. -/
theorem remapObject_spec {i : Nat} {header : Header} (hr : (h.view i).Readable)
    (hs : Header.SameShape header (h.view i).header)
    (hfit : i + (h.view i).size ≤ h.memory.size) (haddr : h.memory.size ≤ Ref.addressLimit)
    (hmovable : Movable t move (h.view i)) :
    ∃ h', h.remapObject t i header = .ok h' ∧ Moves move (h.TracedAt i) h h' := by
  have htwo := (h.view i).two_le_size
  obtain ⟨hfixedEnd, htailEnd⟩ := h.slotsAt_bounds i
  obtain ⟨hbehind, hapart⟩ := h.slotsAt_apart i
  simp only [headerWords] at hbehind
  have hmove : ∀ p, h.TracedAt i p → t.relocate ⟨h.cell p⟩ = .ok (move ⟨h.cell p⟩) := by
    rintro p ⟨k, rfl, hk⟩
    exact (hmovable k hk).1
  obtain ⟨h₁, hclass, hm₁⟩ := remapSlot_spec (h := h) (p := i + 1) (by omega)
    (hmove _ (tracedAt_iff.mpr (.inl rfl)))
  have hagree : View.Agrees (h.view i) (h₁.view i) :=
    hm₁.agrees hr hmovable fun k _ hk => .inl (by omega)
  have hslots : h₁.referenceSlotsAt i header = .ok (h.slotsAt i) := by
    rw [← slotsAt_congr hagree]
    exact referenceSlotsAt_eq (hagree.readable hr) (hs.trans hagree.header.symm)
      (by rw [hagree.size_eq, hm₁.size]; exact hfit) (by rw [hm₁.size]; exact haddr)
  have hmove₁ : ∀ q, (h.slotsAt i).fixedStart ≤ q →
      q < (h.slotsAt i).fixedStart + ((h.slotsAt i).fixedEnd - (h.slotsAt i).fixedStart) →
      t.relocate ⟨h₁.cell q⟩ = .ok (move ⟨h₁.cell q⟩) := by
    intro q hlo hhi
    rw [hm₁.kept q (by omega)]
    exact hmove q (tracedAt_iff.mpr (.inr (.inl ⟨hlo, hhi⟩)))
  obtain ⟨h₂, hfixed, hm₂⟩ := remapSlots_spec (by rw [hm₁.size]; omega) hmove₁
  have hm₁₂ := hm₁.trans hm₂ fun q hq => by omega
  have hmove₂ : ∀ q, (h.slotsAt i).tailStart ≤ q →
      q < (h.slotsAt i).tailStart + ((h.slotsAt i).tailEnd - (h.slotsAt i).tailStart) →
      t.relocate ⟨h₂.cell q⟩ = .ok (move ⟨h₂.cell q⟩) := by
    intro q hlo hhi
    rw [hm₁₂.kept q (by omega)]
    exact hmove q (tracedAt_iff.mpr (.inr (.inr ⟨hlo, hhi⟩)))
  obtain ⟨h₃, htail, hm₃⟩ := remapSlots_spec (by rw [hm₁₂.size]; omega) hmove₂
  refine ⟨h₃, ?_, (hm₁₂.trans hm₃ fun q hq => by omega).congr fun q => ?_⟩
  · unfold remapObject
    rw [hclass]
    show (h₁.referenceSlotsAt i header >>= _) = _
    rw [hslots]
    show (h₁.remapSlots t _ _ >>= _) = _
    rw [hfixed]
    exact htail
  · rw [tracedAt_iff]
    omega

/-! ## All objects -/

/-- Whether a position holds a traced word of one of some objects. -/
def TracedIn (h : Heap) (starts : List Nat) (p : Nat) : Prop := ∃ i ∈ starts, h.TracedAt i p

section Walk

variable {starts : List Nat}

/-- A traced word of an object belongs to no other object. -/
theorem LaidOut.tracedAt_unique (hl : h.LaidOut starts) {i j k : Nat} (hi : i ∈ starts)
    (hj : j ∈ starts) (hk : k < (h.view i).size) (ht : h.TracedAt j (i + k)) :
    i = j ∧ (h.view i).IsTraced k := by
  obtain ⟨l, heq, hl'⟩ := ht
  obtain ⟨rfl, rfl⟩ := hl.tiles.offset_inj hi hj hk hl'.bounds.2 heq
  exact ⟨rfl, hl'⟩

/-- The walk updates the objects it comes to: `done` have been updated already. -/
private theorem remapFrom_spec (hl : h.LaidOut starts)
    (hmovable : ∀ i ∈ starts, Movable t move (h.view i)) {done rest : List Nat}
    (hsplit : starts = done ++ rest) {h₁ : Heap} (hm : Moves move (h.TracedIn done) h h₁)
    {first fuel : Nat} (ht : Tiles h.sizeOf first rest h.top) (hfuel : rest.length ≤ fuel) :
    ∃ h', h₁.remapFrom t first fuel = .ok h' ∧ Moves move (h.TracedIn starts) h h' := by
  induction rest generalizing done h₁ first fuel with
  | nil =>
    cases ht
    have hdone : done = starts := by simpa using hsplit.symm
    refine ⟨h₁, ?_, hdone ▸ hm⟩
    cases fuel with
    | zero => rfl
    | succ fuel => rw [remapFrom, hm.top, if_neg (Nat.lt_irrefl _)]
  | cons i rest ih =>
    obtain ⟨fuel, rfl⟩ : ∃ n, fuel = n + 1 :=
      ⟨fuel - 1, by simp only [List.length_cons] at hfuel; omega⟩
    cases ht with
    | cons htail =>
      have hi : i ∈ starts := by simp [hsplit]
      have hsub : ∀ j ∈ done, j ∈ starts ∧ j < i := by
        intro j hj
        have htiles := hl.tiles
        rw [hsplit] at htiles
        exact ⟨by simp [hsplit, hj], htiles.split_at.1.lt_last h.sizeOf_pos hj⟩
      -- The objects before this one are other objects, so this one is as it was.
      have hnot : ∀ k, k < (h.view i).size → ¬ h.TracedIn done (i + k) := by
        rintro k hk ⟨j, hj, hjk⟩
        have := (hl.tracedAt_unique hi (hsub j hj).1 hk hjk).1
        have := (hsub j hj).2
        omega
      have hwords : ∀ k, k < (h.view i).size → h₁.view i k = h.view i k := fun k hk =>
        hm.kept _ (hnot k hk)
      have htwo := (h.view i).two_le_size
      have hheader : (h₁.view i).header = (h.view i).header :=
        congrArg Header.mk (hwords 0 (by omega))
      have hsame : View.Agrees (h.view i) (h₁.view i) :=
        View.agrees_of_words (hl.readable i hi) (by rw [hheader]; exact .refl _) fun k _ hk =>
          hwords k hk
      have hmovable₁ : Movable t move (h₁.view i) := by
        intro k hk
        have hk' := (hsame.isTraced_iff k).mp hk
        have href : (h₁.view i).ref k = (h.view i).ref k := congrArg Ref.mk (hwords k hk'.bounds.2)
        rw [href]
        exact hmovable i hi k hk'
      have hfit₁ : i + (h₁.view i).size ≤ h₁.memory.size := by
        rw [hsame.size_eq, hm.size]
        exact hl.fits_memory hi
      have haddr₁ : h₁.memory.size ≤ Ref.addressLimit := by
        rw [hm.size]
        exact hl.addressable
      have hreadable₁ := hsame.readable (hl.readable i hi)
      have hshape : Header.SameShape (h.view i).header (h₁.view i).header := by
        rw [hheader]
        exact .refl _
      obtain ⟨h₂, hobject, hm₂⟩ := remapObject_spec hreadable₁ hshape hfit₁ haddr₁ hmovable₁
      have hagree : View.Agrees (h₁.view i) (h₂.view i) := by
        refine hm₂.agrees hreadable₁ hmovable₁ fun k _ hk => ?_
        obtain ⟨l, heq, hl'⟩ := hk
        have : k = l := by omega
        exact this ▸ hl'
      have htraced : ∀ p, h₁.TracedAt i p ↔ h.TracedAt i p := fun p =>
        exists_congr fun k => and_congr_right fun _ => hsame.isTraced_iff k
      have hm' : Moves move (h.TracedIn (done ++ [i])) h h₂ := by
        refine (hm.trans (hm₂.congr htraced) ?_).congr fun p => ?_
        · rintro p hp ⟨k, rfl, hk⟩
          exact hnot k hk.bounds.2 hp
        · simp only [TracedIn, List.mem_append, List.mem_singleton]
          constructor
          · rintro (⟨j, hj, hjp⟩ | hip)
            · exact ⟨j, .inl hj, hjp⟩
            · exact ⟨i, .inr rfl, hip⟩
          · rintro ⟨j, hj | rfl, hjp⟩
            · exact .inl ⟨j, hj, hjp⟩
            · exact .inr hjp
      have hsize : h₂.sizeAt i (h.view i).header = .ok (h.view i).size := by
        have hboth : (h₂.view i).size = (h.view i).size := hagree.size_eq.trans hsame.size_eq
        rw [← hboth]
        refine sizeAt_eq (hagree.readable hreadable₁) ?_ ?_ ?_
        · rw [← hheader]
          exact hagree.header.symm
        · rw [hboth, hm₂.size, hm.size]
          exact hl.fits_memory hi
        · rw [hm₂.size]
          exact haddr₁
      obtain ⟨h', hrun, hfinal⟩ := ih (by simp [hsplit]) hm' htail (by simpa using hfuel)
      refine ⟨h', ?_, hfinal⟩
      have hlt : i < h₁.top := by
        rw [hm.top]
        exact hl.lt_top hi
      have hread : h₁.headerAt i = .ok (h.view i).header := by
        rw [← hheader]
        refine headerAt_eq (hl.first_le hi) hlt ?_ hreadable₁.valid
        rw [hm.top, hm.size]
        exact hl.committed
      rw [remapFrom, if_pos hlt, hread]
      show (h₁.remapObject t i (h.view i).header >>= _) = _
      rw [hobject]
      show (h₂.sizeAt i (h.view i).header >>= _) = _
      rw [hsize]
      exact hrun

/-- The traced words of all objects are updated, each of them once, and no others. -/
theorem remap_spec (hl : h.LaidOut starts) (hmovable : ∀ i ∈ starts, Movable t move (h.view i)) :
    ∃ h', h.remap t = .ok h' ∧ Moves move (h.TracedIn starts) h h' := by
  have hfuel : starts.length ≤ h.top := by
    have := hl.tiles.two_mul_length_le fun i => View.two_le_size _
    omega
  have hnone : Moves move (h.TracedIn []) h h := .refl fun p ⟨i, hi, _⟩ => by simp at hi
  exact remapFrom_spec hl hmovable rfl hnone hl.tiles hfuel

end Walk

end ObjectMachine.Heap
