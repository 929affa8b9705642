import ObjectMachine.Heap.Layout

/-!
# Marking

The first phase of a collection sets the mark of every object that can be reached from the roots. A
work list holds the references still to be followed; it may hold a reference more than once, and it
is bounded. Each object is expanded only when it is met unmarked, so marking ends: either there are
fewer unmarked words than before, or just as many and a shorter work list.
-/

namespace ObjectMachine.Heap

/-- The number of words without a mark. -/
def unmarkedWords (h : Heap) : Nat :=
  h.memory.countP fun bits => !(⟨bits⟩ : Header).isMarked

/-- Marks the header at a position. -/
@[inline] def setMark (h : Heap) (index : Nat) (header : Header) : Heap :=
  { h with memory := h.memory.setIfInBounds index header.marked.bits }

/-- A header that was found is the word at its position. -/
theorem word_of_headerAt {h : Heap} {index : Nat} {header : Header}
    (hh : h.headerAt index = .ok header) :
    ∃ hi : index < h.memory.size, h.memory[index] = header.bits := by
  unfold headerAt word at hh
  split at hh
  · simp at hh
  · split at hh
    · rename_i bits hb
      split at hb
      · rename_i hi
        simp only [Except.ok.injEq] at hb
        split at hh
        · simp only [Except.ok.injEq] at hh
          exact ⟨hi, by rw [hb, ← hh]⟩
        · simp at hh
      · simp at hb
    · simp at hh

/-- Setting a mark leaves fewer unmarked words. -/
theorem unmarkedWords_setMark_lt {h : Heap} {index : Nat} {header : Header}
    (hh : h.headerAt index = .ok header) (hm : header.isMarked = false) :
    (h.setMark index header).unmarkedWords < h.unmarkedWords := by
  obtain ⟨hi, hw⟩ := word_of_headerAt hh
  simp only [unmarkedWords, setMark, Array.setIfInBounds, hi, dite_true, Array.countP_set, hw]
  have hpos : 0 < h.memory.countP fun bits => !(⟨bits⟩ : Header).isMarked :=
    Array.countP_pos_iff.mpr ⟨h.memory[index], Array.getElem_mem hi, by simp [hw, hm]⟩
  have hmarked : (⟨header.marked.bits⟩ : Header).isMarked = true := header.isMarked_marked
  simp only [hm, hmarked, Bool.not_false, Bool.not_true, ite_true, Bool.false_eq_true, ite_false]
  omega

/-- Adds a reference to the work list if it designates an object. -/
@[inline] def pushWork (limit : Nat) (work : Array Ref) (r : Ref) : Except Fatal (Array Ref) :=
  if r.isPointer then
    if work.size < limit then .ok (work.push r) else .error (.markStackOverflow limit)
  else .ok work

/-- Adds the references at `count` positions from `index` on. -/
def pushSlots (h : Heap) (limit : Nat) (index : Nat) :
    Nat → Array Ref → Except Fatal (Array Ref)
  | 0, work => .ok work
  | count + 1, work =>
    match h.slot index with
    | .error e => .error e
    | .ok r =>
      match pushWork limit work r with
      | .error e => .error e
      | .ok work => h.pushSlots limit (index + 1) count work

/-- Adds the class and the reference slots of an object. -/
def pushObject (h : Heap) (index : Nat) (header : Header) (work : Array Ref) :
    Except Fatal (Array Ref) := do
  let limit := h.config.markLimit
  let work ← pushWork limit work (← h.slot (index + 1))
  let slots ← h.referenceSlotsAt index header
  let work ← h.pushSlots limit slots.fixedStart (slots.fixedEnd - slots.fixedStart) work
  h.pushSlots limit slots.tailStart (slots.tailEnd - slots.tailStart) work

/-- Adds roots to the work list. -/
def pushRoots (limit : Nat) (work : Array Ref) (roots : List Ref) : Except Fatal (Array Ref) :=
  roots.foldlM (pushWork limit) work

/-- Follows the references of the work list, the last one first. Answers the heap and the number of
objects marked. -/
def markFrom (h : Heap) (work : Array Ref) (marked : Nat) : Except Fatal (Heap × Nat) :=
  if _hw : 0 < work.size then
    let index := work[work.size - 1].wordIndex
    match _hh : h.headerAt index with
    | .error e => .error e
    | .ok header =>
      if _hm : header.isMarked then h.markFrom work.pop marked
      else
        let h' := h.setMark index header
        match h'.pushObject index header work.pop with
        | .error e => .error e
        | .ok work => h'.markFrom work (marked + 1)
  else .ok (h, marked)
termination_by (h.unmarkedWords, work.size)
decreasing_by
  · apply Prod.Lex.right
    simp only [Array.size_pop]
    omega
  · apply Prod.Lex.left
    exact unmarkedWords_setMark_lt _hh (by simpa using _hm)

/-- Marks all objects that can be reached from the roots and from nil. -/
def mark (h : Heap) (roots : List Ref) : Except Fatal (Heap × Nat) := do
  let work ← pushRoots h.config.markLimit #[] roots
  let work ← pushWork h.config.markLimit work h.nil
  h.markFrom work 0

end ObjectMachine.Heap
