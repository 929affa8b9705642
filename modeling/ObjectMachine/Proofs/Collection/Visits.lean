import ObjectMachine.Proofs.Collection.Marking

/-!
# Every object is marked once

The work list of marking holds references more than once, and references to objects that are marked
already, so it may well be longer than there are objects. But an object is marked only when it is met
without its mark, and its references are added to the list then and never again. So the objects come
to be marked one after the other without repetition, and the list never holds more than the roots, nil
and the references of all objects together.

## Main results

* `markFrom_visits`: the loop marks a list of objects, none of them twice.
* `mark_marksOnce`: with that much room, marking comes to an end, and marks exactly what can be
  reached.
-/

namespace ObjectMachine.Heap

/-! ## One object after the other -/

/-- Marks the object that begins at a position. -/
def markAt (h : Heap) (i : Nat) : Heap := h.setMark i (h.view i).header

theorem size_markAt (h : Heap) (i : Nat) : (h.markAt i).memory.size = h.memory.size :=
  size_poke ..

theorem isMarkedAt_markAt {h : Heap} {i : Nat} (hi : i < h.memory.size) (j : Nat) :
    (h.markAt i).isMarkedAt j = true ↔ j = i ∨ h.isMarkedAt j = true := by
  by_cases hj : j = i
  · subst hj
    simp [markAt, isMarkedAt_setMark_self hi]
  · simp [markAt, isMarkedAt_setMark_ne hj, hj]

/-- A header that was found is what the object at its position shows. -/
theorem header_of_headerAt {h : Heap} {i : Nat} {header : Header} (hh : h.headerAt i = .ok header) :
    i < h.memory.size ∧ header = (h.view i).header := by
  obtain ⟨hi, hword⟩ := word_of_headerAt hh
  refine ⟨hi, ?_⟩
  have hcell : h.cell i = header.bits := by
    rw [cell, Array.getD_eq_getD_getElem?, Array.getElem?_eq_getElem hi, hword]
    rfl
  show header = ⟨h.cell (i + 0)⟩
  rw [Nat.add_zero, hcell]

/-- Objects that are marked one after the other: each of them begins inside memory and is not marked
before, and none comes twice. -/
structure Visits (h : Heap) (visited : List Nat) : Prop where
  once : visited.Nodup
  inside : ∀ i ∈ visited, i < h.memory.size
  unmarked : ∀ i ∈ visited, h.isMarkedAt i = false

namespace Visits

variable {h : Heap} {i : Nat} {visited : List Nat}

theorem nil (h : Heap) : h.Visits [] := ⟨.nil, by simp, by simp⟩

/-- One more object may come first: those after it are not marked yet when it has been marked, so it
is none of them. -/
theorem cons (hi : i < h.memory.size) (hm : h.isMarkedAt i = false)
    (hv : (h.markAt i).Visits visited) : h.Visits (i :: visited) := by
  have hlater : ∀ j ∈ visited, j ≠ i ∧ h.isMarkedAt j = false := by
    intro j hj
    have hnot := hv.unmarked j hj
    rw [← Bool.not_eq_true, isMarkedAt_markAt hi, not_or, Bool.not_eq_true] at hnot
    exact hnot
  refine ⟨List.nodup_cons.mpr ⟨fun hmem => (hlater i hmem).1 rfl, hv.once⟩, ?_, ?_⟩
  · intro j hj
    rcases List.mem_cons.mp hj with rfl | hmem
    · exact hi
    · exact size_markAt h i ▸ hv.inside j hmem
  · intro j hj
    rcases List.mem_cons.mp hj with rfl | hmem
    · exact hm
    · exact (hlater j hmem).2

theorem tail (hv : h.Visits (i :: visited)) : (h.markAt i).Visits visited where
  once := (List.nodup_cons.mp hv.once).2
  inside j hj := by
    rw [size_markAt]
    exact hv.inside j (List.mem_cons_of_mem _ hj)
  unmarked j hj := by
    have hne : j ≠ i := fun heq => (List.nodup_cons.mp hv.once).1 (heq ▸ hj)
    rw [markAt, isMarkedAt_setMark_ne hne]
    exact hv.unmarked j (List.mem_cons_of_mem _ hj)

/-- Afterwards the marked objects are those that were marked and those visited. -/
theorem isMarkedAt_iff (hv : h.Visits visited) (j : Nat) :
    (visited.foldl markAt h).isMarkedAt j = true ↔ j ∈ visited ∨ h.isMarkedAt j = true := by
  induction visited generalizing h with
  | nil => simp
  | cons i visited ih =>
    rw [List.foldl_cons, ih hv.tail, isMarkedAt_markAt (hv.inside i List.mem_cons_self),
      List.mem_cons]
    tauto

/-- The words of the visited objects, and of all else. -/
theorem cell_eq (hv : h.Visits visited) (p : Nat) :
    (visited.foldl markAt h).cell p =
      if p ∈ visited then (⟨h.cell p⟩ : Header).marked.bits else h.cell p := by
  induction visited generalizing h with
  | nil => simp
  | cons i visited ih =>
    have hi := hv.inside i List.mem_cons_self
    rw [List.foldl_cons, ih hv.tail]
    by_cases hpi : p = i
    · subst hpi
      rw [if_neg (List.nodup_cons.mp hv.once).1, if_pos List.mem_cons_self]
      exact cell_poke_self hi _
    · have hkept : (h.markAt i).cell p = h.cell p := cell_poke_ne hpi _
      simp only [List.mem_cons, hpi, false_or, hkept]

end Visits

/-- The loop marks objects one after the other, none of them twice, and counts them. -/
theorem markFrom_visits {h h' : Heap} {work : Array Ref} {n n' : Nat}
    (hrun : h.markFrom work n = .ok (h', n')) :
    ∃ visited, h.Visits visited ∧ h' = visited.foldl markAt h ∧ n' = n + visited.length := by
  -- The recursion of the loop: a marked object is passed over, any other comes first of the rest.
  fun_induction markFrom h work n with
  | case1 => cases hrun
  | case2 h work n hpos index header hh hm ih => exact ih hrun
  | case3 => cases hrun
  | case4 h work n hpos index header hh hm marked work' hpush ih =>
    obtain ⟨hi, rfl⟩ := header_of_headerAt hh
    obtain ⟨visited, hv, hheap, hcount⟩ := ih hrun
    have hun : h.isMarkedAt index = false := by
      rw [← Bool.not_eq_true]
      exact hm
    refine ⟨index :: visited, .cons hi hun hv, hheap, ?_⟩
    rw [hcount, List.length_cons]
    omega
  | case5 h work n hpos =>
    cases hrun
    exact ⟨[], .nil _, rfl, rfl⟩

/-! ## Exactly what can be reached -/

/-- The number of reference slots of an object. -/
def slotCount (h : Heap) (o : Ref) : Nat :=
  match h.referenceSlots o with
  | .ok slots => slots.count
  | .error _ => 0

/-- Room on the work list for the roots that designate objects, for nil, and for the class and the
reference slots of every object. -/
def markingRoom (h : Heap) (roots objects : List Ref) : Nat :=
  roots.countP Ref.isPointer + 1 + (objects.map fun o => 1 + h.slotCount o).sum

/-- Marking as it should be: the objects in `visited`, in this order, have been marked, each of them
once. They are those that can be reached, and nothing but their marks has changed. -/
structure MarksOnce (h : Heap) (roots visited : List Ref) (h' : Heap) : Prop where
  once : visited.Nodup
  reachable : ∀ o, o ∈ visited ↔ h.Reachable roots o
  steps : h' = visited.foldl (fun g o => g.markAt o.wordIndex) h
  marked : ∀ o ∈ visited, h'.cell o.wordIndex = (⟨h.cell o.wordIndex⟩ : Header).marked.bits
  kept : ∀ p, (∀ o ∈ visited, o.wordIndex ≠ p) → h'.cell p = h.cell p
  size : h'.memory.size = h.memory.size
  rest : { h' with memory := h.memory } = h

/-- Marking succeeds if the work list has room for the roots, for nil and for the class and the
reference slots of every object, whatever the references lead to. It marks every object that can be
reached, each of them once and no others, answers their number, and changes nothing but marks. -/
theorem mark_marksOnce {h : Heap} {starts : List Nat} {roots objects : List Ref}
    (hw : h.WellFormed starts) (hr : h.RootsIn starts roots) (hobjects : h.objects = .ok objects)
    (hroom : h.markingRoom roots objects ≤ h.config.markLimit) :
    ∃ h' visited, h.mark roots = .ok (h', visited.length) ∧ h.MarksOnce roots visited h' := by
  have hsum : (starts.map fun i => (h.referencesAt i).length).sum =
      (objects.map fun o => 1 + h.slotCount o).sum := by
    rw [hw.objects_eq] at hobjects
    cases hobjects
    rw [List.map_map]
    refine congrArg List.sum (List.map_congr_left fun i hi => ?_)
    rw [length_referencesAt, Function.comp_apply, slotCount, hw.referenceSlots hi]
  rcases mark_spec hw hr with ⟨-, hlimit⟩ | ⟨h', n, hok, hm, hiff, -⟩
  · unfold markingRoom at hroom
    omega
  · -- The run of the loop behind this answer.
    obtain ⟨work, hrun⟩ : ∃ work, h.markFrom work 0 = .ok (h', n) := by
      rw [mark_eq] at hok
      cases hwork : pushRoots h.config.markLimit #[] (roots ++ [h.nil]) with
      | error e => rw [hwork] at hok; cases hok
      | ok work => rw [hwork] at hok; exact ⟨work, hok⟩
    obtain ⟨visited, hv, hheap, hcount⟩ := markFrom_visits hrun
    have hmarked : ∀ i, h'.isMarkedAt i = true ↔ i ∈ visited ∨ h.isMarkedAt i = true := by
      rw [hheap]
      exact hv.isMarkedAt_iff
    -- Outside the objects there are no marks to set.
    have hstarts : ∀ i ∈ visited, i ∈ starts := by
      intro i hi
      by_contra hnot
      have hset := (hmarked i).mpr (.inl hi)
      have hsame : h'.isMarkedAt i = h.isMarkedAt i :=
        congrArg (fun bits => (⟨bits⟩ : Header).isMarked) (hm.cell (i + 0) (by simpa using hnot))
      rw [hsame, hv.unmarked i hi] at hset
      cases hset
    have hvisited : ∀ i ∈ starts, i ∈ visited ↔ h.Reachable roots (.ofWordIndex i) := by
      intro i hi
      rw [← hiff i hi, hmarked]
      have hun : h.isMarkedAt i = false := hw.unmarked i hi
      simp [hun]
    have hindex : ∀ i ∈ visited, (Ref.ofWordIndex i).wordIndex = i := fun i hi =>
      hw.wordIndex (hstarts i hi)
    have hcell : ∀ p, h'.cell p =
        if p ∈ visited then (⟨h.cell p⟩ : Header).marked.bits else h.cell p := by
      rw [hheap]
      exact hv.cell_eq
    refine ⟨h', visited.map Ref.ofWordIndex, by rw [hok, hcount, List.length_map, Nat.zero_add], ?_⟩
    refine
      { once := hv.once.map_on fun i hi j hj =>
          hw.ofWordIndex_inj (hstarts i hi) (hstarts j hj)
        reachable := fun o => ⟨fun ho => ?_, fun ho => ?_⟩
        steps := ?_
        marked := fun o ho => ?_
        kept := fun p hp => ?_
        size := hm.size
        rest := hm.rest }
    · obtain ⟨i, hi, rfl⟩ := List.mem_map.mp ho
      exact (hvisited i (hstarts i hi)).mp hi
    · obtain ⟨i, hi, rfl⟩ := hw.designates_of_reachable hr ho
      exact List.mem_map.mpr ⟨i, (hvisited i hi).mpr ho, rfl⟩
    · rw [hheap, List.foldl_map]
      exact List.foldl_ext _ _ _ fun g i hi => by rw [hindex i hi]
    · obtain ⟨i, hi, rfl⟩ := List.mem_map.mp ho
      rw [hindex i hi, hcell, if_pos hi]
    · rw [hcell, if_neg]
      intro hmem
      exact hp _ (List.mem_map.mpr ⟨p, hmem, rfl⟩) (hindex p hmem)

/-- The two ends of the ring take room for seven references, and there is far more by default. -/
theorem ringWithGap_marksOnce : ∃ h' visited, ringWithGap.mark [.ofWordIndex 6] =
    .ok (h', visited.length) ∧ ringWithGap.MarksOnce [.ofWordIndex 6] visited h' :=
  mark_marksOnce ringWithGap_wellFormed ringWithGap_rootsIn ringWithGap_laidOut.objects_eq
    (by decide)

end ObjectMachine.Heap
