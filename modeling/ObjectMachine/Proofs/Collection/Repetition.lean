import ObjectMachine.Proofs.Collection.Preservation
import ObjectMachine.Proofs.Collection.Visits

/-!
# Collecting again

A collection leaves nothing to be done: a second one that follows at once finds the objects packed,
all of them reachable, and every reference where it belongs.

That the second one comes to an end is a matter of its work list. It follows the same references in
the same order, only to other places, so the two work lists have the same length at every step, and
the second does not overflow if the first did not.

## Main results

* `Collects.mark_again`: marking after a collection goes as it went before.
* `Collects.reachable_moveRef`: the survivors can be reached from the new roots.
* `collect_again`: a second collection answers the heap that it was given.
-/

namespace ObjectMachine

/-! ## References by their offsets -/

/-- The offsets of the words that a collection follows, in the order in which it does. -/
def View.tracedOffsets (o : View) : List Nat :=
  1 :: if o.format.hasReferenceTail then
      List.range' headerWords o.fields ++ List.range' o.elements o.live
    else if o.format = .plain then List.range' headerWords o.fields
    else []

theorem View.Agrees.tracedOffsets_eq {o o' : View} (h : Agrees o o') :
    o'.tracedOffsets = o.tracedOffsets := by
  simp only [tracedOffsets, elements, h.format_eq, h.fields_eq, h.live_eq]

namespace Heap

theorem referencesAt_eq_map (h : Heap) (i : Nat) :
    h.referencesAt i = (h.view i).tracedOffsets.map (h.view i).ref := by
  have hshift : ∀ first count : Nat, (List.range' (i + first) count).map (fun p => (⟨h.cell p⟩ : Ref)) =
      (List.range' first count).map (h.view i).ref := by
    intro first count
    rw [← List.map_add_range', List.map_map]
    rfl
  unfold referencesAt View.tracedOffsets slotsAt ReferenceSlots.positions
  rw [List.map_cons]
  refine congrArg _ ?_
  dsimp only
  split
  · have htail : i + headerWords + (h.view i).fields + 1 = i + (h.view i).elements := by
      unfold View.elements
      omega
    simp only [Nat.add_sub_cancel_left, List.map_append, htail, hshift]
  · split <;> simp [hshift]

theorem isTraced_of_mem_tracedOffsets {h : Heap} {i k : Nat}
    (hk : k ∈ (h.view i).tracedOffsets) : (h.view i).IsTraced k := by
  rcases List.mem_cons.mp hk with rfl | hmem
  · exact .inl rfl
  · refine .inr ?_
    unfold View.IsSlot
    split at hmem
    · rename_i htail
      have hfields : (h.view i).format.allowsFields = true := by
        cases hf : (h.view i).format <;> simp_all [Format.hasReferenceTail, Format.allowsFields]
      rcases List.mem_append.mp hmem with hfixed | helement
      · exact .inl ⟨hfields, by simpa using hfixed⟩
      · exact .inr ⟨htail, by simpa using helement⟩
    · split at hmem
      · rename_i hplain
        exact .inl ⟨by rw [hplain]; rfl, by simpa using hmem⟩
      · cases hmem

/-! ## The same work list in other places -/

section WorkList

variable {f : Ref → Ref} {limit : Nat}

theorem pushWork_map {r : Ref} (hr : (f r).isPointer = r.isPointer) (work : Array Ref) :
    pushWork limit (work.map f) (f r) = (pushWork limit work r).map (Array.map f) := by
  unfold pushWork
  rw [hr, Array.size_map]
  split
  · split
    · simp [Except.map]
    · rfl
  · rfl

/-- References that are moved are added where the others are. -/
theorem pushRoots_map {refs : List Ref} (hrefs : ∀ r ∈ refs, (f r).isPointer = r.isPointer)
    (work : Array Ref) :
    pushRoots limit (work.map f) (refs.map f) = (pushRoots limit work refs).map (Array.map f) := by
  induction refs generalizing work with
  | nil => rfl
  | cons r refs ih =>
    show (pushWork limit (work.map f) (f r) >>= (pushRoots limit · (refs.map f))) =
      (pushWork limit work r >>= (pushRoots limit · refs)).map _
    rw [pushWork_map (hrefs r List.mem_cons_self)]
    cases pushWork limit work r with
    | error e => rfl
    | ok work' => exact ih (fun s hs => hrefs s (List.mem_cons_of_mem _ hs)) work'

end WorkList

namespace Collects

variable {h₀ : Heap} {starts : List Nat} {live : Nat → Bool} {roots : List Ref} {c : Collected}

/-- A survivor refers to what it referred to, and in the same order. -/
theorem referencesAt_slide (hc : h₀.Collects starts live roots c) (hw : h₀.WellFormed starts)
    {i : Nat} (hi : i ∈ starts) (hlive : live i = true) :
    c.heap.referencesAt (slide h₀.sizeOf live starts i) =
      (h₀.referencesAt i).map (h₀.moveRef starts live) := by
  rw [referencesAt_eq_map, referencesAt_eq_map, (hc.agrees hw hi hlive).tracedOffsets_eq,
    List.map_map]
  exact List.map_congr_left fun k hk =>
    hc.ref_of_isTraced hi hlive (isTraced_of_mem_tracedOffsets hk)

/-- Memory while it is marked after a collection, and while it was marked before, with the same
objects marked. -/
structure Mirrors (h₀ : Heap) (starts : List Nat) (live : Nat → Bool) (c : Collected)
    (h g : Heap) : Prop where
  marks : MarksOnly c.heap g (h₀.survivors starts live)
  same : ∀ i ∈ starts, live i = true →
    g.isMarkedAt (slide h₀.sizeOf live starts i) = h.isMarkedAt i

section Marking

variable (hc : h₀.Collects starts live roots c) (hw : h₀.WellFormed starts)
  (hr : h₀.RootsIn starts roots) (hk : h₀.KeepsReachable starts live roots)
include hc hw

/-- Marking one more object, here and there. -/
theorem Mirrors.markAt {h g : Heap} (hm : Mirrors h₀ starts live c h g) {i : Nat} (hi : i ∈ starts)
    (hlive : live i = true) (hsize : i < h.memory.size) (hunmarked : h.isMarkedAt i = false) :
    Mirrors h₀ starts live c (h.markAt i) (g.markAt (slide h₀.sizeOf live starts i)) := by
  have hj : slide h₀.sizeOf live starts i ∈ h₀.survivors starts live :=
    mem_survivors.mpr ⟨i, hi, hlive, rfl⟩
  have hsize' : slide h₀.sizeOf live starts i < g.memory.size := by
    rw [hm.marks.size]
    exact Nat.lt_of_lt_of_le ((hc.laidOut hw).lt_top hj) (hc.laidOut hw).committed
  refine ⟨hm.marks.setMark hj hsize' (by rw [hm.same i hi hlive, hunmarked]), ?_⟩
  intro k hki hklive
  have hslide : slide h₀.sizeOf live starts k = slide h₀.sizeOf live starts i ↔ k = i :=
    ⟨hw.tiles.slide_inj h₀.sizeOf_pos hki hi hklive hlive, fun heq => by rw [heq]⟩
  rw [Bool.eq_iff_iff, isMarkedAt_markAt hsize', isMarkedAt_markAt hsize, hslide,
    hm.same k hki hklive]

include hr hk

/-- A work list that does not overflow before a collection does not overflow after it either: it
holds the same references, moved. -/
theorem markFrom_again {h h' : Heap} {work : Array Ref} {n n' : Nat}
    (ht : Tracing h₀ starts roots h work n) (hrun : h.markFrom work n = .ok (h', n')) :
    ∀ g, Mirrors h₀ starts live c h g →
      ∃ g', g.markFrom (work.map (h₀.moveRef starts live)) n = .ok (g', n') := by
  have hl' := hc.laidOut hw
  -- What the next step finds before a collection, and what it finds after it, in another place.
  have hnext : ∀ {h g : Heap} {work : Array Ref} {n : Nat}, Tracing h₀ starts roots h work n →
      Mirrors h₀ starts live c h g → ∀ hpos : 0 < work.size,
      ∃ i ∈ starts, live i = true ∧ work[work.size - 1].wordIndex = i ∧
        work = work.pop.push (.ofWordIndex i) ∧ h.headerAt i = .ok (h.view i).header ∧
        g.headerAt (slide h₀.sizeOf live starts i) =
          .ok (g.view (slide h₀.sizeOf live starts i)).header := by
    intro h g work n ht hm hpos
    obtain ⟨i, hi, hindex, hwork, hheader⟩ := ht.next hw hr (Nat.sub_one_lt_of_lt hpos)
    have hreach : h₀.Reachable roots (.ofWordIndex i) := by
      refine ht.waiting _ ?_
      rw [hwork]
      exact Array.mem_push_self
    have hlive := (hk i hi).mpr hreach
    have hj : slide h₀.sizeOf live starts i ∈ h₀.survivors starts live :=
      mem_survivors.mpr ⟨i, hi, hlive, rfl⟩
    have hvalid := (hm.marks.sameShape hj).valid
    rw [(hl'.readable _ hj).valid] at hvalid
    exact ⟨i, hi, hlive, hindex, hwork, hheader, headerAt_eq (hl'.first_le hj)
      (hm.marks.top ▸ hl'.lt_top hj) (by rw [hm.marks.top, hm.marks.size]; exact hl'.committed)
      hvalid⟩
  have hmove : ∀ {work : Array Ref} {i : Nat}, i ∈ starts → work = work.pop.push (.ofWordIndex i) →
      work.map (h₀.moveRef starts live) = (work.pop.map (h₀.moveRef starts live)).push
        (.ofWordIndex (slide h₀.sizeOf live starts i)) := by
    intro work i hi hwork
    conv_lhs => rw [hwork]
    rw [Array.map_push, moveRef_ofWordIndex hw.toLaidOut hi]
  fun_induction markFrom h work n with
  | case1 => cases hrun
  | case2 h work n hpos index header hh hmarked ih =>
    intro g hm
    obtain ⟨i, hi, hlive, hindex, hwork, hheader, hheader'⟩ := hnext ht hm hpos
    have hj : slide h₀.sizeOf live starts i ∈ h₀.survivors starts live :=
      mem_survivors.mpr ⟨i, hi, hlive, rfl⟩
    simp only [index, hindex, hheader, Except.ok.injEq] at hh
    have hmi : h.isMarkedAt i = true := by rw [isMarkedAt, hh]; exact hmarked
    have hskip : Tracing h₀ starts roots h work.pop n := by
      rw [hwork] at ht
      exact ht.skip (by rwa [hw.wordIndex hi])
    rw [hmove hi hwork, markFrom_skip n (by rw [hl'.wordIndex hj]; exact hheader')
      ((hm.same i hi hlive).trans hmi)]
    exact ih hskip hrun g hm
  | case3 => cases hrun
  | case4 h work n hpos index header hh hmarked marked work' hpush ih =>
    intro g hm
    obtain ⟨i, hi, hlive, hindex, hwork, hheader, hheader'⟩ := hnext ht hm hpos
    have hj : slide h₀.sizeOf live starts i ∈ h₀.survivors starts live :=
      mem_survivors.mpr ⟨i, hi, hlive, rfl⟩
    simp only [index, hindex, hheader, Except.ok.injEq] at hh
    have hmi : h.isMarkedAt i = false := by
      rw [← Bool.not_eq_true, isMarkedAt, hh]
      exact hmarked
    have hmj : g.isMarkedAt (slide h₀.sizeOf live starts i) = false :=
      (hm.same i hi hlive).trans hmi
    have hsize : i < h.memory.size := by
      rw [ht.marks.size]
      exact Nat.lt_of_lt_of_le (hw.lt_top hi) hw.committed
    have hm' := hm.markAt hc hw hi hlive hsize hmi
    have hmarks : MarksOnly h₀ (h.markAt i) starts := ht.marks.setMark hi hsize hmi
    simp only [marked, index, hindex, ← hh] at hpush ih hrun
    have hadded := hmarks.pushObject_eq hw hi (ht.marks.sameShape hi) work.pop
    have hadded' : (g.markAt (slide h₀.sizeOf live starts i)).pushObject
        (slide h₀.sizeOf live starts i) (g.view (slide h₀.sizeOf live starts i)).header
        (work.pop.map (h₀.moveRef starts live)) = .ok (work'.map (h₀.moveRef starts live)) := by
      rw [hm'.marks.pushObject_eq (hc.wellFormed hw hr hk) hj (hm.marks.sameShape hj),
        hc.referencesAt_slide hw hi hlive, hc.config, pushRoots_map, ← hadded]
      · exact congrArg (Except.map (Array.map (h₀.moveRef starts live))) hpush
      · intro r hmem
        obtain ⟨k, htraced, rfl⟩ := mem_referencesAt.mp hmem
        exact isPointer_moveRef hw.toLaidOut (hw.traced i hi k htraced)
    have hvisit : Tracing h₀ starts roots (h.markAt i) work' (n + 1) := by
      rcases ht.pushes hw hi hmi work.pop with hok | ⟨herr, -⟩
      · rw [hok] at hpush
        cases hpush
        rw [hwork] at ht
        exact ht.visit hw hi hmi
      · rw [herr] at hpush
        cases hpush
    have hindex' := hl'.wordIndex hj
    rw [hmove hi hwork, markFrom_visit n (by rw [hindex']; exact hheader') hmj
      (by rw [hindex']; exact hadded'), hindex']
    exact ih hvisit hrun _ hm'
  | case5 h work n hpos =>
    have hempty : work = #[] := Array.eq_empty_of_size_eq_zero (by omega)
    subst hempty
    cases hrun
    exact fun g _ => ⟨g, by rw [Array.map_empty]; exact markFrom_nil g n'⟩

/-- Marking after a collection goes as it went before. -/
theorem mark_again {h' : Heap} {n : Nat} (hrun : h₀.mark roots = .ok (h', n)) :
    ∃ g, c.heap.mark c.roots = .ok (g, n) := by
  have hroots : ∀ r ∈ roots ++ [h₀.nil],
      (h₀.moveRef starts live r).isPointer = r.isPointer := by
    intro r hmem
    rcases List.mem_append.mp hmem with hroot | hnil
    · exact isPointer_moveRef hw.toLaidOut (hr.roots r hroot)
    · rw [List.mem_singleton.mp hnil]
      exact isPointer_moveRef hw.toLaidOut hr.nil
  rw [mark_eq] at hrun ⊢
  rw [hc.config, hc.roots, hc.nil, ← List.map_singleton, ← List.map_append,
    ← Array.map_empty (f := h₀.moveRef starts live), pushRoots_map hroots]
  rcases pushRoots_pushes h₀.config.markLimit #[] (roots ++ [h₀.nil]) with hok | ⟨herr, -⟩
  · rw [hok] at hrun ⊢
    refine hc.markFrom_again hw hr hk (Tracing.start hw) hrun c.heap ⟨.refl _ _, fun i hi hlive => ?_⟩
    have hun : h₀.isMarkedAt i = false := hw.unmarked i hi
    rw [isMarkedAt, hc.header_eq hi hlive, hw.unmarked i hi, hun]
  · rw [herr] at hrun
    cases hrun

/-- What could be reached can be reached from the new roots. -/
theorem reachable_moveRef {r : Ref} (hreach : h₀.Reachable roots r) :
    c.heap.Reachable c.roots (h₀.moveRef starts live r) := by
  have hl := hw.toLaidOut
  induction hreach with
  | @root r hmem hp =>
    refine .root ?_ ((isPointer_moveRef hl (hr.roots r hmem)).trans hp)
    rw [hc.roots]
    exact List.mem_map_of_mem hmem
  | nil hp =>
    rw [← hc.nil]
    refine .nil ?_
    rw [hc.nil, isPointer_moveRef hl hr.nil, hp]
  | step hfrom hrefers ih =>
    obtain ⟨i, hi, hlive, rfl⟩ := hk.live_of_reachable hw hr hfrom
    obtain ⟨hp, k, htraced, rfl⟩ := (hw.refers_iff hi).mp hrefers
    have hj : slide h₀.sizeOf live starts i ∈ h₀.survivors starts live :=
      mem_survivors.mpr ⟨i, hi, hlive, rfl⟩
    rw [moveRef_ofWordIndex hl hi] at ih
    refine .step ih (((hc.laidOut hw).refers_iff hj).mpr
      ⟨?_, k, ((hc.agrees hw hi hlive).isTraced_iff k).mpr htraced,
        hc.ref_of_isTraced hi hlive htraced⟩)
    rw [isPointer_moveRef hl (hw.traced i hi k htraced), hp]

/-- No survivor of a collection is garbage for the next one. -/
theorem survivors_reachable {j : Nat} (hj : j ∈ h₀.survivors starts live) :
    c.heap.Reachable c.roots (.ofWordIndex j) := by
  obtain ⟨i, hi, hlive, rfl⟩ := mem_survivors.mp hj
  rw [← moveRef_ofWordIndex hw.toLaidOut hi]
  exact hc.reachable_moveRef hw hr hk ((hk i hi).mp hlive)

end Marking

/-! ## A collection without garbage -/

section NoGarbage

variable (hc : h₀.Collects starts live roots c) (hw : h₀.WellFormed starts)
  (hall : ∀ i ∈ starts, live i = true)
include hw hall

theorem slide_eq_self {i : Nat} (hi : i ∈ starts) : slide h₀.sizeOf live starts i = i :=
  hw.tiles.slide_eq_self h₀.sizeOf_pos hall hi

theorem moveRef_eq_self {r : Ref} (hr : r.isPointer = true → Designates starts r) :
    h₀.moveRef starts live r = r := by
  by_cases hp : r.isPointer = true
  · obtain ⟨i, hi, rfl⟩ := hr hp
    rw [moveRef_ofWordIndex hw.toLaidOut hi, slide_eq_self hw hall hi]
  · rw [moveRef, if_neg hp]

include hc

theorem top_eq_self : c.heap.top = h₀.top := by
  rw [hc.top, liveWords_of_all hall]
  exact hw.tiles.sum_eq

/-- If nothing died, every word of the objects is what it was. -/
theorem cell_eq_self {p : Nat} (hhi : p < h₀.top) : c.heap.cell p = h₀.cell p := by
  rcases Nat.lt_or_ge p firstWord with hlo | hlo
  · obtain rfl : p = 0 := by
      simp only [firstWord] at hlo
      omega
    exact hc.first
  · obtain ⟨i, hi, k, hk, rfl⟩ := hw.tiles.cover hlo hhi
    have hword := hc.words i hi (hall i hi) k hk
    rw [slide_eq_self hw hall hi] at hword
    refine hword.trans ?_
    split
    · rw [moveRef_eq_self hw hall (hw.traced i hi k ‹_›)]
      rfl
    · rfl

theorem memory_eq_self (hbeyond : ∀ p, h₀.top ≤ p → c.heap.cell p = h₀.cell p) :
    c.heap.memory = h₀.memory := by
  refine Array.ext hc.size fun p hp hp' => ?_
  have hcell : c.heap.cell p = h₀.cell p := by
    rcases Nat.lt_or_ge p h₀.top with hlt | hge
    · exact hc.cell_eq_self hw hall hlt
    · exact hbeyond p hge
  simpa [Heap.cell, hp, hp'] using hcell

/-- A collection without garbage changes only the statistics. -/
theorem heap_eq_self (hr : h₀.RootsIn starts roots)
    (hbeyond : ∀ p, h₀.top ≤ p → c.heap.cell p = h₀.cell p) :
    c.roots = roots ∧ c.reclaimed = 0 ∧
      c.heap = { h₀ with
        sinceCollection := 0
        stats := { h₀.stats with
          collections := h₀.stats.collections + 1
          lastReclaimedBytes := 0
          lastLiveBytes := (h₀.top - firstWord) * wordBytes
          lastMovedObjects := 0 } } := by
  have hdead : starts.filter (fun i => !live i) = [] := by
    simpa [List.filter_eq_nil_iff] using hall
  have hreclaimed : liveWords h₀.sizeOf (fun i => !live i) starts = 0 := by
    rw [liveWords, hdead]
    rfl
  have hkept : liveWords h₀.sizeOf live starts = h₀.top - firstWord := by
    have := hw.tiles.sum_eq
    rw [liveWords_of_all hall]
    omega
  have hmoved : ((starts.filter live).countP
      fun i => decide (slide h₀.sizeOf live starts i ≠ i)) = 0 := by
    rw [List.countP_eq_zero]
    intro i hi
    simpa using slide_eq_self hw hall (List.mem_filter.mp hi).1
  have hstats := hc.stats
  rw [hreclaimed, hkept, hmoved, Nat.zero_mul, Nat.add_zero] at hstats
  refine ⟨?_, by rw [hc.reclaimed, hstats], ?_⟩
  · rw [hc.roots]
    exact (List.map_congr_left fun r hmem => moveRef_eq_self hw hall (hr.roots r hmem)).trans
      (List.map_id roots)
  · have htable := hc.table
    rw [hdead] at htable
    have hnil := hc.nil
    rw [moveRef_eq_self hw hall hr.nil] at hnil
    show Heap.mk .. = _
    rw [hc.memory_eq_self hw hall hbeyond, hc.top_eq_self hw hall, hc.reservedWords,
      hc.sinceCollection, hc.config, hc.hashState, hnil, htable, hstats]
    rfl

end NoGarbage

end Collects

/-- Collecting again changes nothing but the statistics: the second collection reclaims nothing and
moves nothing, and every word, the roots, nil, the first free word and the table of large integers
are what the first one left, and so is the number of bytes that survived. -/
theorem collect_again {h : Heap} {starts : List Nat} {roots : List Ref} {c : Collected}
    (hw : h.WellFormed starts) (hr : h.RootsIn starts roots) (hcollect : h.collect roots = .ok c) :
    ∃ c', c.heap.collect c.roots = .ok c' ∧ c'.reclaimed = 0 ∧ c'.roots = c.roots ∧
      c'.heap = { c.heap with
        stats := { c.heap.stats with
          collections := c.heap.stats.collections + 1
          lastReclaimedBytes := 0
          lastMovedObjects := 0 } } := by
  rcases mark_spec hw hr with ⟨hoverflow, -⟩ | ⟨marked, n, hmark, hm, hk, -⟩
  · unfold collect at hcollect
    rw [hoverflow] at hcollect
    cases hcollect
  obtain ⟨c₁, heq, hc, -⟩ := collect_of_mark hw hr hmark hm hk
  rw [hcollect] at heq
  cases heq
  have hw' := hc.wellFormed hw hr hk
  have hr' := hc.rootsIn hw hr hk
  obtain ⟨g, hagain⟩ := hc.mark_again hw hr hk hmark
  rcases mark_spec hw' hr' with ⟨hoverflow, -⟩ | ⟨marked', n', hmark', hm', hk', -⟩
  · rw [hagain] at hoverflow
    cases hoverflow
  obtain ⟨c', hcollect', hc', hbeyond⟩ := collect_of_mark hw' hr' hmark' hm' hk'
  have hall : ∀ j ∈ h.survivors starts marked.isMarkedAt, marked'.isMarkedAt j = true :=
    fun j hj => (hk' j hj).mpr (hc.survivors_reachable hw hr hk hj)
  obtain ⟨hroots, hreclaimed, hheap⟩ := hc'.heap_eq_self hw' hall hr' hbeyond
  refine ⟨c', hcollect', hreclaimed, hroots, hheap.trans ?_⟩
  have hlive : c.heap.stats.lastLiveBytes = (c.heap.top - firstWord) * wordBytes := by
    rw [hc.stats, hc.top, Nat.add_sub_cancel_left]
  rw [← hlive, ← hc.sinceCollection]

/-- The ring is collected twice; the object between its ends dies the first time. -/
theorem ringWithGap_collect_again : ∃ c c', ringWithGap.collect [.ofWordIndex 6] = .ok c ∧
    c.heap.collect c.roots = .ok c' ∧ c'.reclaimed = 0 ∧ c'.roots = c.roots := by
  obtain ⟨hoverflow, -⟩ | ⟨c, -, hcollect, -⟩ :=
    collect_spec ringWithGap_wellFormed ringWithGap_rootsIn
  · exact absurd hoverflow ringWithGap_mark
  obtain ⟨c', hagain, hreclaimed, hroots, -⟩ :=
    collect_again ringWithGap_wellFormed ringWithGap_rootsIn hcollect
  exact ⟨c, c', hcollect, hagain, hreclaimed, hroots⟩

end Heap

end ObjectMachine
