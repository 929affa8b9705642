import ObjectMachine.Collection.Compact
import ObjectMachine.Proofs.Collection.Marking
import ObjectMachine.Proofs.Collection.Relocation
import ObjectMachine.Proofs.Heap.LargeIntegers

/-!
# Compaction slides the marked objects together

Compaction walks over memory while it overwrites what it has walked over. The invariant says which
words can still be trusted: behind the scan the marked objects lie one after the other where they
belong, and ahead of it nothing has changed. Survivors never go up, so no copy ever reaches a word
that is still to be read.

## Main results

* `getD_copyDown`: copying downwards moves a block, even onto itself.
* `Sliding.keep`, `Sliding.drop`: the two steps of compaction keep the invariant.
* `Sliding.run`: so does the walk as a whole, and it reaches the first free word.
* `compact_spec`: compaction succeeds and answers what `Compacted` describes.
-/

namespace ObjectMachine

/-! ## Copying -/

@[simp] theorem size_copyDown (memory : Array UInt64) (source target n : Nat) :
    (copyDown memory source target n).size = memory.size := by
  induction n generalizing memory source target with
  | zero => rfl
  | succ n ih => simp [copyDown, ih]

/-- Copying downwards moves a block, even onto itself, and leaves the rest alone. -/
theorem getD_copyDown {memory : Array UInt64} {source target n : Nat} (hdown : target < source)
    (hfit : source + n ≤ memory.size) (p : Nat) :
    (copyDown memory source target n).getD p 0 =
      if target ≤ p ∧ p < target + n then memory.getD (source + (p - target)) 0
      else memory.getD p 0 := by
  induction n generalizing memory source target with
  | zero =>
    rw [if_neg (by omega)]
    rfl
  | succ n ih =>
    have hne : ∀ q, q ≠ target →
        (memory.setIfInBounds target (memory.getD source 0)).getD q 0 = memory.getD q 0 := by
      intro q hq
      simp [Ne.symm hq]
    rw [copyDown, ih (by omega) (by simpa using by omega)]
    by_cases hp : p = target
    · subst hp
      rw [if_neg (by omega), if_pos (by omega)]
      simp [show p < memory.size by omega]
    · by_cases hin : target ≤ p ∧ p < target + (n + 1)
      · -- The word read here lies above all words written so far.
        rw [if_pos (by omega), if_pos hin, hne _ (by omega)]
        congr 1
        omega
      · rw [if_neg (by omega), if_neg hin, hne p hp]

namespace Compaction

variable {c : Compaction} {header : Header} {size : Nat}

theorem keep_eq {heap : Heap} {relocation : Relocation}
    (hmove : c.heap.moveDown c.scan c.free size header = .ok heap)
    (hrecord : c.relocation.record c.scan c.free = .ok relocation) :
    c.keep header size = .ok ⟨heap, relocation, c.scan + size, c.free + size,
      if c.free = c.scan then c.moved else c.moved + 1, c.reclaimedWords⟩ := by
  cases c
  simp only [keep]
  rw [hmove]
  show (Relocation.record .. >>= _) = _
  rw [hrecord]
  rfl

theorem drop_eq {heap : Heap} (hfinal : c.heap.finalize c.scan header = .ok heap)
    (hcount : (c.reclaimedWords + size) * wordBytes < countLimit) :
    c.drop header size = .ok ⟨heap, c.relocation, c.scan + size, c.free, c.moved,
      c.reclaimedWords + size⟩ := by
  cases c
  simp only [drop]
  rw [hfinal]
  show (checkedCount _ >>= _) = _
  rw [checkedCount, if_pos hcount]
  rfl

end Compaction

namespace Heap

/-- An object that is moved down is the same one there, without its mark, and no other word
changes. -/
theorem moveDown_spec {h : Heap} {source target size : Nat} (header : Header)
    (hdown : target ≤ source) (hpos : 0 < size) (hfit : source + size ≤ h.memory.size) :
    ∃ h', h.moveDown source target size header = .ok h' ∧ { h' with memory := h.memory } = h ∧
      h'.memory.size = h.memory.size ∧
      (∀ k, k < size → h'.cell (target + k) =
        if k = 0 then header.unmarked.bits else h.cell (source + k)) ∧
      ∀ p, p < target ∨ target + size ≤ p → h'.cell p = h.cell p := by
  by_cases hsame : source = target
  · subst hsame
    have hin : source < h.memory.size := by omega
    refine ⟨h.poke source header.unmarked.bits, ?_, rfl, size_poke .., fun k hk => ?_, fun p hp => ?_⟩
    · simp [moveDown, setWord_eq hin]
    · split
      · subst_vars
        exact cell_poke_self hin _
      · exact cell_poke_ne (by omega) _
    · exact cell_poke_ne (by omega) _
  · let copied : Heap := { h with memory := copyDown h.memory source target size }
    have hsize : copied.memory.size = h.memory.size := size_copyDown ..
    have hin : target < copied.memory.size := by omega
    have hcell : ∀ p, copied.cell p =
        if target ≤ p ∧ p < target + size then h.cell (source + (p - target)) else h.cell p :=
      getD_copyDown (by omega) hfit
    have hmove : h.moveDown source target size header =
        .ok (copied.poke target header.unmarked.bits) := by
      unfold moveDown
      rw [if_neg hsame, require, if_pos (by simpa using hfit)]
      exact setWord_eq hin _
    refine ⟨_, hmove, rfl, by rw [size_poke, hsize], fun k hk => ?_, fun p hp => ?_⟩
    · split
      · subst_vars
        exact cell_poke_self hin _
      · rw [cell_poke_ne (by omega), hcell, if_pos (by omega), Nat.add_sub_cancel_left]
    · rw [cell_poke_ne (by omega), hcell, if_neg (by omega)]

/-! ## Dead large integers -/

/-- The slots of the table of large integers that some objects leave behind. -/
def deadSlots (h : Heap) (starts : List Nat) : List Nat :=
  (starts.filter fun i => !h.isMarkedAt i).filterMap h.largeSlot?

theorem mem_deadSlots {h : Heap} {starts : List Nat} {s : Nat} :
    s ∈ h.deadSlots starts ↔ ∃ i ∈ starts, h.isMarkedAt i = false ∧ h.largeSlot? i = some s := by
  simp only [deadSlots, List.mem_filterMap, List.mem_filter, Bool.not_eq_true', and_assoc]

/-- What a dead object holds outside memory is released. -/
theorem finalize_eq {h : Heap} {i : Nat} (hr : (h.view i).Readable)
    (hfit : i + (h.view i).size ≤ h.memory.size)
    (hheld : ∀ s, h.largeSlot? i = some s → (h.largeIntegers.get? s).isSome = true) :
    h.finalize i (h.view i).header =
      .ok { h with largeIntegers := h.largeIntegers.releaseAll (h.largeSlot? i).toList } := by
  have hformat := format_of_known hr (.refl (h.view i).header)
  unfold finalize
  cases hf : (h.view i).format with
  | largeInteger =>
    rw [hformat, hf]
    have hsize : (h.view i).size = headerWords + 1 := by simp [View.size, hf, Format.sizeInWords]
    show (h.word (i + headerWords) >>= _) = _
    rw [word_eq (by omega)]
    show (if h.cell (i + headerWords) = noSlot then _ else _) = _
    by_cases hnone : h.cell (i + headerWords) = noSlot
    · have hslot : h.largeSlot? i = none := by simp [largeSlot?, hnone]
      rw [if_pos hnone, hslot]
      rfl
    · have hslot : h.largeSlot? i = some (h.cell (i + headerWords)).toNat := by
        simp [largeSlot?, hf, hnone]
      rw [if_neg hnone, hslot]
      simp only [onLargeIntegers, LargeIntegers.release_eq (hheld _ hslot)]
      rfl
  | _ =>
    have hslot : h.largeSlot? i = none := by simp [largeSlot?, hf]
    rw [hformat, hf, hslot]
    rfl

/-! ## The invariant -/

/-- Where compaction puts an object. -/
def slideTo (h : Heap) (starts : List Nat) : Nat → Nat := slide h.sizeOf h.isMarkedAt starts

/-- The words that compaction makes of an object: the same ones without the mark. -/
def unmarkedView (h : Heap) (i : Nat) : View := fun k =>
  if k = 0 then (h.view i).header.unmarked.bits else h.cell (i + k)

/-- Memory in the middle of a compaction, relative to memory before it: the objects `done` have been
looked at, and `rest` has not. -/
structure Sliding (h : Heap) (starts done rest : List Nat) (c : Compaction) : Prop where
  split : starts = done ++ rest
  scan : Tiles h.sizeOf c.scan rest h.top
  free : c.free = firstWord + liveWords h.sizeOf h.isMarkedAt done
  others : { c.heap with memory := h.memory, largeIntegers := h.largeIntegers } = h
  size : c.heap.memory.size = h.memory.size
  behind : ∀ i ∈ done, h.isMarkedAt i = true → ∀ k, k < h.sizeOf i →
    c.heap.cell (h.slideTo starts i + k) = h.unmarkedView i k
  ahead : ∀ p, c.scan ≤ p → c.heap.cell p = h.cell p
  first : c.heap.cell 0 = h.cell 0
  tracks : c.relocation.Tracks h.top (done.filter h.isMarkedAt) (h.slideTo starts)
  moved : c.moved = (done.filter h.isMarkedAt).countP fun i => decide (h.slideTo starts i ≠ i)
  reclaimed : c.reclaimedWords = liveWords h.sizeOf (fun i => !h.isMarkedAt i) done
  table : c.heap.largeIntegers = h.largeIntegers.releaseAll (h.deadSlots done)

namespace Sliding

variable {h : Heap} {starts done rest : List Nat} {c : Compaction} {i : Nat}

theorem top (hs : Sliding h starts done rest c) : c.heap.top = h.top :=
  (congrArg Heap.top hs.others :)

theorem stats (hs : Sliding h starts done rest c) : c.heap.stats = h.stats :=
  (congrArg Heap.stats hs.others :)

theorem start (hl : h.LaidOut starts) : Sliding h starts [] starts (.start h) where
  split := rfl
  scan := hl.tiles
  free := rfl
  others := rfl
  size := rfl
  behind i hi := by simp at hi
  ahead p _ := rfl
  first := rfl
  tracks := Relocation.tracks_empty h.top _
  moved := rfl
  reclaimed := rfl
  table := rfl

/-- The object at hand is the next one of the tiling. -/
theorem scan_eq (hs : Sliding h starts done (i :: rest) c) : c.scan = i := by
  cases hs.scan
  rfl

theorem mem (hs : Sliding h starts done (i :: rest) c) : i ∈ starts := by
  rw [hs.split]
  simp

/-- The object at hand is still what it was. -/
theorem view_eq (hs : Sliding h starts done (i :: rest) c) : c.heap.view i = h.view i := by
  funext k
  exact hs.ahead _ (by rw [hs.scan_eq]; omega)

theorem largeSlot?_eq (hs : Sliding h starts done (i :: rest) c) :
    c.heap.largeSlot? i = h.largeSlot? i := by
  have hscan := hs.scan_eq
  have hcell := hs.ahead (i + headerWords) (by omega)
  unfold largeSlot?
  rw [hs.view_eq, hcell]

/-- The next survivor goes to the free position. -/
theorem free_eq (hs : Sliding h starts done (i :: rest) c) (hl : h.LaidOut starts) :
    c.free = h.slideTo starts i := by
  have htiles := hl.tiles
  rw [hs.split] at htiles
  rw [hs.free, slideTo, hs.split]
  exact (htiles.slide_eq h.sizeOf_pos).symm

/-- Keeping the object at hand keeps the invariant. -/
theorem keep (hs : Sliding h starts done (i :: rest) c) (hl : h.LaidOut starts)
    (hm : h.isMarkedAt i = true) :
    ∃ c', c.keep (h.view i).header (h.view i).size = .ok c' ∧
      Sliding h starts (done ++ [i]) rest c' := by
  have hi := hs.mem
  have hscan := hs.scan_eq
  have hfree := hs.free_eq hl
  have hle : h.slideTo starts i ≤ i := hl.tiles.slide_le h.sizeOf_pos hi
  have hpos : 0 < (h.view i).size := h.sizeOf_pos i
  have hfit : i + (h.view i).size ≤ c.heap.memory.size := by
    rw [hs.size]
    exact hl.fits_memory hi
  obtain ⟨moved, hmove, hothers, hsize, hinside, houtside⟩ :=
    moveDown_spec (h.view i).header hle hpos hfit
  obtain ⟨t, hrecord, htracks⟩ := hs.tracks.record (hl.lt_top hi)
    (Nat.lt_of_le_of_lt hle (hl.lt_top hi))
  have hcons : Tiles h.sizeOf (i + h.sizeOf i) rest h.top := by
    have := hs.scan
    rw [hscan] at this
    cases this
    assumption
  refine ⟨⟨moved, t, i + (h.view i).size, h.slideTo starts i + (h.view i).size,
    if h.slideTo starts i = i then c.moved else c.moved + 1, c.reclaimedWords⟩, ?_, ?_⟩
  · rw [Compaction.keep_eq (by rw [hscan, hfree]; exact hmove) (by rw [hscan, hfree]; exact hrecord),
      hscan, hfree]
  · refine ⟨by simp [hs.split], hcons, ?_, ?_, hsize.trans hs.size, ?_, ?_, ?_, ?_, ?_, ?_, ?_⟩
    · show h.slideTo starts i + h.sizeOf i = _
      rw [liveWords_append, liveWords_singleton, if_pos hm, ← hfree, hs.free, Nat.add_assoc]
    · have hrest := hs.others
      rw [← hothers] at hrest
      exact hrest
    · intro j hj hmj k hk
      rcases List.mem_append.mp hj with hdone | hself
      · -- A survivor behind the scan ends before the free position.
        have hjs : j ∈ starts := by
          rw [hs.split]
          exact List.mem_append.mpr (.inl hdone)
        have hlt : j < i := by
          have htiles := hl.tiles
          rw [hs.split] at htiles
          exact htiles.split_at.1.lt_last h.sizeOf_pos hdone
        have hapart : h.slideTo starts j + h.sizeOf j ≤ h.slideTo starts i :=
          hl.tiles.slide_apart h.sizeOf_pos hjs hi hmj hlt
        show moved.cell _ = _
        rw [houtside _ (.inl (by omega))]
        exact hs.behind j hdone hmj k hk
      · rw [List.mem_singleton] at hself
        subst hself
        show moved.cell _ = _
        rw [hinside k hk, unmarkedView, hs.ahead _ (by omega)]
    · intro p hp
      have hp' : i + (h.view i).size ≤ p := hp
      show moved.cell p = _
      rw [houtside p (.inr (by omega)), hs.ahead p (by omega)]
    · have hlo : firstWord ≤ h.slideTo starts i := first_le_slide ..
      simp only [firstWord] at hlo
      show moved.cell 0 = _
      rw [houtside 0 (.inl (by omega)), hs.first]
    · simpa [hm] using htracks
    · simp only [List.filter_append, List.countP_append, ← hs.moved]
      by_cases hstay : h.slideTo starts i = i <;> simp [hm, hstay]
    · rw [liveWords_append, liveWords_singleton, hm]
      exact hs.reclaimed
    · have hlarge : moved.largeIntegers = c.heap.largeIntegers :=
        (congrArg Heap.largeIntegers hothers :)
      show moved.largeIntegers = _
      rw [hlarge, hs.table]
      simp [deadSlots, hm]

/-- Dropping the object at hand keeps the invariant, as long as what it holds is there to be
released. -/
theorem drop_of_held (hs : Sliding h starts done (i :: rest) c) (hl : h.LaidOut starts)
    (hheld : ∀ s, c.heap.largeSlot? i = some s → (c.heap.largeIntegers.get? s).isSome = true)
    (hm : h.isMarkedAt i = false) :
    ∃ c', c.drop (h.view i).header (h.view i).size = .ok c' ∧
      Sliding h starts (done ++ [i]) rest c' := by
  have hi := hs.mem
  have hscan := hs.scan_eq
  have hview := hs.view_eq
  have hslot := hs.largeSlot?_eq
  have hfinal : c.heap.finalize c.scan (h.view i).header =
      .ok { c.heap with
        largeIntegers := c.heap.largeIntegers.releaseAll (h.largeSlot? i).toList } := by
    have hfit := hl.fits_memory hi
    rw [hscan, ← hslot, ← hview]
    exact finalize_eq (by rw [hview]; exact hl.readable i hi) (by rw [hview, hs.size]; exact hfit)
      hheld
  have hreclaimed : liveWords h.sizeOf (fun i => !h.isMarkedAt i) (done ++ [i]) =
      c.reclaimedWords + (h.view i).size := by
    rw [liveWords_append, liveWords_singleton, hm, hs.reclaimed]
    rfl
  have hcount : (c.reclaimedWords + (h.view i).size) * wordBytes < countLimit := by
    have hsum := hl.tiles.sum_eq
    rw [hs.split, ← List.singleton_append, ← List.append_assoc, List.map_append,
      List.sum_append] at hsum
    have hle := liveWords_le_sum h.sizeOf (fun i => !h.isMarkedAt i) (done ++ [i])
    have htop := Nat.le_trans hl.committed hl.addressable
    simp only [firstWord] at hsum
    simp only [Ref.addressLimit] at htop
    simp only [wordBytes, countLimit]
    omega
  have hcons : Tiles h.sizeOf (i + h.sizeOf i) rest h.top := by
    have := hs.scan
    rw [hscan] at this
    cases this
    assumption
  refine ⟨_, Compaction.drop_eq hfinal hcount, ?_⟩
  rw [hscan]
  refine ⟨by simp [hs.split], hcons, ?_, hs.others, hs.size, ?_, ?_, hs.first, ?_, ?_,
    hreclaimed.symm, ?_⟩
  · rw [liveWords_append, liveWords_singleton, hm]
    exact hs.free
  · intro j hj hmj k hk
    rcases List.mem_append.mp hj with hdone | hself
    · exact hs.behind j hdone hmj k hk
    · rw [List.mem_singleton] at hself
      rw [hself, hm] at hmj
      cases hmj
  · intro p hp
    have hp' : i + (h.view i).size ≤ p := hp
    exact hs.ahead p (by omega)
  · simpa [hm] using hs.tracks
  · simpa [hm] using hs.moved
  · have hdead : h.deadSlots (done ++ [i]) = h.deadSlots done ++ (h.largeSlot? i).toList := by
      cases hsl : h.largeSlot? i <;> simp [deadSlots, hm, hsl]
    rw [hdead, LargeIntegers.releaseAll_append, ← hs.table]

/-- Objects that hold slots of their own can be dropped one after the other. -/
theorem drop (hs : Sliding h starts done (i :: rest) c) (hl : h.LaidOut starts)
    (ho : h.SlotsOwned starts) (hm : h.isMarkedAt i = false) :
    ∃ c', c.drop (h.view i).header (h.view i).size = .ok c' ∧
      Sliding h starts (done ++ [i]) rest c' := by
  have hi := hs.mem
  have hbefore : ∀ j ∈ done, j ∈ starts ∧ j < i := by
    intro j hj
    have htiles := hl.tiles
    rw [hs.split] at htiles
    refine ⟨?_, htiles.split_at.1.lt_last h.sizeOf_pos hj⟩
    rw [hs.split]
    exact List.mem_append.mpr (.inl hj)
  -- No object dropped before had the slot of this one.
  have hheld : ∀ s, c.heap.largeSlot? i = some s →
      (c.heap.largeIntegers.get? s).isSome = true := by
    intro s hsome
    rw [hs.largeSlot?_eq] at hsome
    have hnot : s ∉ h.deadSlots done := by
      intro hmem
      obtain ⟨j, hj, -, hjs⟩ := mem_deadSlots.mp hmem
      have := ho.own i hi j (hbefore j hj).1 s hsome hjs
      have := (hbefore j hj).2
      omega
    rw [hs.table, LargeIntegers.get?_releaseAll, if_neg hnot]
    exact ho.held i hi s hsome
  exact hs.drop_of_held hl hheld hm

/-- The walk takes up the object at hand. -/
theorem run_cons (hl : h.LaidOut starts) (hs : Sliding h starts done (i :: rest) c) (fuel : Nat) :
    c.run h.top (fuel + 1) =
      if h.isMarkedAt i = true then
        c.keep (h.view i).header (h.view i).size >>= (·.run h.top fuel)
      else c.drop (h.view i).header (h.view i).size >>= (·.run h.top fuel) := by
  have hi := hs.mem
  have hview := hs.view_eq
  have hlt : c.scan < h.top := by
    rw [hs.scan_eq]
    exact hl.lt_top hi
  have hcommitted : c.heap.top ≤ c.heap.memory.size := by
    rw [hs.top, hs.size]
    exact hl.committed
  have hreadable : (c.heap.view i).Readable := by
    rw [hview]
    exact hl.readable i hi
  have hheader : c.heap.headerAt c.scan = .ok (h.view i).header := by
    rw [hs.scan_eq, ← hview]
    exact headerAt_eq (hl.first_le hi) (hs.top ▸ hl.lt_top hi) hcommitted hreadable.valid
  have hsize : c.heap.sizeAt c.scan (h.view i).header = .ok (h.view i).size := by
    rw [hs.scan_eq, ← hview]
    exact sizeAt_eq hreadable (.refl _) (by rw [hview, hs.size]; exact hl.fits_memory hi)
      (by rw [hs.size]; exact hl.addressable)
  rw [Compaction.run, if_pos hlt, hheader]
  show (c.heap.sizeAt c.scan (h.view i).header >>= _) = _
  rw [hsize]
  rfl

/-- The walk is over when there is nothing left. -/
theorem run_nil (hs : Sliding h starts done [] c) (fuel : Nat) : c.run h.top fuel = .ok c := by
  have hscan : c.scan = h.top := by simpa using hs.scan.sum_eq
  cases fuel with
  | zero => rfl
  | succ fuel => rw [Compaction.run, if_neg (by omega)]

theorem done_eq (hs : Sliding h starts done [] c) : done = starts := by
  simpa using hs.split.symm

/-- The walk looks at every object, whatever it finds. -/
theorem run (hl : h.LaidOut starts) (ho : h.SlotsOwned starts) {fuel : Nat}
    (hs : Sliding h starts done rest c) (hfuel : rest.length ≤ fuel) :
    ∃ c', c.run h.top fuel = .ok c' ∧ Sliding h starts starts [] c' := by
  induction rest generalizing done c fuel with
  | nil => exact ⟨c, hs.run_nil fuel, hs.done_eq ▸ hs⟩
  | cons i rest ih =>
    obtain ⟨fuel, rfl⟩ : ∃ n, fuel = n + 1 :=
      ⟨fuel - 1, by simp only [List.length_cons] at hfuel; omega⟩
    have hrest : rest.length ≤ fuel := by simpa using hfuel
    rw [hs.run_cons hl]
    cases hm : h.isMarkedAt i with
    | true =>
      obtain ⟨c', hkeep, hs'⟩ := hs.keep hl hm
      rw [if_pos rfl, hkeep]
      exact ih hs' hrest
    | false =>
      obtain ⟨c', hdrop, hs'⟩ := hs.drop hl ho hm
      rw [if_neg Bool.false_ne_true, hdrop]
      exact ih hs' hrest

end Sliding

/-! ## The result -/

/-- What a compaction makes of memory, if `live` are the survivors and `view` shows what becomes of
them. -/
structure Compacted (h : Heap) (starts : List Nat) (live : Nat → Bool) (view : Nat → View)
    (h' : Heap) (t : Relocation) : Prop where
  others : { h' with
    memory := h.memory, top := h.top, largeIntegers := h.largeIntegers, stats := h.stats } = h
  size : h'.memory.size = h.memory.size
  top : h'.top = firstWord + liveWords h.sizeOf live starts
  view : ∀ i ∈ starts, live i = true → ∀ k, k < h.sizeOf i →
    h'.view (slide h.sizeOf live starts i) k = view i k
  cleared : ∀ p, h'.top ≤ p → p < h.top → h'.cell p = 0
  first : h'.cell 0 = h.cell 0
  tracks : t.Tracks h.top (starts.filter live) (slide h.sizeOf live starts)
  table : h'.largeIntegers = h.largeIntegers.releaseAll
    ((starts.filter fun i => !live i).filterMap h.largeSlot?)
  stats : h'.stats = { h.stats with
    lastReclaimedBytes := liveWords h.sizeOf (fun i => !live i) starts * wordBytes
    lastLiveBytes := liveWords h.sizeOf live starts * wordBytes
    lastMovedObjects :=
      (starts.filter live).countP fun i => decide (slide h.sizeOf live starts i ≠ i) }

/-- When the walk is over, what is left is to clear the words that became free. -/
theorem Sliding.finish {h : Heap} {starts : List Nat} {c : Compaction} (hl : h.LaidOut starts)
    (hs : Sliding h starts starts [] c) :
    ∃ h', c.finish = .ok (h', c.relocation) ∧
      h.Compacted starts h.isMarkedAt h.unmarkedView h' c.relocation ∧
      ∀ p, h.top ≤ p → h'.cell p = c.heap.cell p := by
  have hfree : c.free ≤ h.top := by
    have hsum := hl.tiles.sum_eq
    have hle := liveWords_le_sum h.sizeOf h.isMarkedAt starts
    rw [hs.free]
    omega
  let h' : Heap := { c.heap with
    memory := fillWords c.heap.memory c.free 0 (c.heap.top - c.free)
    top := c.free
    stats := { c.heap.stats with
      lastReclaimedBytes := c.reclaimedWords * wordBytes
      lastLiveBytes := (c.free - firstWord) * wordBytes
      lastMovedObjects := c.moved } }
  have hfinish : c.finish = .ok (h', c.relocation) := by
    have hbounds : c.free ≤ c.heap.top ∧ c.heap.top ≤ c.heap.memory.size := by
      rw [hs.top, hs.size]
      exact ⟨hfree, hl.committed⟩
    cases c
    simp only [Compaction.finish]
    rw [require, if_pos (decide_eq_true hbounds)]
    rfl
  refine ⟨h', hfinish, ?_⟩
  have hcell : ∀ p, h'.cell p =
      if c.free ≤ p ∧ p < h.top then 0 else c.heap.cell p := by
    intro p
    have hbound : c.free + (c.heap.top - c.free) = h.top := by
      rw [hs.top]
      omega
    have hfit : c.free + (c.heap.top - c.free) ≤ c.heap.memory.size := by
      rw [hbound, hs.size]
      exact hl.committed
    refine (getD_fillWords 0 hfit p).trans ?_
    rw [hbound]
    rfl
  have hothers := hs.others
  simp only [hs.top, hs.stats] at hothers
  refine ⟨⟨hothers, (size_fillWords ..).trans hs.size, hs.free, ?_, ?_, ?_, hs.tracks, hs.table, ?_⟩,
    fun p hp => ?_⟩
  · intro i hi hm k hk
    have hend : slide h.sizeOf h.isMarkedAt starts i + h.sizeOf i ≤ c.free := by
      rw [hs.free]
      exact hl.tiles.slide_add_size_le h.sizeOf_pos hi hm
    refine (hcell _).trans ?_
    rw [if_neg (by omega)]
    exact hs.behind i hi hm k hk
  · intro p hlo hhi
    refine (hcell p).trans ?_
    rw [if_pos ⟨hlo, hhi⟩]
  · have hlo : firstWord ≤ c.free := by
      rw [hs.free]
      omega
    simp only [firstWord] at hlo
    refine (hcell 0).trans ?_
    rw [if_neg (by omega), hs.first]
  · show HeapStats.mk .. = _
    rw [hs.stats, hs.reclaimed, hs.moved, hs.free, Nat.add_sub_cancel_left]
    rfl
  · refine (hcell p).trans ?_
    rw [if_neg (by omega)]

/-- There are fewer objects than words. -/
theorem LaidOut.length_le_top {h : Heap} {starts : List Nat} (hl : h.LaidOut starts) :
    starts.length ≤ h.top := by
  have := hl.tiles.two_mul_length_le fun i => View.two_le_size _
  omega

/-- Compaction slides the marked objects together and releases what the others held. -/
theorem compact_spec {h : Heap} {starts : List Nat} (hl : h.LaidOut starts)
    (ho : h.SlotsOwned starts) :
    ∃ h' t, h.compact = .ok (h', t) ∧
      h.Compacted starts h.isMarkedAt h.unmarkedView h' t := by
  obtain ⟨c, hrun, hs⟩ := (Sliding.start hl).run hl ho hl.length_le_top
  obtain ⟨h', hfinish, hc, -⟩ := hs.finish hl
  refine ⟨h', c.relocation, ?_, hc⟩
  show ((Compaction.start h).run h.top h.top >>= _) = _
  rw [hrun]
  exact hfinish

/-- The words that were free before a compaction are what they were. -/
theorem compact_beyond {h h' : Heap} {starts : List Nat} {t : Relocation} (hl : h.LaidOut starts)
    (ho : h.SlotsOwned starts) (hcompact : h.compact = .ok (h', t)) {p : Nat} (hp : h.top ≤ p) :
    h'.cell p = h.cell p := by
  obtain ⟨c, hrun, hs⟩ := (Sliding.start hl).run hl ho hl.length_le_top
  obtain ⟨finished, hfinish, -, hbeyond⟩ := hs.finish hl
  have heq : c.finish = .ok (h', t) := by
    have hrest : ((Compaction.start h).run h.top h.top >>= (·.finish)) = .ok (h', t) := hcompact
    rwa [hrun] at hrest
  have hscan : c.scan = h.top := by simpa using hs.scan.sum_eq
  rw [hfinish] at heq
  cases heq
  rw [hbeyond p hp, hs.ahead p (by omega)]

end Heap

end ObjectMachine
