import ObjectMachine.Collection.Mark
import ObjectMachine.Proofs.Heap.WellFormed

/-!
# Marking finds exactly what can be reached

While marking runs, memory differs from what it was in the marks of objects only. The invariant of
the loop is the usual one: what is marked or waits on the work list can be reached, and what a
marked object refers to is marked or waits. When the work list is empty, the marked objects are
closed under references, so they are exactly those that can be reached.

The only way for marking to go wrong is a work list that would grow past its limit.

## Main results

* `Tracing.skip`, `Tracing.visit`: the two steps of the loop keep the invariant.
* `markFrom_spec`: so does the loop as a whole.
* `mark_spec`: after marking, exactly the reachable objects are marked, and their number is answered.
* `lt_of_mark_overflow`: how long the work list has to be for that.
-/

namespace ObjectMachine.Heap

/-! ## The work list -/

/-- An attempt to add references to the work list: it ends with those added that designate objects,
or with an overflow, and then they are too many. -/
def Pushes (limit : Nat) (x : Except Fatal (Array Ref)) (work : Array Ref) (refs : List Ref) :
    Prop :=
  x = .ok (work ++ (refs.filter Ref.isPointer).toArray) ∨
    (x = .error (.markStackOverflow limit) ∧
      limit < work.size + (refs.filter Ref.isPointer).length)

theorem Pushes.nil (limit : Nat) (work : Array Ref) : Pushes limit (.ok work) work [] := by
  left
  simp

theorem Pushes.bind {limit : Nat} {x : Except Fatal (Array Ref)} {work : Array Ref}
    {refs refs' : List Ref} {f : Array Ref → Except Fatal (Array Ref)}
    (hx : Pushes limit x work refs)
    (hf : ∀ work', Pushes limit (f work') work' refs') :
    Pushes limit (x >>= f) work (refs ++ refs') := by
  rcases hx with rfl | ⟨rfl, hlimit⟩
  · rcases hf (work ++ (refs.filter Ref.isPointer).toArray) with hok | ⟨herr, hlimit⟩
    · left
      show f _ = _
      rw [hok]
      simp
    · right
      refine ⟨herr, ?_⟩
      simp only [Array.size_append, List.size_toArray, List.filter_append,
        List.length_append] at hlimit ⊢
      omega
  · right
    refine ⟨rfl, ?_⟩
    simp only [List.filter_append, List.length_append]
    omega

theorem pushWork_pushes (limit : Nat) (work : Array Ref) (r : Ref) :
    Pushes limit (pushWork limit work r) work [r] := by
  unfold pushWork Pushes
  cases hp : r.isPointer with
  | false => simp [hp]
  | true =>
    by_cases hsize : work.size < limit
    · simp [hp, hsize]
    · right
      simp [hp, hsize]
      omega

theorem pushRoots_pushes (limit : Nat) (work : Array Ref) (roots : List Ref) :
    Pushes limit (pushRoots limit work roots) work roots := by
  induction roots generalizing work with
  | nil => exact Pushes.nil limit work
  | cons r roots ih =>
    show Pushes limit (pushWork limit work r >>= fun w => pushRoots limit w roots) work _
    exact (pushWork_pushes limit work r).bind fun work' => ih work'

theorem pushRoots_append (limit : Nat) (work : Array Ref) (xs ys : List Ref) :
    pushRoots limit work (xs ++ ys) = pushRoots limit work xs >>= (pushRoots limit · ys) :=
  List.foldlM_append

theorem pushSlots_eq {h : Heap} (limit : Nat) {index count : Nat} (work : Array Ref)
    (hin : index + count ≤ h.memory.size) :
    h.pushSlots limit index count work =
      pushRoots limit work ((List.range' index count).map fun p => ⟨h.cell p⟩) := by
  induction count generalizing index work with
  | zero => rfl
  | succ count ih =>
    rw [pushSlots, slot_eq (by omega), List.range'_succ, List.map_cons]
    show _ = pushWork limit work ⟨h.cell index⟩ >>= fun w => pushRoots limit w _
    dsimp only
    cases pushWork limit work ⟨h.cell index⟩ with
    | error e => rfl
    | ok work' => exact ih work' (by omega)

/-- The references of an object in the order in which they are followed. -/
def referencesAt (h : Heap) (i : Nat) : List Ref :=
  ⟨h.cell (i + 1)⟩ :: (h.slotsAt i).positions.map fun p => ⟨h.cell p⟩

theorem mem_referencesAt {h : Heap} {i : Nat} {v : Ref} :
    v ∈ h.referencesAt i ↔ ∃ k, (h.view i).IsTraced k ∧ (h.view i).ref k = v := by
  unfold referencesAt
  constructor
  · intro hv
    rcases List.mem_cons.mp hv with rfl | hmem
    · exact ⟨1, .inl rfl, rfl⟩
    · obtain ⟨p, hp, rfl⟩ := List.mem_map.mp hmem
      obtain ⟨k, rfl, hk⟩ := mem_slotsAt_positions.mp hp
      exact ⟨k, .inr hk, rfl⟩
  · rintro ⟨k, rfl | hk, rfl⟩
    · exact List.mem_cons_self
    · exact List.mem_cons_of_mem _
        (List.mem_map.mpr ⟨i + k, mem_slotsAt_positions.mpr ⟨k, rfl, hk⟩, rfl⟩)

/-- What an object adds to the work list. -/
theorem pushObject_eq {h : Heap} {i : Nat} {header : Header} (work : Array Ref)
    (hr : (h.view i).Readable) (hs : Header.SameShape header (h.view i).header)
    (hfit : i + (h.view i).size ≤ h.memory.size) (haddr : h.memory.size ≤ Ref.addressLimit) :
    h.pushObject i header work = pushRoots h.config.markLimit work (h.referencesAt i) := by
  have htwo := (h.view i).two_le_size
  obtain ⟨hfixed, htail⟩ := h.slotsAt_bounds i
  unfold pushObject
  rw [slot_eq (by omega), referenceSlotsAt_eq hr hs hfit haddr]
  show (pushWork _ work ⟨h.cell (i + 1)⟩ >>= _) =
    pushWork _ work ⟨h.cell (i + 1)⟩ >>= fun w => pushRoots _ w _
  refine bind_congr fun work₁ => ?_
  show (h.pushSlots _ _ _ work₁ >>= _) = _
  rw [pushSlots_eq _ work₁ (by omega), ReferenceSlots.positions, List.map_append,
    pushRoots_append]
  exact bind_congr fun work₂ => pushSlots_eq _ work₂ (by omega)

/-! ## Marks -/

/-- Whether the object that begins at a position is marked. -/
def isMarkedAt (h : Heap) (i : Nat) : Bool := (h.view i).header.isMarked

/-- Memory that differs from other memory in the marks of objects only. -/
structure MarksOnly (h₀ h : Heap) (starts : List Nat) : Prop where
  rest : { h with memory := h₀.memory } = h₀
  size : h.memory.size = h₀.memory.size
  cell : ∀ p, p ∉ starts → h.cell p = h₀.cell p
  header : ∀ i ∈ starts, (h.view i).header = (h₀.view i).header ∨
    (h.view i).header = (h₀.view i).header.marked

namespace MarksOnly

variable {h₀ h : Heap} {starts : List Nat} {i : Nat}

theorem refl (h : Heap) (starts : List Nat) : MarksOnly h h starts :=
  ⟨rfl, rfl, fun _ _ => rfl, fun _ _ => .inl rfl⟩

theorem top (hm : MarksOnly h₀ h starts) : h.top = h₀.top :=
  (congrArg Heap.top hm.rest :)

theorem config (hm : MarksOnly h₀ h starts) : h.config = h₀.config :=
  (congrArg Heap.config hm.rest :)

theorem nil (hm : MarksOnly h₀ h starts) : h.nil = h₀.nil :=
  (congrArg Heap.nil hm.rest :)

theorem largeIntegers (hm : MarksOnly h₀ h starts) : h.largeIntegers = h₀.largeIntegers :=
  (congrArg Heap.largeIntegers hm.rest :)

theorem stats (hm : MarksOnly h₀ h starts) : h.stats = h₀.stats :=
  (congrArg Heap.stats hm.rest :)

theorem sameShape (hm : MarksOnly h₀ h starts) (hi : i ∈ starts) :
    Header.SameShape (h.view i).header (h₀.view i).header := by
  rcases hm.header i hi with heq | heq
  · rw [heq]
    exact .refl _
  · rw [heq]
    exact Header.sameShape_marked _

/-- Behind its header an object is as it was. -/
theorem word (hm : MarksOnly h₀ h starts) (hw : h₀.WellFormed starts) (hi : i ∈ starts) {k : Nat}
    (hk : 0 < k) (hlt : k < (h₀.view i).size) : (h.view i) k = (h₀.view i) k :=
  hm.cell _ (hw.tiles.not_mem_inside hi hk hlt)

theorem agrees (hm : MarksOnly h₀ h starts) (hw : h₀.WellFormed starts) (hi : i ∈ starts) :
    View.Agrees (h₀.view i) (h.view i) :=
  View.agrees_of_words (hw.readable i hi) (hm.sameShape hi) fun _ hk hlt => hm.word hw hi hk hlt

/-- The references of an object are what they were. -/
theorem referencesAt_eq (hm : MarksOnly h₀ h starts) (hw : h₀.WellFormed starts) (hi : i ∈ starts) :
    h.referencesAt i = h₀.referencesAt i := by
  have htwo := (h₀.view i).two_le_size
  have hcls : h.cell (i + 1) = h₀.cell (i + 1) := hm.word hw hi Nat.one_pos (by omega)
  unfold Heap.referencesAt
  rw [slotsAt_congr (hm.agrees hw hi), hcls]
  congr 1
  refine List.map_congr_left fun p hp => ?_
  obtain ⟨k, rfl, hk⟩ := mem_slotsAt_positions.mp hp
  have hb := (View.IsTraced.bounds (.inr hk))
  exact congrArg Ref.mk (hm.word hw hi hb.1 hb.2)

/-- What an object adds to the work list is what it would have added before. -/
theorem pushObject_eq (hm : MarksOnly h₀ h starts) (hw : h₀.WellFormed starts) (hi : i ∈ starts)
    {header : Header} (hs : Header.SameShape header (h₀.view i).header) (work : Array Ref) :
    h.pushObject i header work =
      pushRoots h₀.config.markLimit work (h₀.referencesAt i) := by
  have hagree := hm.agrees hw hi
  rw [Heap.pushObject_eq work (hagree.readable (hw.readable i hi))
    (hs.trans (hm.sameShape hi).symm) (by rw [hagree.size_eq, hm.size]; exact hw.fits_memory hi)
    (by rw [hm.size]; exact hw.addressable), hm.config, hm.referencesAt_eq hw hi]

/-- Marking one more object changes nothing else. -/
theorem setMark (hm : MarksOnly h₀ h starts) (hi : i ∈ starts) (hsize : i < h.memory.size)
    (hunmarked : h.isMarkedAt i = false) :
    MarksOnly h₀ (h.setMark i (h.view i).header) starts := by
  have hpoke : h.setMark i (h.view i).header = h.poke i (h.view i).header.marked.bits := rfl
  rw [hpoke]
  refine ⟨hm.rest, by rw [size_poke, hm.size], fun p hp => ?_, fun j hj => ?_⟩
  · rw [cell_poke_ne (fun heq => hp (by rwa [heq])), hm.cell p hp]
  · by_cases hji : j = i
    · subst hji
      right
      have hself : (h.view j).header = (h₀.view j).header := by
        rcases hm.header j hj with heq | heq
        · exact heq
        · rw [isMarkedAt, heq, Header.isMarked_marked] at hunmarked
          cases hunmarked
      show (⟨(h.poke j _).cell (j + 0)⟩ : Header) = _
      rw [Nat.add_zero, cell_poke_self hsize, ← hself]
    · have hcell : ((h.poke i (h.view i).header.marked.bits).view j).header = (h.view j).header := by
        show (⟨(h.poke i _).cell (j + 0)⟩ : Header) = ⟨h.cell (j + 0)⟩
        rw [cell_poke_ne (by omega)]
      rw [hcell]
      exact hm.header j hj

end MarksOnly

theorem isMarkedAt_setMark_self {h : Heap} {i : Nat} (hsize : i < h.memory.size) (header : Header) :
    (h.setMark i header).isMarkedAt i = true := by
  show (⟨(h.poke i header.marked.bits).cell (i + 0)⟩ : Header).isMarked = true
  rw [Nat.add_zero, cell_poke_self hsize]
  exact header.isMarked_marked

theorem isMarkedAt_setMark_ne {h : Heap} {i j : Nat} (hne : j ≠ i) (header : Header) :
    (h.setMark i header).isMarkedAt j = h.isMarkedAt j := by
  show (⟨(h.poke i header.marked.bits).cell (j + 0)⟩ : Header).isMarked = _
  rw [Nat.add_zero, cell_poke_ne hne]
  rfl

/-! ## The loop -/

theorem markFrom_nil (h : Heap) (n : Nat) : h.markFrom #[] n = .ok (h, n) := by
  rw [markFrom, dif_neg (by simp)]

/-- The next object is passed over if it is marked. -/
theorem markFrom_skip {h : Heap} {work : Array Ref} {r : Ref} {header : Header} (n : Nat)
    (hh : h.headerAt r.wordIndex = .ok header) (hm : header.isMarked = true) :
    h.markFrom (work.push r) n = h.markFrom work n := by
  rw [markFrom, dif_pos (by simp)]
  simp only [Array.size_push, Nat.add_sub_cancel, Array.getElem_push_eq, Array.pop_push]
  split
  · rename_i e he
    simp only [Array.size_push, Nat.add_sub_cancel, Array.getElem_push_eq, hh] at he
    cases he
  · rename_i header' he
    simp only [Array.size_push, Nat.add_sub_cancel, Array.getElem_push_eq, hh] at he
    cases he
    rw [dif_pos hm]

/-- Any other object is marked, and its references come to wait. -/
theorem markFrom_visit {h : Heap} {work work' : Array Ref} {r : Ref} {header : Header} (n : Nat)
    (hh : h.headerAt r.wordIndex = .ok header) (hm : header.isMarked = false)
    (hpush : (h.setMark r.wordIndex header).pushObject r.wordIndex header work = .ok work') :
    h.markFrom (work.push r) n = (h.setMark r.wordIndex header).markFrom work' (n + 1) := by
  rw [markFrom, dif_pos (by simp)]
  simp only [Array.size_push, Nat.add_sub_cancel, Array.getElem_push_eq, Array.pop_push]
  split
  · rename_i e he
    simp only [Array.size_push, Nat.add_sub_cancel, Array.getElem_push_eq, hh] at he
    cases he
  · rename_i header' he
    simp only [Array.size_push, Nat.add_sub_cancel, Array.getElem_push_eq, hh] at he
    cases he
    rw [dif_neg (by simp [hm]), hpush]

/-- Whether a reference waits on the work list or its object is marked. -/
def Seen (h : Heap) (work : Array Ref) (v : Ref) : Prop :=
  v ∈ work ∨ h.isMarkedAt v.wordIndex = true

/-- The invariant of marking, relative to memory before it began. -/
structure Tracing (h₀ : Heap) (starts : List Nat) (roots : List Ref) (h : Heap)
    (work : Array Ref) (marked : Nat) : Prop where
  marks : MarksOnly h₀ h starts
  sound : ∀ i ∈ starts, h.isMarkedAt i = true → h₀.Reachable roots (.ofWordIndex i)
  waiting : ∀ r ∈ work, h₀.Reachable roots r
  closed : ∀ i ∈ starts, h.isMarkedAt i = true → ∀ v, h₀.Refers (.ofWordIndex i) v → h.Seen work v
  rooted : ∀ r, r ∈ roots ∨ r = h₀.nil → r.isPointer = true → h.Seen work r
  count : marked = starts.countP h.isMarkedAt

/-- Marking one more object raises the number of marked objects by one. -/
theorem countP_setMark {h : Heap} {starts : List Nat} {i : Nat} (hnodup : starts.Nodup)
    (hi : i ∈ starts) (hsize : i < h.memory.size) (hunmarked : h.isMarkedAt i = false)
    (header : Header) :
    starts.countP (h.setMark i header).isMarkedAt = starts.countP h.isMarkedAt + 1 := by
  obtain ⟨xs, ys, rfl⟩ := List.append_of_mem hi
  obtain ⟨-, hys, hxs⟩ := List.nodup_append.mp hnodup
  have hsame : ∀ zs : List Nat, (∀ j ∈ zs, j ≠ i) →
      zs.countP (h.setMark i header).isMarkedAt = zs.countP h.isMarkedAt := by
    intro zs hzs
    refine List.countP_congr fun j hj => ?_
    rw [isMarkedAt_setMark_ne (hzs j hj)]
  rw [List.countP_append, List.countP_cons, List.countP_append, List.countP_cons,
    hsame xs (fun j hj => hxs j hj i List.mem_cons_self),
    hsame ys (fun j hj heq => (List.nodup_cons.mp hys).1 (heq ▸ hj)),
    isMarkedAt_setMark_self hsize, hunmarked]
  simp
  omega

namespace Tracing

variable {h₀ h : Heap} {starts : List Nat} {roots : List Ref} {work : Array Ref} {n : Nat}

/-- Before the first step only the roots wait. -/
theorem start (hw : h₀.WellFormed starts) :
    Tracing h₀ starts roots h₀
      (#[] ++ ((roots ++ [h₀.nil]).filter Ref.isPointer).toArray) 0 where
  marks := .refl h₀ starts
  sound i hi hm := by
    have hun : h₀.isMarkedAt i = false := hw.unmarked i hi
    rw [hun] at hm
    cases hm
  waiting r hr := by
    simp only [Array.empty_append, List.mem_toArray, List.mem_filter, List.mem_append,
      List.mem_singleton] at hr
    obtain ⟨hmem | rfl, hp⟩ := hr
    · exact .root hmem hp
    · exact .nil hp
  closed i hi hm := by
    have hun : h₀.isMarkedAt i = false := hw.unmarked i hi
    rw [hun] at hm
    cases hm
  rooted r hr hp := by
    left
    simp only [Array.empty_append, List.mem_toArray, List.mem_filter, List.mem_append,
      List.mem_singleton]
    exact ⟨hr, hp⟩
  count := by
    symm
    rw [List.countP_eq_zero]
    intro i hi
    have hun : h₀.isMarkedAt i = false := hw.unmarked i hi
    simp [hun]

/-- A reference to a marked object can be dropped. -/
theorem skip {r : Ref} (ht : Tracing h₀ starts roots h (work.push r) n)
    (hm : h.isMarkedAt r.wordIndex = true) : Tracing h₀ starts roots h work n := by
  have hseen : ∀ v, h.Seen (work.push r) v → h.Seen work v := by
    rintro v (hmem | hmarked)
    · rcases Array.mem_push.mp hmem with hold | rfl
      · exact .inl hold
      · exact .inr hm
    · exact .inr hmarked
  exact
    { marks := ht.marks
      sound := ht.sound
      waiting := fun v hv => ht.waiting v (Array.mem_push.mpr (.inl hv))
      closed := fun i hi hmi v hv => hseen v (ht.closed i hi hmi v hv)
      rooted := fun v hv hp => hseen v (ht.rooted v hv hp)
      count := ht.count }

/-- An unmarked object is marked and its references wait from then on. -/
theorem visit {i : Nat} (hw : h₀.WellFormed starts)
    (ht : Tracing h₀ starts roots h (work.push (.ofWordIndex i)) n) (hi : i ∈ starts)
    (hm : h.isMarkedAt i = false) :
    let h' := h.setMark i (h.view i).header
    Tracing h₀ starts roots h'
      (work ++ ((h'.referencesAt i).filter Ref.isPointer).toArray) (n + 1) := by
  intro h'
  have hsize : i < h.memory.size := by
    rw [ht.marks.size]
    exact Nat.lt_of_lt_of_le (hw.lt_top hi) hw.committed
  have hmarks : MarksOnly h₀ h' starts := ht.marks.setMark hi hsize hm
  have hself : h'.isMarkedAt i = true := isMarkedAt_setMark_self hsize _
  have hother : ∀ j, j ≠ i → h'.isMarkedAt j = h.isMarkedAt j := fun j hj =>
    isMarkedAt_setMark_ne hj _
  have hreach : h₀.Reachable roots (.ofWordIndex i) :=
    ht.waiting _ (Array.mem_push.mpr (.inr rfl))
  have hrefs : ∀ v, v ∈ (h'.referencesAt i).filter Ref.isPointer ↔
      h₀.Refers (.ofWordIndex i) v := by
    intro v
    rw [List.mem_filter, hmarks.referencesAt_eq hw hi, hw.refers_iff hi, mem_referencesAt, and_comm]
  -- What was seen is still seen: the object taken off the list is marked now.
  have hseen : ∀ v, h.Seen (work.push (.ofWordIndex i)) v →
      h'.Seen (work ++ ((h'.referencesAt i).filter Ref.isPointer).toArray) v := by
    rintro v (hmem | hmarked)
    · rcases Array.mem_push.mp hmem with hold | rfl
      · exact .inl (Array.mem_append.mpr (.inl hold))
      · right
        rw [hw.wordIndex hi]
        exact hself
    · right
      by_cases hv : v.wordIndex = i
      · rw [hv]
        exact hself
      · rw [hother _ hv]
        exact hmarked
  exact
    { marks := hmarks
      sound := by
        intro j hj hmj
        by_cases hji : j = i
        · rw [hji]
          exact hreach
        · exact ht.sound j hj (by rwa [hother j hji] at hmj)
      waiting := by
        intro v hv
        rcases Array.mem_append.mp hv with hold | hnew
        · exact ht.waiting v (Array.mem_push.mpr (.inl hold))
        · exact .step hreach ((hrefs v).mp (List.mem_toArray.mp hnew))
      closed := by
        intro j hj hmj v hv
        by_cases hji : j = i
        · rw [hji] at hv
          exact .inl (Array.mem_append.mpr (.inr (List.mem_toArray.mpr ((hrefs v).mpr hv))))
        · exact hseen v (ht.closed j hj (by rwa [hother j hji] at hmj) v hv)
      rooted := fun v hv hp => hseen v (ht.rooted v hv hp)
      count := by
        have hnodup : starts.Nodup :=
          (hw.tiles.sorted h₀.sizeOf_pos).imp fun hlt => Nat.ne_of_lt hlt
        rw [countP_setMark hnodup hi hsize hm, ht.count] }

/-- With nothing left to do, the marked objects are those that can be reached. -/
theorem marked_iff (hw : h₀.WellFormed starts) (hr : h₀.RootsIn starts roots)
    (ht : Tracing h₀ starts roots h #[] n) {i : Nat} (hi : i ∈ starts) :
    h.isMarkedAt i = true ↔ h₀.Reachable roots (.ofWordIndex i) := by
  have hdone : ∀ v, h.Seen #[] v → h.isMarkedAt v.wordIndex = true := by
    rintro v (hmem | hmarked)
    · simp at hmem
    · exact hmarked
  have hall : ∀ v, h₀.Reachable roots v → h.isMarkedAt v.wordIndex = true := by
    intro v hv
    induction hv with
    | root hmem hp => exact hdone _ (ht.rooted _ (.inl hmem) hp)
    | nil hp => exact hdone _ (ht.rooted _ (.inr rfl) hp)
    | step hreach hrefers ih =>
      obtain ⟨j, hj, rfl⟩ := hw.designates_of_reachable hr hreach
      rw [hw.wordIndex hj] at ih
      exact hdone _ (ht.closed j hj ih _ hrefers)
  refine ⟨ht.sound i hi, fun hreach => ?_⟩
  have := hall _ hreach
  rwa [hw.wordIndex hi] at this

/-- The reference taken off the work list next designates an object, whose header can be read. -/
theorem next (hw : h₀.WellFormed starts) (hr : h₀.RootsIn starts roots)
    (ht : Tracing h₀ starts roots h work n) (hlast : work.size - 1 < work.size) :
    ∃ i ∈ starts, work[work.size - 1].wordIndex = i ∧ work = work.pop.push (.ofWordIndex i) ∧
      h.headerAt i = .ok (h.view i).header := by
  have hmem : work[work.size - 1] ∈ work := Array.getElem_mem _
  obtain ⟨i, hi, heq⟩ := hw.designates_of_reachable hr (ht.waiting _ hmem)
  refine ⟨i, hi, by rw [heq, hw.wordIndex hi], ?_, ?_⟩
  · rw [← heq]
    apply Array.ext
    · simp only [Array.size_push, Array.size_pop]
      omega
    · intro p hp hp'
      by_cases hlast : p < work.size - 1
      · rw [Array.getElem_push_lt (by simpa using hlast), Array.getElem_pop]
      · have : p = work.size - 1 := by omega
        subst this
        rw [Array.getElem_push, dif_neg (by simp)]
  · have hvalid := (ht.marks.sameShape hi).valid
    rw [(hw.readable i hi).valid] at hvalid
    exact headerAt_eq (hw.first_le hi) (ht.marks.top ▸ hw.lt_top hi)
      (by rw [ht.marks.top, ht.marks.size]; exact hw.committed) hvalid

/-- What happens to the references of an object that was just marked. -/
theorem pushes {i : Nat} (hw : h₀.WellFormed starts) (ht : Tracing h₀ starts roots h work n)
    (hi : i ∈ starts) (hm : h.isMarkedAt i = false) (rest : Array Ref) :
    let h' := h.setMark i (h.view i).header
    Pushes h₀.config.markLimit (h'.pushObject i (h.view i).header rest) rest
      (h'.referencesAt i) := by
  intro h'
  have hsize : i < h.memory.size := by
    rw [ht.marks.size]
    exact Nat.lt_of_lt_of_le (hw.lt_top hi) hw.committed
  have hmarks : MarksOnly h₀ h' starts := ht.marks.setMark hi hsize hm
  rw [hmarks.pushObject_eq hw hi (ht.marks.sameShape hi), hmarks.referencesAt_eq hw hi]
  exact pushRoots_pushes _ rest _

end Tracing

/-! ## The length of the work list -/

/-- An object has one reference to its class, and one in each of its slots. -/
theorem length_referencesAt (h : Heap) (i : Nat) :
    (h.referencesAt i).length = 1 + (h.slotsAt i).count := by
  simp only [referencesAt, ReferenceSlots.positions, ReferenceSlots.count, List.length_cons,
    List.length_map, List.length_append, List.length_range']
  omega

/-- No object has more references than words. -/
theorem length_referencesAt_le (h : Heap) (i : Nat) : (h.referencesAt i).length ≤ h.sizeOf i := by
  obtain ⟨hfixed, htail⟩ := h.slotsAt_bounds i
  obtain ⟨hfirst, hapart⟩ := h.slotsAt_apart i
  have htwo := (h.view i).two_le_size
  simp only [length_referencesAt, ReferenceSlots.count, headerWords, sizeOf] at *
  omega

/-- The number of references that may still come to wait: those of the objects that are not marked
yet. -/
def unmarkedReferences (h₀ h : Heap) (starts : List Nat) : Nat :=
  liveWords (fun i => (h₀.referencesAt i).length) (fun i => !h.isMarkedAt i) starts

/-- Marking one more object leaves the references of the others. -/
theorem unmarkedReferences_setMark {h₀ h : Heap} {starts : List Nat} {i : Nat}
    (hnodup : starts.Nodup) (hi : i ∈ starts) (hsize : i < h.memory.size)
    (hunmarked : h.isMarkedAt i = false) (header : Header) :
    unmarkedReferences h₀ (h.setMark i header) starts + (h₀.referencesAt i).length =
      unmarkedReferences h₀ h starts := by
  obtain ⟨xs, ys, rfl⟩ := List.append_of_mem hi
  obtain ⟨-, hys, hxs⟩ := List.nodup_append.mp hnodup
  have hsame : ∀ zs : List Nat, (∀ j ∈ zs, j ≠ i) →
      unmarkedReferences h₀ (h.setMark i header) zs = unmarkedReferences h₀ h zs := by
    intro zs hzs
    unfold unmarkedReferences liveWords
    rw [List.filter_congr fun j hj => by rw [isMarkedAt_setMark_ne (hzs j hj)]]
  have hcut : ∀ g : Heap, unmarkedReferences h₀ g (xs ++ i :: ys) = unmarkedReferences h₀ g xs +
      ((if !g.isMarkedAt i then (h₀.referencesAt i).length else 0) +
        unmarkedReferences h₀ g ys) := by
    intro g
    unfold unmarkedReferences
    rw [liveWords_append, ← List.singleton_append, liveWords_append, liveWords_singleton]
  rw [hcut, hcut, hsame xs (fun j hj => hxs j hj i List.mem_cons_self),
    hsame ys (fun j hj heq => (List.nodup_cons.mp hys).1 (heq ▸ hj)),
    isMarkedAt_setMark_self hsize, hunmarked]
  simp only [Bool.not_true, Bool.not_false, if_true, Bool.false_eq_true, if_false]
  omega

/-- When an object is marked, its references come to wait, and are no longer references of an object
to be marked. -/
theorem Tracing.length_pushed_le {h₀ h : Heap} {starts : List Nat} {roots : List Ref}
    {work : Array Ref} {n i : Nat} (hw : h₀.WellFormed starts)
    (ht : Tracing h₀ starts roots h work n) (hi : i ∈ starts) (hm : h.isMarkedAt i = false) :
    let h' := h.setMark i (h.view i).header
    ((h'.referencesAt i).filter Ref.isPointer).length + unmarkedReferences h₀ h' starts ≤
      unmarkedReferences h₀ h starts := by
  intro h'
  have hsize : i < h.memory.size := by
    rw [ht.marks.size]
    exact Nat.lt_of_lt_of_le (hw.lt_top hi) hw.committed
  have hnodup : starts.Nodup :=
    (hw.tiles.sorted h₀.sizeOf_pos).imp Nat.ne_of_lt
  have hrefs : h'.referencesAt i = h₀.referencesAt i :=
    (ht.marks.setMark hi hsize hm).referencesAt_eq hw hi
  have hfilter := List.length_filter_le Ref.isPointer (h'.referencesAt i)
  have hleft : unmarkedReferences h₀ h' starts + (h₀.referencesAt i).length =
      unmarkedReferences h₀ h starts := unmarkedReferences_setMark hnodup hi hsize hm _
  rw [hrefs] at hfilter ⊢
  omega

/-- The loop ends with nothing left to do, unless the work list overflows. It can do so only if its
limit is below what waits at first and all that may come to wait: the references of an object are
followed once. -/
theorem markFrom_spec {h₀ : Heap} {starts : List Nat} {roots : List Ref}
    (hw : h₀.WellFormed starts) (hr : h₀.RootsIn starts roots) (h : Heap) (work : Array Ref)
    (n : Nat) (ht : Tracing h₀ starts roots h work n) :
    (h.markFrom work n = .error (.markStackOverflow h₀.config.markLimit) ∧
        h₀.config.markLimit < work.size + unmarkedReferences h₀ h starts) ∨
      ∃ h' n', h.markFrom work n = .ok (h', n') ∧ Tracing h₀ starts roots h' #[] n' := by
  -- The recursion of the loop: either the list gets shorter or an object is marked.
  fun_induction markFrom h work n with
  | case1 h work n hpos index e hh =>
    obtain ⟨i, hi, hindex, -, hheader⟩ := ht.next hw hr (Nat.sub_one_lt_of_lt hpos)
    simp only [index, hindex, hheader] at hh
    cases hh
  | case2 h work n hpos index header hh hm ih =>
    obtain ⟨i, hi, hindex, hwork, hheader⟩ := ht.next hw hr (Nat.sub_one_lt_of_lt hpos)
    simp only [index, hindex, hheader, Except.ok.injEq] at hh
    rw [hwork] at ht
    have hskip : Tracing h₀ starts roots h work.pop n := by
      refine ht.skip ?_
      rw [hw.wordIndex hi, isMarkedAt, hh]
      exact hm
    rcases ih hskip with ⟨herr, hlimit⟩ | hdone
    · rw [Array.size_pop] at hlimit
      exact .inl ⟨herr, by omega⟩
    · exact .inr hdone
  | case3 h work n hpos index header hh hm h' e hpush =>
    obtain ⟨i, hi, hindex, hwork, hheader⟩ := ht.next hw hr (Nat.sub_one_lt_of_lt hpos)
    simp only [index, hindex, hheader, Except.ok.injEq] at hh
    have hun : h.isMarkedAt i = false := by
      rw [isMarkedAt, hh]
      simpa using hm
    have hp := ht.pushes hw hi hun work.pop
    simp only [h', index, hindex, ← hh] at hpush
    have hfew := ht.length_pushed_le hw hi hun
    rcases hp with hok | ⟨herr, hlimit⟩
    · rw [hok] at hpush
      cases hpush
    · rw [herr] at hpush
      cases hpush
      rw [Array.size_pop] at hlimit
      exact .inl ⟨rfl, by omega⟩
  | case4 h work n hpos index header hh hm h' work' hpush ih =>
    obtain ⟨i, hi, hindex, hwork, hheader⟩ := ht.next hw hr (Nat.sub_one_lt_of_lt hpos)
    simp only [index, hindex, hheader, Except.ok.injEq] at hh
    have hun : h.isMarkedAt i = false := by
      rw [isMarkedAt, hh]
      simpa using hm
    have hp := ht.pushes hw hi hun work.pop
    have hfew := ht.length_pushed_le hw hi hun
    rw [hwork] at ht
    have hvisit := ht.visit hw hi hun
    simp only [h', index, hindex, ← hh] at hpush ih ⊢
    rcases hp with hok | ⟨herr, -⟩
    · rw [hok] at hpush
      cases hpush
      rcases ih hvisit with ⟨herr, hlimit⟩ | hdone
      · simp only [Array.size_append, Array.size_pop, List.size_toArray] at hlimit
        refine .inl ⟨herr, ?_⟩
        omega
      · exact .inr hdone
    · rw [herr] at hpush
      cases hpush
  | case5 h work n hpos =>
    have hempty : work = #[] := Array.eq_empty_of_size_eq_zero (by omega)
    subst hempty
    exact .inr ⟨h, n, rfl, ht⟩

/-- Marking starts from a work list with the roots and nil. -/
theorem mark_eq (h : Heap) (roots : List Ref) : h.mark roots =
    pushRoots h.config.markLimit #[] (roots ++ [h.nil]) >>= (h.markFrom · 0) := by
  unfold mark
  rw [pushRoots_append]
  cases pushRoots h.config.markLimit #[] roots with
  | error e => rfl
  | ok work =>
    show (pushWork _ work h.nil >>= (h.markFrom · 0)) =
      ((pushWork _ work h.nil >>= pure) >>= (h.markFrom · 0))
    rw [bind_pure]

/-- After marking, exactly the objects that can be reached are marked, and their number is answered.
The only thing that can go wrong is an overflow of the work list, and that only if its limit is below
the number of roots, nil and all references of all objects. -/
theorem mark_spec {h : Heap} {starts : List Nat} {roots : List Ref} (hw : h.WellFormed starts)
    (hr : h.RootsIn starts roots) :
    (h.mark roots = .error (.markStackOverflow h.config.markLimit) ∧
        h.config.markLimit < roots.countP Ref.isPointer + 1 +
          (starts.map fun i => (h.referencesAt i).length).sum) ∨
      ∃ h' n, h.mark roots = .ok (h', n) ∧ MarksOnly h h' starts ∧
        (∀ i ∈ starts, h'.isMarkedAt i = true ↔ h.Reachable roots (.ofWordIndex i)) ∧
        n = starts.countP h'.isMarkedAt := by
  have hwaiting : ((roots ++ [h.nil]).filter Ref.isPointer).length ≤
      roots.countP Ref.isPointer + 1 := by
    have hnil := List.length_filter_le Ref.isPointer [h.nil]
    rw [List.length_singleton] at hnil
    rw [List.filter_append, List.length_append, ← List.countP_eq_length_filter]
    omega
  have hrefs : unmarkedReferences h h starts ≤
      (starts.map fun i => (h.referencesAt i).length).sum := liveWords_le_sum ..
  rw [mark_eq]
  rcases pushRoots_pushes h.config.markLimit #[] (roots ++ [h.nil]) with hok | ⟨herr, hlimit⟩
  · rw [hok]
    rcases markFrom_spec hw hr h _ 0 (Tracing.start hw) with ⟨herr, hlimit⟩ | ⟨h', n, hrun, ht⟩
    · refine .inl ⟨herr, ?_⟩
      rw [Array.size_append, List.size_toArray, List.size_toArray, List.length_nil] at hlimit
      omega
    · exact .inr ⟨h', n, hrun, ht.marks, fun i hi => ht.marked_iff hw hr hi, ht.count⟩
  · rw [herr]
    rw [List.size_toArray, List.length_nil] at hlimit
    exact .inl ⟨rfl, by omega⟩

/-- A work list with room for every root and every word in use does not overflow. -/
theorem lt_of_mark_overflow {h : Heap} {starts : List Nat} {roots : List Ref}
    (hw : h.WellFormed starts) (hr : h.RootsIn starts roots)
    (herror : h.mark roots = .error (.markStackOverflow h.config.markLimit)) :
    h.config.markLimit < roots.length + h.top := by
  rcases mark_spec hw hr with ⟨-, hlimit⟩ | ⟨h', n, hok, -⟩
  · have hpointers : roots.countP Ref.isPointer ≤ roots.length := List.countP_le_length
    have hsum : (starts.map fun i => (h.referencesAt i).length).sum ≤ (starts.map h.sizeOf).sum :=
      List.sum_le_sum fun i _ => h.length_referencesAt_le i
    have htop := hw.tiles.sum_eq
    simp only [firstWord] at htop
    omega
  · rw [hok] at herror
    cases herror

/-- From the last object of the ring marking comes to both ends of it and not to the gap. -/
theorem ringWithGap_mark :
    ringWithGap.mark [.ofWordIndex 6] ≠ .error (.markStackOverflow ringWithGap.config.markLimit) := by
  intro hoverflow
  have hok : (ringWithGap.mark [.ofWordIndex 6]).toBool = true := by cbv
  rw [hoverflow] at hok
  cases hok

end ObjectMachine.Heap
