import ObjectMachine.Collection.Collect
import ObjectMachine.Proofs.Collection.Compaction
import ObjectMachine.Proofs.Collection.Remapping

/-!
# A collection as a whole

Marking, compaction and remapping fit together: compaction finds the marked objects, and remapping
finds a new position for every reference, because a reference in an object that can be reached leads
to another one. What the three phases do to memory is said once, word by word, by `Collects`; all
else about a collection follows from it.

## Main results

* `collect_spec`: a collection succeeds unless marking overflows, and does what `Collects` says.
* `Collects.wellFormed`: memory is well formed after a collection.
* `Collects.rootsIn`: and the new roots are among its objects.
-/

namespace ObjectMachine.Heap

/-! ## Marked memory -/

namespace MarksOnly

variable {h₀ h : Heap} {starts : List Nat} {i : Nat}

theorem sizeOf (hm : MarksOnly h₀ h starts) (hw : h₀.WellFormed starts) (hi : i ∈ starts) :
    h.sizeOf i = h₀.sizeOf i :=
  (hm.agrees hw hi).size_eq

theorem laidOut (hm : MarksOnly h₀ h starts) (hw : h₀.WellFormed starts) : h.LaidOut starts where
  committed := by
    rw [hm.top, hm.size]
    exact hw.committed
  addressable := by
    rw [hm.size]
    exact hw.addressable
  tiles := by
    rw [hm.top]
    exact hw.tiles.congr fun i hi => hm.sizeOf hw hi
  readable i hi := (hm.agrees hw hi).readable (hw.readable i hi)

theorem largeSlot? (hm : MarksOnly h₀ h starts) (hw : h₀.WellFormed starts) (hi : i ∈ starts) :
    h.largeSlot? i = h₀.largeSlot? i := by
  have hformat := (hm.agrees hw hi).format_eq
  unfold Heap.largeSlot?
  rw [hformat]
  by_cases hf : (h₀.view i).format = .largeInteger
  · have hsize : (h₀.view i).size = headerWords + 1 := by simp [View.size, hf, Format.sizeInWords]
    have hcell : h.cell (i + headerWords) = h₀.cell (i + headerWords) :=
      hm.word hw hi (by simp [headerWords]) (by omega)
    rw [hcell]
  · simp [hf]

theorem slotsOwned (hm : MarksOnly h₀ h starts) (hw : h₀.WellFormed starts) :
    h.SlotsOwned starts where
  held i hi s hs := by
    rw [hm.largeSlot? hw hi] at hs
    rw [hm.largeIntegers]
    exact hw.held i hi s hs
  own i hi j hj s his hjs := by
    rw [hm.largeSlot? hw hi] at his
    rw [hm.largeSlot? hw hj] at hjs
    exact hw.own i hi j hj s his hjs

/-- Compaction undoes the marks. -/
theorem unmarkedView (hm : MarksOnly h₀ h starts) (hw : h₀.WellFormed starts) (hi : i ∈ starts)
    {k : Nat} (hk : k < h₀.sizeOf i) : h.unmarkedView i k = h₀.view i k := by
  have hun := hw.unmarked i hi
  unfold Heap.unmarkedView
  split
  · subst_vars
    have hheader : (h.view i).header.unmarked = (h₀.view i).header := by
      rcases hm.header i hi with heq | heq
      · rw [heq, Header.unmarked_of_not_isMarked hun]
      · rw [heq, Header.unmarked_marked hun]
    rw [hheader]
    rfl
  · exact hm.word hw hi (by omega) hk

/-- Marking and compaction together: survivors come out as they were. -/
theorem compacted {live : Nat → Bool} {h' : Heap} {t : Relocation} (hm : MarksOnly h₀ h starts)
    (hw : h₀.WellFormed starts) (hc : h.Compacted starts live h.unmarkedView h' t) :
    h₀.Compacted starts live h₀.view h' t := by
  have hsizes : ∀ i ∈ starts, h.sizeOf i = h₀.sizeOf i := fun i hi => hm.sizeOf hw hi
  have hslide : slide h.sizeOf live starts = slide h₀.sizeOf live starts := slide_congr hsizes
  have hslots : (starts.filter fun i => !live i).filterMap h.largeSlot? =
      (starts.filter fun i => !live i).filterMap h₀.largeSlot? :=
    List.filterMap_congr fun i hi => hm.largeSlot? hw (List.mem_filter.mp hi).1
  refine ⟨?_, hc.size.trans hm.size, ?_, fun i hi hlive k hk => ?_, ?_, ?_, ?_, ?_, ?_⟩
  · have hothers := hc.others
    rw [← hm.rest]
    exact congrArg (fun x : Heap => { x with memory := h₀.memory }) hothers
  · rw [hc.top, liveWords_congr hsizes]
  · rw [← hslide, hc.view i hi hlive k (by rw [hsizes i hi]; exact hk), hm.unmarkedView hw hi hk]
  · rw [← hm.top]
    exact hc.cleared
  · rw [hc.first]
    refine hm.cell 0 fun hmem => ?_
    have hlo := hw.first_le hmem
    simp only [firstWord] at hlo
    omega
  · rw [← hslide, ← hm.top]
    exact hc.tracks
  · rw [hc.table, hm.largeIntegers, hslots]
  · rw [hc.stats, hm.stats, hslide, liveWords_congr hsizes, liveWords_congr hsizes]

end MarksOnly

/-! ## What a collection does -/

/-- Where a reference leads after a collection. -/
def moveRef (h : Heap) (starts : List Nat) (live : Nat → Bool) (r : Ref) : Ref :=
  if r.isPointer then .ofWordIndex (slide h.sizeOf live starts r.wordIndex) else r

/-- The words of the survivors and all else that a collection leaves behind. -/
structure Collects (h : Heap) (starts : List Nat) (live : Nat → Bool) (roots : List Ref)
    (c : Collected) : Prop where
  size : c.heap.memory.size = h.memory.size
  top : c.heap.top = firstWord + liveWords h.sizeOf live starts
  words : ∀ i ∈ starts, live i = true → ∀ k, k < h.sizeOf i →
    c.heap.view (slide h.sizeOf live starts i) k =
      if (h.view i).IsTraced k then (h.moveRef starts live ((h.view i).ref k)).bits
      else h.view i k
  cleared : ∀ p, c.heap.top ≤ p → p < h.top → c.heap.cell p = 0
  first : c.heap.cell 0 = h.cell 0
  roots : c.roots = roots.map (h.moveRef starts live)
  nil : c.heap.nil = h.moveRef starts live h.nil
  table : c.heap.largeIntegers = h.largeIntegers.releaseAll
    ((starts.filter fun i => !live i).filterMap h.largeSlot?)
  config : c.heap.config = h.config
  reservedWords : c.heap.reservedWords = h.reservedWords
  sinceCollection : c.heap.sinceCollection = 0
  hashState : c.heap.hashState = h.hashState
  stats : c.heap.stats = { h.stats with
    collections := h.stats.collections + 1
    reclaimedBytes := h.stats.reclaimedBytes +
      liveWords h.sizeOf (fun i => !live i) starts * wordBytes
    lastReclaimedBytes := liveWords h.sizeOf (fun i => !live i) starts * wordBytes
    lastLiveBytes := liveWords h.sizeOf live starts * wordBytes
    lastMovedObjects :=
      (starts.filter live).countP fun i => decide (slide h.sizeOf live starts i ≠ i) }
  reclaimed : c.reclaimed = c.heap.stats.lastReclaimedBytes

/-- The survivors are the objects that can be reached. -/
def KeepsReachable (h : Heap) (starts : List Nat) (live : Nat → Bool) (roots : List Ref) : Prop :=
  ∀ i ∈ starts, live i = true ↔ h.Reachable roots (.ofWordIndex i)

section Phases

variable {h : Heap} {starts : List Nat} {live : Nat → Bool} {roots : List Ref} {i : Nat}

/-- What survivors and roots refer to survives. -/
theorem KeepsReachable.live_of_reachable (hk : h.KeepsReachable starts live roots)
    (hw : h.WellFormed starts) (hr : h.RootsIn starts roots) {r : Ref}
    (hreach : h.Reachable roots r) : ∃ i ∈ starts, live i = true ∧ r = .ofWordIndex i := by
  obtain ⟨i, hi, rfl⟩ := hw.designates_of_reachable hr hreach
  exact ⟨i, hi, (hk i hi).mpr hreach, rfl⟩

theorem KeepsReachable.live_of_traced (hk : h.KeepsReachable starts live roots)
    (hw : h.WellFormed starts) (hr : h.RootsIn starts roots) (hi : i ∈ starts)
    (hlive : live i = true) {k : Nat} (htraced : (h.view i).IsTraced k)
    (hp : ((h.view i).ref k).isPointer = true) :
    ∃ j ∈ starts, live j = true ∧ (h.view i).ref k = .ofWordIndex j :=
  hk.live_of_reachable hw hr
    (.step ((hk i hi).mp hlive) ((hw.refers_iff hi).mpr ⟨hp, k, htraced, rfl⟩))

theorem moveRef_ofWordIndex (hl : h.LaidOut starts) (hi : i ∈ starts) :
    h.moveRef starts live (.ofWordIndex i) = .ofWordIndex (slide h.sizeOf live starts i) := by
  rw [moveRef, if_pos (hl.isPointer hi), hl.wordIndex hi]

theorem slide_lt_addressLimit (hl : h.LaidOut starts) (hi : i ∈ starts) :
    slide h.sizeOf live starts i < Ref.addressLimit :=
  Nat.lt_of_le_of_lt (hl.tiles.slide_le h.sizeOf_pos hi) (hl.lt_addressLimit hi)

theorem isPointer_moveRef (hl : h.LaidOut starts) {r : Ref}
    (hr : r.isPointer = true → Designates starts r) :
    (h.moveRef starts live r).isPointer = r.isPointer := by
  by_cases hp : r.isPointer = true
  · obtain ⟨i, hi, rfl⟩ := hr hp
    rw [moveRef_ofWordIndex hl hi, hp]
    exact Ref.isPointer_ofWordIndex (first_le_slide ..) (slide_lt_addressLimit hl hi)
  · rw [moveRef, if_neg hp]

/-- The tables of a relocation know the new form of every reference to a survivor. -/
theorem relocate_eq {t : Relocation} (hl : h.LaidOut starts)
    (ht : t.Tracks h.top (starts.filter live) (slide h.sizeOf live starts)) {r : Ref}
    (hr : r.isPointer = true → ∃ i ∈ starts, live i = true ∧ r = .ofWordIndex i) :
    t.relocate r = .ok (h.moveRef starts live r) := by
  by_cases hp : r.isPointer = true
  · obtain ⟨i, hi, hlive, rfl⟩ := hr hp
    rw [Relocation.relocate, if_pos hp, moveRef_ofWordIndex hl hi]
    refine ht.forward_eq ((hl.tiles.sorted h.sizeOf_pos).filter _) ?_
      (List.mem_filter.mpr ⟨hi, hlive⟩) (hl.lt_top hi) (hl.lt_addressLimit hi)
    intro a ha b hb hab
    obtain ⟨ha, hla⟩ := List.mem_filter.mp ha
    obtain ⟨hb, hlb⟩ := List.mem_filter.mp hb
    exact (hl.tiles.slide_lt_iff h.sizeOf_pos ha hb hla hlb).mpr hab
  · rw [Relocation.relocate, if_neg hp, moveRef, if_neg hp]

/-- A list is mapped if each of its members is. -/
theorem mapM_eq_map {α β : Type} {f : α → Except Fatal β} {g : α → β} {xs : List α}
    (hfg : ∀ x ∈ xs, f x = .ok (g x)) : xs.mapM f = .ok (xs.map g) := by
  induction xs with
  | nil => rfl
  | cons x xs ih =>
    rw [List.mapM_cons, hfg x List.mem_cons_self, ih fun y hy => hfg y (List.mem_cons_of_mem _ hy)]
    rfl

/-- A compaction that moves objects without changing them leaves memory laid out. -/
theorem laidOut_of_views {h' : Heap} (hl : h.LaidOut starts)
    (htop : h'.top = firstWord + liveWords h.sizeOf live starts)
    (hsize : h'.memory.size = h.memory.size)
    (hagree : ∀ i ∈ starts, live i = true →
      View.Agrees (h.view i) (h'.view (slide h.sizeOf live starts i))) :
    h'.LaidOut ((starts.filter live).map (slide h.sizeOf live starts)) where
  committed := by
    have hsum := hl.tiles.sum_eq
    have hle := liveWords_le_sum h.sizeOf live starts
    have := hl.committed
    rw [htop, hsize]
    omega
  addressable := by
    rw [hsize]
    exact hl.addressable
  tiles := by
    rw [htop]
    exact hl.tiles.slide_tiles h.sizeOf_pos fun i hi hlive => (hagree i hi hlive).size_eq
  readable j hj := by
    obtain ⟨i, hi, rfl⟩ := List.mem_map.mp hj
    obtain ⟨hi, hlive⟩ := List.mem_filter.mp hi
    exact (hagree i hi hlive).readable (hl.readable i hi)

end Phases

/-- Compaction and remapping together: from memory with its survivors known to memory after the
collection. -/
theorem Compacted.collects {h packed : Heap} {starts : List Nat} {live : Nat → Bool}
    {roots : List Ref} {t : Relocation} (hc : h.Compacted starts live h.view packed t)
    (hw : h.WellFormed starts) (hr : h.RootsIn starts roots)
    (hk : h.KeepsReachable starts live roots) :
    ∃ h', packed.remap t = .ok h' ∧
      roots.mapM t.relocate = .ok (roots.map (h.moveRef starts live)) ∧
      t.relocate h'.nil = .ok (h.moveRef starts live h.nil) ∧
      h.Collects starts live roots
        ⟨{ h' with nil := h.moveRef starts live h.nil }.closeCollection,
          roots.map (h.moveRef starts live), h'.stats.lastReclaimedBytes⟩ ∧
      ∀ p, packed.top ≤ p → h'.cell p = packed.cell p := by
  have hl := hw.toLaidOut
  -- Up to here survivors are, word for word, what they were.
  have hagree : ∀ i ∈ starts, live i = true →
      View.Agrees (h.view i) (packed.view (slide h.sizeOf live starts i)) := by
    intro i hi hlive
    have hheader : (packed.view (slide h.sizeOf live starts i)).header = (h.view i).header :=
      congrArg Header.mk (hc.view i hi hlive 0 (h.sizeOf_pos i))
    exact View.agrees_of_words (hw.readable i hi) (by rw [hheader]; exact .refl _) fun k _ hk =>
      hc.view i hi hlive k hk
  have hlaid := laidOut_of_views hl hc.top hc.size hagree
  have hrelocate : ∀ r, h.Reachable roots r → t.relocate r = .ok (h.moveRef starts live r) :=
    fun r hreach => relocate_eq hl hc.tracks fun _ => hk.live_of_reachable hw hr hreach
  have hmovable : ∀ j ∈ (starts.filter live).map (slide h.sizeOf live starts),
      Movable t (h.moveRef starts live) (packed.view j) := by
    intro j hj k hkj
    obtain ⟨i, hi, rfl⟩ := List.mem_map.mp hj
    obtain ⟨hi, hlive⟩ := List.mem_filter.mp hi
    have hki := ((hagree i hi hlive).isTraced_iff k).mp hkj
    have href : (packed.view (slide h.sizeOf live starts i)).ref k = (h.view i).ref k :=
      congrArg Ref.mk (hc.view i hi hlive k hki.bounds.2)
    rw [href]
    refine ⟨relocate_eq hl hc.tracks (hk.live_of_traced hw hr hi hlive hki), fun hp => ?_⟩
    rw [isPointer_moveRef hl (hw.traced i hi k hki), hp]
  obtain ⟨h', hremap, hm⟩ := remap_spec hlaid hmovable
  have hothers : { h' with
      memory := h.memory, top := h.top, largeIntegers := h.largeIntegers, stats := h.stats } = h := by
    have := hc.others
    rw [← hm.rest] at this
    exact this
  have hnil : h'.nil = h.nil := (congrArg Heap.nil hothers :)
  have hstats : h'.stats = packed.stats := (congrArg Heap.stats hm.rest :)
  -- No reference lies beyond the objects.
  have hbeyond : ∀ p, packed.top ≤ p → h'.cell p = packed.cell p := by
    refine fun p hp => hm.kept p ?_
    rintro ⟨j, hj, k, rfl, hjk⟩
    have := hlaid.fits hj
    have := hjk.bounds
    omega
  refine ⟨h', hremap, mapM_eq_map fun r hmem => ?_, ?_, ?_, hbeyond⟩
  · exact relocate_eq hl hc.tracks fun hp => hk.live_of_reachable hw hr (.root hmem hp)
  · rw [hnil]
    exact relocate_eq hl hc.tracks fun hp => hk.live_of_reachable hw hr (.nil hp)
  · refine
      { size := hm.size.trans hc.size
        top := hm.top.trans hc.top
        words := fun i hi hlive k hk => ?_
        cleared := fun p hlo hhi => ?_
        first := ?_
        roots := rfl
        nil := rfl
        table := ?_
        config := (congrArg Heap.config hothers :)
        reservedWords := (congrArg Heap.reservedWords hothers :)
        sinceCollection := rfl
        hashState := (congrArg Heap.hashState hothers :)
        stats := ?_
        reclaimed := rfl }
    · have hj : slide h.sizeOf live starts i ∈
          (starts.filter live).map (slide h.sizeOf live starts) :=
        List.mem_map.mpr ⟨i, List.mem_filter.mpr ⟨hi, hlive⟩, rfl⟩
      have hcell : packed.cell (slide h.sizeOf live starts i + k) = h.view i k :=
        hc.view i hi hlive k hk
      have htraced := (hagree i hi hlive).isTraced_iff k
      show h'.cell _ = _
      by_cases hik : (h.view i).IsTraced k
      · rw [if_pos hik, hm.moved _ ⟨_, hj, k, rfl, htraced.mpr hik⟩, hcell]
        rfl
      · rw [if_neg hik, hm.kept, hcell]
        rintro ⟨j', hj', hjk⟩
        have hk' : k < (packed.view (slide h.sizeOf live starts i)).size := by
          rw [(hagree i hi hlive).size_eq]
          exact hk
        exact hik (htraced.mp (hlaid.tracedAt_unique hj hj' hk' hjk).2)
    · have hlo' : packed.top ≤ p := hm.top ▸ hlo
      show h'.cell p = 0
      rw [hbeyond p hlo', hc.cleared p hlo' hhi]
    · show h'.cell 0 = _
      rw [hm.kept 0, hc.first]
      rintro ⟨j, hj, k, heq, hjk⟩
      have := hjk.bounds
      omega
    · exact (congrArg Heap.largeIntegers hm.rest :).trans hc.table
    · show HeapStats.mk .. = _
      rw [hstats, hc.stats]

/-- A collection succeeds if marking does, and consists of the three phases. -/
theorem collect_of_mark {h marked : Heap} {starts : List Nat} {roots : List Ref} {n : Nat}
    (hw : h.WellFormed starts) (hr : h.RootsIn starts roots)
    (hmark : h.mark roots = .ok (marked, n)) (hm : MarksOnly h marked starts)
    (hk : h.KeepsReachable starts marked.isMarkedAt roots) :
    ∃ c, h.collect roots = .ok c ∧ h.Collects starts marked.isMarkedAt roots c ∧
      ∀ p, h.top ≤ p → c.heap.cell p = h.cell p := by
  have hl := hm.laidOut hw
  have ho := hm.slotsOwned hw
  obtain ⟨packed, t, hcompact, hc⟩ := compact_spec hl ho
  obtain ⟨h', hremap, hroots, hnil, hcollects, hbeyond⟩ := (hm.compacted hw hc).collects hw hr hk
  refine ⟨_, ?_, hcollects, fun p hp => ?_⟩
  · unfold collect
    rw [hmark]
    show (marked.compact >>= _) = _
    rw [hcompact]
    show (packed.remap t >>= _) = _
    rw [hremap]
    show (roots.mapM t.relocate >>= _) = _
    rw [hroots]
    show (t.relocate h'.nil >>= _) = _
    rw [hnil]
    rfl
  · have htop : packed.top ≤ h.top := by
      have hsum := hw.tiles.sum_eq
      have hle := liveWords_le_sum h.sizeOf marked.isMarkedAt starts
      have := (hm.compacted hw hc).top
      omega
    refine (hbeyond p (by omega)).trans ((compact_beyond hl ho hcompact ?_).trans ?_)
    · rw [hm.top]
      exact hp
    · refine hm.cell p fun hmem => ?_
      have := hw.lt_top hmem
      omega

/-- A collection succeeds unless the work list of marking overflows. It keeps exactly the objects that
can be reached, and does to memory what `Collects` says. -/
theorem collect_spec {h : Heap} {starts : List Nat} {roots : List Ref} (hw : h.WellFormed starts)
    (hr : h.RootsIn starts roots) :
    (h.mark roots = .error (.markStackOverflow h.config.markLimit) ∧
        h.collect roots = .error (.markStackOverflow h.config.markLimit)) ∨
      ∃ c live, h.collect roots = .ok c ∧ h.KeepsReachable starts live roots ∧
        h.Collects starts live roots c := by
  rcases mark_spec hw hr with ⟨hoverflow, -⟩ | ⟨marked, n, hmark, hm, hiff, -⟩
  · refine .inl ⟨hoverflow, ?_⟩
    unfold collect
    rw [hoverflow]
    rfl
  · obtain ⟨c, hcollect, hc, -⟩ := collect_of_mark hw hr hmark hm hiff
    exact .inr ⟨c, marked.isMarkedAt, hcollect, hiff, hc⟩

/-! ## Memory after a collection -/

/-- Where the survivors begin after a collection. -/
def survivors (h : Heap) (starts : List Nat) (live : Nat → Bool) : List Nat :=
  (starts.filter live).map (slide h.sizeOf live starts)

theorem mem_survivors {h : Heap} {starts : List Nat} {live : Nat → Bool} {j : Nat} :
    j ∈ h.survivors starts live ↔
      ∃ i ∈ starts, live i = true ∧ slide h.sizeOf live starts i = j := by
  simp only [survivors, List.mem_map, List.mem_filter, and_assoc]

namespace Collects

variable {h : Heap} {starts : List Nat} {live : Nat → Bool} {roots : List Ref} {c : Collected}
  {i k : Nat}

theorem word_of_not_isTraced (hc : h.Collects starts live roots c) (hi : i ∈ starts)
    (hlive : live i = true) (hk : k < h.sizeOf i) (hnot : ¬ (h.view i).IsTraced k) :
    c.heap.view (slide h.sizeOf live starts i) k = h.view i k := by
  rw [hc.words i hi hlive k hk, if_neg hnot]

theorem ref_of_isTraced (hc : h.Collects starts live roots c) (hi : i ∈ starts)
    (hlive : live i = true) (hk : (h.view i).IsTraced k) :
    (c.heap.view (slide h.sizeOf live starts i)).ref k =
      h.moveRef starts live ((h.view i).ref k) := by
  unfold View.ref
  rw [hc.words i hi hlive k hk.bounds.2, if_pos hk]
  rfl

/-- The header of a survivor is what it was. -/
theorem header_eq (hc : h.Collects starts live roots c) (hi : i ∈ starts) (hlive : live i = true) :
    (c.heap.view (slide h.sizeOf live starts i)).header = (h.view i).header :=
  congrArg Header.mk
    (hc.word_of_not_isTraced hi hlive (h.sizeOf_pos i) (View.not_isTraced_header _))

/-- A survivor is the same object as before. -/
theorem agrees (hc : h.Collects starts live roots c) (hw : h.WellFormed starts) (hi : i ∈ starts)
    (hlive : live i = true) :
    View.Agrees (h.view i) (c.heap.view (slide h.sizeOf live starts i)) where
  header := by
    rw [hc.header_eq hi hlive]
    exact .refl _
  count hidx :=
    hc.word_of_not_isTraced hi hlive (View.count_lt_size hidx) (View.not_isTraced_count _)
  stackPointer hctx := by
    have htraced : (h.view i).IsTraced (headerWords + contextStackPointer) :=
      .inr (View.isSlot_stackPointer (hw.readable i hi) hctx)
    have hnew : (c.heap.view (slide h.sizeOf live starts i)).stackPointer =
        h.moveRef starts live (h.view i).stackPointer := hc.ref_of_isTraced hi hlive htraced
    by_cases hp : (h.view i).stackPointer.isPointer = true
    · right
      have hp' : (h.moveRef starts live (h.view i).stackPointer).isPointer = true :=
        (isPointer_moveRef hw.toLaidOut (hw.traced i hi _ htraced)).trans hp
      rw [hnew]
      exact ⟨Ref.not_isSmallInteger_of_isPointer hp', Ref.not_isSmallInteger_of_isPointer hp⟩
    · left
      rw [hnew, moveRef, if_neg hp]

theorem laidOut (hc : h.Collects starts live roots c) (hw : h.WellFormed starts) :
    c.heap.LaidOut (h.survivors starts live) :=
  laidOut_of_views hw.toLaidOut hc.top hc.size fun _ hi hlive => hc.agrees hw hi hlive

theorem largeSlot? (hc : h.Collects starts live roots c) (hw : h.WellFormed starts)
    (hi : i ∈ starts) (hlive : live i = true) :
    c.heap.largeSlot? (slide h.sizeOf live starts i) = h.largeSlot? i := by
  unfold Heap.largeSlot?
  rw [(hc.agrees hw hi hlive).format_eq]
  by_cases hf : (h.view i).format = .largeInteger
  · have hsize : h.sizeOf i = headerWords + 1 := by
      simp [Heap.sizeOf, View.size, hf, Format.sizeInWords]
    have hnot : ¬ (h.view i).IsTraced headerWords := by
      rw [View.isTraced_iff_class (by rw [hf]; rfl)]
      simp [headerWords]
    have hcell : c.heap.cell (slide h.sizeOf live starts i + headerWords) =
        h.cell (i + headerWords) := hc.word_of_not_isTraced hi hlive (by omega) hnot
    rw [hcell]
  · simp [hf]

/-- Survivors keep the values of their slots: no object that died had one of them. -/
theorem get?_largeSlot (hc : h.Collects starts live roots c) (hw : h.WellFormed starts)
    (hi : i ∈ starts) (hlive : live i = true) {s : Nat} (hs : h.largeSlot? i = some s) :
    c.heap.largeIntegers.get? s = h.largeIntegers.get? s := by
  rw [hc.table, LargeIntegers.get?_releaseAll, if_neg]
  intro hmem
  obtain ⟨j, hj, hjs⟩ := List.mem_filterMap.mp hmem
  obtain ⟨hj, hdead⟩ := List.mem_filter.mp hj
  rw [← hw.own i hi j hj s hs hjs, hlive] at hdead
  cases hdead

theorem slotsOwned (hc : h.Collects starts live roots c) (hw : h.WellFormed starts) :
    c.heap.SlotsOwned (h.survivors starts live) where
  held j hj s hs := by
    obtain ⟨i, hi, hlive, rfl⟩ := mem_survivors.mp hj
    rw [hc.largeSlot? hw hi hlive] at hs
    rw [hc.get?_largeSlot hw hi hlive hs]
    exact hw.held i hi s hs
  own j hj j' hj' s hs hs' := by
    obtain ⟨i, hi, hlive, rfl⟩ := mem_survivors.mp hj
    obtain ⟨i', hi', hlive', rfl⟩ := mem_survivors.mp hj'
    rw [hc.largeSlot? hw hi hlive] at hs
    rw [hc.largeSlot? hw hi' hlive'] at hs'
    rw [hw.own i hi i' hi' s hs hs']

/-- A reference to a survivor leads to it also after the collection. -/
theorem designates_moveRef (hl : h.LaidOut starts) {r : Ref}
    (hr : ∃ i ∈ starts, live i = true ∧ r = .ofWordIndex i) :
    Designates (h.survivors starts live) (h.moveRef starts live r) := by
  obtain ⟨i, hi, hlive, rfl⟩ := hr
  exact ⟨_, mem_survivors.mpr ⟨i, hi, hlive, rfl⟩, moveRef_ofWordIndex hl hi⟩

/-- Memory is well formed after a collection. -/
theorem wellFormed (hc : h.Collects starts live roots c) (hw : h.WellFormed starts)
    (hr : h.RootsIn starts roots) (hk : h.KeepsReachable starts live roots) :
    c.heap.WellFormed (h.survivors starts live) where
  toLaidOut := hc.laidOut hw
  toSlotsOwned := hc.slotsOwned hw
  unmarked j hj := by
    obtain ⟨i, hi, hlive, rfl⟩ := mem_survivors.mp hj
    rw [hc.header_eq hi hlive]
    exact hw.unmarked i hi
  traced j hj k htraced hp := by
    obtain ⟨i, hi, hlive, rfl⟩ := mem_survivors.mp hj
    rw [(hc.agrees hw hi hlive).isTraced_iff] at htraced
    rw [hc.ref_of_isTraced hi hlive htraced] at hp ⊢
    rw [isPointer_moveRef hw.toLaidOut (hw.traced i hi k htraced)] at hp
    exact designates_moveRef hw.toLaidOut (hk.live_of_traced hw hr hi hlive htraced hp)

/-- The new roots are among the objects after a collection. -/
theorem rootsIn (hc : h.Collects starts live roots c) (hw : h.WellFormed starts)
    (hr : h.RootsIn starts roots) (hk : h.KeepsReachable starts live roots) :
    c.heap.RootsIn (h.survivors starts live) c.roots where
  roots r hmem hp := by
    rw [hc.roots] at hmem
    obtain ⟨r, hr', rfl⟩ := List.mem_map.mp hmem
    rw [isPointer_moveRef hw.toLaidOut (hr.roots r hr')] at hp
    exact designates_moveRef hw.toLaidOut (hk.live_of_reachable hw hr (.root hr' hp))
  nil hp := by
    rw [hc.nil, isPointer_moveRef hw.toLaidOut hr.nil] at hp
    rw [hc.nil]
    exact designates_moveRef hw.toLaidOut (hk.live_of_reachable hw hr (.nil hp))

end Collects

end ObjectMachine.Heap
