import ObjectMachine.Proofs.Collection.Collecting
import ObjectMachine.Proofs.Heap.Allocation

/-!
# Collections are exact, and their accounts balance

A collection keeps the objects that can be reached and no others, in their order and without gaps.
What it reports follows from where the objects went: the bytes reclaimed are those of the objects
that died, and the objects moved are the survivors with a new reference. Over any history of
allocations and collections, bytes in use are bytes allocated less bytes reclaimed.

## Main results

* `Collects.exact`: the objects after a collection, their places and the reported numbers.
* `allocate_cases`: an allocation is some collections followed by one that finds room.
* `Grown.balanced`: the accounts balance in every heap that allocations and collections lead to.
-/

namespace ObjectMachine.Heap

/-! ## Exactness -/

/-- What a collection keeps, where it puts it and what it reports, given the objects before it with
their sizes, which of them are alive, and where the collection takes these. -/
structure Exact (h : Heap) (roots : List Ref) (c : Collected) (all : List Ref)
    (words : Ref → Nat) (alive : Ref → Bool) (f : Ref → Ref) : Prop where
  objects : h.objects = .ok all
  size : ∀ o ∈ all, h.sizeInWords o = .ok (words o)
  /-- The objects alive are those that can be reached. -/
  reachable : ∀ o, h.Reachable roots o ↔ o ∈ all ∧ alive o = true
  /-- The objects after the collection are the images of those, in the same order. -/
  survivors : c.heap.objects = .ok ((all.filter alive).map f)
  /-- They follow one another from the first word exactly up to the first free one. -/
  tiles : Tiles c.heap.sizeOf firstWord ((all.filter alive).map fun o => (f o).wordIndex)
    c.heap.top
  sizes : ∀ o ∈ all, alive o = true →
    c.heap.sizeInWords (f o) = .ok (words o) ∧ c.heap.sizeOf (f o).wordIndex = words o
  increasing : ∀ a b, h.Reachable roots a → h.Reachable roots b → a.wordIndex < b.wordIndex →
    (f a).wordIndex < (f b).wordIndex
  down : ∀ o, h.Reachable roots o → (f o).wordIndex ≤ o.wordIndex
  cleared : ∀ p, c.heap.top ≤ p → p < h.top → c.heap.word p = .ok 0
  reclaimed : c.heap.stats.lastReclaimedBytes =
    wordBytes * ((all.filter fun o => !alive o).map words).sum
  used : h.usedBytes = c.heap.usedBytes + c.heap.stats.lastReclaimedBytes
  moved : c.heap.stats.lastMovedObjects = (all.filter alive).countP fun o => decide (f o ≠ o)

/-- The references of some objects, filtered, are the references of the objects filtered. -/
private theorem LaidOut.filter_map {h : Heap} {starts : List Nat} (hl : h.LaidOut starts)
    (p : Nat → Bool) :
    (starts.map Ref.ofWordIndex).filter (fun o => p o.wordIndex) =
      (starts.filter p).map Ref.ofWordIndex := by
  rw [List.filter_map]
  congr 1
  exact List.filter_congr fun i hi => by rw [Function.comp_apply, hl.wordIndex hi]

/-- A collection is exact. -/
theorem Collects.exact {h : Heap} {starts : List Nat} {live : Nat → Bool} {roots : List Ref}
    {c : Collected} (hc : h.Collects starts live roots c) (hw : h.WellFormed starts)
    (hr : h.RootsIn starts roots) (hk : h.KeepsReachable starts live roots) :
    h.Exact roots c (starts.map Ref.ofWordIndex) (fun o => h.sizeOf o.wordIndex)
      (fun o => live o.wordIndex) (h.moveRef starts live) := by
  have hl := hw.toLaidOut
  have hl' := hc.laidOut hw
  have hkept := hl.filter_map live
  have hplace : ∀ i ∈ starts, live i = true →
      (h.moveRef starts live (.ofWordIndex i)).wordIndex = slide h.sizeOf live starts i := by
    intro i hi hlive
    rw [moveRef_ofWordIndex hl hi]
    exact hl'.wordIndex (mem_survivors.mpr ⟨i, hi, hlive, rfl⟩)
  have hplaces : ((starts.filter live).map Ref.ofWordIndex).map
      (fun o => (h.moveRef starts live o).wordIndex) = h.survivors starts live := by
    rw [List.map_map]
    exact List.map_congr_left fun i hi =>
      hplace i (List.mem_filter.mp hi).1 (List.mem_filter.mp hi).2
  refine
    { objects := hl.objects_eq
      size := ?_
      reachable := ?_
      survivors := ?_
      tiles := ?_
      sizes := ?_
      increasing := ?_
      down := ?_
      cleared := ?_
      reclaimed := ?_
      used := ?_
      moved := ?_ }
  · intro o ho
    obtain ⟨i, hi, rfl⟩ := List.mem_map.mp ho
    rw [hl.sizeInWords hi, hl.wordIndex hi]
    rfl
  · intro o
    constructor
    · intro ho
      obtain ⟨i, hi, hlive, rfl⟩ := hk.live_of_reachable hw hr ho
      exact ⟨List.mem_map.mpr ⟨i, hi, rfl⟩, by rw [hl.wordIndex hi]; exact hlive⟩
    · rintro ⟨ho, hlive⟩
      obtain ⟨i, hi, rfl⟩ := List.mem_map.mp ho
      rw [hl.wordIndex hi] at hlive
      exact (hk i hi).mp hlive
  · rw [hl'.objects_eq, hkept, survivors, List.map_map, List.map_map]
    congr 1
    exact List.map_congr_left fun i hi =>
      (moveRef_ofWordIndex hl (List.mem_filter.mp hi).1).symm
  · rw [hkept, hplaces]
    exact hl'.tiles
  · intro o ho hlive
    obtain ⟨i, hi, rfl⟩ := List.mem_map.mp ho
    rw [hl.wordIndex hi] at hlive ⊢
    have hsize : c.heap.sizeOf (slide h.sizeOf live starts i) = h.sizeOf i :=
      (hc.agrees hw hi hlive).size_eq
    rw [hplace i hi hlive, moveRef_ofWordIndex hl hi,
      hl'.sizeInWords (mem_survivors.mpr ⟨i, hi, hlive, rfl⟩)]
    exact ⟨congrArg Except.ok hsize, hsize⟩
  · intro a b ha hb hab
    obtain ⟨i, hi, hli, rfl⟩ := hk.live_of_reachable hw hr ha
    obtain ⟨j, hj, hlj, rfl⟩ := hk.live_of_reachable hw hr hb
    rw [hl.wordIndex hi, hl.wordIndex hj] at hab
    rw [hplace i hi hli, hplace j hj hlj]
    exact (hl.tiles.slide_lt_iff h.sizeOf_pos hi hj hli hlj).mpr hab
  · intro o ho
    obtain ⟨i, hi, hlive, rfl⟩ := hk.live_of_reachable hw hr ho
    rw [hplace i hi hlive, hl.wordIndex hi]
    exact hl.tiles.slide_le h.sizeOf_pos hi
  · intro p hlo hhi
    have hin : p < c.heap.memory.size := by
      rw [hc.size]
      exact Nat.lt_of_lt_of_le hhi hl.committed
    rw [word_eq hin, hc.cleared p hlo hhi]
  · have hdead := hl.filter_map fun i => !live i
    simp only [hdead, hc.stats, liveWords, List.map_map]
    rw [Nat.mul_comm]
    congr 2
    exact List.map_congr_left fun i hi => by
      rw [Function.comp_apply, hl.wordIndex (List.mem_filter.mp hi).1]
  · have hsum := hl.tiles.sum_eq
    rw [← liveWords_add_not _ live] at hsum
    simp only [usedBytes, hc.stats, hc.top]
    rw [← Nat.add_mul, ← hsum, Nat.add_assoc]
  · rw [hkept, List.countP_map, hc.stats]
    refine List.countP_congr fun i hi => ?_
    obtain ⟨hi, hlive⟩ := List.mem_filter.mp hi
    simp only [Function.comp_apply, decide_eq_true_eq, moveRef_ofWordIndex hl hi]
    refine not_congr ⟨fun heq => by rw [heq], fun heq => ?_⟩
    exact Ref.ofWordIndex_inj (slide_lt_addressLimit hl hi) (hl.lt_addressLimit hi) heq

/-! ## Allocations that collect -/

/-- Collections that keep some roots and the class of the object to come, as many as it takes. -/
inductive Prepares : Heap → List Ref → Ref → Heap → List Ref → Ref → Prop
  | ready (h : Heap) (roots : List Ref) (cls : Ref) : Prepares h roots cls h roots cls
  | collect {h h' : Heap} {roots roots' : List Ref} {cls cls' : Ref} {c : Collected} :
      h.collect (roots ++ [cls]) = .ok c →
      Prepares c.heap c.roots.dropLast (c.roots.getLastD cls) h' roots' cls' →
      Prepares h roots cls h' roots' cls'

theorem Prepares.of_collectKeeping {h h₁ h' : Heap} {roots roots₁ roots' : List Ref}
    {cls cls₁ cls' : Ref} (hok : h.collectKeeping roots cls = .ok (h₁, roots₁, cls₁))
    (hrest : Prepares h₁ roots₁ cls₁ h' roots' cls') : Prepares h roots cls h' roots' cls' := by
  obtain ⟨c, hc, hok⟩ := bind_eq_ok.mp hok
  cases hok
  exact .collect hc hrest

/-- What is left of an allocation once the threshold has been looked at. -/
private def allocateKeeping (format : Format) (fields len words : Nat) :
    Heap × List Ref × Ref → Except Fatal (Ref × List Ref × Heap)
  | (h, roots, cls) => do
    match ← h.tryAllocate cls format fields len with
    | (some r, h) => return (r, roots, h)
    | (none, h) =>
      let (h, roots, cls) ← h.collectKeeping roots cls
      match ← h.tryAllocate cls format fields len with
      | (some r, h) => return (r, roots, h)
      | (none, h) => throw (h.reservationExhausted words)

private theorem allocateKeeping_cases {h h' : Heap} {roots roots' : List Ref} {cls r : Ref}
    {format : Format} {fields len words : Nat}
    (hok : allocateKeeping format fields len words (h, roots, cls) = .ok (r, roots', h')) :
    ∃ h₁ cls₁, Prepares h roots cls h₁ roots' cls₁ ∧
      h₁.tryAllocate cls₁ format fields len = .ok (some r, h') := by
  obtain ⟨⟨first, h₁⟩, hfirst, hok⟩ := bind_eq_ok.mp hok
  cases first with
  | some r₁ =>
    cases hok
    exact ⟨h, cls, .ready .., hfirst⟩
  | none =>
    obtain ⟨⟨h₂, roots₂, cls₂⟩, hkeep, hok⟩ := bind_eq_ok.mp hok
    obtain ⟨⟨second, h₃⟩, hsecond, hok⟩ := bind_eq_ok.mp hok
    cases second with
    | none => cases hok
    | some r₂ =>
      cases hok
      -- An allocation that found no room has changed nothing.
      rcases tryAllocate_cases hfirst with ⟨-, rfl⟩ | ⟨hsome, -⟩
      · exact ⟨h₂, cls₂, .of_collectKeeping hkeep (.ready ..), hsecond⟩
      · cases hsome

/-- An allocation is some collections followed by an allocation that finds room. -/
theorem allocate_cases {h h' : Heap} {roots roots' : List Ref} {cls r : Ref} {format : Format}
    {fields len : Nat} (hok : h.allocate roots cls format fields len = .ok (r, roots', h')) :
    ∃ h₁ cls₁, Prepares h roots cls h₁ roots' cls₁ ∧
      h₁.tryAllocate cls₁ format fields len = .ok (some r, h') := by
  obtain ⟨words, -, hok⟩ := bind_eq_ok.mp hok
  obtain ⟨full, -, hok⟩ := bind_eq_ok.mp hok
  cases full with
  | true =>
    have hok' : h.collectKeeping roots cls >>= allocateKeeping format fields len words =
        .ok (r, roots', h') := hok
    obtain ⟨⟨h₁, roots₁, cls₁⟩, hkeep, hok'⟩ := bind_eq_ok.mp hok'
    obtain ⟨h₂, cls₂, hprepares, htry⟩ := allocateKeeping_cases hok'
    exact ⟨h₂, cls₂, .of_collectKeeping hkeep hprepares, htry⟩
  | false =>
    have hok' : allocateKeeping format fields len words (h, roots, cls) = .ok (r, roots', h') := hok
    exact allocateKeeping_cases hok'

/-- Where an allocation fails: some collections have led to a heap in which another collection or
the allocation itself fails, or in which there is no room. -/
inductive FailsAt (format : Format) (fields len : Nat) (e : Fatal) : Heap → List Ref → Ref → Prop
  | collect {h : Heap} {roots : List Ref} {cls : Ref} :
      h.collect (roots ++ [cls]) = .error e → FailsAt format fields len e h roots cls
  | tryAllocate {h : Heap} {roots : List Ref} {cls : Ref} :
      h.tryAllocate cls format fields len = .error e → FailsAt format fields len e h roots cls
  | exhausted {h : Heap} {roots : List Ref} {cls : Ref} {words : Nat} :
      e = h.reservationExhausted words → FailsAt format fields len e h roots cls

private theorem collectKeeping_error {h : Heap} {roots : List Ref} {cls : Ref} {e : Fatal}
    (herror : h.collectKeeping roots cls = .error e) : h.collect (roots ++ [cls]) = .error e := by
  rcases bind_eq_error.mp herror with hcollect | ⟨c, -, hrest⟩
  · exact hcollect
  · cases hrest

private theorem allocateKeeping_error {h : Heap} {roots : List Ref} {cls : Ref} {format : Format}
    {fields len words : Nat} {e : Fatal}
    (herror : allocateKeeping format fields len words (h, roots, cls) = .error e) :
    ∃ h₁ roots₁ cls₁, Prepares h roots cls h₁ roots₁ cls₁ ∧
      FailsAt format fields len e h₁ roots₁ cls₁ := by
  rcases bind_eq_error.mp herror with hfirst | ⟨⟨first, h₁⟩, hfirst, hrest⟩
  · exact ⟨h, roots, cls, .ready .., .tryAllocate hfirst⟩
  cases first with
  | some r => cases hrest
  | none =>
    rcases tryAllocate_cases hfirst with ⟨-, rfl⟩ | ⟨hsome, -⟩
    · rcases bind_eq_error.mp hrest with hkeep | ⟨⟨h₂, roots₂, cls₂⟩, hkeep, hretry⟩
      · exact ⟨h₁, roots, cls, .ready .., .collect (collectKeeping_error hkeep)⟩
      have hprepares : Prepares h₁ roots cls h₂ roots₂ cls₂ := .of_collectKeeping hkeep (.ready ..)
      rcases bind_eq_error.mp hretry with hsecond | ⟨⟨second, h₃⟩, hsecond, hthrow⟩
      · exact ⟨h₂, roots₂, cls₂, hprepares, .tryAllocate hsecond⟩
      cases second with
      | some r => cases hthrow
      | none =>
        rcases tryAllocate_cases hsecond with ⟨-, rfl⟩ | ⟨hsome, -⟩
        · cases hthrow
          exact ⟨h₃, roots₂, cls₂, hprepares, .exhausted rfl⟩
        · cases hsome
    · cases hsome

/-- An allocation fails for a size that cannot be counted, or after some collections. -/
theorem allocate_error {h : Heap} {roots : List Ref} {cls : Ref} {format : Format}
    {fields len : Nat} {e : Fatal} (herror : h.allocate roots cls format fields len = .error e) :
    e = .fault .overflow ∨ ∃ h₁ roots₁ cls₁, Prepares h roots cls h₁ roots₁ cls₁ ∧
      FailsAt format fields len e h₁ roots₁ cls₁ := by
  rcases bind_eq_error.mp herror with hsize | ⟨words, -, herror⟩
  · exact .inl (checkedSize_error hsize)
  rcases bind_eq_error.mp herror with hshould | ⟨full, -, herror⟩
  · unfold shouldCollect at hshould
    split at hshould
    · cases hshould
    rcases bind_eq_error.mp hshould with hbytes | ⟨bytes, -, hshould⟩
    · exact .inl (checkedCount_error hbytes)
    rcases bind_eq_error.mp hshould with htotal | ⟨total, -, hshould⟩
    · exact .inl (checkedCount_error htotal)
    · cases hshould
  right
  cases full with
  | true =>
    have herror' : h.collectKeeping roots cls >>= allocateKeeping format fields len words =
        .error e := herror
    rcases bind_eq_error.mp herror' with hkeep | ⟨⟨h₁, roots₁, cls₁⟩, hkeep, herror'⟩
    · exact ⟨h, roots, cls, .ready .., .collect (collectKeeping_error hkeep)⟩
    · obtain ⟨h₂, roots₂, cls₂, hprepares, hfails⟩ := allocateKeeping_error herror'
      exact ⟨h₂, roots₂, cls₂, .of_collectKeeping hkeep hprepares, hfails⟩
  | false =>
    have herror' : allocateKeeping format fields len words (h, roots, cls) = .error e := herror
    exact allocateKeeping_error herror'

/-! ## Balanced accounts -/

/-- Bytes in use are those of the unused first word and those allocated, less those reclaimed. -/
def Balanced (h : Heap) : Prop :=
  h.usedBytes + h.stats.reclaimedBytes = firstWord * wordBytes + h.stats.allocatedBytes

theorem Collects.balanced {h : Heap} {starts : List Nat} {live : Nat → Bool} {roots : List Ref}
    {c : Collected} (hc : h.Collects starts live roots c) (hl : h.LaidOut starts)
    (hb : h.Balanced) : c.heap.Balanced := by
  have hsum := hl.tiles.sum_eq
  rw [← liveWords_add_not _ live] at hsum
  simp only [Balanced, usedBytes, hc.stats, hc.top, wordBytes] at hb ⊢
  omega

theorem Allocated.balanced {h h' : Heap} {cls : Ref} {format : Format} {fields len : Nat}
    (ha : h.Allocated cls format fields len h') (hb : h.Balanced) : h'.Balanced := by
  simp only [Balanced, usedBytes, ha.stats, ha.top, Nat.add_mul] at hb ⊢
  omega

/-- A reference to one of the objects in memory. -/
def Holds (h : Heap) (r : Ref) : Prop := ∃ objects, h.objects = .ok objects ∧ r ∈ objects

theorem LaidOut.holds_iff {h : Heap} {starts : List Nat} (hl : h.LaidOut starts) {r : Ref} :
    h.Holds r ↔ Designates starts r := by
  unfold Holds
  rw [hl.objects_eq]
  constructor
  · rintro ⟨objects, hok, hr⟩
    cases hok
    obtain ⟨i, hi, rfl⟩ := List.mem_map.mp hr
    exact ⟨i, hi, rfl⟩
  · rintro ⟨i, hi, rfl⟩
    exact ⟨_, rfl, List.mem_map.mpr ⟨i, hi, rfl⟩⟩

/-- The heaps that allocations and collections lead to from one without objects. A class may be
null, roots are objects as far as they are pointers, and contexts have a field for their stack
pointer. -/
inductive Grown : Heap → Prop
  | start {config : HeapConfig} {h : Heap} :
      ofConfig config = .ok h → config.maxBytes < countLimit → Grown h
  | tryAllocate {h h' : Heap} {cls : Ref} {format : Format} {fields len : Nat} {r : Option Ref} :
      Grown h → (cls.isPointer = true → h.Holds cls) →
      (format = .context → contextStackPointer < fields) →
      h.tryAllocate cls format fields len = .ok (r, h') → Grown h'
  | allocate {h h' : Heap} {roots roots' : List Ref} {cls r : Ref} {format : Format}
      {fields len : Nat} :
      Grown h → (∀ r ∈ roots, r.isPointer = true → h.Holds r) →
      (cls.isPointer = true → h.Holds cls) →
      (format = .context → contextStackPointer < fields) →
      h.allocate roots cls format fields len = .ok (r, roots', h') → Grown h'
  | collect {h : Heap} {roots : List Ref} {c : Collected} :
      Grown h → (∀ r ∈ roots, r.isPointer = true → h.Holds r) →
      h.collect roots = .ok c → Grown c.heap

/-- What holds of every heap that allocations and collections lead to. -/
structure Orderly (h : Heap) (starts : List Nat) : Prop extends WellFormed h starts where
  reserved : h.reservedWords ≤ Ref.addressLimit
  nil : h.nil.isPointer = true → Designates starts h.nil
  balanced : h.Balanced

namespace Orderly

variable {h h' : Heap} {starts : List Nat} {roots roots' : List Ref} {cls cls' : Ref}

theorem collect (ho : h.Orderly starts) (hr : ∀ r ∈ roots, r.isPointer = true → Designates starts r)
    {c : Collected} (hok : h.collect roots = .ok c) :
    ∃ starts', c.heap.Orderly starts' ∧
      (∀ r ∈ c.roots, r.isPointer = true → Designates starts' r) ∧
      c.roots.length = roots.length := by
  have hroots : h.RootsIn starts roots := ⟨hr, ho.nil⟩
  rcases collect_spec ho.toWellFormed hroots with ⟨-, herror⟩ | ⟨c', live, hok', hk, hc⟩
  · rw [herror] at hok
    cases hok
  · rw [hok'] at hok
    cases hok
    have hnew := hc.rootsIn ho.toWellFormed hroots hk
    refine ⟨_, ⟨hc.wellFormed ho.toWellFormed hroots hk, ?_, hnew.nil, hc.balanced ho.toLaidOut
      ho.balanced⟩, hnew.roots, ?_⟩
    · rw [hc.reservedWords]
      exact ho.reserved
    · rw [hc.roots, List.length_map]

theorem tryAllocate (ho : h.Orderly starts) {format : Format} {fields len : Nat} {r : Option Ref}
    (hcls : cls.isPointer = true → Designates starts cls)
    (hctx : format = .context → contextStackPointer < fields)
    (hok : h.tryAllocate cls format fields len = .ok (r, h')) :
    ∃ starts', h'.Orderly starts' := by
  rcases tryAllocate_cases hok with ⟨-, rfl⟩ | ⟨-, ha⟩
  · exact ⟨starts, ho⟩
  · have hcls' : cls.isPointer = true → Designates (starts ++ [h.top]) cls := by
      intro hp
      exact (hcls hp).mono fun i hi => List.mem_append.mpr (.inl hi)
    refine ⟨starts ++ [h.top], ha.wellFormed ho.toWellFormed ho.reserved hctx hcls' ho.nil, ?_, ?_,
      ha.balanced ho.balanced⟩
    · rw [ha.reservedWords]
      exact ho.reserved
    · rw [ha.nil]
      exact fun hp => (ho.nil hp).mono fun i hi => List.mem_append.mpr (.inl hi)

theorem prepares (ho : h.Orderly starts)
    (hr : ∀ r ∈ roots, r.isPointer = true → Designates starts r)
    (hcls : cls.isPointer = true → Designates starts cls)
    (hp : Prepares h roots cls h' roots' cls') :
    ∃ starts', h'.Orderly starts' ∧ (∀ r ∈ roots', r.isPointer = true → Designates starts' r) ∧
      (cls'.isPointer = true → Designates starts' cls') := by
  induction hp generalizing starts with
  | ready h roots cls => exact ⟨starts, ho, hr, hcls⟩
  | @collect h h' roots roots' cls cls' c hok _ ih =>
    have hall : ∀ r ∈ roots ++ [cls], r.isPointer = true → Designates starts r := by
      intro r hmem
      rcases List.mem_append.mp hmem with hroot | hlast
      · exact hr r hroot
      · rw [List.mem_singleton.mp hlast]
        exact hcls
    obtain ⟨starts', ho', hr', hlen⟩ := ho.collect hall hok
    refine ih ho' (fun r hmem => hr' r ((List.dropLast_sublist _).subset hmem)) (hr' _ ?_)
    -- The class is the last root, so it is among the new ones.
    have hne : c.roots ≠ [] := by
      intro hnil
      simp [hnil] at hlen
    rw [List.getLastD_eq_getLast?, List.getLast?_eq_some_getLast hne]
    exact List.getLast_mem hne

end Orderly

theorem Grown.orderly {h : Heap} (hg : Grown h) : ∃ starts, h.Orderly starts := by
  induction hg with
  | start hok hbytes =>
    obtain ⟨hw, hreserved⟩ := wellFormed_ofConfig hok hbytes
    obtain ⟨hnil, htop, hstats, -⟩ := ofConfig_ok hok
    refine ⟨[], hw, hreserved, fun hp => ?_, ?_⟩
    · rw [hnil] at hp
      cases hp
    · rw [Balanced, usedBytes, htop, hstats]
  | tryAllocate _ hcls hctx hok ih =>
    obtain ⟨starts, ho⟩ := ih
    exact ho.tryAllocate (fun hp => ho.holds_iff.mp (hcls hp)) hctx hok
  | allocate _ hr hcls hctx hok ih =>
    obtain ⟨starts, ho⟩ := ih
    obtain ⟨h₁, cls₁, hprepares, htry⟩ := allocate_cases hok
    obtain ⟨starts₁, ho₁, -, hcls₁⟩ := ho.prepares
      (fun r hmem hp => ho.holds_iff.mp (hr r hmem hp)) (fun hp => ho.holds_iff.mp (hcls hp))
      hprepares
    exact ho₁.tryAllocate hcls₁ hctx htry
  | collect _ hr hok ih =>
    obtain ⟨starts, ho⟩ := ih
    obtain ⟨starts', ho', -⟩ := ho.collect (fun r hmem hp => ho.holds_iff.mp (hr r hmem hp)) hok
    exact ⟨starts', ho'⟩

/-- A collection whose work list does not overflow succeeds and is exact: it keeps what can be
reached and nothing else, in order and without gaps, and reports what it did. In every heap that
allocations and collections lead to, bytes in use are bytes allocated less bytes reclaimed. -/
theorem collect_exact :
    (∀ (h : Heap) (starts : List Nat) (roots : List Ref), h.WellFormed starts →
      h.RootsIn starts roots → h.mark roots ≠ .error (.markStackOverflow h.config.markLimit) →
      ∃ c all words alive f, h.collect roots = .ok c ∧ h.Exact roots c all words alive f) ∧
    ∀ h : Heap, Grown h →
      h.stats.reclaimedBytes ≤ h.stats.allocatedBytes ∧
      h.usedBytes = 8 + h.stats.allocatedBytes - h.stats.reclaimedBytes := by
  refine ⟨fun h starts roots hw hr hmark => ?_, fun h hg => ?_⟩
  · rcases collect_spec hw hr with ⟨hoverflow, -⟩ | ⟨c, live, hcollect, hk, hc⟩
    · exact absurd hoverflow hmark
    · exact ⟨c, _, _, _, _, hcollect, hc.exact hw hr hk⟩
  · obtain ⟨starts, ho⟩ := hg.orderly
    have hbalanced := ho.balanced
    have hfirst := ho.tiles.le
    simp only [Balanced, usedBytes, firstWord, wordBytes] at hbalanced hfirst ⊢
    omega

theorem ringWithGap_exact :
    (∃ c all words alive f, ringWithGap.collect [.ofWordIndex 6] = .ok c ∧
      ringWithGap.Exact [.ofWordIndex 6] c all words alive f) ∧
    ∃ h, ofConfig {} = .ok h ∧ h.usedBytes = 8 + h.stats.allocatedBytes - h.stats.reclaimedBytes :=
  ⟨collect_exact.1 _ _ _ ringWithGap_wellFormed ringWithGap_rootsIn ringWithGap_mark,
    _, rfl, (collect_exact.2 _ (@Grown.start {} _ rfl (by decide))).2⟩

end ObjectMachine.Heap
