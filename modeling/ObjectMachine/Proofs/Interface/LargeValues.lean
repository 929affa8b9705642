import ObjectMachine.Proofs.Collection.Accounting
import ObjectMachine.Proofs.Collection.Preservation
import ObjectMachine.Proofs.Interface.Table

/-!
# Large integers keep their values

Someone who works with large integers remembers the value given last to each of them. This record is
kept beside the heap: an allocation adds an object without a value, a store changes one entry, and a
collection takes the entries along to where the objects went. Which object is which after a
collection is a matter of places only: the roots are in the same order, and the same slots of the
same objects lead to the same objects.

The table of values then always agrees with the record. Each object with a value has a slot of its
own that holds it, the other slots are free, and a collection gives back exactly the slots of the
objects that die, so none is given back twice.

## Main results

* `SamePlace`: the places of objects before and after a collection.
* `Recorded`: heaps together with the values their objects were given last.
* `Accounted.live_eq`: the table has one value for each object that was given one.
* `recorded_matches`: in every such heap the table agrees with the record.
-/

namespace ObjectMachine.Heap

/-! ## Which object is which -/

/-- An object before a collection and the one found at the same place after it. -/
inductive SamePlace (h : Heap) (roots : List Ref) (h' : Heap) (roots' : List Ref) : Ref → Ref → Prop
  | root {n : Nat} {r r' : Ref} : roots[n]? = some r → roots'[n]? = some r' → r.isPointer = true →
      SamePlace h roots h' roots' r r'
  | nil : h.nil.isPointer = true → SamePlace h roots h' roots' h.nil h'.nil
  | cls {o o' r r' : Ref} : SamePlace h roots h' roots' o o' → h.classOf o = .ok r →
      h'.classOf o' = .ok r' → r.isPointer = true → SamePlace h roots h' roots' r r'
  | slot {o o' r r' : Ref} {slots : ReferenceSlots} {k : Nat} : SamePlace h roots h' roots' o o' →
      h.referenceSlots o = .ok slots → o.wordIndex + k ∈ slots.positions →
      h.slot (o.wordIndex + k) = .ok r → h'.slot (o'.wordIndex + k) = .ok r' →
      r.isPointer = true → SamePlace h roots h' roots' r r'

section Places

variable {h : Heap} {roots : List Ref} {c : Collected} {f : Ref → Ref} {o o' : Ref}

/-- An object is found where the map of a collection takes it. -/
theorem SamePlace.eq_of_carries (hs : h.SamePlace roots c.heap c.roots o o')
    (hc : h.Carries roots c f) : h.Reachable roots o ∧ o' = f o := by
  induction hs with
  | @root n r r' hr hr' hp =>
    rw [hc.roots, List.getElem?_map, hr] at hr'
    refine ⟨.root (List.mem_of_getElem? hr) hp, ?_⟩
    exact (Option.some.inj hr').symm.trans (if_pos hp)
  | nil hp => exact ⟨.nil hp, hc.nil.trans (if_pos hp)⟩
  | @cls o o' r r' _ hr hr' hp ih =>
    obtain ⟨hreach, rfl⟩ := ih
    obtain ⟨cls, hcls, hcls'⟩ := (hc.same o hreach).cls
    rw [hr] at hcls
    cases hcls
    rw [hr'] at hcls'
    refine ⟨.step hreach ⟨hp, .inl hr⟩, ?_⟩
    exact (Except.ok.inj hcls').trans (if_pos hp)
  | @slot o o' r r' slots k _ hslots hk hr hr' hp ih =>
    obtain ⟨hreach, rfl⟩ := ih
    obtain ⟨v, hv, hv'⟩ := (hc.same o hreach).slots slots hslots k hk
    rw [hr] at hv
    cases hv
    rw [hr'] at hv'
    refine ⟨.step hreach ⟨hp, .inr ⟨slots, _, hslots, hk, hr⟩⟩, ?_⟩
    exact (Except.ok.inj hv').trans (if_pos hp)

/-- Everything that can be reached is found again. -/
theorem Carries.samePlace {starts : List Nat} (hc : h.Carries roots c f) (hw : h.WellFormed starts)
    (hr : h.RootsIn starts roots) (hreach : h.Reachable roots o) :
    h.SamePlace roots c.heap c.roots o (f o) := by
  induction hreach with
  | @root r hmem hp =>
    obtain ⟨n, hn⟩ := List.getElem?_of_mem hmem
    refine .root hn ?_ hp
    rw [hc.roots, List.getElem?_map, hn, Option.map_some, Ref.image, if_pos hp]
  | nil hp =>
    have hnil := hc.nil
    rw [Ref.image, if_pos hp] at hnil
    rw [← hnil]
    exact .nil hp
  | @step r v hreach hrefers ih =>
    obtain ⟨hp, hcls | ⟨slots, p, hslots, hmem, hv⟩⟩ := hrefers
    · obtain ⟨cls, hr', hr''⟩ := (hc.same r hreach).cls
      rw [hcls] at hr'
      cases hr'
      rw [Ref.image, if_pos hp] at hr''
      exact .cls ih hcls hr'' hp
    · -- A slot lies behind the header of its object, so it has an offset.
      obtain ⟨i, hi, rfl⟩ := hw.designates_of_reachable hr hreach
      have hslots' := hslots
      rw [hw.referenceSlots hi] at hslots'
      cases hslots'
      obtain ⟨k, rfl, -⟩ := mem_slotsAt_positions.mp hmem
      have hoffset : (Ref.ofWordIndex i).wordIndex + k = i + k := by rw [hw.wordIndex hi]
      rw [← hoffset] at hmem hv
      obtain ⟨w, hw', hw''⟩ := (hc.same _ hreach).slots _ hslots k hmem
      rw [hv] at hw'
      cases hw'
      rw [Ref.image, if_pos hp] at hw''
      exact .slot ih hslots hmem hv hw'' hp

end Places

/-! ## Records -/

/-- The value given last to each object, if there was one. -/
abbrev Record := Ref → Option Int

/-- What a record becomes in a collection: the object found at the place of another one has its
value. -/
def CarriesOver (h : Heap) (roots : List Ref) (c : Collected) (v v' : Record) : Prop :=
  ∀ o o', h.SamePlace roots c.heap c.roots o o' → v' o' = v o

/-- The collections before an allocation, with the record they leave behind. -/
inductive PreparesRecord :
    Heap → List Ref → Ref → Record → Heap → List Ref → Ref → Record → Prop
  | ready (h : Heap) (roots : List Ref) (cls : Ref) (v : Record) :
      PreparesRecord h roots cls v h roots cls v
  | collect {h h' : Heap} {roots roots' : List Ref} {cls cls' : Ref} {c : Collected}
      {v v₁ v' : Record} :
      h.collect (roots ++ [cls]) = .ok c → h.CarriesOver (roots ++ [cls]) c v v₁ →
      PreparesRecord c.heap c.roots.dropLast (c.roots.getLastD cls) v₁ h' roots' cls' v' →
      PreparesRecord h roots cls v h' roots' cls' v'

/-- Roots that are objects as far as they are pointers. -/
def HoldsAll (h : Heap) (roots : List Ref) : Prop := ∀ r ∈ roots, r.isPointer = true → h.Holds r

/-- The heaps that allocations, values given to large integers and collections lead to from one
without objects, and the values given last. A class may be null, roots are objects as far as they
are pointers, and contexts have a field for their stack pointer. -/
inductive Recorded : Heap → Record → Prop
  | start {config : HeapConfig} {h : Heap} :
      ofConfig config = .ok h → config.maxBytes < countLimit → Recorded h fun _ => none
  | tryAllocate {h h' : Heap} {v : Record} {cls : Ref} {format : Format} {fields len : Nat}
      {r : Option Ref} :
      Recorded h v → h.HoldsAll [cls] → (format = .context → contextStackPointer < fields) →
      h.tryAllocate cls format fields len = .ok (r, h') →
      Recorded h' (r.elim v fun r => Function.update v r none)
  | allocate {h h₁ h' : Heap} {v v₁ : Record} {roots roots' : List Ref} {cls cls₁ r : Ref}
      {format : Format} {fields len : Nat} :
      Recorded h v → h.HoldsAll roots → h.HoldsAll [cls] →
      (format = .context → contextStackPointer < fields) →
      h.allocate roots cls format fields len = .ok (r, roots', h') →
      PreparesRecord h roots cls v h₁ roots' cls₁ v₁ →
      h₁.tryAllocate cls₁ format fields len = .ok (some r, h') →
      Recorded h' (Function.update v₁ r none)
  | setLargeInteger {h h' : Heap} {v : Record} {o : Ref} {value : Int} :
      Recorded h v → h.Holds o → h.format o = .ok .largeInteger →
      h.setLargeInteger o value = .ok h' → Recorded h' (Function.update v o (some value))
  | collect {h : Heap} {v v' : Record} {roots : List Ref} {c : Collected} :
      Recorded h v → h.HoldsAll roots → h.collect roots = .ok c → h.CarriesOver roots c v v' →
      Recorded c.heap v'

/-! ## The invariant -/

/-- Memory is well formed, every slot of the table is accounted for, and every object has the value
that the record says. -/
structure Accounted (h : Heap) (v : Record) (starts : List Nat) : Prop extends
    WellFormed h starts where
  reserved : h.reservedWords ≤ Ref.addressLimit
  nil : h.nil.isPointer = true → Designates starts h.nil
  table : h.TableOwned starts
  value : ∀ i ∈ starts, v (.ofWordIndex i) = h.largeValue? i

namespace Accounted

variable {h h' : Heap} {v v' : Record} {starts : List Nat} {roots roots' : List Ref} {cls cls' : Ref}
  {c : Collected}

theorem rootsIn (ha : h.Accounted v starts) (hr : h.HoldsAll roots) : h.RootsIn starts roots :=
  ⟨fun r hmem hp => ha.holds_iff.mp (hr r hmem hp), ha.nil⟩

theorem holdsAll (ha : h.Accounted v starts) (hr : h.RootsIn starts roots) : h.HoldsAll roots :=
  fun r hmem hp => ha.holds_iff.mpr (hr.roots r hmem hp)

theorem ofConfig {config : HeapConfig} (hok : ofConfig config = .ok h)
    (hbytes : config.maxBytes < countLimit) : h.Accounted (fun _ => none) [] := by
  obtain ⟨hw, hreserved⟩ := wellFormed_ofConfig hok hbytes
  obtain ⟨hnil, -, -, hlarge⟩ := ofConfig_ok hok
  refine ⟨hw, hreserved, ?_, ?_, by simp⟩
  · rw [hnil]
    intro hp
    cases hp
  · constructor <;> simp [hlarge, LargeIntegers.empty]

/-- A fresh object has no value. -/
theorem allocated {format : Format} {fields len : Nat} (ha : h.Accounted v starts)
    (hnew : h.Allocated cls format fields len h') (hcls : h.HoldsAll [cls])
    (hctx : format = .context → contextStackPointer < fields) :
    h'.Accounted (Function.update v (.ofWordIndex h.top) none) (starts ++ [h.top]) := by
  have hl := ha.toLaidOut
  have hold : ∀ i ∈ starts, i ∈ starts ++ [h.top] := fun i hi => List.mem_append.mpr (.inl hi)
  have hcls' : cls.isPointer = true → Designates (starts ++ [h.top]) cls := fun hp =>
    (ha.holds_iff.mp (hcls cls (List.mem_singleton.mpr rfl) hp)).mono hold
  have hw := hnew.wellFormed ha.toWellFormed ha.reserved hctx hcls' ha.nil
  refine ⟨hw, ?_, ?_, ?_, ?_⟩
  · rw [hnew.reservedWords]
    exact ha.reserved
  · rw [hnew.nil]
    exact fun hp => (ha.nil hp).mono hold
  · apply ha.table.congr hnew.largeIntegers
    intro i hi s hs
    exact ⟨i, hold i hi, (hnew.largeSlot? hl hi).trans hs⟩
  · intro i hi
    unfold largeValue?
    rcases List.mem_append.mp hi with hi' | hlast
    · have hne : Ref.ofWordIndex i ≠ .ofWordIndex h.top := by
        intro heq
        have htop := hw.ofWordIndex_inj hi (List.mem_append.mpr (.inr (List.mem_singleton.mpr rfl)))
          heq
        exact absurd (hl.lt_top hi') (by omega)
      rw [Function.update_of_ne hne, hnew.largeSlot? hl hi', hnew.largeIntegers]
      exact ha.value i hi'
    · rw [List.mem_singleton.mp hlast, Function.update_self, hnew.fresh_largeSlot?]
      rfl

theorem tryAllocate {format : Format} {fields len : Nat} {r : Option Ref}
    (ha : h.Accounted v starts) (hcls : h.HoldsAll [cls])
    (hctx : format = .context → contextStackPointer < fields)
    (hok : h.tryAllocate cls format fields len = .ok (r, h')) :
    ∃ starts', h'.Accounted (r.elim v fun r => Function.update v r none) starts' := by
  rcases tryAllocate_cases hok with ⟨rfl, rfl⟩ | ⟨rfl, hnew⟩
  · exact ⟨starts, ha⟩
  · exact ⟨_, ha.allocated hnew hcls hctx⟩

theorem setLargeInteger {o : Ref} (ha : h.Accounted v starts) (ho : h.Holds o)
    (hf : h.format o = .ok .largeInteger) (value : Int) :
    ∃ h', h.setLargeInteger o value = .ok h' ∧
      h'.Accounted (Function.update v o (some value)) starts := by
  have hl := ha.toLaidOut
  obtain ⟨i, hi, rfl⟩ := hl.holds_iff.mp ho
  rw [hl.format hi] at hf
  have hformat : (h.view i).format = .largeInteger := Except.ok.inj hf
  obtain ⟨h', hok, htouch, hwords, howned, htable, hvalue⟩ :=
    setLargeInteger_spec ha.toWellFormed ha.table hi hformat value
  refine ⟨h', hok, ⟨⟨htouch.laidOut hl hi, howned, ?_, ?_⟩, ?_, ?_, htable, ?_⟩⟩
  · intro j hj
    have hheader : (h'.view j).header = (h.view j).header := by
      by_cases hne : j = i
      · rw [hne]
        exact congrArg Header.mk (hwords 0 (by decide))
      · exact htouch.header_eq hl hi hj hne
    rw [hheader]
    exact ha.unmarked j hj
  · -- A large integer has no reference slots, and its class is what it was.
    intro j hj k hk hp
    have hsame : (h.view j).IsTraced k ∧ (h'.view j).ref k = (h.view j).ref k := by
      by_cases hne : j = i
      · subst hne
        rcases hk with rfl | hslot
        · exact ⟨.inl rfl, congrArg Ref.mk (hwords 1 (by decide))⟩
        · unfold View.IsSlot at hslot
          rw [htouch.layout.format_eq, hformat] at hslot
          simp [Format.allowsFields, Format.hasReferenceTail] at hslot
      · have hk' := ((htouch.agrees hl hi hj hne).isTraced_iff k).mp hk
        exact ⟨hk', congrArg Ref.mk (htouch.view_eq hl hi hj hne hk'.bounds.2)⟩
    rw [hsame.2] at hp ⊢
    exact ha.traced j hj k hsame.1 hp
  · rw [htouch.reservedWords]
    exact ha.reserved
  · rw [htouch.nil]
    exact ha.nil
  · intro j hj
    rw [hvalue j hj]
    by_cases hne : j = i
    · rw [if_pos hne, hne, Function.update_self]
    · rw [if_neg hne, Function.update_of_ne fun heq => hne (hl.ofWordIndex_inj hj hi heq)]
      exact ha.value j hj

/-! ### Collections -/

/-- A collection succeeds unless the work list of marking overflows. Then it has a map that takes
each object that can be reached to where it is found, with the value it had. -/
theorem collects (ha : h.Accounted v starts) (hr : h.HoldsAll roots) :
    h.collect roots = .error (.markStackOverflow h.config.markLimit) ∨
      ∃ c live, h.collect roots = .ok c ∧ h.KeepsReachable starts live roots ∧
        h.Collects starts live roots c ∧ h.Carries roots c (h.moveRef starts live) := by
  have hroots := ha.rootsIn hr
  rcases collect_spec ha.toWellFormed hroots with ⟨-, herror⟩ | ⟨c, live, hok, hk, hc⟩
  · exact .inl herror
  · exact .inr ⟨c, live, hok, hk, hc, hc.carries ha.toWellFormed hroots hk⟩

/-- A survivor has the value that it had. -/
theorem largeValue?_slide {live : Nat → Bool} {i : Nat} (ha : h.Accounted v starts)
    (hc : h.Collects starts live roots c) (hi : i ∈ starts) (hlive : live i = true) :
    c.heap.largeValue? (slide h.sizeOf live starts i) = h.largeValue? i := by
  unfold largeValue?
  rw [hc.largeSlot? ha.toWellFormed hi hlive]
  cases hs : h.largeSlot? i with
  | none => rfl
  | some s => exact hc.get?_largeSlot ha.toWellFormed hi hlive hs

theorem collect (ha : h.Accounted v starts) (hr : h.HoldsAll roots)
    (hok : h.collect roots = .ok c) (hv : h.CarriesOver roots c v v') :
    (∃ starts', c.heap.Accounted v' starts') ∧ c.heap.HoldsAll c.roots ∧
      c.roots.length = roots.length := by
  rcases ha.collects hr with herror | ⟨c', live, hok', hk, hc, hcarries⟩
  · rw [herror] at hok
    cases hok
  rw [hok'] at hok
  cases hok
  have hroots := ha.rootsIn hr
  have hw' := hc.wellFormed ha.toWellFormed hroots hk
  have hroots' := hc.rootsIn ha.toWellFormed hroots hk
  have hnew : c.heap.Accounted v' (h.survivors starts live) := by
    refine ⟨hw', ?_, hroots'.nil, hc.tableOwned ha.toWellFormed ha.table, ?_⟩
    · rw [hc.reservedWords]
      exact ha.reserved
    · intro j hj
      obtain ⟨i, hi, hlive, rfl⟩ := mem_survivors.mp hj
      have hplace := hcarries.samePlace ha.toWellFormed hroots ((hk i hi).mp hlive)
      rw [moveRef_ofWordIndex ha.toLaidOut hi] at hplace
      rw [hv _ _ hplace, ha.value i hi, ha.largeValue?_slide hc hi hlive]
  refine ⟨⟨_, hnew⟩, hnew.holdsAll hroots', ?_⟩
  rw [hc.roots, List.length_map]

/-- There is a record to go on with after a collection. -/
theorem exists_carriesOver (ha : h.Accounted v starts) (hr : h.HoldsAll roots)
    (hok : h.collect roots = .ok c) : ∃ v', h.CarriesOver roots c v v' := by
  rcases ha.collects hr with herror | ⟨c', live, hok', hk, hc, hcarries⟩
  · rw [herror] at hok
    cases hok
  rw [hok'] at hok
  cases hok
  refine ⟨fun o => c.heap.largeValue? o.wordIndex, fun o o' hplace => ?_⟩
  obtain ⟨hreach, rfl⟩ := hplace.eq_of_carries hcarries
  obtain ⟨i, hi, hlive, rfl⟩ := hk.live_of_reachable ha.toWellFormed (ha.rootsIn hr) hreach
  have hj : slide h.sizeOf live starts i ∈ h.survivors starts live :=
    mem_survivors.mpr ⟨i, hi, hlive, rfl⟩
  show c.heap.largeValue? _ = _
  rw [moveRef_ofWordIndex ha.toLaidOut hi, (hc.laidOut ha.toWellFormed).wordIndex hj,
    ha.largeValue?_slide hc hi hlive, ha.value i hi]

/-- The roots after a collection for an allocation, and its class, which was the last of them. -/
private theorem holdsAll_split (hr : h.HoldsAll roots) (hlen : roots.length = roots'.length + 1)
    (cls : Ref) : h.HoldsAll roots.dropLast ∧ h.HoldsAll [roots.getLastD cls] := by
  refine ⟨fun r hmem => hr r ((List.dropLast_sublist _).subset hmem), fun r hmem => hr r ?_⟩
  have hne : roots ≠ [] := by
    intro hnil
    simp [hnil] at hlen
  rw [List.mem_singleton.mp hmem, List.getLastD_eq_getLast?, List.getLast?_eq_some_getLast hne]
  exact List.getLast_mem hne

theorem holdsAll_append (hr : h.HoldsAll roots) (hr' : h.HoldsAll roots') :
    h.HoldsAll (roots ++ roots') := by
  intro r hmem
  rcases List.mem_append.mp hmem with hleft | hright
  · exact hr r hleft
  · exact hr' r hright

theorem prepares (hp : PreparesRecord h roots cls v h' roots' cls' v') (ha : h.Accounted v starts)
    (hr : h.HoldsAll roots) (hcls : h.HoldsAll [cls]) :
    (∃ starts', h'.Accounted v' starts') ∧ h'.HoldsAll roots' ∧ h'.HoldsAll [cls'] := by
  induction hp generalizing starts with
  | ready h roots cls v => exact ⟨⟨starts, ha⟩, hr, hcls⟩
  | collect hok hv _ ih =>
    obtain ⟨⟨starts', ha'⟩, hroots, hlen⟩ := ha.collect (holdsAll_append hr hcls) hok hv
    obtain ⟨hr', hcls'⟩ := holdsAll_split hroots (hlen.trans (List.length_append ..)) _
    exact ih ha' hr' hcls'

/-- Also the collections before an allocation leave a record behind. -/
theorem exists_preparesRecord (hp : Prepares h roots cls h' roots' cls') (ha : h.Accounted v starts)
    (hr : h.HoldsAll roots) (hcls : h.HoldsAll [cls]) :
    ∃ v', PreparesRecord h roots cls v h' roots' cls' v' := by
  induction hp generalizing v starts with
  | ready h roots cls => exact ⟨v, .ready ..⟩
  | collect hok _ ih =>
    have hall := holdsAll_append hr hcls
    obtain ⟨v₁, hv⟩ := ha.exists_carriesOver hall hok
    obtain ⟨⟨starts', ha'⟩, hroots, hlen⟩ := ha.collect hall hok hv
    obtain ⟨hr', hcls'⟩ := holdsAll_split hroots (hlen.trans (List.length_append ..)) _
    obtain ⟨v', hrest⟩ := ih ha' hr' hcls'
    exact ⟨v', .collect hok hv hrest⟩

end Accounted

/-- Every heap with a record is accounted for. -/
theorem Recorded.accounted {h : Heap} {v : Record} (hr : Recorded h v) :
    ∃ starts, h.Accounted v starts := by
  induction hr with
  | start hok hbytes => exact ⟨[], .ofConfig hok hbytes⟩
  | tryAllocate _ hcls hctx hok ih =>
    obtain ⟨starts, ha⟩ := ih
    exact ha.tryAllocate hcls hctx hok
  | allocate _ hroots hcls hctx _ hprepares hok ih =>
    obtain ⟨starts, ha⟩ := ih
    obtain ⟨⟨starts₁, ha₁⟩, -, hcls₁⟩ := Accounted.prepares hprepares ha hroots hcls
    exact ha₁.tryAllocate hcls₁ hctx hok
  | @setLargeInteger h h' v o value _ ho hf hok ih =>
    obtain ⟨starts, ha⟩ := ih
    obtain ⟨h'', hok', ha'⟩ := ha.setLargeInteger ho hf value
    rw [hok'] at hok
    cases hok
    exact ⟨starts, ha'⟩
  | collect _ hroots hok hv ih =>
    obtain ⟨starts, ha⟩ := ih
    exact (ha.collect hroots hok hv).1

/-! ## The table and the record -/

/-- The table agrees with a record: the objects that were given a value hold slots of their own with
these values, and all other slots are free. -/
structure MatchesRecord (h : Heap) (v : Record) (all : List Ref) : Prop where
  objects : h.objects = .ok all
  /-- A large integer has the value that it was given last. -/
  value : ∀ o ∈ all, h.format o = .ok .largeInteger → h.largeInteger? o = .ok (v o)
  /-- Its slot holds this value, and objects without a value hold no slot. -/
  slot : ∀ o ∈ all, ∀ x, v o = some x ↔
    ∃ s, h.largeSlot? o.wordIndex = some s ∧ h.largeIntegers.get? s = some x
  format : ∀ o ∈ all, (v o).isSome = true → h.format o = .ok .largeInteger
  distinct : ∀ a ∈ all, ∀ b ∈ all, ∀ s, h.largeSlot? a.wordIndex = some s →
    h.largeSlot? b.wordIndex = some s → a = b
  live : h.largeIntegers.live = .ok (all.countP fun o => (v o).isSome)
  free : ∀ s, s ∈ h.largeIntegers.free ↔
    s < h.largeIntegers.slots.size ∧ h.largeIntegers.get? s = none
  nodup : h.largeIntegers.free.Nodup

namespace Accounted

variable {h : Heap} {v : Record} {starts : List Nat} {i : Nat}

theorem nodup_starts (ha : h.Accounted v starts) : starts.Nodup :=
  (ha.tiles.sorted h.sizeOf_pos).imp fun hlt => Nat.ne_of_lt hlt

theorem isSome_largeValue? (ha : h.Accounted v starts) (hi : i ∈ starts) :
    (h.largeValue? i).isSome = (h.largeSlot? i).isSome := by
  unfold largeValue?
  cases hs : h.largeSlot? i with
  | none => rfl
  | some s => exact ha.held i hi s hs

/-- The free slots and those of the objects with a value are all the slots there are. -/
theorem free_append_perm (ha : h.Accounted v starts) :
    (h.largeIntegers.free ++ starts.filterMap h.largeSlot?).Perm
      (List.range h.largeIntegers.slots.size) := by
  have hdisjoint : ∀ s ∈ h.largeIntegers.free, ∀ s' ∈ starts.filterMap h.largeSlot?, s ≠ s' := by
    intro s hs s' hs' heq
    obtain ⟨i, hi, hslot⟩ := List.mem_filterMap.mp hs'
    have hheld := ha.held i hi s' hslot
    rw [← heq, (ha.table.empty s hs).2] at hheld
    cases hheld
  have howned := ha.nodup_filterMap (fun _ hi => hi) ha.nodup_starts
  rw [List.perm_ext_iff_of_nodup (List.nodup_append.mpr ⟨ha.table.nodup, howned, hdisjoint⟩)
    List.nodup_range]
  intro s
  rw [List.mem_append, List.mem_range, List.mem_filterMap]
  constructor
  · rintro (hs | ⟨i, hi, hslot⟩)
    · exact (ha.table.empty s hs).1
    · exact LargeIntegers.lt_size_of_get? (ha.held i hi s hslot)
  · exact ha.table.covered s

/-- The table holds as many values as there are objects with one. -/
theorem live_eq (ha : h.Accounted v starts) :
    h.largeIntegers.live = .ok (starts.countP fun i => (v (.ofWordIndex i)).isSome) := by
  have hlength := ha.free_append_perm.length_eq
  rw [List.length_append, List.length_range, List.length_filterMap_eq_countP] at hlength
  have hcount : starts.countP (fun i => (v (.ofWordIndex i)).isSome) =
      starts.countP fun i => (h.largeSlot? i).isSome := by
    apply List.countP_congr
    intro i hi
    rw [ha.value i hi, ha.isSome_largeValue? hi]
  unfold LargeIntegers.live
  rw [if_pos (by omega), hcount]
  congr 1
  omega

theorem matchesRecord (ha : h.Accounted v starts) :
    h.MatchesRecord v (starts.map Ref.ofWordIndex) := by
  have hl := ha.toLaidOut
  refine
    { objects := hl.objects_eq
      value := ?_
      slot := ?_
      format := ?_
      distinct := ?_
      live := ?_
      free := ?_
      nodup := ha.table.nodup }
  · intro o ho hf
    obtain ⟨i, hi, rfl⟩ := List.mem_map.mp ho
    rw [hl.format hi] at hf
    rw [hl.largeInteger? hi (Except.ok.inj hf), ha.value i hi]
    rfl
  · intro o ho x
    obtain ⟨i, hi, rfl⟩ := List.mem_map.mp ho
    rw [hl.wordIndex hi, ha.value i hi]
    exact Option.bind_eq_some_iff
  · intro o ho hsome
    obtain ⟨i, hi, rfl⟩ := List.mem_map.mp ho
    rw [ha.value i hi, ha.isSome_largeValue? hi] at hsome
    rw [hl.format hi]
    by_cases hf : (h.view i).format = .largeInteger
    · rw [hf]
    · simp [largeSlot?, hf] at hsome
  · intro a hamem b hbmem s hs hs'
    obtain ⟨i, hi, rfl⟩ := List.mem_map.mp hamem
    obtain ⟨j, hj, rfl⟩ := List.mem_map.mp hbmem
    rw [hl.wordIndex hi] at hs
    rw [hl.wordIndex hj] at hs'
    rw [ha.own i hi j hj s hs hs']
  · rw [ha.live_eq, List.countP_map]
    rfl
  · intro s
    constructor
    · exact ha.table.empty s
    · rintro ⟨hlt, hnone⟩
      rcases ha.table.covered s hlt with hfree | ⟨i, hi, hslot⟩
      · exact hfree
      · have hheld := ha.held i hi s hslot
        rw [hnone] at hheld
        cases hheld

/-! ## What can go wrong -/

theorem collect_ne_releasedTwice {roots : List Ref} (ha : h.Accounted v starts)
    (hr : h.HoldsAll roots) (slot : Nat) : h.collect roots ≠ .error (.releasedTwice slot) := by
  intro herror
  rcases ha.collects hr with hlimit | ⟨c, live, hok, -⟩
  · rw [hlimit] at herror
    cases herror
  · rw [hok] at herror
    cases herror

end Accounted

/-- An allocation that does not collect fails for what it is given, not for what is in memory. -/
theorem tryAllocate_error_fault {h : Heap} {cls : Ref} {format : Format} {fields len : Nat}
    {e : Fatal} (herror : h.tryAllocate cls format fields len = .error e) :
    ∃ cause, e = .fault cause := by
  by_cases hcls : cls.isImmediate = false
  · by_cases hallowed : fields = 0 ∨ format.allowsFields = true
    · rcases tryAllocate_error hcls hallowed herror with rfl | ⟨rfl, -⟩
      · exact ⟨_, rfl⟩
      · exact ⟨_, rfl⟩
    · rw [not_or] at hallowed
      unfold tryAllocate at herror
      simp [hcls, hallowed, require, bind, Except.bind] at herror
      exact ⟨_, herror.symm⟩
  · unfold tryAllocate at herror
    simp [hcls, require, bind, Except.bind] at herror
    exact ⟨_, herror.symm⟩

theorem reservationExhausted_ne (h : Heap) (words slot : Nat) :
    h.reservationExhausted words ≠ .releasedTwice slot := by
  unfold reservationExhausted
  split <;> simp

theorem Accounted.allocate_ne_releasedTwice {h : Heap} {v : Record} {starts : List Nat}
    {roots : List Ref} {cls : Ref} (ha : h.Accounted v starts) (hr : h.HoldsAll roots)
    (hcls : h.HoldsAll [cls]) (format : Format) (fields len slot : Nat) :
    h.allocate roots cls format fields len ≠ .error (.releasedTwice slot) := by
  intro herror
  rcases allocate_error herror with hoverflow | ⟨h₁, roots₁, cls₁, hprepares, hfails⟩
  · cases hoverflow
  obtain ⟨v₁, hrecord⟩ := Accounted.exists_preparesRecord hprepares ha hr hcls
  obtain ⟨⟨starts₁, ha₁⟩, hr₁, hcls₁⟩ := Accounted.prepares hrecord ha hr hcls
  cases hfails with
  | collect hcollect =>
    exact ha₁.collect_ne_releasedTwice (Accounted.holdsAll_append hr₁ hcls₁) slot hcollect
  | tryAllocate htry =>
    obtain ⟨cause, hfault⟩ := tryAllocate_error_fault htry
    cases hfault
  | exhausted hexhausted => exact h₁.reservationExhausted_ne _ slot hexhausted.symm

/-! ## Every history -/

/-- In every heap with a record the table agrees with it. Large integers can always be given a value,
a collection takes every object that can be reached along with its value, whatever an allocation or
a collection leads to has a record again, and no slot is ever released twice. -/
theorem recorded_matches {h : Heap} {v : Record} (hrecorded : Recorded h v) :
    (∃ objects, h.MatchesRecord v objects) ∧
    (∀ cls format fields len slot,
      h.tryAllocate cls format fields len ≠ .error (.releasedTwice slot)) ∧
    (∀ o value, h.Holds o → h.format o = .ok .largeInteger →
      ∃ h', h.setLargeInteger o value = .ok h' ∧ h'.largeInteger? o = .ok (some value)) ∧
    (∀ roots, h.HoldsAll roots →
      (∀ slot, h.collect roots ≠ .error (.releasedTwice slot)) ∧
      ∀ c, h.collect roots = .ok c →
        (∃ v', h.CarriesOver roots c v v') ∧
        (∀ o, h.Reachable roots o → ∃ o', h.SamePlace roots c.heap c.roots o o') ∧
        ∀ o o', h.SamePlace roots c.heap c.roots o o' → h.format o = .ok .largeInteger →
          h.largeInteger? o = .ok (v o) ∧ c.heap.largeInteger? o' = .ok (v o)) ∧
    ∀ roots cls format fields len, h.HoldsAll roots → h.HoldsAll [cls] →
      (∀ slot, h.allocate roots cls format fields len ≠ .error (.releasedTwice slot)) ∧
      ∀ r roots' h', (format = .context → contextStackPointer < fields) →
        h.allocate roots cls format fields len = .ok (r, roots', h') →
        ∃ h₁ cls₁ v₁, PreparesRecord h roots cls v h₁ roots' cls₁ v₁ ∧
          Recorded h' (Function.update v₁ r none) := by
  obtain ⟨starts, ha⟩ := hrecorded.accounted
  refine ⟨⟨_, ha.matchesRecord⟩, ?_, ?_, ?_, ?_⟩
  · intro cls format fields len slot herror
    obtain ⟨cause, hfault⟩ := tryAllocate_error_fault herror
    cases hfault
  · intro o value ho hf
    obtain ⟨h', hok, ha'⟩ := ha.setLargeInteger ho hf value
    have hmem : o ∈ starts.map Ref.ofWordIndex := by
      obtain ⟨i, hi, rfl⟩ := ha.holds_iff.mp ho
      exact List.mem_map.mpr ⟨i, hi, rfl⟩
    have hsome : Function.update v o (some value) o = some value := Function.update_self ..
    have hf' := ha'.matchesRecord.format o hmem (by rw [hsome]; rfl)
    refine ⟨h', hok, ?_⟩
    rw [ha'.matchesRecord.value o hmem hf', hsome]
  · intro roots hr
    refine ⟨ha.collect_ne_releasedTwice hr, fun c hok => ⟨ha.exists_carriesOver hr hok, ?_⟩⟩
    have hroots := ha.rootsIn hr
    rcases ha.collects hr with herror | ⟨c', live, hok', hk, hc, hcarries⟩
    · rw [herror] at hok
      cases hok
    rw [hok'] at hok
    cases hok
    refine ⟨fun o hreach => ⟨_, hcarries.samePlace ha.toWellFormed hroots hreach⟩, ?_⟩
    intro o o' hplace hf
    obtain ⟨hreach, rfl⟩ := hplace.eq_of_carries hcarries
    obtain ⟨i, hi, -, rfl⟩ := hk.live_of_reachable ha.toWellFormed hroots hreach
    obtain ⟨x, hx, hx'⟩ := (hcarries.same _ hreach).largeInteger hf
    have hvalue := ha.matchesRecord.value _ (List.mem_map.mpr ⟨i, hi, rfl⟩) hf
    rw [hx] at hvalue
    cases hvalue
    exact ⟨hx, hx'⟩
  · intro roots cls format fields len hr hcls
    refine ⟨ha.allocate_ne_releasedTwice hr hcls format fields len, ?_⟩
    intro r roots' h' hctx hok
    obtain ⟨h₁, cls₁, hprepares, htry⟩ := allocate_cases hok
    obtain ⟨v₁, hrecord⟩ := Accounted.exists_preparesRecord hprepares ha hr hcls
    exact ⟨h₁, cls₁, v₁, hrecord, .allocate hrecorded hr hcls hctx hok hrecord htry⟩

set_option maxRecDepth 8000 in
/-- Two large integers in one page of memory, and the second one is given a value. -/
private theorem recorded_onePage :
    ∃ h v, Recorded h v ∧ v (.ofWordIndex 4) = some 7 := by
  have hnull : ∀ h : Heap, h.HoldsAll [.null] := by
    intro h r hmem hp
    rw [List.mem_singleton.mp hmem] at hp
    cases hp
  have hstart := @Recorded.start { initialBytes := 4096, maxBytes := 4096 } _ rfl (by decide)
  have hfirst := @Recorded.tryAllocate _ _ _ .null .largeInteger 0 0 _ hstart (hnull _) (by decide)
    rfl
  have hsecond := @Recorded.tryAllocate _ _ _ .null .largeInteger 0 0 _ hfirst (hnull _) (by decide)
    rfl
  have hvalue := @Recorded.setLargeInteger _ _ _ (.ofWordIndex 4) 7 hsecond
    ⟨[.ofWordIndex 1, .ofWordIndex 4], by cbv, by decide⟩ (by rfl) rfl
  exact ⟨_, _, hvalue, by decide⟩

theorem onePage_matches :
    ∃ h v objects, Recorded h v ∧ v (.ofWordIndex 4) = some 7 ∧ h.MatchesRecord v objects := by
  obtain ⟨h, v, hrecorded, hseven⟩ := recorded_onePage
  obtain ⟨⟨objects, hmatches⟩, -⟩ := recorded_matches hrecorded
  exact ⟨h, v, objects, hrecorded, hseven, hmatches⟩

end ObjectMachine.Heap
