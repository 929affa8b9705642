import ObjectMachine.Proofs.Collection.Collecting
import ObjectMachine.Proofs.Interface.Stores

/-!
# Every slot of the table of large integers is accounted for

A slot of the table is free, or it belongs to one object. Putting in a value takes a free slot or
makes a new one; a collection gives back the slots of the objects that die. So the table never has
more slots than there were large integers at one time, and the number of a slot always fits the word
that an object has for it.

## Main results

* `Heap.TableOwned.size_le_length`: a table without free slots is no larger than memory.
* `Heap.Collects.tableOwned`: a collection keeps the table accounted for.
* `Heap.setLargeInteger_spec`: so does giving an object a value.
-/

namespace ObjectMachine

/-- Every slot of the table is free or belongs to an object. -/
structure Heap.TableOwned (h : Heap) (starts : List Nat) : Prop where
  bounded : h.largeIntegers.slots.size ≤ Ref.addressLimit
  nodup : h.largeIntegers.free.Nodup
  empty : ∀ s ∈ h.largeIntegers.free, s < h.largeIntegers.slots.size ∧
    h.largeIntegers.get? s = none
  covered : ∀ s, s < h.largeIntegers.slots.size →
    s ∈ h.largeIntegers.free ∨ ∃ i ∈ starts, h.largeSlot? i = some s

namespace Heap.TableOwned

variable {h h' : Heap} {starts starts' : List Nat}

/-- The table is still owned if the objects with slots are still there. -/
theorem congr (ht : h.TableOwned starts) (hlarge : h'.largeIntegers = h.largeIntegers)
    (howners : ∀ i ∈ starts, ∀ s, h.largeSlot? i = some s →
      ∃ j ∈ starts', h'.largeSlot? j = some s) : h'.TableOwned starts' := by
  refine ⟨?_, ?_, ?_, ?_⟩
  · rw [hlarge]
    exact ht.bounded
  · rw [hlarge]
    exact ht.nodup
  · rw [hlarge]
    exact ht.empty
  · intro s hs
    rw [hlarge] at hs ⊢
    rcases ht.covered s hs with hfree | ⟨i, hi, hslot⟩
    · exact .inl hfree
    · exact .inr (howners i hi s hslot)

/-- A store that leaves the slot of its object alone leaves the table accounted for. -/
theorem touches {i : Nat} (ht : h.TableOwned starts) (htouch : Heap.Touches i h h')
    (hl : h.LaidOut starts) (hi : i ∈ starts) (hlarge : h'.largeIntegers = h.largeIntegers)
    (hslot : h'.largeSlot? i = h.largeSlot? i) : h'.TableOwned starts := by
  apply ht.congr hlarge
  intro j hj s hs
  refine ⟨j, hj, ?_⟩
  by_cases hne : j = i
  · rw [hne, hslot, ← hne]
    exact hs
  · rw [htouch.largeSlot?_of_ne hl hi hj hne]
    exact hs

/-- Without free slots there are no more slots than objects. -/
theorem size_le_length (ht : h.TableOwned starts) (hfree : h.largeIntegers.free = []) :
    h.largeIntegers.slots.size ≤ starts.length := by
  have hsub : List.range h.largeIntegers.slots.size ⊆ starts.filterMap h.largeSlot? := by
    intro s hs
    rcases ht.covered s (List.mem_range.mp hs) with hmem | ⟨i, hi, hslot⟩
    · rw [hfree] at hmem
      cases hmem
    · exact List.mem_filterMap.mpr ⟨i, hi, hslot⟩
  calc h.largeIntegers.slots.size = (List.range h.largeIntegers.slots.size).length := by simp
    _ ≤ (starts.filterMap h.largeSlot?).length :=
      (List.subperm_of_subset List.nodup_range hsub).length_le
    _ ≤ starts.length := List.length_filterMap_le ..

end Heap.TableOwned

/-- The slots of different objects are different. -/
theorem Heap.SlotsOwned.nodup_filterMap {h : Heap} {starts : List Nat} (ho : h.SlotsOwned starts)
    {xs : List Nat} (hsub : ∀ i ∈ xs, i ∈ starts) (hnodup : xs.Nodup) :
    (xs.filterMap h.largeSlot?).Nodup := by
  induction xs with
  | nil => simp
  | cons i xs ih =>
    obtain ⟨hi, hxs⟩ := List.nodup_cons.mp hnodup
    have hrest := ih (fun j hj => hsub j (List.mem_cons_of_mem _ hj)) hxs
    cases hslot : h.largeSlot? i with
    | none => simpa [hslot] using hrest
    | some s =>
      rw [List.filterMap_cons_some hslot, List.nodup_cons]
      refine ⟨?_, hrest⟩
      intro hmem
      obtain ⟨j, hj, hjs⟩ := List.mem_filterMap.mp hmem
      have hij := ho.own i (hsub i List.mem_cons_self) j (hsub j (List.mem_cons_of_mem _ hj)) s
        hslot hjs
      exact hi (hij ▸ hj)

/-- A collection gives the slots of the objects that die back to the table. -/
theorem Heap.Collects.tableOwned {h : Heap} {starts : List Nat} {live : Nat → Bool}
    {roots : List Ref} {c : Collected} (hc : h.Collects starts live roots c)
    (hw : h.WellFormed starts) (ht : h.TableOwned starts) :
    c.heap.TableOwned (h.survivors starts live) := by
  have hdead : ∀ s, s ∈ (starts.filter fun i => !live i).filterMap h.largeSlot? →
      ∃ i ∈ starts, live i = false ∧ h.largeSlot? i = some s := by
    intro s hs
    obtain ⟨i, hi, hslot⟩ := List.mem_filterMap.mp hs
    obtain ⟨hi, hlive⟩ := List.mem_filter.mp hi
    exact ⟨i, hi, by simpa using hlive, hslot⟩
  refine ⟨?_, ?_, ?_, ?_⟩
  · rw [hc.table, LargeIntegers.size_releaseAll]
    exact ht.bounded
  · rw [hc.table, LargeIntegers.free_releaseAll, List.nodup_append, List.nodup_reverse]
    refine ⟨?_, ht.nodup, ?_⟩
    · refine hw.nodup_filterMap (fun i hi => (List.mem_filter.mp hi).1) ?_
      exact ((hw.tiles.sorted h.sizeOf_pos).imp fun hlt => Nat.ne_of_lt hlt).filter _
    · -- The slot of an object that dies holds a value, so it was not free.
      intro s hs s' hs' heq
      obtain ⟨i, hi, -, hslot⟩ := hdead s (List.mem_reverse.mp hs)
      have hheld := hw.held i hi s hslot
      rw [heq, (ht.empty s' hs').2] at hheld
      cases hheld
  · intro s hs
    rw [hc.table, LargeIntegers.free_releaseAll, List.mem_append, List.mem_reverse] at hs
    rw [hc.table, LargeIntegers.size_releaseAll, LargeIntegers.get?_releaseAll]
    rcases hs with hs | hs
    · obtain ⟨i, hi, -, hslot⟩ := hdead s hs
      rw [if_pos hs]
      exact ⟨LargeIntegers.lt_size_of_get? (hw.held i hi s hslot), rfl⟩
    · refine ⟨(ht.empty s hs).1, ?_⟩
      split
      · rfl
      · exact (ht.empty s hs).2
  · intro s hs
    rw [hc.table, LargeIntegers.size_releaseAll] at hs
    rw [hc.table, LargeIntegers.free_releaseAll, List.mem_append, List.mem_reverse]
    rcases ht.covered s hs with hfree | ⟨i, hi, hslot⟩
    · exact .inl (.inr hfree)
    · cases hlive : live i with
      | false =>
        refine .inl (.inl (List.mem_filterMap.mpr ⟨i, ?_, hslot⟩))
        exact List.mem_filter.mpr ⟨hi, by simp [hlive]⟩
      | true =>
        refine .inr ⟨_, Heap.mem_survivors.mpr ⟨i, hi, hlive, rfl⟩, ?_⟩
        rw [hc.largeSlot? hw hi hlive]
        exact hslot

/-! ## Giving a value -/

namespace LargeIntegers

theorem get?_set {t : LargeIntegers} {slot : Nat} (hlt : slot < t.slots.size) (value : Option Int)
    (free : List Nat) (s : Nat) :
    (⟨t.slots.set slot value, free⟩ : LargeIntegers).get? s =
      if s = slot then value else t.get? s := by
  unfold get?
  rw [Array.getElem?_set]
  by_cases hs : s = slot
  · simp [hs]
  · simp [hs, Ne.symm hs]

theorem get?_push (t : LargeIntegers) (value : Option Int) (s : Nat) :
    (⟨t.slots.push value, []⟩ : LargeIntegers).get? s =
      if s = t.slots.size then value else t.get? s := by
  unfold get?
  rw [Array.getElem?_push]
  by_cases hs : s = t.slots.size
  · simp [hs]
  · simp [hs]

end LargeIntegers

namespace Heap

/-- A large integer that gets its first value takes a slot that no other object has. -/
theorem TableOwned.insert {h : Heap} {starts : List Nat} (ht : h.TableOwned starts)
    (hw : h.WellFormed starts) (value : Int) :
    ∃ slot table, h.largeIntegers.insert value = .ok (slot, table) ∧
      slot < table.slots.size ∧ table.slots.size ≤ Ref.addressLimit ∧ table.free.Nodup ∧
      (∀ s, table.get? s = if s = slot then some value else h.largeIntegers.get? s) ∧
      h.largeIntegers.get? slot = none ∧
      (∀ s ∈ table.free, s < table.slots.size ∧ s ≠ slot ∧ h.largeIntegers.get? s = none) ∧
      ∀ s, s < table.slots.size → s = slot ∨ s ∈ table.free ∨
        ∃ i ∈ starts, h.largeSlot? i = some s := by
  unfold LargeIntegers.insert
  cases hfree : h.largeIntegers.free with
  | cons slot free =>
    have hslot := ht.empty slot (by simp [hfree])
    have hnodup := ht.nodup
    rw [hfree, List.nodup_cons] at hnodup
    dsimp only
    rw [dif_pos hslot.1]
    refine ⟨slot, _, rfl, by simpa using hslot.1, by simpa using ht.bounded, hnodup.2, ?_, hslot.2,
      ?_, ?_⟩
    · intro s
      exact LargeIntegers.get?_set hslot.1 _ _ s
    · intro s hs
      have hempty := ht.empty s (by simp [hfree, hs])
      refine ⟨by simpa using hempty.1, ?_, hempty.2⟩
      intro heq
      exact hnodup.1 (heq ▸ hs)
    · intro s hs
      rcases ht.covered s (by simpa using hs) with hmem | howner
      · rw [hfree] at hmem
        rcases List.mem_cons.mp hmem with heq | hmem'
        · exact .inl heq
        · exact .inr (.inl hmem')
      · exact .inr (.inr howner)
  | nil =>
    have hlength := ht.size_le_length hfree
    have hroom := hw.tiles.two_mul_length_le fun i => View.two_le_size _
    have htop := Nat.le_trans hw.committed hw.addressable
    refine ⟨_, _, rfl, by simp, ?_, by simp, ?_, ?_, by simp, ?_⟩
    · simp only [Array.size_push, firstWord] at hroom ⊢
      omega
    · intro s
      exact LargeIntegers.get?_push ..
    · simp [LargeIntegers.get?]
    · intro s hs
      simp only [Array.size_push] at hs
      by_cases heq : s = h.largeIntegers.slots.size
      · exact .inl heq
      · rcases ht.covered s (by omega) with hmem | howner
        · rw [hfree] at hmem
          cases hmem
        · exact .inr (.inr howner)

theorem onLargeIntegers_eq {α : Type} {h : Heap}
    {f : LargeIntegers → Except Fatal (α × LargeIntegers)} {a : α} {t : LargeIntegers}
    (hf : f h.largeIntegers = .ok (a, t)) :
    h.onLargeIntegers f = .ok (a, { h with largeIntegers := t }) := by
  cases h
  dsimp only at hf
  simp only [onLargeIntegers, hf]

/-- The value of the object that begins at a position, if it is a large integer that has one. -/
def largeValue? (h : Heap) (i : Nat) : Option Int := (h.largeSlot? i).bind h.largeIntegers.get?

section SetLargeInteger

variable {h : Heap} {starts : List Nat} {i : Nat}

/-- The slot of a table that is not too large can be told from the absence of one. -/
private theorem toNat_slot {slot : Nat} (hlt : slot < Ref.addressLimit) :
    slot.toUInt64.toNat = slot ∧ slot.toUInt64 ≠ noSlot := by
  simp only [Ref.addressLimit] at hlt
  have htoNat : slot.toUInt64.toNat = slot := by
    rw [Nat.toUInt64_eq, UInt64.toNat_ofNat', Nat.mod_eq_of_lt (by omega)]
  refine ⟨htoNat, ?_⟩
  intro heq
  rw [heq] at htoNat
  have hno : noSlot.toNat = 18446744073709551615 := rfl
  omega

/-- Giving a large integer a value changes the table, and its word if it had no slot. The slots stay
accounted for, and no other object gets another value. -/
theorem setLargeInteger_spec (hw : h.WellFormed starts) (ht : h.TableOwned starts) (hi : i ∈ starts)
    (hf : (h.view i).format = .largeInteger) (value : Int) :
    ∃ h', h.setLargeInteger (.ofWordIndex i) value = .ok h' ∧ Touches i h h' ∧
      (∀ k, k ≠ headerWords → h'.view i k = h.view i k) ∧
      h'.SlotsOwned starts ∧ h'.TableOwned starts ∧
      ∀ j ∈ starts, h'.largeValue? j = if j = i then some value else h.largeValue? j := by
  have hl := hw.toLaidOut
  have hsize : (h.view i).size = headerWords + 1 := by simp [View.size, hf, Format.sizeInWords]
  have hfit := hl.fits_memory hi
  have hcheck := hl.checkFormat hi
  rw [hf] at hcheck
  have hrun : h.setLargeInteger (.ofWordIndex i) value =
      if h.cell (i + headerWords) = noSlot then
        h.onLargeIntegers (·.insert value) >>= fun x => x.2.setWord (i + headerWords) x.1.toUInt64
      else h.onLargeIntegers (fun t => return ((),
        ← t.replace (h.cell (i + headerWords)).toNat value)) >>= fun x => pure x.2 := by
    unfold setLargeInteger
    rw [hcheck, hl.wordIndex hi]
    show (h.word (i + headerWords) >>= _) = _
    rw [word_eq (by omega)]
    rfl
  rw [hrun]
  by_cases hnone : h.cell (i + headerWords) = noSlot
  · have hself : h.largeSlot? i = none := by simp [largeSlot?, hnone]
    obtain ⟨slot, table, hinsert, hslot, hbounded, hnodup, hget, hfresh, hempty, hcovered⟩ :=
      ht.insert hw value
    have hslot' := toNat_slot (Nat.lt_of_lt_of_le hslot hbounded)
    let h₁ : Heap := { h with largeIntegers := table }
    have hin : i + headerWords < h₁.memory.size := show i + headerWords < h.memory.size by omega
    have hview : ∀ k, (h₁.poke (i + headerWords) slot.toUInt64).view i k =
        if k = headerWords then slot.toUInt64 else h.view i k := fun k => view_poke hin _ k
    have htouch : Touches i h (h₁.poke (i + headerWords) slot.toUInt64) := by
      refine ⟨rfl, size_poke .., ?_, ?_, ?_⟩
      · intro p hp
        exact cell_poke_ne (by omega) _
      · unfold View.header
        rw [hview, if_neg (by decide)]
        exact .refl _
      · intro hidx
        rw [hf] at hidx
        cases hidx
    have hnew : (h₁.poke (i + headerWords) slot.toUInt64).largeSlot? i = some slot := by
      have hcell : (h₁.poke (i + headerWords) slot.toUInt64).cell (i + headerWords) =
          slot.toUInt64 := cell_poke_self hin _
      unfold largeSlot?
      rw [htouch.layout.format_eq, hcell, hslot'.1, if_pos ⟨hf, hslot'.2⟩]
    -- Another object has another slot, because its slot held a value before.
    have hother : ∀ j ∈ starts, j ≠ i → ∀ s,
        (h₁.poke (i + headerWords) slot.toUInt64).largeSlot? j = some s →
          h.largeSlot? j = some s ∧ s ≠ slot := by
      intro j hj hne s hs
      rw [htouch.largeSlot?_of_ne hl hi hj hne] at hs
      refine ⟨hs, ?_⟩
      intro heq
      have hheld := hw.held j hj s hs
      rw [heq, hfresh] at hheld
      cases hheld
    refine ⟨h₁.poke (i + headerWords) slot.toUInt64, ?_, htouch, ?_, ⟨?_, ?_⟩, ⟨?_, ?_, ?_, ?_⟩, ?_⟩
    · rw [if_pos hnone, onLargeIntegers_eq hinsert]
      exact setWord_eq hin _
    · intro k hk
      rw [hview, if_neg hk]
    · intro j hj s hs
      show (table.get? s).isSome = true
      rw [hget]
      by_cases hji : j = i
      · rw [hji, hnew] at hs
        rw [if_pos (Option.some.inj hs).symm]
        rfl
      · obtain ⟨hs', hne⟩ := hother j hj hji s hs
        rw [if_neg hne]
        exact hw.held j hj s hs'
    · intro j hj j' hj' s hs hs'
      by_cases hji : j = i
      · by_cases hji' : j' = i
        · rw [hji, hji']
        · rw [hji, hnew] at hs
          exact absurd (Option.some.inj hs).symm (hother j' hj' hji' s hs').2
      · by_cases hji' : j' = i
        · rw [hji', hnew] at hs'
          exact absurd (Option.some.inj hs').symm (hother j hj hji s hs).2
        · exact hw.own j hj j' hj' s (hother j hj hji s hs).1 (hother j' hj' hji' s hs').1
    · exact hbounded
    · exact hnodup
    · intro s hs
      obtain ⟨hlt, hne, hnone'⟩ := hempty s hs
      refine ⟨hlt, ?_⟩
      show table.get? s = none
      rw [hget, if_neg hne]
      exact hnone'
    · intro s hs
      rcases hcovered s hs with rfl | hfree | ⟨j, hj, hjs⟩
      · exact .inr ⟨i, hi, hnew⟩
      · exact .inl hfree
      · have hji : j ≠ i := by
          intro heq
          rw [heq, hself] at hjs
          cases hjs
        refine .inr ⟨j, hj, ?_⟩
        rw [htouch.largeSlot?_of_ne hl hi hj hji]
        exact hjs
    · intro j hj
      by_cases hji : j = i
      · rw [if_pos hji, hji, largeValue?, hnew]
        exact (hget slot).trans (if_pos rfl)
      · rw [if_neg hji, largeValue?, largeValue?]
        cases hs : (h₁.poke (i + headerWords) slot.toUInt64).largeSlot? j with
        | none =>
          rw [htouch.largeSlot?_of_ne hl hi hj hji] at hs
          rw [hs]
          rfl
        | some s =>
          obtain ⟨hs', hne⟩ := hother j hj hji s hs
          rw [hs']
          exact (hget s).trans (if_neg hne)
  · have hself : h.largeSlot? i = some (h.cell (i + headerWords)).toNat := by
      simp [largeSlot?, hf, hnone]
    have hheld := hw.held i hi _ hself
    have hlt := LargeIntegers.lt_size_of_get? hheld
    have hget := LargeIntegers.get?_set hlt (some value) h.largeIntegers.free
    refine ⟨{ h with largeIntegers :=
        ⟨h.largeIntegers.slots.set (h.cell (i + headerWords)).toNat (some value) hlt,
          h.largeIntegers.free⟩ }, ?_, ⟨rfl, rfl, fun _ _ => rfl, .refl _⟩, fun _ _ => rfl, ⟨?_, ?_⟩,
      ⟨?_, ht.nodup, ?_, ?_⟩, ?_⟩
    · rw [if_neg hnone, onLargeIntegers_eq (a := ()) (t := _) ?_]
      · rfl
      · simp only [LargeIntegers.replace, dif_pos hlt]
        rfl
    · intro j hj s hs
      show (LargeIntegers.get? _ s).isSome = true
      rw [hget]
      split
      · rfl
      · exact hw.held j hj s hs
    · exact hw.own
    · simpa using ht.bounded
    · intro s hs
      have hfree := ht.empty s hs
      refine ⟨by simpa using hfree.1, ?_⟩
      show LargeIntegers.get? _ s = none
      rw [hget, if_neg ?_]
      · exact hfree.2
      · intro heq
        rw [← heq, hfree.2] at hheld
        cases hheld
    · intro s hs
      exact ht.covered s (by simpa using hs)
    · intro j hj
      by_cases hji : j = i
      · rw [if_pos hji, hji]
        show (h.largeSlot? i).bind _ = _
        rw [hself]
        exact (hget _).trans (if_pos rfl)
      · rw [if_neg hji]
        show (h.largeSlot? j).bind _ = (h.largeSlot? j).bind _
        cases hs : h.largeSlot? j with
        | none => rfl
        | some s =>
          refine (hget s).trans (if_neg ?_)
          intro heq
          exact hji (hw.own j hj i hi s hs (heq ▸ hself))

end SetLargeInteger

end Heap

end ObjectMachine
