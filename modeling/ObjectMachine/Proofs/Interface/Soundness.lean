import ObjectMachine.Proofs.Interface.Session
import ObjectMachine.Proofs.Interface.Table

/-!
# The interface keeps memory sound

The invariant of a session: memory is faultless, every slot of the table of large integers is free or
belongs to one object, and the elements written since the last collection hold values that may stand
in a slot. Every operation that is allowed keeps it. A collection forgets what was written, and makes
up for it by updating what is live.

## Main results

* `Session.Sound`: the invariant.
* `Session.Sound.touch`: a store that keeps the references of one object genuine keeps it.
* `Session.Sound.step`: so does every operation that is allowed.
* `Session.Reached.sound`: so it holds in every session.
-/

namespace ObjectMachine

/-- An element of an object with references as elements that holds what may stand in a slot. -/
structure View.GenuineElement (starts : List Nat) (o : View) (k : Nat) : Prop where
  tail : o.format.hasReferenceTail = true
  lt : k < o.len
  genuine : Genuine starts (o.ref (o.elements + k))

/-- An element that holds what it held is as good as before, also if there are more objects. -/
theorem View.GenuineElement.congr {starts starts' : List Nat} {o o' : View} {k : Nat}
    (he : o.GenuineElement starts k) (hlayout : View.SameLayout o o')
    (href : o'.ref (o.elements + k) = o.ref (o.elements + k))
    (hsub : ∀ i ∈ starts, i ∈ starts') : o'.GenuineElement starts' k where
  tail := by
    rw [hlayout.format_eq]
    exact he.tail
  lt := by
    rw [hlayout.len_eq]
    exact he.lt
  genuine := by
    rw [hlayout.elements_eq, href]
    exact he.genuine.mono hsub

theorem View.GenuineElement.lt_size {starts : List Nat} {o : View} {k : Nat}
    (he : o.GenuineElement starts k) : o.elements + k < o.size :=
  View.elements_lt_size he.tail (Nat.add_lt_add_left he.lt _)

namespace Session

/-- The invariant of a session. -/
structure Sound (s : Session) (starts : List Nat) : Prop extends
    Heap.Faultless s.heap starts where
  table : s.heap.TableOwned starts
  reserved : s.heap.reservedWords ≤ Ref.addressLimit
  nil : Genuine starts s.heap.nil
  admitted : ∀ i ∈ starts, (s.heap.view i).fields = 0 ∨
    (s.heap.view i).format.allowsFields = true
  written : ∀ o k, (o, k) ∈ s.written →
    ∃ i ∈ starts, o = .ofWordIndex i ∧ (s.heap.view i).GenuineElement starts k

namespace Sound

variable {s : Session} {starts : List Nat} {i : Nat}

theorem genuine_slot (hs : s.Sound starts) (hi : i ∈ starts) {k : Nat}
    (hk : (s.heap.view i).IsSlot k) : Genuine starts ((s.heap.view i).ref k) :=
  ⟨hs.slots i hi k hk, hs.traced i hi k (.inr hk)⟩

/-- What is written of an object is an element of it. -/
theorem genuineElement (hs : s.Sound starts) (hi : i ∈ starts) {k : Nat}
    (hk : (Ref.ofWordIndex i, k) ∈ s.written) : (s.heap.view i).GenuineElement starts k := by
  obtain ⟨j, hj, heq, helement⟩ := hs.written _ _ hk
  rw [hs.ofWordIndex_inj hi hj heq]
  exact helement

theorem storable (hs : s.Sound starts) {r : Ref} (hr : s.Storable r) : Genuine starts r := by
  rcases hr with himmediate | rfl | hholds
  · refine ⟨Ref.not_isMarker_of_isImmediate himmediate, ?_⟩
    intro hp
    rw [Ref.not_isImmediate_of_isPointer hp] at himmediate
    cases himmediate
  · exact genuine_null starts
  · have hdesignates := hs.holds_iff.mp hholds
    obtain ⟨j, hj, rfl⟩ := hdesignates
    exact ⟨Ref.not_isMarker_of_isPointer (hs.isPointer hj), fun _ => ⟨j, hj, rfl⟩⟩

/-- A store to an object keeps the invariant if the object is still unmarked, of a class, and with
slots and written elements that hold what may stand there. -/
theorem touch {h' : Heap} {written : List (Ref × Nat)} (hs : s.Sound starts) (hi : i ∈ starts)
    (ht : Heap.Touches i s.heap h')
    (hunmarked : (h'.view i).header.isMarked = false)
    (hpointer : ((h'.view i).ref 1).isPointer = true)
    (hclass : Designates starts ((h'.view i).ref 1))
    (hslots : ∀ k, (h'.view i).IsSlot k → Genuine starts ((h'.view i).ref k))
    (howned : h'.SlotsOwned starts) (htable : h'.TableOwned starts)
    (hsame : ∀ o k, (o, k) ∈ written → o ≠ .ofWordIndex i → (o, k) ∈ s.written)
    (hself : ∀ k, (Ref.ofWordIndex i, k) ∈ written → (h'.view i).GenuineElement starts k) :
    (⟨h', written⟩ : Session).Sound starts := by
  have hl := hs.toLaidOut
  have href : ∀ j ∈ starts, j ≠ i → ∀ k, k < (s.heap.view j).size →
      (h'.view j).ref k = (s.heap.view j).ref k := by
    intro j hj hne k hk
    exact congrArg Ref.mk (ht.view_eq hl hi hj hne hk)
  have htraced : ∀ j ∈ starts, j ≠ i → ∀ k, (h'.view j).IsTraced k →
      (s.heap.view j).IsTraced k := by
    intro j hj hne k hk
    exact ((ht.agrees hl hi hj hne).isTraced_iff k).mp hk
  refine
    { toLaidOut := ht.laidOut hl hi
      toSlotsOwned := howned
      unmarked := ?_
      traced := ?_
      classes := ?_
      slots := ?_
      table := htable
      reserved := ?_
      nil := ?_
      admitted := ?_
      written := ?_ }
  · intro j hj
    by_cases hne : j = i
    · rw [hne]
      exact hunmarked
    · show (h'.view j).header.isMarked = false
      rw [ht.header_eq hl hi hj hne]
      exact hs.unmarked j hj
  · intro j hj k hk hp
    by_cases hne : j = i
    · subst hne
      rcases hk with rfl | hslot
      · exact hclass
      · exact (hslots k hslot).designates hp
    · have hk' := htraced j hj hne k hk
      have hr := href j hj hne k hk'.bounds.2
      show Designates starts ((h'.view j).ref k)
      rw [hr]
      exact hs.traced j hj k hk' (hr ▸ hp)
  · intro j hj
    by_cases hne : j = i
    · rw [hne]
      exact hpointer
    · show ((h'.view j).ref 1).isPointer = true
      have htwo := (s.heap.view j).two_le_size
      rw [href j hj hne 1 (by omega)]
      exact hs.classes j hj
  · intro j hj k hk
    by_cases hne : j = i
    · subst hne
      exact (hslots k hk).isMarker
    · have hk' := ((ht.agrees hl hi hj hne).isSlot_iff k).mp hk
      show ((h'.view j).ref k).isMarker = false
      rw [href j hj hne k hk'.bounds.2]
      exact hs.slots j hj k hk'
  · show h'.reservedWords ≤ _
    rw [ht.reservedWords]
    exact hs.reserved
  · show Genuine starts h'.nil
    rw [ht.nil]
    exact hs.nil
  · intro j hj
    have hlayout := ht.sameLayout hl hi hj
    show (h'.view j).fields = 0 ∨ (h'.view j).format.allowsFields = true
    rw [hlayout.fields_eq, hlayout.format_eq]
    exact hs.admitted j hj
  · intro o k hk
    by_cases ho : o = .ofWordIndex i
    · subst ho
      exact ⟨i, hi, rfl, hself k hk⟩
    · obtain ⟨j, hj, rfl, helement⟩ := hs.written o k (hsame o k hk ho)
      have hne : j ≠ i := by
        rintro rfl
        exact ho rfl
      exact ⟨j, hj, rfl, helement.congr (ht.sameLayout hl hi hj)
        (href j hj hne _ helement.lt_size) fun _ hmem => hmem⟩

/-! ### Stores -/

/-- Storing a reference that may stand in a slot keeps the invariant, as long as the other slots that
the object has afterwards hold such references. -/
theorem storeRef {k : Nat} {value : Ref} {written : List (Ref × Nat)} (hs : s.Sound starts)
    (hi : i ∈ starts) (hpos : 0 < k) (hlt : k < (s.heap.view i).size)
    (hcount : k ≠ headerWords + (s.heap.view i).fields)
    (hlarge : (s.heap.view i).format = .largeInteger → k ≠ headerWords)
    (hvalue : Genuine starts value) (hclass : k = 1 → value.isPointer = true)
    (hslots : ∀ l, ((s.heap.poke (i + k) value.bits).view i).IsSlot l → l ≠ k →
      Genuine starts ((s.heap.view i).ref l))
    (hwritten : ∀ o l, (o, l) ∈ written → (o, l) ∈ s.written ∨
      (o = .ofWordIndex i ∧ (s.heap.view i).format.hasReferenceTail = true ∧
        l < (s.heap.view i).len ∧ (s.heap.view i).elements + l = k)) :
    (⟨s.heap.poke (i + k) value.bits, written⟩ : Session).Sound starts := by
  have hl := hs.toLaidOut
  have hin : i + k < s.heap.memory.size := by
    have := hl.fits_memory hi
    omega
  have htouch := Heap.touches_poke (by omega) (hl.fits_memory hi) (by omega) hcount value.bits
  have hlayout := htouch.layout
  have hview : ∀ l, ((s.heap.poke (i + k) value.bits).view i).ref l =
      if l = k then value else (s.heap.view i).ref l := by
    intro l
    unfold View.ref
    rw [Heap.view_poke hin]
    split <;> rfl
  have hslot : (s.heap.poke (i + k) value.bits).largeSlot? i = s.heap.largeSlot? i := by
    unfold Heap.largeSlot?
    rw [hlayout.format_eq]
    by_cases hf : (s.heap.view i).format = .largeInteger
    · have hne := hlarge hf
      rw [Heap.cell_poke_ne (by omega)]
    · simp [hf]
  refine hs.touch hi htouch ?_ ?_ ?_ ?_ (htouch.slotsOwned hl hi hs.toSlotsOwned rfl hslot)
    (hs.table.touches htouch hl hi rfl hslot) ?_ ?_
  · have hheader : ((s.heap.poke (i + k) value.bits).view i).header = (s.heap.view i).header := by
      unfold View.header
      rw [Heap.view_poke hin, if_neg (by omega)]
    rw [hheader]
    exact hs.unmarked i hi
  · rw [hview]
    by_cases hone : 1 = k
    · rw [if_pos hone]
      exact hclass hone.symm
    · rw [if_neg hone]
      exact hs.classes i hi
  · rw [hview]
    by_cases hone : 1 = k
    · rw [if_pos hone]
      exact hvalue.designates (hclass hone.symm)
    · rw [if_neg hone]
      exact hs.traced i hi 1 (.inl rfl) (hs.classes i hi)
  · intro l hslot
    rw [hview]
    by_cases hlk : l = k
    · rw [if_pos hlk]
      exact hvalue
    · rw [if_neg hlk]
      exact hslots l hslot hlk
  · intro o l hmem hne
    rcases hwritten o l hmem with hold | ⟨ho, -⟩
    · exact hold
    · exact absurd ho hne
  · intro l hmem
    have helement : (s.heap.view i).format.hasReferenceTail = true ∧ l < (s.heap.view i).len ∧
        ((s.heap.view i).elements + l ≠ k →
          Genuine starts ((s.heap.view i).ref ((s.heap.view i).elements + l))) := by
      rcases hwritten _ l hmem with hold | ⟨-, htail, hlen, heq⟩
      · have := hs.genuineElement hi hold
        exact ⟨this.tail, this.lt, fun _ => this.genuine⟩
      · exact ⟨htail, hlen, fun hne => absurd heq hne⟩
    refine ⟨?_, ?_, ?_⟩
    · rw [hlayout.format_eq]
      exact helement.1
    · rw [hlayout.len_eq]
      exact helement.2.1
    · rw [hlayout.elements_eq, hview]
      split
      · exact hvalue
      · exact helement.2.2 ‹_›

/-- Storing to the words of an object without reference slots keeps the invariant. -/
theorem storeRaw {first last : Nat} {h' : Heap} (hs : s.Sound starts) (hi : i ∈ starts)
    (hraw : (s.heap.view i).format.allowsFields = false)
    (hlarge : (s.heap.view i).format ≠ .largeInteger) (hw : Heap.Within first last s.heap h')
    (hfirst : i + headerWords ≤ first)
    (hcount : (s.heap.view i).format.isIndexable = true →
      i + (s.heap.view i).elements ≤ first)
    (hlast : last ≤ i + (s.heap.view i).size) :
    (⟨h', s.written⟩ : Session).Sound starts := by
  have hl := hs.toLaidOut
  have hfront : ∀ k, k < headerWords → h'.view i k = s.heap.view i k := by
    intro k hk
    exact hw.outside _ (.inl (by omega))
  have hheader : (h'.view i).header = (s.heap.view i).header :=
    congrArg Header.mk (hfront 0 (by decide))
  have hone : (h'.view i).ref 1 = (s.heap.view i).ref 1 :=
    congrArg Ref.mk (hfront 1 (by decide))
  have hlayout : View.SameLayout (s.heap.view i) (h'.view i) := by
    refine ⟨?_, ?_⟩
    · rw [hheader]
      exact .refl _
    · intro hidx
      have hbehind := hcount hidx
      simp only [View.elements] at hbehind
      exact hw.outside _ (.inl (by omega))
  have htouch := hw.touches (by omega) hlast hlayout
  have hsame : h'.largeIntegers = s.heap.largeIntegers := (congrArg Heap.largeIntegers hw.rest :)
  have hslot : h'.largeSlot? i = s.heap.largeSlot? i := by
    unfold Heap.largeSlot?
    rw [hlayout.format_eq]
    simp [hlarge]
  have htail : (s.heap.view i).format.hasReferenceTail = false := by
    cases hf : (s.heap.view i).format <;> simp_all [Format.allowsFields, Format.hasReferenceTail]
  refine hs.touch hi htouch ?_ ?_ ?_ ?_ (htouch.slotsOwned hl hi hs.toSlotsOwned hsame hslot)
    (hs.table.touches htouch hl hi hsame hslot) (fun o k hmem _ => hmem) ?_
  · rw [hheader]
    exact hs.unmarked i hi
  · rw [hone]
    exact hs.classes i hi
  · rw [hone]
    exact hs.traced i hi 1 (.inl rfl) (hs.classes i hi)
  · intro k hk
    unfold View.IsSlot at hk
    rw [hlayout.format_eq, hraw, htail] at hk
    simp at hk
  · intro k hmem
    have htail' := (hs.genuineElement hi hmem).tail
    rw [htail] at htail'
    cases htail'

end Sound

end Session

end ObjectMachine
