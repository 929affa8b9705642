import ObjectMachine.Proofs.Interface.Soundness

/-!
# Stores keep a session sound

Each store that is allowed succeeds, and leaves behind a sound session with the objects where they
were. Stores of references come down to `Session.Sound.storeRef`, stores of raw words to
`Session.Sound.storeRaw`; the two stores that change a header or the table of large integers are
looked at by themselves.

## Main results

* `Session.Sound.storeField`: also when the field is a stack pointer.
* `Session.Sound.store`: every store.
-/

namespace ObjectMachine

/-- The elements of a context that count as references are those below its stack pointer. -/
theorem View.live_of_context {o : View} (hf : o.format = .context) :
    o.live = stackDepth o.stackPointer o.len := by
  simp only [View.live, hf, stackDepth]

theorem View.size_of_isIndexable {o : View} (hidx : o.format.isIndexable = true) :
    o.size = o.elements + o.format.tailWords o.len := by
  unfold View.size View.elements
  cases hf : o.format <;> simp_all [Format.isIndexable, Format.sizeInWords, Nat.add_assoc]

namespace Session.Sound

variable {s : Session} {starts : List Nat} {i : Nat}

theorem of_hasFormat (hs : s.Sound starts) {o : Ref} {format : Format}
    (ho : s.HasFormat o format) :
    ∃ i ∈ starts, o = .ofWordIndex i ∧ (s.heap.view i).format = format := by
  obtain ⟨hholds, hformat⟩ := ho
  obtain ⟨i, hi, rfl⟩ := hs.holds_iff.mp hholds
  rw [hs.format hi] at hformat
  exact ⟨i, hi, rfl, Except.ok.inj hformat⟩

theorem lt_len (hs : s.Sound starts) (hi : i ∈ starts) {index : Nat}
    (helement : s.HasElement (.ofWordIndex i) index) : index < (s.heap.view i).len := by
  obtain ⟨len, hlen, hindex⟩ := helement
  rw [hs.length hi] at hlen
  cases hlen
  exact hindex

/-! ## Stores of references -/

theorem setClassOf {o cls : Ref} (hs : s.Sound starts) (ha : s.Allows (.setClassOf o cls)) :
    ∃ s', s.run (.setClassOf o cls) = .ok s' ∧ s'.Sound starts := by
  obtain ⟨ho, hcls⟩ := ha
  obtain ⟨i, hi, rfl⟩ := hs.holds_iff.mp ho
  have hgenuine := hs.storable (.inr (.inr hcls))
  obtain ⟨j, hj, rfl⟩ := hs.holds_iff.mp hcls
  have htwo := (s.heap.view i).two_le_size
  refine ⟨⟨s.heap.poke (i + 1) (Ref.ofWordIndex j).bits, s.written⟩, ?_, ?_⟩
  · show s.withHeap _ = _
    rw [Heap.setClassOf_eq hs.toLaidOut hi]
    rfl
  · refine hs.storeRef hi Nat.one_pos (by omega) (by simp only [headerWords]; omega)
      (fun _ => by decide) hgenuine (fun _ => hs.isPointer hj) ?_ (fun o l hmem => .inl hmem)
    intro l hl _
    have hagree := Heap.agrees_poke (h := s.heap) (i := i) (k := 1)
      (by have := hs.fits_memory hi; omega) (by omega) (by simp only [headerWords]; omega)
      (fun _ => by decide) (Ref.ofWordIndex j).bits
    exact hs.genuine_slot hi ((hagree.isSlot_iff l).mp hl)

theorem storeElement {o value : Ref} {index : Nat} (hs : s.Sound starts)
    (ha : s.Allows (.storeElement o index value)) :
    ∃ s', s.run (.storeElement o index value) = .ok s' ∧ s'.Sound starts := by
  obtain ⟨hformat, helement, hvalue⟩ := ha
  have hl := hs.toLaidOut
  obtain ⟨i, hi, rfl, htail⟩ : ∃ i ∈ starts, o = .ofWordIndex i ∧
      (s.heap.view i).format.hasReferenceTail = true := by
    rcases hformat with hf | hf
    · obtain ⟨i, hi, ho, hf⟩ := hs.of_hasFormat hf
      exact ⟨i, hi, ho, by rw [hf]; rfl⟩
    · obtain ⟨i, hi, ho, hf⟩ := hs.of_hasFormat hf
      exact ⟨i, hi, ho, by rw [hf]; rfl⟩
  have hindex := hs.lt_len hi helement
  have hin := View.elements_lt_size htail (Nat.add_lt_add_left hindex (s.heap.view i).elements)
  refine ⟨⟨s.heap.poke (i + ((s.heap.view i).elements + index)) value.bits,
    (.ofWordIndex i, index) :: s.written⟩, ?_, ?_⟩
  · show (s.heap.storeElement _ _ _ >>= _) = _
    rw [Heap.storeElement_eq hl hi hindex hin]
    rfl
  · have hbehind : headerWords + (s.heap.view i).fields < (s.heap.view i).elements + index := by
      simp only [View.elements]
      omega
    refine hs.storeRef hi (by omega) hin (by omega) ?_ (hs.storable hvalue) ?_ ?_ ?_
    · intro hf
      rw [hf] at htail
      cases htail
    · intro hone
      simp only [headerWords] at hbehind
      omega
    · intro l hslot _
      have hsp : (s.heap.view i).format = .context →
          (s.heap.view i).elements + index ≠ headerWords + contextStackPointer := by
        intro hctx
        have := (hs.readable i hi).context hctx
        simp only [View.elements, contextStackPointer]
        omega
      have hagree := Heap.agrees_poke (h := s.heap) (i := i)
        (k := (s.heap.view i).elements + index) (by have := hl.fits_memory hi; omega) (by omega)
        (by omega) hsp value.bits
      exact hs.genuine_slot hi ((hagree.isSlot_iff l).mp hslot)
    · intro o l hmem
      rcases List.mem_cons.mp hmem with heq | hold
      · cases heq
        exact .inr ⟨rfl, htail, hindex, rfl⟩
      · exact .inl hold

/-- After a store to a field every slot holds what may stand there: it is the field, or it was a slot
before, or it is an element written since the last collection. -/
private theorem genuine_of_storeField (hs : s.Sound starts) (hi : i ∈ starts) {index : Nat}
    {value : Ref} (hindex : index < (s.heap.view i).fields)
    (hin : headerWords + index < (s.heap.view i).size)
    (hraises : (s.heap.view i).format = .context → index = contextStackPointer →
      s.RaisesOverWritten (.ofWordIndex i) value) {l : Nat}
    (hslot : ((s.heap.poke (i + (headerWords + index)) value.bits).view i).IsSlot l) :
    Genuine starts ((s.heap.view i).ref l) := by
  have hl := hs.toLaidOut
  have hfit : i + (headerWords + index) < s.heap.memory.size := by
    have := hl.fits_memory hi
    omega
  have hzero : headerWords + index ≠ 0 := by simp [headerWords]
  have hcount : headerWords + index ≠ headerWords + (s.heap.view i).fields := by omega
  by_cases hsp : (s.heap.view i).format = .context ∧ index = contextStackPointer
  · obtain ⟨hctx, rfl⟩ := hsp
    have hlayout := Heap.sameLayout_poke hfit hzero hcount value.bits
    have hpointer : ((s.heap.poke (i + (headerWords + contextStackPointer)) value.bits).view
        i).stackPointer = value := by
      unfold View.stackPointer
      rw [Heap.view_poke hfit, if_pos rfl]
    have hlive : ((s.heap.poke (i + (headerWords + contextStackPointer)) value.bits).view i).live =
        stackDepth value (s.heap.view i).len := by
      rw [View.live_of_context (hlayout.format_eq.trans hctx), hlayout.len_eq, hpointer]
    unfold View.IsSlot at hslot
    rw [hlayout.format_eq, hlayout.fields_eq, hlayout.elements_eq, hlive] at hslot
    rcases hslot with hfield | ⟨htail, hlo, hhi⟩
    · exact hs.genuine_slot hi (.inl hfield)
    · by_cases hold : l < (s.heap.view i).elements + (s.heap.view i).live
      · exact hs.genuine_slot hi (.inr ⟨htail, hlo, hold⟩)
      · rw [View.live_of_context hctx] at hold
        have hmem := hraises hctx rfl _ _ (Heap.fetchField_eq hl hi hindex hin) (hl.length hi)
          (l - (s.heap.view i).elements)
          (show stackDepth (s.heap.view i).stackPointer (s.heap.view i).len ≤ _ by omega)
          (by omega)
        have helement := (hs.genuineElement hi hmem).genuine
        rw [Nat.add_sub_cancel' hlo] at helement
        exact helement
  · have hagree := Heap.agrees_poke hfit hzero hcount
      (fun hctx heq => hsp ⟨hctx, by omega⟩) value.bits
    exact hs.genuine_slot hi ((hagree.isSlot_iff l).mp hslot)

theorem storeField {o value : Ref} {index : Nat} (hs : s.Sound starts)
    (ha : s.Allows (.storeField o index value)) :
    ∃ s', s.run (.storeField o index value) = .ok s' ∧ s'.Sound starts := by
  obtain ⟨ho, ⟨fields, hfields, hindex⟩, hvalue, hraises⟩ := ha
  obtain ⟨i, hi, rfl⟩ := hs.holds_iff.mp ho
  have hl := hs.toLaidOut
  rw [hl.fixedFields hi] at hfields
  cases hfields
  rw [hl.format hi] at hraises
  have hallows : (s.heap.view i).format.allowsFields = true := by
    rcases hs.admitted i hi with hnone | hallows
    · omega
    · exact hallows
  have hin : headerWords + index < (s.heap.view i).size := View.fields_lt_size hallows (by omega)
  refine ⟨⟨s.heap.poke (i + (headerWords + index)) value.bits, s.written⟩, ?_, ?_⟩
  · show s.withHeap _ = _
    rw [Heap.storeField_eq hl hi hindex hin]
    rfl
  · refine hs.storeRef hi (by simp [headerWords]) hin (by omega) ?_ (hs.storable hvalue) ?_ ?_
      (fun o l hmem => .inl hmem)
    · intro hf
      rw [hf] at hallows
      cases hallows
    · intro hone
      simp only [headerWords] at hone
      omega
    · intro l hslot _
      exact hs.genuine_of_storeField hi hindex hin
        (fun hctx => hraises (congrArg Except.ok hctx)) hslot

/-! ## Stores of raw words -/

/-- A store to elements that are no references keeps a session sound. -/
private theorem storeTail {h' : Heap} (hs : s.Sound starts) (hi : i ∈ starts)
    (hraw : (s.heap.view i).format.allowsFields = false)
    (hidx : (s.heap.view i).format.isIndexable = true)
    (hw : Heap.Within (i + (s.heap.view i).elements) (i + (s.heap.view i).size) s.heap h') :
    (⟨h', s.written⟩ : Session).Sound starts := by
  refine hs.storeRaw hi hraw ?_ hw ?_ (fun _ => Nat.le_refl _) (Nat.le_refl _)
  · intro hf
    rw [hf] at hidx
    cases hidx
  · simp only [View.elements]
    omega

theorem storeByte {o : Ref} {index : Nat} {value : UInt8} (hs : s.Sound starts)
    (ha : s.Allows (.storeByte o index value)) :
    ∃ s', s.run (.storeByte o index value) = .ok s' ∧ s'.Sound starts := by
  obtain ⟨hformat, helement⟩ := ha
  obtain ⟨i, hi, rfl, hf⟩ := hs.of_hasFormat hformat
  have hindex := hs.lt_len hi helement
  have hidx : (s.heap.view i).format.isIndexable = true := by rw [hf]; rfl
  have hsize := View.size_of_isIndexable hidx
  rw [hf] at hsize
  simp only [Format.tailWords] at hsize
  obtain ⟨h', hrun, hw⟩ := Heap.storeByte_within hs.toLaidOut hi hindex (by omega) value
  refine ⟨⟨h', s.written⟩, ?_, hs.storeTail hi (by rw [hf]; rfl) hidx hw⟩
  show s.withHeap _ = _
  rw [hrun]
  rfl

theorem storeBytes {o : Ref} {values : List UInt8} (hs : s.Sound starts)
    (ha : s.Allows (.storeBytes o values)) :
    ∃ s', s.run (.storeBytes o values) = .ok s' ∧ s'.Sound starts := by
  obtain ⟨hformat, len, hlen, hvalues⟩ := ha
  obtain ⟨i, hi, rfl, hf⟩ := hs.of_hasFormat hformat
  rw [hs.length hi] at hlen
  cases hlen
  have hidx : (s.heap.view i).format.isIndexable = true := by rw [hf]; rfl
  have hsize := View.size_of_isIndexable hidx
  rw [hf] at hsize
  simp only [Format.tailWords] at hsize
  obtain ⟨h', hrun, hw⟩ := Heap.storeBytes_within hs.toLaidOut hi hvalues (by omega)
  refine ⟨⟨h', s.written⟩, ?_, hs.storeTail hi (by rw [hf]; rfl) hidx hw⟩
  show s.withHeap _ = _
  rw [hrun]
  rfl

theorem storeWord {o : Ref} {index : Nat} {value : UInt32} (hs : s.Sound starts)
    (ha : s.Allows (.storeWord o index value)) :
    ∃ s', s.run (.storeWord o index value) = .ok s' ∧ s'.Sound starts := by
  obtain ⟨hformat, helement⟩ := ha
  obtain ⟨i, hi, rfl, hf⟩ := hs.of_hasFormat hformat
  have hindex := hs.lt_len hi helement
  have hidx : (s.heap.view i).format.isIndexable = true := by rw [hf]; rfl
  have hsize := View.size_of_isIndexable hidx
  rw [hf] at hsize
  simp only [Format.tailWords] at hsize
  obtain ⟨h', hrun, hw⟩ := Heap.storeWordElement_within hs.toLaidOut hi hindex (by omega) value
  refine ⟨⟨h', s.written⟩, ?_, hs.storeTail hi (by rw [hf]; rfl) hidx hw⟩
  show s.withHeap _ = _
  rw [hrun]
  rfl

theorem storeFloat {o : Ref} {index : Nat} {value : Binary64} (hs : s.Sound starts)
    (ha : s.Allows (.storeFloat o index value)) :
    ∃ s', s.run (.storeFloat o index value) = .ok s' ∧ s'.Sound starts := by
  obtain ⟨hformat, helement⟩ := ha
  obtain ⟨i, hi, rfl, hf⟩ := hs.of_hasFormat hformat
  have hindex := hs.lt_len hi helement
  have hidx : (s.heap.view i).format.isIndexable = true := by rw [hf]; rfl
  have hsize := View.size_of_isIndexable hidx
  rw [hf] at hsize
  simp only [Format.tailWords] at hsize
  have hin : (s.heap.view i).elements + index < (s.heap.view i).size := by omega
  refine ⟨⟨s.heap.poke (i + ((s.heap.view i).elements + index)) value.bits, s.written⟩, ?_,
    hs.storeTail hi (by rw [hf]; rfl) hidx (.poke (by omega) (by omega) _)⟩
  show s.withHeap _ = _
  rw [Heap.storeFloatElement_eq hs.toLaidOut hi hindex hin]
  rfl

theorem setFloatValue {o : Ref} {value : Binary64} (hs : s.Sound starts)
    (ha : s.Allows (.setFloatValue o value)) :
    ∃ s', s.run (.setFloatValue o value) = .ok s' ∧ s'.Sound starts := by
  obtain ⟨i, hi, rfl, hf⟩ := hs.of_hasFormat ha
  have hsize : (s.heap.view i).size = headerWords + 1 := by
    simp [View.size, hf, Format.sizeInWords]
  refine ⟨⟨s.heap.poke (i + headerWords) value.bits, s.written⟩, ?_, ?_⟩
  · show s.withHeap _ = _
    rw [Heap.setFloatValue_eq hs.toLaidOut hi hf]
    rfl
  · have hwithin : Heap.Within (i + headerWords) (i + headerWords + 1) s.heap
        (s.heap.poke (i + headerWords) value.bits) := .poke (Nat.le_refl _) (by omega) _
    refine hs.storeRaw hi (by rw [hf]; rfl) (by rw [hf]; decide) hwithin (Nat.le_refl _) ?_
      (by omega)
    intro hidx
    rw [hf] at hidx
    cases hidx

/-! ## Stores to a header and to the table -/

theorem setCaptured {o : Ref} {captured : Bool} (hs : s.Sound starts)
    (ha : s.Allows (.setCaptured o captured)) :
    ∃ s', s.run (.setCaptured o captured) = .ok s' ∧ s'.Sound starts := by
  obtain ⟨i, hi, rfl⟩ := hs.holds_iff.mp ha
  have hl := hs.toLaidOut
  have htwo := (s.heap.view i).two_le_size
  have hin : i + 0 < s.heap.memory.size := by
    have := hl.fits_memory hi
    omega
  obtain ⟨header, hheader⟩ : ∃ header : Header, header = if captured then
      (s.heap.view i).header.captured else (s.heap.view i).header.uncaptured := ⟨_, rfl⟩
  have hshape : Header.SameShape header (s.heap.view i).header := by
    rw [hheader]
    split
    · exact Header.sameShape_captured _
    · exact Header.sameShape_uncaptured _
  have hmarked : header.isMarked = false := by
    have hun := hs.unmarked i hi
    rw [hheader]
    split
    · rw [Header.isMarked_captured, hun]
    · rw [Header.isMarked_uncaptured, hun]
  have hview := Heap.view_poke hin header.bits
  have hnew : ((s.heap.poke (i + 0) header.bits).view i).header = header := by
    unfold View.header
    rw [hview, if_pos rfl]
  have hwords : ∀ k, 0 < k → ((s.heap.poke (i + 0) header.bits).view i) k = s.heap.view i k := by
    intro k hk
    rw [hview, if_neg (by omega)]
  have hagree : View.Agrees (s.heap.view i) ((s.heap.poke (i + 0) header.bits).view i) :=
    View.agrees_of_words (hs.readable i hi) (by rw [hnew]; exact hshape) fun k hk _ => hwords k hk
  have hwithin : Heap.Within (i + 0) (i + 0 + 1) s.heap (s.heap.poke (i + 0) header.bits) :=
    .poke (Nat.le_refl _) (by omega) _
  have htouch := hwithin.touches (by omega) (by omega) hagree.toSameLayout
  have hslot : (s.heap.poke (i + 0) header.bits).largeSlot? i = s.heap.largeSlot? i := by
    unfold Heap.largeSlot?
    rw [hagree.format_eq, Heap.cell_poke_ne (by simp only [headerWords]; omega)]
  have href : ∀ k, 0 < k → ((s.heap.poke (i + 0) header.bits).view i).ref k =
      (s.heap.view i).ref k := fun k hk => congrArg Ref.mk (hwords k hk)
  refine ⟨⟨s.heap.poke (i + 0) header.bits, s.written⟩, ?_, ?_⟩
  · show s.withHeap _ = _
    rw [Heap.setCaptured_eq hl hi, ← hheader]
    rfl
  · refine hs.touch hi htouch ?_ ?_ ?_ ?_ (htouch.slotsOwned hl hi hs.toSlotsOwned rfl hslot)
      (hs.table.touches htouch hl hi rfl hslot) (fun o k hmem _ => hmem) ?_
    · rw [hnew]
      exact hmarked
    · rw [href 1 Nat.one_pos]
      exact hs.classes i hi
    · rw [href 1 Nat.one_pos]
      exact hs.traced i hi 1 (.inl rfl) (hs.classes i hi)
    · intro k hk
      have hk' := (hagree.isSlot_iff k).mp hk
      have hlo := hk'.bounds.1
      simp only [headerWords] at hlo
      rw [href k (by omega)]
      exact hs.genuine_slot hi hk'
    · intro k hmem
      exact (hs.genuineElement hi hmem).congr hagree.toSameLayout
        (href _ (by simp only [View.elements, headerWords]; omega)) fun _ hmem => hmem

theorem setLargeInteger {o : Ref} {value : Int} (hs : s.Sound starts)
    (ha : s.Allows (.setLargeInteger o value)) :
    ∃ s', s.run (.setLargeInteger o value) = .ok s' ∧ s'.Sound starts := by
  obtain ⟨i, hi, rfl, hf⟩ := hs.of_hasFormat ha
  obtain ⟨h', hrun, htouch, hwords, howned, htable, -⟩ :=
    Heap.setLargeInteger_spec hs.toWellFormed hs.table hi hf value
  have hheader : (h'.view i).header = (s.heap.view i).header :=
    congrArg Header.mk (hwords 0 (by decide))
  have hclass : (h'.view i).ref 1 = (s.heap.view i).ref 1 :=
    congrArg Ref.mk (hwords 1 (by decide))
  refine ⟨⟨h', s.written⟩, ?_, hs.touch hi htouch ?_ ?_ ?_ ?_ howned htable
    (fun o k hmem _ => hmem) ?_⟩
  · show s.withHeap _ = _
    rw [hrun]
    rfl
  · rw [hheader]
    exact hs.unmarked i hi
  · rw [hclass]
    exact hs.classes i hi
  · rw [hclass]
    exact hs.traced i hi 1 (.inl rfl) (hs.classes i hi)
  · intro k hk
    unfold View.IsSlot at hk
    rw [htouch.layout.format_eq, hf] at hk
    simp [Format.allowsFields, Format.hasReferenceTail] at hk
  · intro k hmem
    have htail := (hs.genuineElement hi hmem).tail
    rw [hf] at htail
    cases htail

theorem setNil {nil : Ref} (hs : s.Sound starts) (ha : s.Allows (.setNil nil)) :
    ∃ s', s.run (.setNil nil) = .ok s' ∧ s'.Sound starts := by
  have hgenuine := hs.storable (.inr (.inr ha))
  refine ⟨⟨s.heap.setNil nil, s.written⟩, rfl, { hs with table := ?_, nil := hgenuine }⟩
  show (s.heap.setNil nil).TableOwned starts
  apply hs.table.congr
  · rfl
  · intro i hi slot hslot
    exact ⟨i, hi, hslot⟩

end Session.Sound

end ObjectMachine
