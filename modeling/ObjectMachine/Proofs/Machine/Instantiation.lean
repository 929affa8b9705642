import ObjectMachine.Proofs.Collection.Reservation
import ObjectMachine.Proofs.Graph.Allocating
import ObjectMachine.Proofs.Machine.Reclaiming

/-!
# Instances are refused, not fatal

Whoever asks for an instance names its length, which may be any small integer. An object that cannot
be had is refused: there is room for it if it ends inside the reservation, and that is looked at
before anything is allocated, once as memory is and once more after a collection. What has room is
then allocated, with however many collections, since a collection never leaves less room.

So the only stop is that of a collection whose work list overflows.

## Main results

* `Machine.InOrder.allocate`: what has room is allocated.
* `Machine.InOrder.instantiate_answers`: an instance is refused for one of three reasons, and
  otherwise is a blank object of the class.
-/

namespace ObjectMachine

/-! ## Blank objects -/

namespace Heap

/-- An object that nothing was stored into since it was allocated. -/
structure Blank (h : Heap) (r cls : Ref) (format : Format) (fields len : Nat) : Prop where
  classOf : h.classOf r = .ok cls
  ofFormat : h.format r = .ok format
  fixedFields : h.fixedFields r = .ok fields
  length : h.length r = .ok len
  field : ∀ k < fields, h.fetchField r k = .ok h.nil
  element : format.hasReferenceTail = true → ∀ k < len, h.fetchElement r k = .ok h.nil
  /-- Whatever else follows the fields and the count of the elements. -/
  raw : format.hasReferenceTail = false → format ≠ .largeInteger →
    ∀ k, headerWords + fields + (if format.isIndexable then 1 else 0) ≤ k →
      k < format.sizeInWords fields len → h.word (r.wordIndex + k) = .ok 0
  value : format = .largeInteger → h.largeInteger? r = .ok none

variable {h h' : Heap} {cls : Ref} {format : Format} {fields len words : Nat}

namespace Allocated

theorem word_fresh (ha : h.Allocated cls format fields len h') {k : Nat}
    (hk : k < format.sizeInWords fields len) :
    h'.word (h.top + k) = .ok (h'.view h.top k) := by
  have htop := ha.top
  have hcommitted := ha.committed
  exact word_eq (by omega)

theorem slot_fresh (ha : h.Allocated cls format fields len h') {k : Nat}
    (hk : k < format.sizeInWords fields len) :
    h'.slot (h.top + k) = .ok ((h'.view h.top).ref k) := by
  unfold slot
  rw [ha.word_fresh hk]
  rfl

theorem wordIndex_fresh (ha : h.Allocated cls format fields len h')
    (haddr : h'.memory.size ≤ Ref.addressLimit) : (Ref.ofWordIndex h.top).wordIndex = h.top := by
  have htwo := format.two_le_sizeInWords fields len
  have htop := ha.top
  have hcommitted := ha.committed
  exact Ref.wordIndex_ofWordIndex (by omega)

theorem length_fresh (ha : h.Allocated cls format fields len h')
    (haddr : h'.memory.size ≤ Ref.addressLimit) (hlen : format.isIndexable = false → len = 0) :
    h'.length (.ofWordIndex h.top) = .ok len := by
  have hviewed : (h'.view h.top).len = len := by
    cases hidx : format.isIndexable with
    | true => exact ha.fresh_len haddr hidx
    | false =>
      unfold View.len
      rw [ha.fresh_format, hidx, hlen hidx]
      rfl
  have hfit : h.top + (h'.view h.top).size ≤ h'.memory.size := by
    rw [ha.fresh_size haddr, ← ha.top]
    exact ha.committed
  have hformat := ha.format_fresh haddr
  unfold Heap.format at hformat
  rw [ha.header_fresh haddr] at hformat
  unfold Heap.length
  rw [ha.header_fresh haddr]
  dsimp only at hformat ⊢
  rw [hformat, ha.wordIndex_fresh haddr, ← ha.fresh_format]
  exact (lengthAt_eq (.refl _) hfit).trans (congrArg Except.ok hviewed)

/-- A fresh object is blank. -/
theorem blank (ha : h.Allocated cls format fields len h')
    (haddr : h'.memory.size ≤ Ref.addressLimit) (hlen : format.isIndexable = false → len = 0) :
    h'.Blank (.ofWordIndex h.top) cls format fields len := by
  obtain ⟨hash, hfresh⟩ := ha.fresh
  have hindex := ha.wordIndex_fresh haddr
  have htwo := format.two_le_sizeInWords fields len
  have href : ∀ k, k < format.sizeInWords fields len → h'.slot (h.top + k) =
      .ok ⟨freshView (.pack format fields hash) cls h.nil format fields len k⟩ := by
    intro k hk
    rw [ha.slot_fresh hk]
    exact congrArg (fun bits => Except.ok (Ref.mk bits)) (hfresh k hk)
  exact
    { classOf := by
        unfold Heap.classOf
        rw [hindex, href 1 (by omega)]
        rfl
      ofFormat := ha.format_fresh haddr
      fixedFields := ha.fixedFields_fresh haddr
      length := ha.length_fresh haddr hlen
      field := by
        intro k hk
        have hin : headerWords + k < format.sizeInWords fields len := by
          have hallowed := ha.allowed
          cases format <;> simp_all [Format.allowsFields, Format.sizeInWords] <;> omega
        have hlt : k < (h'.view h.top).fields := by
          rw [ha.fresh_fields]
          exact hk
        have hposition : h'.fieldIndex (.ofWordIndex h.top) k = .ok (h.top + (headerWords + k)) := by
          unfold fieldIndex
          rw [ha.header_fresh haddr, hindex, ← Nat.add_assoc]
          exact if_pos hlt
        unfold fetchField
        rw [hposition]
        exact (href _ hin).trans (by
          rw [freshView_field _ _ _ _ _ (by omega) (by omega), ha.nil])
      element := by
        intro htail k hk
        have hin : headerWords + fields + 1 + k < format.sizeInWords fields len := by
          cases format <;> simp_all [Format.hasReferenceTail, Format.sizeInWords, Format.tailWords] <;>
            omega
        have hposition : h'.elementIndex (.ofWordIndex h.top) k =
            .ok (h.top + (headerWords + fields + 1 + k)) := by
          unfold elementIndex checkElement elementsIndex
          rw [ha.length_fresh haddr hlen, ha.header_fresh haddr, hindex]
          dsimp only
          rw [if_pos hk]
          refine congrArg Except.ok ?_
          show h.top + headerWords + (h'.view h.top).fields + 1 + k = _
          rw [ha.fresh_fields]
          omega
        unfold fetchElement
        rw [hposition]
        exact (href _ hin).trans (by
          rw [freshView_element _ _ _ _ _ htail (by omega), ha.nil])
      raw := by
        intro htail hlarge k hlo hk
        rw [hindex, ha.word_fresh hk, hfresh k hk]
        by_cases hplain : format = .plain
        · subst hplain
          simp only [Format.sizeInWords] at hk
          omega
        · have hno : format.allowsFields = false := by
            cases format <;> simp_all [Format.allowsFields, Format.hasReferenceTail]
          have hnone : fields = 0 := ha.allowed.resolve_right (by simp [hno])
          subst hnone
          refine congrArg Except.ok (freshView_raw _ _ _ _ hno hlarge ?_)
          cases format <;> simp_all [Format.allowsFields, Format.isIndexable]
      value := by
        rintro rfl
        have hnone : fields = 0 := ha.allowed.resolve_right (by decide)
        have hword : h'.word (h.top + headerWords) = .ok noSlot := by
          rw [ha.word_fresh (by simp [Format.sizeInWords]), hfresh _ (by simp [Format.sizeInWords]),
            hnone]
          rfl
        unfold Heap.largeInteger? checkFormat
        rw [ha.format_fresh haddr, hindex]
        show (h'.word (h.top + headerWords) >>= _) = _
        rw [hword]
        rfl }

end Allocated

/-! ## What has room -/

theorem checkedSize_of_len (format : Format) (hlen : len < Ref.addressLimit) (hfields : fields ≤ Header.maxFields) :
    format.checkedSize fields len = .ok (format.sizeInWords fields len) := by
  simp only [Ref.addressLimit] at hlen
  simp only [Header.maxFields] at hfields
  have htail : format.tailFits len = true := by
    cases format with
    | byteArray =>
      show decide (len + 1 < countLimit) = true
      rw [decide_eq_true_eq]
      simp only [countLimit]
      omega
    | _ => rfl
  have hcount : format.sizeInWords fields len < countLimit := by
    simp only [countLimit]
    cases format <;> simp only [Format.sizeInWords, Format.tailWords, headerWords] <;> omega
  simp [Format.checkedSize, checkedCount, htail, hcount]

/-- An object that ends inside the reservation is allocated. -/
theorem tryAllocate_of_room (hcls : cls.isImmediate = false)
    (hallowed : fields = 0 ∨ format.allowsFields = true) (hfields : fields ≤ Header.maxFields)
    (hroom : h.top + format.sizeInWords fields len ≤ h.reservedWords)
    (hreserved : h.reservedWords < Ref.addressLimit) :
    ∃ h', h.tryAllocate cls format fields len = .ok (some (.ofWordIndex h.top), h') ∧
      h.Allocated cls format fields len h' := by
  have hwords : format.checkedSize fields len = .ok (format.sizeInWords fields len) :=
    checkedSize_eq (by omega)
  have hcount : h.top + format.sizeInWords fields len < countLimit := by
    simp only [Ref.addressLimit] at hreserved
    simp only [countLimit]
    omega
  cases htry : h.tryAllocate cls format fields len with
  | error e =>
    rcases tryAllocate_error hcls hallowed htry with rfl | ⟨-, hmany⟩
    · exact absurd htry (tryAllocate_ne_overflow hwords hcount)
    · omega
  | ok answer =>
    obtain ⟨found, h'⟩ := answer
    rcases tryAllocate_cases htry with ⟨rfl, rfl⟩ | ⟨rfl, ha⟩
    · have hnone := (tryAllocate_eq_none_iff hcls hallowed hwords hcount).mp ⟨_, htry⟩
      omega
    · exact ⟨h', rfl, ha⟩

theorem hasRoomFor_iff (hreserved : h.reservedWords < Ref.addressLimit) :
    h.hasRoomFor words = true ↔ h.top + words ≤ h.reservedWords := by
  simp only [Ref.addressLimit] at hreserved
  simp only [hasRoomFor, countLimit, Bool.and_eq_true, decide_eq_true_eq]
  exact and_iff_right_of_imp fun hroom => decide_eq_true (by omega)

end Heap

/-- A specification leaves no more fields than a header can count. -/
theorem InstanceSpec.fields_le {r : Ref} {spec : InstanceSpec} (hspec : ofRef? r = some spec) :
    spec.fields ≤ Header.maxFields := by
  unfold ofRef? at hspec
  split at hspec
  · dsimp only at hspec
    split at hspec
    · cases hspec
      dsimp only
      rw [UInt64.toNat_and]
      exact Nat.and_le_right
    · cases hspec
  · cases hspec

namespace Machine

variable {m n : Machine} {starts : List Nat} {cls r : Ref} {format : Format} {fields len : Nat}

/-! ## Allocation -/

/-- An object was placed after some collections, which took its class along. -/
def Placing (m : Machine) (cls : Ref) (format : Format) (fields len : Nat) (r : Ref)
    (m' : Machine) : Prop :=
  ∃ n cls' h, m.Relocates cls n cls' ∧ m' = { n with heap := h } ∧
    h.Blank r cls' format fields len

/-- What has room is allocated: with or without a collection beforehand, the first attempt succeeds. -/
theorem InOrder.allocate (hm : m.InOrder starts) (hcls : Designates starts cls)
    (hallowed : fields = 0 ∨ format.allowsFields = true) (hfields : fields ≤ Header.maxFields)
    (hlen : format.isIndexable = false → len = 0)
    (hroom : m.heap.top + format.sizeInWords fields len ≤ m.heap.reservedWords) :
    m.Fulfils (m.Placing cls format fields len) (m.allocate cls format fields len) := by
  have hreserved := hm.reserved
  have hwords : format.checkedSize fields len = .ok (format.sizeInWords fields len) :=
    Heap.checkedSize_eq (by omega)
  obtain ⟨crossed, hcrossed⟩ : ∃ crossed,
      m.heap.shouldCollect (format.sizeInWords fields len) = .ok crossed := by
    cases hshould : m.heap.shouldCollect (format.sizeInWords fields len) with
    | ok crossed => exact ⟨crossed, rfl⟩
    | error e =>
      have hmany := (Heap.shouldCollect_error hshould).2
      have hcounted := hm.counted
      simp only [Heap.usedBytes, Ref.addressLimit, countLimit, wordBytes] at hcounted hreserved hmany
      omega
  -- Either way there is a machine with as much room to attempt it in.
  have hattempt : ∀ (n : Machine) (s : Ref) (starts' : List Nat) (next : Option Ref → Action Ref),
      n.InOrder starts' → Designates starts' s → m.Recedes n → m.Relocates cls n s →
      (∀ o, next (some o) = pure o) → m.Fulfils (m.Placing cls format fields len)
        ((Action.onHeap (·.tryAllocate s format fields len) >>= next) n) := by
    intro n s starts' next hn hs hrecedes hrelocates hfound
    have htop := hrecedes.top
    have hsame := hrecedes.reservedWords
    have hpointer : s.isPointer = true := by
      obtain ⟨i, hi, rfl⟩ := hs
      exact hn.laidOut.isPointer hi
    have hfits : n.heap.top + format.sizeInWords fields len ≤ n.heap.reservedWords := by omega
    obtain ⟨h, htry, ha⟩ := Heap.tryAllocate_of_room
      (Ref.not_isImmediate_of_isPointer hpointer) hallowed hfields hfits hn.reserved
    refine .step (Action.onHeap_eq_ok.mpr ⟨h, htry, rfl⟩) ?_
    rw [hfound]
    exact .ok ⟨n, s, h, hrelocates, rfl, ha.blank (ha.addressable hn.laidOut hn.reserved.le) hlen⟩
  unfold Machine.allocate
  rw [hwords]
  refine .step rfl (.step (Action.read_of_ok hcrossed) ?_)
  cases crossed with
  | false =>
    exact .step rfl (hattempt m cls starts _ hm hcls (.refl m) (.refl m cls) fun _ => rfl)
  | true =>
    refine (hm.collectKeeping hcls).bind fun s n hs => ?_
    obtain ⟨hstep, hrecedes, starts', hn, hs⟩ := hs
    exact hattempt n s starts' _ hn hs hrecedes (.step (.refl m cls) hstep) fun _ => rfl

/-! ## Instances -/

/-- An object that is taken for a class, since it has as many fields as one, with the specification of
its instances. -/
structure Specifies (h : Heap) (cls : Ref) (spec : InstanceSpec) : Prop where
  pointer : cls.isPointer = true
  fieldCount : ∃ count, h.fixedFields cls = .ok count ∧ Class.fieldCount ≤ count
  spec : Class.instanceSpec? h cls = .ok (some spec)

theorem Specifies.unique {h : Heap} {spec spec' : InstanceSpec} (hs : Specifies h cls spec)
    (hs' : Specifies h cls spec') : spec = spec' := by
  have hsame := hs.spec.symm.trans hs'.spec
  cases hsame
  rfl

/-- The reasons to refuse an instance: whoever is asked is no class, its instances have no elements,
or the instance would end past the reservation even right after a collection. -/
inductive Refuses (m : Machine) (cls : Ref) (len : Nat) : Prop
  | noClass : (∀ spec, ¬ Specifies m.heap cls spec) → Refuses m cls len
  | noElements {spec : InstanceSpec} : Specifies m.heap cls spec →
      spec.format.isIndexable = false → len ≠ 0 → Refuses m cls len
  | noRoom {spec : InstanceSpec} {n : Machine} {s : Ref} : Specifies m.heap cls spec →
      m.collectKeeping cls = .ok s n →
      n.heap.reservedWords < n.heap.top + spec.format.sizeInWords spec.fields len →
      Refuses m cls len

/-- An instance, a blank object, was made of the class, wherever collections took that. -/
def Makes (m : Machine) (cls : Ref) (len : Nat) (r : Ref) (m' : Machine) : Prop :=
  ∃ spec, Specifies m.heap cls spec ∧ m.Placing cls spec.format spec.fields len r m'

/-- There is an answer: nothing if the instance is refused, and otherwise the instance. -/
def Answered (m : Machine) (cls : Ref) (len : Nat) (answer : Option Ref) (m' : Machine) : Prop :=
  (answer = none ↔ m.Refuses cls len) ∧ ∀ r, answer = some r → m.Makes cls len r m'

theorem Refuses.answered {m' : Machine} (hr : m.Refuses cls len) : m.Answered cls len none m' :=
  ⟨iff_of_true rfl hr, fun _ hnone => absurd hnone.symm (Option.some_ne_none _)⟩

namespace InOrder

/-- Who is a class and what its instances look like can be read. -/
theorem specifies_or (hm : m.InOrder starts) (len : Nat) (hcls : Known starts cls) :
    (∃ spec, Specifies m.heap cls spec) ∨
      (∀ spec, ¬ Specifies m.heap cls spec) ∧ m.instantiate cls len = .ok none m := by
  unfold Machine.instantiate
  by_cases hp : cls.isPointer = true
  · obtain ⟨i, hi, rfl⟩ := hcls hp
    have hcount := hm.laidOut.fixedFields hi
    rw [if_neg (by simp [hp]), Action.bind_of_ok (Action.read_of_ok hcount)]
    by_cases hfew : (m.heap.view i).fields < Class.fieldCount
    · rw [if_pos hfew]
      refine .inr ⟨fun spec hs => ?_, rfl⟩
      obtain ⟨count, hread, hmany⟩ := hs.fieldCount
      rw [hcount] at hread
      cases hread
      omega
    · have hallows : (m.heap.view i).format.allowsFields = true :=
        (hm.allowed i hi).resolve_left fun hzero => by
          simp only [hzero, Class.fieldCount] at hfew
          omega
      have hread := Class.instanceSpec?_eq hm.laidOut hi hallows (Nat.le_of_not_lt hfew)
      cases hspec : InstanceSpec.ofRef? ((m.heap.view i).ref (headerWords + Class.specField)) with
      | some spec =>
        rw [hspec] at hread
        exact .inl ⟨spec, hp, ⟨_, hcount, Nat.le_of_not_lt hfew⟩, hread⟩
      | none =>
        rw [hspec] at hread
        rw [if_neg hfew, Action.bind_of_ok (Action.read_of_ok hread)]
        refine .inr ⟨fun spec hs => ?_, rfl⟩
        have hsame := hread.symm.trans hs.spec
        cases hsame
  · rw [if_pos (by simp [hp])]
    exact .inr ⟨fun spec hs => hp hs.pointer, rfl⟩

/-- An object that is taken for a class specifies no more fields than a header can count. -/
theorem fields_le {spec : InstanceSpec} (hs : Specifies m.heap cls spec) :
    spec.fields ≤ Header.maxFields := by
  obtain ⟨value, -, hspec⟩ := ObjectMachine.bind_eq_ok.mp hs.spec
  exact InstanceSpec.fields_le (Except.ok.inj hspec)

/-- A machine that has room later on has an instance, unless the work list is too short. -/
theorem instance_of_room {spec : InstanceSpec} {s : Ref} {starts' : List Nat}
    (hn : n.InOrder starts') (hs : Designates starts' s) (hrecedes : m.Recedes n)
    (hrelocates : m.Relocates cls n s) (hspec : Specifies m.heap cls spec)
    (hallowed : spec.fields = 0 ∨ spec.format.allowsFields = true)
    (hlen : spec.format.isIndexable = false → len = 0)
    (hroom : n.heap.top + spec.format.sizeInWords spec.fields len ≤ n.heap.reservedWords)
    (hnot : ¬ m.Refuses cls len) :
    m.Fulfils (m.Answered cls len)
      ((Machine.allocate s spec.format spec.fields len >>= fun r => pure (some r)) n) := by
  refine ((hn.allocate hs hallowed (fields_le hspec) hlen hroom).of_recedes hrecedes).bind
    fun r m' hr => .ok ?_
  obtain ⟨n', s', h, hrelocates', heq, hblank⟩ := hr
  refine ⟨iff_of_false (Option.some_ne_none r) hnot, ?_⟩
  intro r' hsame
  cases hsame
  exact ⟨spec, hspec, n', s', h, hrelocates.trans hrelocates', heq, hblank⟩

/-- An instance of any length is refused for one of three reasons, and otherwise is a blank object of
the class, wherever collections took that. The only stop is that of a work list that is too short. -/
theorem instantiate_answers (hm : m.InOrder starts) (hcls : Known starts cls)
    (hlen : len < Ref.addressLimit)
    (hspec : ∀ spec, Specifies m.heap cls spec →
      spec.fields = 0 ∨ spec.format.allowsFields = true) :
    m.Fulfils (m.Answered cls len) (m.instantiate cls len) := by
  rcases hm.specifies_or len hcls with ⟨spec, hs⟩ | ⟨hnone, hok⟩
  · have hat := hcls hs.pointer
    have hallowed := hspec spec hs
    obtain ⟨count, hcount, hmany⟩ := hs.fieldCount
    have hwords := Heap.checkedSize_of_len spec.format hlen (fields_le hs)
    unfold Machine.instantiate
    rw [if_neg (by simp [hs.pointer])]
    refine .step (Action.read_of_ok hcount) ?_
    rw [if_neg (by omega)]
    refine .step (Action.read_of_ok hs.spec) ?_
    dsimp only
    by_cases hno : spec.format.isIndexable = false ∧ len ≠ 0
    · rw [if_pos (by simp [hno.1, hno.2])]
      exact .ok (Refuses.noElements hs hno.1 hno.2).answered
    have helements : spec.format.isIndexable = false → len = 0 := fun hidx =>
      by_contra fun hzero => hno ⟨hidx, hzero⟩
    rw [if_neg (by simpa using helements), hwords]
    refine .step rfl (.step (Action.read_of_ok rfl) ?_)
    -- Only a lack of room is left as a reason, and a collection would show it.
    have hroomy : (∀ s n, m.collectKeeping cls = .ok s n →
        n.heap.top + spec.format.sizeInWords spec.fields len ≤ n.heap.reservedWords) →
        ¬ m.Refuses cls len := by
      intro hafter hrefuses
      cases hrefuses with
      | noClass hnone => exact hnone spec hs
      | noElements hs' hidx hzero =>
        rw [← hs.unique hs'] at hidx
        exact hzero (helements hidx)
      | noRoom hs' hok hpast =>
        have hroom := hafter _ _ hok
        rw [← hs.unique hs'] at hpast
        omega
    have hcollected := hm.collectKeeping hat
    by_cases hroom : m.heap.hasRoomFor (spec.format.sizeInWords spec.fields len) = true
    · rw [if_pos hroom]
      have hnow := (Heap.hasRoomFor_iff hm.reserved).mp hroom
      refine instance_of_room hm hat (.refl m) (.refl m cls) hs hallowed helements hnow
        (hroomy fun s n hok => ?_)
      rw [hok] at hcollected
      cases hcollected with
      | ok hanswer =>
        have htop := hanswer.2.1.top
        have hsame := hanswer.2.1.reservedWords
        omega
    · rw [if_neg hroom]
      refine hcollected.bind fun s n hanswer => ?_
      obtain ⟨hstep, hrecedes, starts', hn, hat'⟩ := hanswer
      refine .step (Action.read_of_ok rfl) ?_
      by_cases hroom' : n.heap.hasRoomFor (spec.format.sizeInWords spec.fields len) = true
      · rw [if_pos hroom']
        have hthen := (Heap.hasRoomFor_iff hn.reserved).mp hroom'
        refine instance_of_room hn hat' hrecedes (.step (.refl m cls) hstep) hs hallowed helements
          hthen (hroomy fun s' n' hok => ?_)
        rw [hstep.1] at hok
        cases hok
        exact hthen
      · rw [if_neg hroom']
        have hpast : ¬ n.heap.top + spec.format.sizeInWords spec.fields len ≤
            n.heap.reservedWords := fun hle => hroom' ((Heap.hasRoomFor_iff hn.reserved).mpr hle)
        exact .ok (Refuses.noRoom hs hstep.1 (by omega)).answered
  · rw [hok]
    exact .ok (Refuses.noClass hnone).answered

end InOrder

/-- A class of arrays, which is pinned, and memory for a few dozen words. -/
def arrayClass : Machine :=
  let heap : Heap :=
    { memory := #[0,
        (Header.pack .plain 5 3).bits, Ref.null.bits, Ref.null.bits, Ref.null.bits,
        (InstanceSpec.toRef ⟨.array, 0⟩).bits, Ref.null.bits, Ref.null.bits, 0, 0, 0, 0, 0, 0]
      top := 8
      reservedWords := 64
      sinceCollection := 0
      config := {}
      hashState := 1
      nil := .null
      largeIntegers := .empty
      stats := {} }
  { ofHeap heap ⟨#[], 0, 0⟩ with pinned := #[.ofWordIndex 1] }

theorem arrayClass_inOrder : arrayClass.InOrder [1] := by
  have hlaid : arrayClass.heap.LaidOut [1] :=
    { committed := by decide
      addressable := by decide
      tiles := .cons (.nil 8)
      readable := by
        intro i hi
        cases List.mem_singleton.mp hi
        exact ⟨by decide, by decide, by decide⟩ }
  have hroots : ∀ r ∈ arrayClass.roots, r.isPointer = true → r = .ofWordIndex 1 := by
    rw [roots_eq]
    decide
  have hresting : arrayClass.Resting [1] :=
    { idle := by decide
      wellFormed :=
        hlaid.wellFormed_of_checked (b := 7) (by decide) (by decide) (by decide) (by decide)
      rootsIn := ⟨fun r hr hp => ⟨1, by decide, hroots r hr hp⟩, fun hp => by cases hp⟩
      allowed := by decide }
  exact ⟨.inr hresting, by decide, by decide⟩

theorem arrayClass_specifies {spec : InstanceSpec}
    (hs : Specifies arrayClass.heap (.ofWordIndex 1) spec) : spec = ⟨.array, 0⟩ := by
  have hread : Class.instanceSpec? arrayClass.heap (.ofWordIndex 1) = .ok (some ⟨.array, 0⟩) := by
    cbv
  have hsame := hread.symm.trans hs.spec
  cases hsame
  rfl

set_option maxRecDepth 2000 in
/-- There is an array of three elements. An array of as many elements as words are reserved ends past
the reservation. -/
theorem arrayClass_answers :
    (∃ r m', arrayClass.instantiate (.ofWordIndex 1) 3 = .ok (some r) m' ∧
      arrayClass.Makes (.ofWordIndex 1) 3 r m') ∧
    arrayClass.Refuses (.ofWordIndex 1) 64 := by
  have hspec : ∀ spec, Specifies arrayClass.heap (.ofWordIndex 1) spec →
      spec.fields = 0 ∨ spec.format.allowsFields = true := by
    intro spec hs
    rw [arrayClass_specifies hs]
    exact .inl rfl
  have hcls : Known [1] (.ofWordIndex 1) := fun _ => ⟨1, by decide, rfl⟩
  constructor
  · have hanswer : (arrayClass.instantiate (.ofWordIndex 1) 3).answer?.map (·.1.isSome) =
        some true := by cbv
    obtain ⟨⟨answer, m'⟩, hmake, hsome⟩ := Option.map_eq_some_iff.mp hanswer
    obtain ⟨r, rfl⟩ := Option.isSome_iff_exists.mp hsome
    have hok := Outcome.eq_ok_of_answer? hmake
    have hfulfils : arrayClass.Fulfils (arrayClass.Answered (.ofWordIndex 1) 3)
        (arrayClass.instantiate (.ofWordIndex 1) 3) :=
      arrayClass_inOrder.instantiate_answers hcls (by decide) hspec
    rw [hok] at hfulfils
    cases hfulfils with
    | ok hanswered => exact ⟨r, m', hok, hanswered.2 r rfl⟩
  · have hanswer : (arrayClass.instantiate (.ofWordIndex 1) 64).answer?.map (·.1.isNone) =
        some true := by cbv
    obtain ⟨⟨answer, m'⟩, hmake, hnone⟩ := Option.map_eq_some_iff.mp hanswer
    have hok := Outcome.eq_ok_of_answer? hmake
    have hfulfils : arrayClass.Fulfils (arrayClass.Answered (.ofWordIndex 1) 64)
        (arrayClass.instantiate (.ofWordIndex 1) 64) :=
      arrayClass_inOrder.instantiate_answers hcls (by decide) hspec
    rw [hok] at hfulfils
    cases hfulfils with
    | ok hanswered => exact hanswered.1.mp (Option.isNone_iff_eq_none.mp hnone)

end Machine

end ObjectMachine
