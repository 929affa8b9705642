import ObjectMachine.Heap.Allocate
import ObjectMachine.Proofs.Heap.WellFormed

/-!
# Allocation extends memory by one object

A fresh object takes the words from the first free one on, after those that were in use. Committing
more words does not show: they are zero, which is what is read outside memory anyway.

## Main results

* `getD_initObject`: the words of a fresh object, and that no others change.
* `tryAllocate_cases`: an allocation either has no room or is one that `Allocated` describes.
* `Allocated.wellFormed`: memory is well formed after it, with one more object.
-/

namespace ObjectMachine

/-! ## What success and failure say -/

theorem bind_eq_ok {α β : Type} {x : Except Fatal α} {f : α → Except Fatal β} {b : β} :
    (x >>= f) = .ok b ↔ ∃ a, x = .ok a ∧ f a = .ok b := by
  cases x with
  | error e => exact ⟨fun h => (nomatch h), fun ⟨_, h, _⟩ => (nomatch h)⟩
  | ok a => exact ⟨fun h => ⟨a, rfl, h⟩, fun ⟨_, h, hf⟩ => by cases h; exact hf⟩

theorem bind_eq_error {α β : Type} {x : Except Fatal α} {f : α → Except Fatal β} {e : Fatal} :
    (x >>= f) = .error e ↔ x = .error e ∨ ∃ a, x = .ok a ∧ f a = .error e := by
  cases x with
  | error e' =>
    constructor
    · intro h
      cases h
      exact .inl rfl
    · rintro (h | ⟨_, h, _⟩)
      · cases h
        rfl
      · cases h
  | ok a =>
    constructor
    · intro h
      exact .inr ⟨a, rfl, h⟩
    · rintro (h | ⟨_, h, hf⟩)
      · cases h
      · cases h
        exact hf

theorem require_ok {condition : Bool} {cause : Fault} {u : Unit}
    (h : require condition cause = .ok u) : condition = true := by
  unfold require at h
  split at h
  · assumption
  · cases h

theorem require_error {condition : Bool} {cause : Fault} {e : Fatal}
    (h : require condition cause = .error e) : condition = false := by
  unfold require at h
  split at h
  · cases h
  · exact Bool.eq_false_iff.mpr ‹_›

theorem checkedCount_ok {n m : Nat} (h : checkedCount n = .ok m) : m = n := by
  unfold checkedCount at h
  split at h
  · exact (Except.ok.inj h).symm
  · cases h

theorem checkedCount_error {n : Nat} {e : Fatal} (h : checkedCount n = .error e) :
    e = .fault .overflow := by
  unfold checkedCount at h
  split at h
  · cases h
  · exact (Except.error.inj h).symm

theorem checkedSize_ok {f : Format} {fields len n : Nat} (h : f.checkedSize fields len = .ok n) :
    n = f.sizeInWords fields len := by
  unfold Format.checkedSize at h
  split at h
  · exact checkedCount_ok h
  · cases h

theorem checkedSize_error {f : Format} {fields len : Nat} {e : Fatal}
    (h : f.checkedSize fields len = .error e) : e = .fault .overflow := by
  unfold Format.checkedSize at h
  split at h
  · exact checkedCount_error h
  · exact (Except.error.inj h).symm

theorem make_ok {f : Format} {fields : Nat} {hash : UInt32} {header : Header}
    (h : Header.make f fields hash = .ok header) :
    fields ≤ Header.maxFields ∧ header = .pack f fields hash := by
  unfold Header.make at h
  split at h
  · exact ⟨‹_›, (Except.ok.inj h).symm⟩
  · cases h

theorem make_error {f : Format} {fields : Nat} {hash : UInt32} {e : Fatal}
    (h : Header.make f fields hash = .error e) :
    e = .fault .operand ∧ Header.maxFields < fields := by
  unfold Header.make at h
  split at h
  · cases h
  · exact ⟨(Except.error.inj h).symm, by omega⟩

namespace Heap

/-! ## The words of a fresh object -/

/-- What a fresh object looks like. -/
def freshView (header : Header) (cls nil : Ref) (format : Format) (fields len : Nat) : View :=
  fun k =>
    if k = 0 then header.bits
    else if k = 1 then cls.bits
    else if k < headerWords + fields then nil.bits
    else match format with
      | .plain | .float => 0
      | .largeInteger => noSlot
      | _ =>
        if k = headerWords + fields then len.toUInt64
        else if format.hasReferenceTail then nil.bits else 0

section FreshView

variable (header : Header) (cls nil : Ref) {format : Format} (fields len : Nat)

theorem freshView_count (hidx : format.isIndexable = true) :
    freshView header cls nil format fields len (headerWords + fields) = len.toUInt64 := by
  unfold freshView
  rw [if_neg (by simp [headerWords]), if_neg (by simp only [headerWords]; omega),
    if_neg (Nat.lt_irrefl _)]
  cases format <;> simp_all [Format.isIndexable]

theorem freshView_field {k : Nat} (hlo : headerWords ≤ k) (hhi : k < headerWords + fields) :
    freshView header cls nil format fields len k = nil.bits := by
  simp only [headerWords] at hlo
  unfold freshView
  rw [if_neg (by omega), if_neg (by omega), if_pos hhi]

theorem freshView_element {k : Nat} (htail : format.hasReferenceTail = true)
    (hlo : headerWords + fields < k) : freshView header cls nil format fields len k = nil.bits := by
  have hlo' := hlo
  simp only [headerWords] at hlo'
  unfold freshView
  rw [if_neg (by omega), if_neg (by omega), if_neg (by omega)]
  cases format <;> simp_all [Format.hasReferenceTail]
  all_goals omega

end FreshView

theorem getD_setIfInBounds {memory : Array UInt64} {i : Nat} (hi : i < memory.size) (value : UInt64)
    (p : Nat) :
    (memory.setIfInBounds i value).getD p 0 = if p = i then value else memory.getD p 0 := by
  by_cases hp : p = i
  · subst hp
    simp [hi]
  · simp [hp, Ne.symm hp]

@[simp] theorem size_initObject (memory : Array UInt64) (index : Nat) (header : Header)
    (cls nil : Ref) (format : Format) (fields len words : Nat) :
    (initObject memory index header cls nil format fields len words).size = memory.size := by
  cases format <;> simp [initObject]

/-- A fresh object is written to its words and to no others. -/
theorem getD_initObject {memory : Array UInt64} {index : Nat} (header : Header) (cls nil : Ref)
    {format : Format} {fields len : Nat} (hallowed : fields = 0 ∨ format.allowsFields = true)
    (hfit : index + format.sizeInWords fields len ≤ memory.size) (p : Nat) :
    (initObject memory index header cls nil format fields len
        (format.sizeInWords fields len)).getD p 0 =
      if index ≤ p ∧ p < index + format.sizeInWords fields len then
        freshView header cls nil format fields len (p - index)
      else memory.getD p 0 := by
  have htwo := format.two_le_sizeInWords fields len
  have hsize : headerWords + fields ≤ format.sizeInWords fields len := by
    cases format <;> simp_all [Format.sizeInWords, Format.allowsFields] <;> omega
  simp only [headerWords] at hsize
  -- Header, class and fields are written in every format.
  obtain ⟨front, hdef⟩ : ∃ front, front = fillWords ((memory.setIfInBounds index
      header.bits).setIfInBounds (index + 1) cls.bits) (index + headerWords) nil.bits fields := ⟨_, rfl⟩
  have hsame : front.size = memory.size := by simp [hdef]
  have hfront : ∀ q, front.getD q 0 =
      if index ≤ q ∧ q < index + headerWords + fields then
        if q = index then header.bits else if q = index + 1 then cls.bits else nil.bits
      else memory.getD q 0 := by
    intro q
    rw [hdef, getD_fillWords _ (by simp [headerWords]; omega), getD_setIfInBounds (by simp; omega),
      getD_setIfInBounds (by omega)]
    simp only [headerWords]
    grind
  cases format with
  | plain =>
    have hinit : initObject memory index header cls nil .plain fields len
        (Format.plain.sizeInWords fields len) = front := hdef.symm
    rw [hinit, hfront]
    simp only [freshView, Format.sizeInWords, headerWords]
    grind
  | float =>
    have hinit : initObject memory index header cls nil .float fields len
        (Format.float.sizeInWords fields len) = front.setIfInBounds (index + headerWords) 0 := by
      rw [hdef]
      rfl
    have hzero : fields = 0 := by simpa [Format.allowsFields] using hallowed
    simp only [Format.sizeInWords, headerWords] at hfit hinit ⊢
    rw [hinit, getD_setIfInBounds (by omega), hfront]
    simp only [freshView, headerWords]
    grind
  | largeInteger =>
    have hinit : initObject memory index header cls nil .largeInteger fields len
        (Format.largeInteger.sizeInWords fields len) =
          front.setIfInBounds (index + headerWords) noSlot := by
      rw [hdef]
      rfl
    have hzero : fields = 0 := by simpa [Format.allowsFields] using hallowed
    simp only [Format.sizeInWords, headerWords] at hfit hinit ⊢
    rw [hinit, getD_setIfInBounds (by omega), hfront]
    simp only [freshView, headerWords]
    grind
  | _ =>
    simp only [initObject, ← hdef]
    simp only [Format.sizeInWords, headerWords] at hfit ⊢
    rw [getD_fillWords _ (by simp; omega), getD_setIfInBounds (by omega), hfront]
    simp only [freshView, headerWords, Format.hasReferenceTail]
    grind

/-! ## Committing words -/

/-- As many words are committed as are asked for, unless the reservation forbids it, and no word
changes. -/
theorem ensureCommitted_cases {h h' : Heap} {last : Nat} {committed : Bool}
    (hc : h.ensureCommitted last = (committed, h')) :
    (committed = false ∧ h' = h) ∨
      (committed = true ∧ { h' with memory := h.memory } = h ∧ last ≤ h'.memory.size ∧
        h.memory.size ≤ h'.memory.size ∧ h'.memory.size ≤ max h.memory.size h.reservedWords ∧
        ∀ p, h'.cell p = h.cell p) := by
  unfold ensureCommitted at hc
  split at hc
  · cases hc
    exact .inr ⟨rfl, rfl, ‹_›, Nat.le_refl _, Nat.le_max_left .., fun _ => rfl⟩
  · split at hc
    · cases hc
      exact .inl ⟨rfl, rfl⟩
    · have hlast : last ≤ h.commitTarget last := by
        unfold commitTarget pageWords
        omega
      have htarget : h.commitTarget last ≤ h.reservedWords := Nat.min_le_right ..
      cases hc
      refine .inr ⟨rfl, rfl, ?_, ?_, ?_, fun p => ?_⟩
      · simp only [Array.size_append, Array.size_replicate]
        omega
      · simp only [Array.size_append, Array.size_replicate]
        omega
      · simp only [Array.size_append, Array.size_replicate]
        omega
      · unfold cell
        simp only [Array.getD_eq_getD_getElem?, Array.getElem?_append, Array.getElem?_replicate]
        by_cases hp : p < h.memory.size
        · simp [hp]
        · simp only [hp, if_false, Array.getElem?_eq_none (Nat.le_of_not_lt hp)]
          split <;> rfl

/-! ## Allocating -/

/-- Memory with one more object behind those in use. -/
structure Allocated (h : Heap) (cls : Ref) (format : Format) (fields len : Nat) (h' : Heap) :
    Prop where
  countable : fields ≤ Header.maxFields
  allowed : fields = 0 ∨ format.allowsFields = true
  nil : h'.nil = h.nil
  config : h'.config = h.config
  reservedWords : h'.reservedWords = h.reservedWords
  largeIntegers : h'.largeIntegers = h.largeIntegers
  top : h'.top = h.top + format.sizeInWords fields len
  committed : h'.top ≤ h'.memory.size
  grown : h.memory.size ≤ h'.memory.size
  bounded : h'.memory.size ≤ max h.memory.size h.reservedWords
  below : ∀ p, p < h.top → h'.cell p = h.cell p
  fresh : ∃ hash, ∀ k, k < format.sizeInWords fields len →
    h'.view h.top k = freshView (.pack format fields hash) cls h.nil format fields len k
  stats : h'.stats = { h.stats with
    allocations := h.stats.allocations + 1
    allocatedBytes := h.stats.allocatedBytes + format.sizeInWords fields len * wordBytes }

/-- An allocation has no room, or puts the object behind those in use. -/
theorem tryAllocate_cases {h h' : Heap} {cls : Ref} {format : Format} {fields len : Nat}
    {r : Option Ref} (hok : h.tryAllocate cls format fields len = .ok (r, h')) :
    (r = none ∧ h' = h) ∨
      (r = some (.ofWordIndex h.top) ∧ h.Allocated cls format fields len h') := by
  unfold tryAllocate at hok
  obtain ⟨-, -, hok⟩ := bind_eq_ok.mp hok
  obtain ⟨_, hallowed, hok⟩ := bind_eq_ok.mp hok
  obtain ⟨words, hwords, hok⟩ := bind_eq_ok.mp hok
  obtain ⟨last, hlast, hok⟩ := bind_eq_ok.mp hok
  have hsize := checkedSize_ok hwords
  have htop := checkedCount_ok hlast
  subst hsize htop
  have hallowed' : fields = 0 ∨ format.allowsFields = true := by simpa using require_ok hallowed
  generalize hcommit : h.ensureCommitted (h.top + format.sizeInWords fields len) = grown at hok
  obtain ⟨committed, g⟩ := grown
  rcases ensureCommitted_cases hcommit with ⟨rfl, rfl⟩ | ⟨rfl, hrest, hroom, hgrown, hbound, hcell⟩
  · cases hok
    exact .inl ⟨rfl, rfl⟩
  · simp only [Bool.not_true, Bool.false_eq_true, if_false] at hok
    obtain ⟨header, hheader, hok⟩ := bind_eq_ok.mp hok
    obtain ⟨hcountable, rfl⟩ := make_ok hheader
    cases hok
    have hgtop : g.top = h.top := (congrArg Heap.top hrest :)
    have hgnil : g.nil = h.nil := (congrArg Heap.nil hrest :)
    have hgstats : g.stats = h.stats := (congrArg Heap.stats hrest :)
    have hfit : g.top + format.sizeInWords fields len ≤ g.memory.size := by
      rw [hgtop]
      exact hroom
    have hinit := getD_initObject (.pack format fields (hashOfState (nextHashState g.hashState))) cls
      g.nil hallowed' hfit
    refine .inr ⟨by rw [hgtop], ?_⟩
    refine
      { countable := hcountable
        allowed := hallowed'
        nil := hgnil
        config := (congrArg Heap.config hrest :)
        reservedWords := (congrArg Heap.reservedWords hrest :)
        largeIntegers := (congrArg Heap.largeIntegers hrest :)
        top := rfl
        committed := by rw [size_initObject]; exact hroom
        grown := by rw [size_initObject]; exact hgrown
        bounded := by rw [size_initObject]; exact hbound
        below := fun p hp => ?_
        fresh := ⟨hashOfState (nextHashState g.hashState), fun k hk => ?_⟩
        stats := ?_ }
    · rw [← hcell p]
      exact (hinit p).trans (if_neg (by omega))
    · refine (hinit (h.top + k)).trans ?_
      rw [if_pos (by omega), hgtop, hgnil, Nat.add_sub_cancel_left]
    · show HeapStats.mk .. = _
      rw [hgstats]

/-- An allocation of a class and of fields that may be fails only for their numbers. -/
theorem tryAllocate_error {h : Heap} {cls : Ref} {format : Format} {fields len : Nat} {e : Fatal}
    (hcls : cls.isImmediate = false) (hallowed : fields = 0 ∨ format.allowsFields = true)
    (herror : h.tryAllocate cls format fields len = .error e) :
    e = .fault .overflow ∨ e = .fault .operand ∧ Header.maxFields < fields := by
  unfold tryAllocate at herror
  rcases bind_eq_error.mp herror with hrefused | ⟨_, -, herror⟩
  · have hnot := require_error hrefused
    rw [hcls] at hnot
    cases hnot
  rcases bind_eq_error.mp herror with hrefused | ⟨_, -, herror⟩
  · have hnot := require_error hrefused
    simp only [Bool.or_eq_false_iff, beq_eq_false_iff_ne] at hnot
    rcases hallowed with hnone | hallows
    · exact absurd hnone hnot.1
    · rw [hallows] at hnot
      cases hnot.2
  rcases bind_eq_error.mp herror with hsize | ⟨words, -, herror⟩
  · exact .inl (checkedSize_error hsize)
  rcases bind_eq_error.mp herror with hlast | ⟨last, -, herror⟩
  · exact .inl (checkedCount_error hlast)
  generalize h.ensureCommitted last = grown at herror
  obtain ⟨committed, g⟩ := grown
  cases committed with
  | false => cases herror
  | true =>
    rcases bind_eq_error.mp herror with hheader | ⟨header, -, herror⟩
    · exact .inr (make_error hheader)
    · cases herror

/-! ## Memory after an allocation -/

namespace Allocated

variable {h h' : Heap} {starts : List Nat} {cls : Ref} {format : Format} {fields len : Nat} {i : Nat}

/-- An object that was there is still what it was. -/
theorem view_eq (ha : h.Allocated cls format fields len h') (hl : h.LaidOut starts)
    (hi : i ∈ starts) {k : Nat} (hk : k < (h.view i).size) : h'.view i k = h.view i k := by
  have := hl.fits hi
  exact ha.below _ (by omega)

theorem header_eq (ha : h.Allocated cls format fields len h') (hl : h.LaidOut starts)
    (hi : i ∈ starts) : (h'.view i).header = (h.view i).header :=
  congrArg Header.mk (ha.view_eq hl hi (h.sizeOf_pos i))

theorem agrees (ha : h.Allocated cls format fields len h') (hl : h.LaidOut starts)
    (hi : i ∈ starts) : View.Agrees (h.view i) (h'.view i) :=
  View.agrees_of_words (hl.readable i hi) (by rw [ha.header_eq hl hi]; exact .refl _) fun _ _ hk =>
    ha.view_eq hl hi hk

theorem fresh_header (ha : h.Allocated cls format fields len h') :
    ∃ hash, (h'.view h.top).header = .pack format fields hash := by
  obtain ⟨hash, hfresh⟩ := ha.fresh
  have htwo := format.two_le_sizeInWords fields len
  exact ⟨hash, congrArg Header.mk (hfresh 0 (by omega))⟩

theorem fresh_format (ha : h.Allocated cls format fields len h') :
    (h'.view h.top).format = format := by
  obtain ⟨hash, hheader⟩ := ha.fresh_header
  rw [View.format, hheader, Header.formatCode_pack hash ha.countable, Format.ofCode?_code]
  rfl

theorem fresh_fields (ha : h.Allocated cls format fields len h') :
    (h'.view h.top).fields = fields := by
  obtain ⟨hash, hheader⟩ := ha.fresh_header
  rw [View.fields, hheader, Header.fixedFields_pack hash ha.countable]

theorem header_fresh (ha : h.Allocated cls format fields len h')
    (haddr : h'.memory.size ≤ Ref.addressLimit) :
    h'.header (.ofWordIndex h.top) = .ok (h'.view h.top).header := by
  have htop := ha.top
  have hcommitted := ha.committed
  have htwo := format.two_le_sizeInWords fields len
  unfold Heap.header
  rw [Ref.wordIndex_ofWordIndex (by omega), word_eq (by omega)]
  rfl

/-- A fresh object is found to have the format that was asked for. -/
theorem format_fresh (ha : h.Allocated cls format fields len h')
    (haddr : h'.memory.size ≤ Ref.addressLimit) : h'.format (.ofWordIndex h.top) = .ok format := by
  obtain ⟨hash, hheader⟩ := ha.fresh_header
  unfold Heap.format
  rw [ha.header_fresh haddr, hheader]
  show Header.format _ = _
  unfold Header.format
  rw [Header.formatCode_pack hash ha.countable, Format.ofCode?_code]

/-- A fresh object is found to have as many fields as were asked for. -/
theorem fixedFields_fresh (ha : h.Allocated cls format fields len h')
    (haddr : h'.memory.size ≤ Ref.addressLimit) :
    h'.fixedFields (.ofWordIndex h.top) = .ok fields := by
  unfold Heap.fixedFields
  rw [ha.header_fresh haddr]
  exact congrArg Except.ok ha.fresh_fields

/-- The element count of a fresh object is the one that was asked for: it fits a word, since the
elements fit memory. -/
theorem fresh_len (ha : h.Allocated cls format fields len h')
    (haddr : h'.memory.size ≤ Ref.addressLimit) (hidx : format.isIndexable = true) :
    (h'.view h.top).len = len := by
  obtain ⟨hash, hfresh⟩ := ha.fresh
  have htop := ha.top
  have hcommitted := ha.committed
  simp only [Ref.addressLimit] at haddr
  have hword : h'.view h.top (headerWords + fields) = len.toUInt64 := by
    rw [hfresh _ (by cases format <;> simp_all [Format.isIndexable, Format.sizeInWords] <;> omega)]
    exact freshView_count _ _ _ _ _ hidx
  have hlen : len < 18446744073709551616 := by
    cases format <;> simp_all [Format.isIndexable, Format.sizeInWords, Format.tailWords, headerWords]
      <;> omega
  rw [View.len, ha.fresh_format, if_pos hidx, ha.fresh_fields, hword, Nat.toUInt64_eq,
    UInt64.toNat_ofNat', Nat.mod_eq_of_lt hlen]

theorem fresh_size (ha : h.Allocated cls format fields len h')
    (haddr : h'.memory.size ≤ Ref.addressLimit) :
    (h'.view h.top).size = format.sizeInWords fields len := by
  rw [View.size, ha.fresh_format, ha.fresh_fields]
  cases hidx : format.isIndexable with
  | true => rw [ha.fresh_len haddr hidx]
  | false => cases format <;> simp_all [Format.isIndexable, Format.sizeInWords]

/-- Every reference of a fresh object is its class or nil. -/
theorem fresh_ref (ha : h.Allocated cls format fields len h')
    (haddr : h'.memory.size ≤ Ref.addressLimit) {k : Nat} (hk : (h'.view h.top).IsTraced k) :
    (h'.view h.top).ref k = if k = 1 then cls else h.nil := by
  obtain ⟨hash, hfresh⟩ := ha.fresh
  have hb := hk.bounds
  rw [ha.fresh_size haddr] at hb
  have hword := hfresh k hb.2
  rcases hk with rfl | hslot
  · simp [View.ref, hword, freshView]
  · have hlo := hslot.bounds.1
    simp only [headerWords] at hlo
    rw [if_neg (by omega)]
    refine congrArg Ref.mk (hword.trans ?_)
    simp only [View.IsSlot, View.elements, ha.fresh_format, ha.fresh_fields] at hslot
    rcases hslot with ⟨-, hlo, hhi⟩ | ⟨htail, hlo, -⟩
    · exact freshView_field _ _ _ _ _ hlo hhi
    · exact freshView_element _ _ _ _ _ htail (by omega)

theorem fresh_readable (ha : h.Allocated cls format fields len h')
    (hctx : format = .context → 3 ≤ fields) : (h'.view h.top).Readable where
  valid := by
    obtain ⟨hash, hheader⟩ := ha.fresh_header
    rw [hheader]
    exact Header.isValid_pack hash ha.countable
  known := by
    obtain ⟨hash, hheader⟩ := ha.fresh_header
    rw [ha.fresh_format, hheader, Header.formatCode_pack hash ha.countable, Format.ofCode?_code]
  context := by
    rw [ha.fresh_format, ha.fresh_fields]
    exact hctx

/-- A fresh large integer has no value. -/
theorem fresh_largeSlot? (ha : h.Allocated cls format fields len h') :
    h'.largeSlot? h.top = none := by
  obtain ⟨hash, hfresh⟩ := ha.fresh
  unfold Heap.largeSlot?
  rw [ha.fresh_format, if_neg]
  rintro ⟨rfl, hslot⟩
  have hzero : fields = 0 := by simpa [Format.allowsFields] using ha.allowed
  refine hslot ((hfresh headerWords (by simp [Format.sizeInWords, headerWords])).trans ?_)
  simp [freshView, headerWords, hzero]

theorem largeSlot? (ha : h.Allocated cls format fields len h') (hl : h.LaidOut starts)
    (hi : i ∈ starts) : h'.largeSlot? i = h.largeSlot? i := by
  unfold Heap.largeSlot?
  rw [(ha.agrees hl hi).format_eq]
  by_cases hf : (h.view i).format = .largeInteger
  · have hsize : (h.view i).size = headerWords + 1 := by simp [View.size, hf, Format.sizeInWords]
    have hcell : h'.cell (i + headerWords) = h.cell (i + headerWords) :=
      ha.view_eq hl hi (by omega)
    rw [hcell]
  · simp [hf]

theorem addressable (ha : h.Allocated cls format fields len h') (hl : h.LaidOut starts)
    (hreserved : h.reservedWords ≤ Ref.addressLimit) : h'.memory.size ≤ Ref.addressLimit :=
  Nat.le_trans ha.bounded (Nat.max_le.mpr ⟨hl.addressable, hreserved⟩)

theorem laidOut (ha : h.Allocated cls format fields len h') (hl : h.LaidOut starts)
    (hreserved : h.reservedWords ≤ Ref.addressLimit) (hctx : format = .context → 3 ≤ fields) :
    h'.LaidOut (starts ++ [h.top]) where
  committed := ha.committed
  addressable := ha.addressable hl hreserved
  tiles := by
    have hold : Tiles h'.sizeOf firstWord starts h.top :=
      hl.tiles.congr fun i hi => (ha.agrees hl hi).size_eq
    have hlast : h.top + h'.sizeOf h.top = h'.top := by
      rw [ha.top]
      exact congrArg _ (ha.fresh_size (ha.addressable hl hreserved))
    refine hold.append (.cons ?_)
    rw [hlast]
    exact .nil _
  readable i hi := by
    rcases List.mem_append.mp hi with hold | hnew
    · exact (ha.agrees hl hold).readable (hl.readable i hold)
    · rw [List.mem_singleton.mp hnew]
      exact ha.fresh_readable hctx

theorem slotsOwned (ha : h.Allocated cls format fields len h') (hl : h.LaidOut starts)
    (ho : h.SlotsOwned starts) : h'.SlotsOwned (starts ++ [h.top]) := by
  have hold : ∀ i ∈ starts ++ [h.top], ∀ s, h'.largeSlot? i = some s →
      i ∈ starts ∧ h.largeSlot? i = some s := by
    intro i hi s hs
    rcases List.mem_append.mp hi with hold | hnew
    · exact ⟨hold, (ha.largeSlot? hl hold).symm.trans hs⟩
    · rw [List.mem_singleton.mp hnew, ha.fresh_largeSlot?] at hs
      cases hs
  refine ⟨fun i hi s hs => ?_, fun i hi j hj s hs hs' => ?_⟩
  · obtain ⟨hi, hs⟩ := hold i hi s hs
    rw [ha.largeIntegers]
    exact ho.held i hi s hs
  · obtain ⟨hi, hs⟩ := hold i hi s hs
    obtain ⟨hj, hs'⟩ := hold j hj s hs'
    exact ho.own i hi j hj s hs hs'

/-- Memory is well formed after an allocation, with one more object, which may be its own class. -/
theorem wellFormed (ha : h.Allocated cls format fields len h') (hw : h.WellFormed starts)
    (hreserved : h.reservedWords ≤ Ref.addressLimit) (hctx : format = .context → 3 ≤ fields)
    (hcls : cls.isPointer = true → Designates (starts ++ [h.top]) cls)
    (hnil : h.nil.isPointer = true → Designates starts h.nil) :
    h'.WellFormed (starts ++ [h.top]) where
  toLaidOut := ha.laidOut hw.toLaidOut hreserved hctx
  toSlotsOwned := ha.slotsOwned hw.toLaidOut hw.toSlotsOwned
  unmarked i hi := by
    rcases List.mem_append.mp hi with hold | hnew
    · rw [ha.header_eq hw.toLaidOut hold]
      exact hw.unmarked i hold
    · obtain ⟨hash, hheader⟩ := ha.fresh_header
      rw [List.mem_singleton.mp hnew, hheader]
      exact Header.isMarked_pack hash ha.countable
  traced i hi k hk hp := by
    rcases List.mem_append.mp hi with hold | hnew
    · have hk' := ((ha.agrees hw.toLaidOut hold).isTraced_iff k).mp hk
      have href : (h'.view i).ref k = (h.view i).ref k :=
        congrArg Ref.mk (ha.view_eq hw.toLaidOut hold hk'.bounds.2)
      rw [href] at hp ⊢
      exact (hw.traced i hold k hk' hp).mono fun j hj => List.mem_append.mpr (.inl hj)
    · rw [List.mem_singleton.mp hnew] at hk hp ⊢
      rw [ha.fresh_ref (ha.addressable hw.toLaidOut hreserved) hk] at hp ⊢
      split at hp
      · rw [if_pos ‹_›]
        exact hcls hp
      · rw [if_neg ‹_›]
        exact (hnil hp).mono fun j hj => List.mem_append.mpr (.inl hj)

/-- The class may be chosen afterwards. -/
theorem withClass (ha : h.Allocated cls format fields len h') (cls' : Ref) :
    h.Allocated cls' format fields len (h'.poke (h.top + 1) cls'.bits) := by
  have hin : h.top + 1 < h'.memory.size := by
    have htop := ha.top
    have hcommitted := ha.committed
    have htwo := format.two_le_sizeInWords fields len
    omega
  refine { ha with committed := ?_, grown := ?_, bounded := ?_, below := ?_, fresh := ?_ }
  · rw [size_poke]
    exact ha.committed
  · rw [size_poke]
    exact ha.grown
  · rw [size_poke]
    exact ha.bounded
  · intro p hp
    rw [cell_poke_ne (by omega)]
    exact ha.below p hp
  · obtain ⟨hash, hfresh⟩ := ha.fresh
    refine ⟨hash, ?_⟩
    intro k hk
    by_cases hone : k = 1
    · subst hone
      exact cell_poke_self hin _
    · refine (cell_poke_ne (by omega) _).trans ((hfresh k hk).trans ?_)
      simp only [freshView, hone, if_false]

end Allocated

/-! ## The beginning -/

theorem ofConfig_ok {c : HeapConfig} {h : Heap} (hok : ofConfig c = .ok h) :
    h.nil = .null ∧ h.top = firstWord ∧ h.stats = {} ∧ h.largeIntegers = .empty := by
  unfold ofConfig at hok
  split at hok
  · cases hok
  · cases hok
    exact ⟨rfl, rfl, rfl, rfl⟩

/-- A heap without objects is well formed. -/
theorem wellFormed_ofConfig {c : HeapConfig} {h : Heap} (hok : ofConfig c = .ok h)
    (hbytes : c.maxBytes < countLimit) : h.WellFormed [] ∧ h.reservedWords ≤ Ref.addressLimit := by
  unfold ofConfig at hok
  split at hok
  · cases hok
  · rename_i hproblem
    cases hok
    have hinitial : c.initialBytes ≤ c.maxBytes := by
      unfold HeapConfig.problem? at hproblem
      grind
    simp only [countLimit] at hbytes
    have hwords : initialWords c ≤ Ref.addressLimit := by
      simp only [initialWords, wordBytes, pageWords, Ref.addressLimit]
      omega
    have hpage : 1 ≤ initialWords c := by
      simp only [initialWords, pageWords]
      omega
    refine ⟨⟨⟨?_, ?_, .nil _, ?_⟩, ⟨?_, ?_⟩, ?_, ?_⟩, ?_⟩
    · simpa [firstWord] using hpage
    · simpa using hwords
    · simp
    · simp
    · simp
    · simp
    · simp
    · simp only [wordBytes, Ref.addressLimit]
      omega

end Heap

end ObjectMachine
