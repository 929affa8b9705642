import ObjectMachine.Proofs.Collection.Preservation
import ObjectMachine.Proofs.Machine.Instances

/-!
# Resuming an activation after a collection

While an activation runs, some of its registers hold positions in memory, which a collection does not
know of, and its stack pointer in memory is out of date, which decides what the collection keeps. So
the registers are written back before a collection, and the positions are computed again from the
context at its new place. What the activation finds then is what it left: the same references as far
as they are immediate, and otherwise the references of the same objects.

## Main results

* `Registers.load_ok_iff`: what the registers of a context are.
* `Machine.Activated.load_collected`: the registers that are loaded after a collection.
* `Machine.collectGarbage_resumes`: a collection does not show in anything that the activation in
  progress, or the machine, can get at.
-/

namespace ObjectMachine

/-! ## What the registers of a context are -/

/-- The registers that depend on nothing but memory and the active context. -/
structure Registers.Reads (r : Registers) (h : Heap) : Prop where
  home : Context.home h r.activeContext = .ok r.homeContext
  method : h.fetchField r.homeContext Context.methodField = .ok r.method
  receiver : h.fetchField r.homeContext Context.receiverField = .ok r.receiver
  literals : Method.literals h r.method = .ok r.literals
  code : ∃ code, Method.code h r.method = .ok code ∧ h.bytesOffset code = .ok r.codeBase ∧
    h.length code = .ok r.codeLength
  stackBase : h.elementsIndex r.activeContext = .ok r.stackBase
  stackLimit : h.length r.activeContext = .ok r.stackLimit
  tempBase : h.elementsIndex r.homeContext = .ok r.tempBase
  tempLimit : ∃ header len, Method.header h r.method = .ok header ∧
    h.length r.homeContext = .ok len ∧ r.tempLimit = min header.tempCount len

/-- The position and the stack pointer are not among them. -/
theorem Registers.Reads.of_position {r : Registers} {h : Heap} {pc sp : Nat}
    (hr : ({ r with pc, sp } : Registers).Reads h) : r.Reads h :=
  ⟨hr.home, hr.method, hr.receiver, hr.literals, hr.code, hr.stackBase, hr.stackLimit,
    hr.tempBase, hr.tempLimit⟩

/-- Loading a context keeps the send in progress and reads everything else from memory. -/
theorem Registers.load_ok_iff {r r' : Registers} {h : Heap} {context : Ref} :
    r.load h context = .ok r' ↔
      r'.activeContext = context ∧ r'.Reads h ∧
      (∃ pc, Context.pc? h context = .ok pc ∧ r'.pc = pc.getD 0) ∧
      (∃ sp, Context.sp? h context = .ok sp ∧ r'.sp = sp.getD 0) ∧
      r'.selector = r.selector ∧ r'.argCount = r.argCount ∧ r'.lookupClass = r.lookupClass ∧
      r'.newMethod = r.newMethod := by
  constructor
  · intro hok
    unfold load at hok
    obtain ⟨home, hhome, hok⟩ := ObjectMachine.bind_eq_ok.mp hok
    obtain ⟨method, hmethod, hok⟩ := ObjectMachine.bind_eq_ok.mp hok
    obtain ⟨receiver, hreceiver, hok⟩ := ObjectMachine.bind_eq_ok.mp hok
    obtain ⟨literals, hliterals, hok⟩ := ObjectMachine.bind_eq_ok.mp hok
    obtain ⟨code, hcode, hok⟩ := ObjectMachine.bind_eq_ok.mp hok
    obtain ⟨codeBase, hcodeBase, hok⟩ := ObjectMachine.bind_eq_ok.mp hok
    obtain ⟨codeLength, hcodeLength, hok⟩ := ObjectMachine.bind_eq_ok.mp hok
    obtain ⟨pc, hpc, hok⟩ := ObjectMachine.bind_eq_ok.mp hok
    obtain ⟨sp, hsp, hok⟩ := ObjectMachine.bind_eq_ok.mp hok
    obtain ⟨stackBase, hstackBase, hok⟩ := ObjectMachine.bind_eq_ok.mp hok
    obtain ⟨stackLimit, hstackLimit, hok⟩ := ObjectMachine.bind_eq_ok.mp hok
    obtain ⟨tempBase, htempBase, hok⟩ := ObjectMachine.bind_eq_ok.mp hok
    obtain ⟨header, hheader, hok⟩ := ObjectMachine.bind_eq_ok.mp hok
    obtain ⟨len, hlen, hok⟩ := ObjectMachine.bind_eq_ok.mp hok
    cases hok
    exact ⟨rfl, ⟨hhome, hmethod, hreceiver, hliterals, ⟨code, hcode, hcodeBase, hcodeLength⟩,
      hstackBase, hstackLimit, htempBase, ⟨header, len, hheader, hlen, rfl⟩⟩, ⟨pc, hpc, rfl⟩,
      ⟨sp, hsp, rfl⟩, rfl, rfl, rfl, rfl⟩
  · rintro ⟨rfl, hreads, ⟨pc, hpc, hpc'⟩, ⟨sp, hsp, hsp'⟩, hselector, hcount, hclass, hmethod⟩
    obtain ⟨code, hcode, hcodeBase, hcodeLength⟩ := hreads.code
    obtain ⟨header, len, hheader, hlen, hlimit⟩ := hreads.tempLimit
    unfold load
    simp only [hreads.home, hreads.method, hreads.receiver, hreads.literals, hcode, hcodeBase,
      hcodeLength, hpc, hsp, hreads.stackBase, hreads.stackLimit, hreads.tempBase, hheader, hlen,
      bind, Except.bind, pure, Except.pure]
    cases r'
    simp only at hpc' hsp' hselector hcount hclass hmethod hlimit
    simp only [hpc', hsp', hselector, hcount, hclass, hmethod, hlimit]

/-! ## Reading objects -/

namespace Heap

/-- A reference to one of the objects that begin at some positions, which has a format. -/
def IsOf (h : Heap) (starts : List Nat) (format : Format) (r : Ref) : Prop :=
  ∃ i ∈ starts, r = .ofWordIndex i ∧ (h.view i).format = format

variable {h : Heap} {starts : List Nat} {i index : Nat} {v : Ref}

theorem fetchField_ok (hl : h.LaidOut starts) (hi : i ∈ starts)
    (hallows : (h.view i).format.allowsFields = true)
    (hok : h.fetchField (.ofWordIndex i) index = .ok v) :
    index < (h.view i).fields ∧ v = (h.view i).ref (headerWords + index) := by
  have hlt : index < (h.view i).fields := by
    unfold fetchField fieldIndex at hok
    rw [hl.header hi] at hok
    by_contra hge
    have hge' : ¬ index < (h.view i).header.fixedFields := hge
    simp [hge'] at hok
  rw [fetchField_eq hl hi hlt
    (View.fields_lt_size hallows (Nat.add_lt_add_left hlt headerWords))] at hok
  exact ⟨hlt, (Except.ok.inj hok).symm⟩

theorem fetchElement_eq (hl : h.LaidOut starts) (hi : i ∈ starts)
    (htail : (h.view i).format.hasReferenceTail = true) (hlt : index < (h.view i).len) :
    h.fetchElement (.ofWordIndex i) index = .ok ((h.view i).ref ((h.view i).elements + index)) := by
  unfold fetchElement
  rw [elementIndex_eq hl hi hlt]
  exact hl.slot_offset hi (View.elements_lt_size htail (Nat.add_lt_add_left hlt _))

theorem fetchElement_ok (hl : h.LaidOut starts) (hi : i ∈ starts)
    (htail : (h.view i).format.hasReferenceTail = true)
    (hok : h.fetchElement (.ofWordIndex i) index = .ok v) :
    index < (h.view i).len ∧ v = (h.view i).ref ((h.view i).elements + index) := by
  have hlt : index < (h.view i).len := by
    unfold fetchElement elementIndex checkElement at hok
    rw [hl.length hi] at hok
    by_contra hge
    simp [hge, bind, Except.bind] at hok
  rw [fetchElement_eq hl hi htail hlt] at hok
  exact ⟨hlt, (Except.ok.inj hok).symm⟩

/-- A byte element is a byte of a word inside its object. -/
theorem byteAtOffset_eq (hl : h.LaidOut starts) (hi : i ∈ starts)
    (hf : (h.view i).format = .byteArray) (hlt : index < (h.view i).len) :
    (h.view i).elements + index / 8 < (h.view i).size ∧
      h.byteAtOffset ((i + (h.view i).elements) * 8 + index) =
        .ok (byteOfWord (h.view i ((h.view i).elements + index / 8)) (index % 8)) := by
  have hin : (h.view i).elements + index / 8 < (h.view i).size := by
    simp only [View.size, View.elements, hf, Format.sizeInWords, Format.tailWords]
    omega
  have hword := hl.word_offset hi hin
  refine ⟨hin, ?_⟩
  unfold byteAtOffset
  rw [show ((i + (h.view i).elements) * 8 + index) / 8 = i + ((h.view i).elements + index / 8) by
      omega, hword, show ((i + (h.view i).elements) * 8 + index) % 8 = index % 8 by omega]

end Heap

/-! ## Objects of a running machine -/

/-- The integer of a count is that count. -/
theorem Ref.toInt_ofNat {n : Nat} (hn : n < addressLimit) : (ofNat n).toInt = n := by
  have hcount := toCount_ofNat hn
  have hn' : n < 2305843009213693952 := hn
  unfold toCount at hcount
  unfold toInt
  generalize (ofNat n).bits.toInt64 >>> 2 = x at hcount
  have hnat : x.toBitVec.toNat = n := hcount
  show x.toBitVec.toInt = n
  rw [BitVec.toInt_eq_toNat_of_lt (by omega), hnat]

namespace Machine

/-- Memory with the registers written back to the active context. -/
def settled (m : Machine) : Heap := m.flushedHeap m.registers.activeContext.wordIndex

/-- A collection of the memory of a running machine, whose active context begins at `a`. -/
structure Collecting (m : Machine) (a : Nat) (starts : List Nat) (live : Nat → Bool)
    (c : Collected) : Prop where
  laidOut : m.heap.LaidOut starts
  mem : a ∈ starts
  context : (m.heap.view a).format = .context
  wellFormed : (m.flushedHeap a).WellFormed starts
  rootsIn : (m.flushedHeap a).RootsIn starts m.roots
  keeps : (m.flushedHeap a).KeepsReachable starts live m.roots
  collects : (m.flushedHeap a).Collects starts live m.roots c

/-- The position that is written back. -/
theorem position_flushedHeap {m : Machine} {starts : List Nat} {i : Nat}
    (hl : m.heap.LaidOut starts) (hi : i ∈ starts)
    (hcontext : (m.heap.view i).format = .context) :
    ((m.flushedHeap i).view i).ref (headerWords + Context.pcField) = .ofNat m.registers.pc := by
  have hin := (contextField_bounds hl hi hcontext pcField_lt).2
  have hfit := hl.fits_memory hi
  have hne : headerWords + Context.pcField ≠ headerWords + Context.spField := by decide
  have hin' := (contextField_bounds hl hi hcontext spField_lt).2
  unfold View.ref flushedHeap
  rw [Heap.view_poke (by rw [Heap.size_poke]; omega), if_neg hne,
    Heap.view_poke (by omega), if_pos rfl]

namespace Collecting

variable {m : Machine} {a i k index : Nat} {starts : List Nat} {live : Nat → Bool} {c : Collected}
  {r v : Ref} {format : Format}

theorem sameLayout (hm : m.Collecting a starts live c) (hi : i ∈ starts) :
    View.SameLayout (m.heap.view i) ((m.flushedHeap a).view i) :=
  (touches_flushedHeap hm.laidOut hm.mem hm.context).sameLayout hm.laidOut hm.mem hi

/-- Writing the registers back changes two words of the active context. -/
theorem view_flushed (hm : m.Collecting a starts live c) (hi : i ∈ starts)
    (hk : k < (m.heap.view i).size)
    (hne : i = a → k ≠ headerWords + Context.pcField ∧ k ≠ headerWords + Context.spField) :
    (m.flushedHeap a).view i k = m.heap.view i k := by
  by_cases heq : i = a
  · subst heq
    obtain ⟨hpc, hsp⟩ := hne rfl
    unfold flushedHeap Heap.view
    rw [Heap.cell_poke_ne (by omega), Heap.cell_poke_ne (by omega)]
  · exact (touches_flushedHeap hm.laidOut hm.mem hm.context).view_eq hm.laidOut hm.mem hi heq hk

theorem layout (hm : m.Collecting a starts live c) (hi : i ∈ starts) (hlive : live i = true) :
    View.SameLayout (m.heap.view i)
      (c.heap.view (slide (m.flushedHeap a).sizeOf live starts i)) :=
  (hm.sameLayout hi).trans (hm.collects.agrees hm.wellFormed hi hlive).toSameLayout

theorem mem_survivors (hi : i ∈ starts) (hlive : live i = true) :
    slide (m.flushedHeap a).sizeOf live starts i ∈ (m.flushedHeap a).survivors starts live :=
  Heap.mem_survivors.mpr ⟨i, hi, hlive, rfl⟩

theorem moveRef_eq (hm : m.Collecting a starts live c) (hi : i ∈ starts) :
    (m.flushedHeap a).moveRef starts live (.ofWordIndex i) =
      .ofWordIndex (slide (m.flushedHeap a).sizeOf live starts i) :=
  Heap.moveRef_ofWordIndex hm.wellFormed.toLaidOut hi

/-- A traced word other than those written back is the image of what it was. -/
theorem ref_eq (hm : m.Collecting a starts live c) (hi : i ∈ starts) (hlive : live i = true)
    (hk : ((m.flushedHeap a).view i).IsTraced k)
    (hne : i = a → k ≠ headerWords + Context.pcField ∧ k ≠ headerWords + Context.spField) :
    (c.heap.view (slide (m.flushedHeap a).sizeOf live starts i)).ref k =
      (m.flushedHeap a).moveRef starts live ((m.heap.view i).ref k) := by
  have hsize : k < (m.heap.view i).size := by
    rw [← (hm.sameLayout hi).size_eq]
    exact hk.bounds.2
  rw [hm.collects.ref_of_isTraced hi hlive hk]
  unfold View.ref
  rw [hm.view_flushed hi hsize hne]

/-- An object of some format that the collection keeps. -/
def Kept (m : Machine) (starts : List Nat) (live : Nat → Bool) (format : Format) (r : Ref) : Prop :=
  ∃ i ∈ starts, live i = true ∧ r = .ofWordIndex i ∧ (m.heap.view i).format = format

/-- The registers of a running machine lead to objects that are kept. -/
theorem kept_register (hm : m.Collecting a starts live c) (hmem : r ∈ m.registers.refs)
    (hr : m.heap.IsOf starts format r) : Kept m starts live format r := by
  obtain ⟨i, hi, rfl, hformat⟩ := hr
  have hroot : Ref.ofWordIndex i ∈ m.roots := by
    rw [roots_eq]
    exact List.mem_append_left _ hmem
  have hreach := Heap.Reachable.root (h := m.flushedHeap a) hroot (hm.laidOut.isPointer hi)
  exact ⟨i, hi, (hm.keeps i hi).mpr hreach, rfl, hformat⟩

theorem isTraced_field (hm : m.Collecting a starts live c) (hi : i ∈ starts)
    (hallows : (m.heap.view i).format.allowsFields = true) (hlt : index < (m.heap.view i).fields) :
    ((m.flushedHeap a).view i).IsTraced (headerWords + index) := by
  have hlayout := hm.sameLayout hi
  refine .inr (.inl ⟨?_, by omega, ?_⟩)
  · rw [hlayout.format_eq]
    exact hallows
  · rw [hlayout.fields_eq]
    exact Nat.add_lt_add_left hlt headerWords

/-- The fields that are not written back. -/
theorem field_flushed (hm : m.Collecting a starts live c) (hi : i ∈ starts)
    (hallows : (m.heap.view i).format.allowsFields = true) (hlt : index < (m.heap.view i).fields)
    (hne : (m.heap.view i).format = .context →
      index ≠ Context.pcField ∧ index ≠ Context.spField) :
    ((m.flushedHeap a).view i).ref (headerWords + index) =
      (m.heap.view i).ref (headerWords + index) := by
  unfold View.ref
  rw [hm.view_flushed hi (View.fields_lt_size hallows (Nat.add_lt_add_left hlt headerWords))]
  rintro rfl
  obtain ⟨hpc, hsp⟩ := hne hm.context
  omega

/-! ### Reading after the collection -/

/-- A field holds the image of what it held when the registers were written back. -/
theorem fetchField_flushed (hm : m.Collecting a starts live c) (hi : i ∈ starts)
    (hlive : live i = true) (hallows : (m.heap.view i).format.allowsFields = true)
    (hlt : index < (m.heap.view i).fields) :
    c.heap.fetchField ((m.flushedHeap a).moveRef starts live (.ofWordIndex i)) index =
      .ok ((m.flushedHeap a).moveRef starts live
        (((m.flushedHeap a).view i).ref (headerWords + index))) := by
  have hlayout := hm.layout hi hlive
  rw [hm.moveRef_eq hi, Heap.fetchField_eq (hm.collects.laidOut hm.wellFormed)
    (mem_survivors hi hlive) (by rw [hlayout.fields_eq]; exact hlt)
    (by
      rw [hlayout.size_eq]
      exact View.fields_lt_size hallows (Nat.add_lt_add_left hlt headerWords)),
    hm.collects.ref_of_isTraced hi hlive (hm.isTraced_field hi hallows hlt)]

theorem fetchField (hm : m.Collecting a starts live c) (hr : Kept m starts live format r)
    (hallows : format.allowsFields = true)
    (hne : format = .context → index ≠ Context.pcField ∧ index ≠ Context.spField)
    (hok : m.heap.fetchField r index = .ok v) :
    c.heap.fetchField ((m.flushedHeap a).moveRef starts live r) index =
      .ok ((m.flushedHeap a).moveRef starts live v) := by
  obtain ⟨i, hi, hlive, rfl, rfl⟩ := hr
  obtain ⟨hlt, rfl⟩ := Heap.fetchField_ok hm.laidOut hi hallows hok
  rw [hm.fetchField_flushed hi hlive hallows hlt, hm.field_flushed hi hallows hlt hne]

/-- What is in a field of an object that is kept is kept. -/
theorem kept_field {format' : Format} (hm : m.Collecting a starts live c)
    (hr : Kept m starts live format r) (hallows : format.allowsFields = true)
    (hne : format = .context → index ≠ Context.pcField ∧ index ≠ Context.spField)
    (hok : m.heap.fetchField r index = .ok v) (hv : m.heap.IsOf starts format' v) :
    Kept m starts live format' v := by
  obtain ⟨i, hi, hlive, rfl, rfl⟩ := hr
  obtain ⟨j, hj, rfl, hformat⟩ := hv
  obtain ⟨hlt, href⟩ := Heap.fetchField_ok hm.laidOut hi hallows hok
  have href' := (hm.field_flushed hi hallows hlt hne).trans href.symm
  obtain ⟨j', hj', hlive', heq⟩ := hm.keeps.live_of_traced hm.wellFormed hm.rootsIn hi hlive
    (hm.isTraced_field hi hallows hlt) (by rw [href']; exact hm.laidOut.isPointer hj)
  have hjj := hm.laidOut.ofWordIndex_inj hj hj' (href'.symm.trans heq)
  subst hjj
  exact ⟨j, hj, hlive', rfl, hformat⟩

/-- What was written back is read again. -/
theorem register? (hm : m.Collecting a starts live c) (hlive : live a = true) {n : Nat}
    (hindex : index < 3) (hn : n < Ref.addressLimit)
    (href : ((m.flushedHeap a).view a).ref (headerWords + index) = .ofNat n) :
    Context.register? c.heap ((m.flushedHeap a).moveRef starts live (.ofWordIndex a)) index =
      .ok (some n) := by
  have hsmall := Ref.isSmallInteger_ofNat hn
  have hp : ¬ (Ref.ofNat n).isPointer = true := by
    intro hpointer
    rw [Ref.not_isSmallInteger_of_isPointer hpointer] at hsmall
    cases hsmall
  have hallows : (m.heap.view a).format.allowsFields = true := by
    rw [hm.context]
    rfl
  have hlt := (contextField_bounds hm.laidOut hm.mem hm.context hindex).1
  unfold Context.register?
  rw [hm.fetchField_flushed hm.mem hlive hallows hlt, href, Heap.moveRef, if_neg hp]
  show Except.ok (if (Ref.ofNat n).isSmallInteger = true then some (Ref.ofNat n).toCount else none) = _
  rw [if_pos hsmall, Ref.toCount_ofNat hn]

/-- No reference becomes a small integer, or ceases to be one. -/
theorem isSmallInteger_moveRef (hm : m.Collecting a starts live c)
    (hr : r.isPointer = true → Designates starts r) :
    ((m.flushedHeap a).moveRef starts live r).isSmallInteger = r.isSmallInteger := by
  by_cases hp : r.isPointer = true
  · have hp' : ((m.flushedHeap a).moveRef starts live r).isPointer = true :=
      (Heap.isPointer_moveRef hm.wellFormed.toLaidOut hr).trans hp
    rw [Ref.not_isSmallInteger_of_isPointer hp, Ref.not_isSmallInteger_of_isPointer hp']
  · rw [Heap.moveRef, if_neg hp]

theorem home (hm : m.Collecting a starts live c) (hr : Kept m starts live .context r) {home : Ref}
    (hok : Context.home m.heap r = .ok home) :
    Context.home c.heap ((m.flushedHeap a).moveRef starts live r) =
      .ok ((m.flushedHeap a).moveRef starts live home) := by
  unfold Context.home Context.isBlock at hok ⊢
  obtain ⟨block, hblock, hok⟩ := ObjectMachine.bind_eq_ok.mp hok
  obtain ⟨word, hword, hblock⟩ := ObjectMachine.bind_eq_ok.mp hblock
  cases hblock
  have hsame : ((m.flushedHeap a).moveRef starts live word).isSmallInteger =
      word.isSmallInteger := by
    obtain ⟨i, hi, hlive, rfl, hformat⟩ := hr
    have hallows : (m.heap.view i).format.allowsFields = true := by
      rw [hformat]
      rfl
    obtain ⟨hlt, rfl⟩ := Heap.fetchField_ok hm.laidOut hi hallows hword
    apply hm.isSmallInteger_moveRef
    rw [← hm.field_flushed hi hallows hlt fun _ => by decide]
    exact hm.wellFormed.traced i hi _ (hm.isTraced_field hi hallows hlt)
  rw [hm.fetchField hr rfl (fun _ => by decide) hword]
  show (if ((m.flushedHeap a).moveRef starts live word).isSmallInteger = true then _ else _) = _
  rw [hsame]
  change (if word.isSmallInteger = true then _ else _) = _ at hok
  split at hok
  · rw [if_pos ‹_›]
    exact hm.fetchField hr rfl (fun _ => by decide) hok
  · rw [if_neg ‹_›]
    cases hok
    rfl

theorem length (hm : m.Collecting a starts live c) (hr : Kept m starts live format r) :
    c.heap.length ((m.flushedHeap a).moveRef starts live r) = m.heap.length r := by
  obtain ⟨i, hi, hlive, rfl, -⟩ := hr
  rw [hm.moveRef_eq hi, (hm.collects.laidOut hm.wellFormed).length (mem_survivors hi hlive),
    hm.laidOut.length hi, (hm.layout hi hlive).len_eq]

theorem elementsIndex (hm : m.Collecting a starts live c) (hi : i ∈ starts)
    (hlive : live i = true) :
    c.heap.elementsIndex ((m.flushedHeap a).moveRef starts live (.ofWordIndex i)) =
      .ok (slide (m.flushedHeap a).sizeOf live starts i + (m.heap.view i).elements) := by
  rw [hm.moveRef_eq hi, Heap.elementsIndex_eq (hm.collects.laidOut hm.wellFormed)
    (mem_survivors hi hlive), (hm.layout hi hlive).elements_eq]

/-- A live element reads as the image of what it was. -/
theorem slot_element {base base' : Nat} (hm : m.Collecting a starts live c)
    (hr : Kept m starts live format r) (htail : format.hasReferenceTail = true)
    (hbase : m.heap.elementsIndex r = .ok base)
    (hbase' : c.heap.elementsIndex ((m.flushedHeap a).moveRef starts live r) = .ok base')
    (hk : k < ((m.flushedHeap a).view r.wordIndex).live) :
    ∃ v, m.heap.slot (base + k) = .ok v ∧
      c.heap.slot (base' + k) = .ok ((m.flushedHeap a).moveRef starts live v) := by
  obtain ⟨i, hi, hlive, rfl, rfl⟩ := hr
  rw [hm.laidOut.wordIndex hi] at hk
  rw [hm.elementsIndex hi hlive] at hbase'
  rw [Heap.elementsIndex_eq hm.laidOut hi] at hbase
  cases hbase
  cases hbase'
  have hlayout := hm.sameLayout hi
  have hlen : k < (m.heap.view i).len := by
    have := ((m.flushedHeap a).view i).live_le_len
    rw [hlayout.len_eq] at this
    omega
  have hin := View.elements_lt_size htail (Nat.add_lt_add_left hlen (m.heap.view i).elements)
  have htraced : ((m.flushedHeap a).view i).IsTraced ((m.heap.view i).elements + k) := by
    refine .inr (.inr ⟨?_, ?_, ?_⟩)
    · rw [hlayout.format_eq]
      exact htail
    · rw [hlayout.elements_eq]
      omega
    · rw [hlayout.elements_eq]
      omega
  refine ⟨(m.heap.view i).ref ((m.heap.view i).elements + k), ?_, ?_⟩
  · rw [Nat.add_assoc]
    exact hm.laidOut.slot_offset hi hin
  · have hne : i = a → (m.heap.view i).elements + k ≠ headerWords + Context.pcField ∧
        (m.heap.view i).elements + k ≠ headerWords + Context.spField := by
      rintro rfl
      have hthree := (hm.laidOut.readable i hi).context hm.context
      simp only [View.elements, Context.pcField, Context.spField, contextStackPointer]
      omega
    rw [Nat.add_assoc, (hm.collects.laidOut hm.wellFormed).slot_offset (mem_survivors hi hlive)
      (by rw [(hm.layout hi hlive).size_eq]; exact hin), hm.ref_eq hi hlive htraced hne]

theorem fetchElement (hm : m.Collecting a starts live c) (hr : Kept m starts live .array r)
    (hok : m.heap.fetchElement r index = .ok v) :
    c.heap.fetchElement ((m.flushedHeap a).moveRef starts live r) index =
      .ok ((m.flushedHeap a).moveRef starts live v) := by
  have hkept := hr
  obtain ⟨i, hi, hlive, rfl, hformat⟩ := hr
  have htail : (m.heap.view i).format.hasReferenceTail = true := by
    rw [hformat]
    rfl
  have hlayout := hm.sameLayout hi
  obtain ⟨hlt, rfl⟩ := Heap.fetchElement_ok hm.laidOut hi htail hok
  have hlive' : index < ((m.flushedHeap a).view (Ref.ofWordIndex i).wordIndex).live := by
    rw [hm.laidOut.wordIndex hi]
    unfold View.live
    rw [hlayout.format_eq, hformat, hlayout.len_eq]
    exact hlt
  obtain ⟨v, hv, hv'⟩ := hm.slot_element hkept rfl (Heap.elementsIndex_eq hm.laidOut hi)
    (hm.elementsIndex hi hlive) hlive'
  rw [Nat.add_assoc, hm.laidOut.slot_offset hi
    (View.elements_lt_size htail (Nat.add_lt_add_left hlt _))] at hv
  cases hv
  unfold Heap.fetchElement
  rw [hm.moveRef_eq hi, Heap.elementIndex_eq (hm.collects.laidOut hm.wellFormed)
    (mem_survivors hi hlive) (by rw [(hm.layout hi hlive).len_eq]; exact hlt),
    (hm.layout hi hlive).elements_eq, ← Nat.add_assoc]
  exact hv'

/-- The bytes of an object stay what they were. -/
theorem byteAtOffset {base base' len : Nat} (hm : m.Collecting a starts live c)
    (hr : Kept m starts live .byteArray r) (hbase : m.heap.bytesOffset r = .ok base)
    (hbase' : c.heap.bytesOffset ((m.flushedHeap a).moveRef starts live r) = .ok base')
    (hlen : m.heap.length r = .ok len) (hlt : index < len) :
    SameAnswer (m.heap.byteAtOffset (base + index)) (c.heap.byteAtOffset (base' + index)) := by
  obtain ⟨i, hi, hlive, rfl, hformat⟩ := hr
  have hlayout := hm.layout hi hlive
  have hl' := hm.collects.laidOut hm.wellFormed
  rw [hm.laidOut.length hi] at hlen
  rw [Heap.bytesOffset_eq hm.laidOut hi] at hbase
  rw [hm.moveRef_eq hi, Heap.bytesOffset_eq hl' (mem_survivors hi hlive)] at hbase'
  cases hlen
  cases hbase
  cases hbase'
  obtain ⟨hin, hbyte⟩ := Heap.byteAtOffset_eq hm.laidOut hi hformat hlt
  have hlt' : index < (c.heap.view (slide (m.flushedHeap a).sizeOf live starts i)).len := by
    rw [hlayout.len_eq]
    exact hlt
  obtain ⟨-, hbyte'⟩ := Heap.byteAtOffset_eq hl' (mem_survivors hi hlive)
    (hlayout.format_eq.trans hformat) hlt'
  refine ⟨_, hbyte, hbyte'.trans ?_⟩
  have hraw : ((m.flushedHeap a).view i).format.allowsFields = false := by
    rw [(hm.sameLayout hi).format_eq, hformat]
    rfl
  have hnot : ¬ ((m.flushedHeap a).view i).IsTraced ((m.heap.view i).elements + index / 8) := by
    rw [View.isTraced_iff_class hraw]
    simp only [View.elements, headerWords]
    omega
  have hsize : (m.heap.view i).elements + index / 8 < (m.flushedHeap a).sizeOf i := by
    show _ < ((m.flushedHeap a).view i).size
    rw [(hm.sameLayout hi).size_eq]
    exact hin
  rw [hlayout.elements_eq, hm.collects.word_of_not_isTraced hi hlive hsize hnot,
    hm.view_flushed hi hin]
  rintro rfl
  rw [hm.context] at hformat
  cases hformat

end Collecting

/-! ## The activation in progress -/

/-- A machine in the middle of an activation. The registers are those of the active context, but the
position and the stack pointer may have gone on; what is reached through them is what it is taken
for; and memory is in order as soon as the registers are written back. -/
structure Activated (m : Machine) (starts : List Nat) : Prop where
  laidOut : m.heap.LaidOut starts
  context : m.heap.IsOf starts .context m.registers.activeContext
  home : m.heap.IsOf starts .context m.registers.homeContext
  method : m.heap.IsOf starts .plain m.registers.method
  header : ∀ word, m.heap.fetchField m.registers.method Method.headerField = .ok word →
    word.isPointer = false
  literals : m.heap.IsOf starts .array m.registers.literals
  code : ∀ code, Method.code m.heap m.registers.method = .ok code →
    m.heap.IsOf starts .byteArray code
  loaded : ∃ (r : Registers) (pc sp : Nat),
    r.load m.heap m.registers.activeContext = .ok { m.registers with pc, sp }
  /-- The position can be written back as a small integer. -/
  pc_lt : m.registers.pc < Ref.addressLimit
  sp_le : m.registers.sp ≤ m.registers.stackLimit
  /-- The temporaries are among the slots that the home has in use. -/
  temporaries : m.registers.tempLimit ≤
    (m.settled.view m.registers.homeContext.wordIndex).live
  wellFormed : m.settled.WellFormed starts
  rootsIn : m.settled.RootsIn starts m.roots

/-- A machine that goes on as another one would have, with `f` applied to all references. -/
structure Resumes (m m' : Machine) (f : Ref → Ref) : Prop where
  /-- References are mapped, positions computed again, and everything else is as it was. -/
  registers : m'.registers = { m.registers.mapRefs f with
    stackBase := m'.registers.stackBase
    tempBase := m'.registers.tempBase
    codeBase := m'.registers.codeBase }
  stackBase : m'.heap.elementsIndex (f m.registers.activeContext) = .ok m'.registers.stackBase
  tempBase : m'.heap.elementsIndex (f m.registers.homeContext) = .ok m'.registers.tempBase
  codeBase : ∃ code, Method.code m.heap m.registers.method = .ok code ∧
    Method.code m'.heap (f m.registers.method) = .ok (f code) ∧
    m'.heap.bytesOffset (f code) = .ok m'.registers.codeBase
  operands : ∀ k < m.registers.sp, ∃ v, m.heap.slot (m.registers.stackBase + k) = .ok v ∧
    m'.heap.slot (m'.registers.stackBase + k) = .ok (f v)
  temporaries : ∀ k < m.registers.tempLimit, ∃ v,
    m.heap.slot (m.registers.tempBase + k) = .ok v ∧
      m'.heap.slot (m'.registers.tempBase + k) = .ok (f v)
  literalCount : SameAnswer (m.heap.length m.registers.literals)
    (m'.heap.length (f m.registers.literals))
  literals : ∀ k v, m.heap.fetchElement m.registers.literals k = .ok v →
    m'.heap.fetchElement (f m.registers.literals) k = .ok (f v)
  code : ∀ k < m.registers.codeLength,
    SameAnswer (m.heap.byteAtOffset (m.registers.codeBase + k))
      (m'.heap.byteAtOffset (m'.registers.codeBase + k))
  core : m'.core = m.core.mapRefs f
  symbols : m'.symbols = m.symbols.mapRefs f
  globals : m'.globals = m.globals.mapRefs f
  pinned : m'.pinned = m.pinned.map f
  contexts : m'.contexts.small = [] ∧ m'.contexts.large = []
  cache : ∀ cls selector, m'.cache.find? cls selector = none

/-- An empty cache answers nothing. -/
theorem find?_flush (c : MethodCache) (cls selector : Ref) : c.flush.find? cls selector = none := by
  unfold MethodCache.find? MethodCache.flush
  rw [Array.getElem?_replicate]
  split
  · rename_i entry hentry
    split at hentry
    · cases hentry
      simp [MethodCache.noEntry, Ref.isNull, Ref.null]
    · cases hentry
  · rfl

namespace Activated

variable {m : Machine} {a : Nat} {starts : List Nat} {live : Nat → Bool} {c : Collected}

theorem reads (hm : m.Activated starts) : m.registers.Reads m.heap := by
  obtain ⟨r, pc, sp, hload⟩ := hm.loaded
  exact (Registers.load_ok_iff.mp hload).2.1.of_position

theorem collecting (hm : m.Activated starts)
    (hactive : m.registers.activeContext = .ofWordIndex a) (ha : a ∈ starts)
    (hkeeps : (m.flushedHeap a).KeepsReachable starts live m.roots)
    (hcollects : (m.flushedHeap a).Collects starts live m.roots c) :
    m.Collecting a starts live c := by
  have hsettled : m.settled = m.flushedHeap a := by
    unfold settled
    rw [hactive, hm.laidOut.wordIndex ha]
  obtain ⟨b, hb, heq, hformat⟩ := hm.context
  rw [hactive] at heq
  have hab := hm.laidOut.ofWordIndex_inj ha hb heq
  subst hab
  exact ⟨hm.laidOut, ha, hformat, hsettled ▸ hm.wellFormed, hsettled ▸ hm.rootsIn, hkeeps,
    hcollects⟩

/-- The active context begins at a position that is kept. -/
theorem kept_context (hm : m.Activated starts) (hc : m.Collecting a starts live c)
    (hactive : m.registers.activeContext = .ofWordIndex a) : live a = true := by
  obtain ⟨i, hi, hlive, heq, -⟩ := hc.kept_register (by simp [Registers.refs]) hm.context
  rw [hc.laidOut.ofWordIndex_inj hc.mem hi (hactive.symm.trans heq)]
  exact hlive

/-- The declared temporaries are counted by a word that no collection changes. -/
theorem header_collected (hm : m.Activated starts) (hc : m.Collecting a starts live c)
    {header : MethodHeader} (hok : Method.header m.heap m.registers.method = .ok header) :
    Method.header c.heap ((m.flushedHeap a).moveRef starts live m.registers.method) =
      .ok header := by
  have hmethod := hc.kept_register (by simp [Registers.refs]) hm.method
  unfold Method.header at hok ⊢
  obtain ⟨word, hword, hok⟩ := ObjectMachine.bind_eq_ok.mp hok
  cases hok
  rw [hc.fetchField hmethod rfl nofun hword, Heap.moveRef,
    if_neg (by simp [hm.header word hword])]
  rfl

theorem sp_lt (hm : m.Activated starts) : m.registers.sp < Ref.addressLimit := by
  obtain ⟨a, ha, hactive, hformat⟩ := hm.context
  have hlimit := hm.reads.stackLimit
  rw [hactive, hm.laidOut.length ha] at hlimit
  have hle := hm.sp_le
  rw [← Except.ok.inj hlimit] at hle
  have hcount : (m.heap.view a).len < (m.heap.view a).size := by
    simp only [View.size, hformat, Format.sizeInWords, Format.tailWords, headerWords]
    omega
  have hfit := hm.laidOut.fits_memory ha
  have haddr := hm.laidOut.addressable
  omega

/-- Once the stack pointer is written back, as many slots are live as it says. -/
theorem live_active (hm : m.Activated starts) (hc : m.Collecting a starts live c)
    (hactive : m.registers.activeContext = .ofWordIndex a) :
    ((m.flushedHeap a).view a).live = m.registers.sp := by
  have hsp : ((m.flushedHeap a).view a).stackPointer = .ofNat m.registers.sp :=
    stackPointer_flushedHeap hc.laidOut hc.mem hc.context
  have hlimit := hm.reads.stackLimit
  rw [hactive, hc.laidOut.length hc.mem] at hlimit
  have hle := hm.sp_le
  rw [← Except.ok.inj hlimit] at hle
  unfold View.live
  rw [(hc.sameLayout hc.mem).format_eq, hc.context, hsp]
  dsimp only
  rw [if_pos (Ref.isSmallInteger_ofNat hm.sp_lt), Ref.toInt_ofNat hm.sp_lt,
    (hc.sameLayout hc.mem).len_eq]
  exact Nat.min_eq_left hle

/-- The registers that are loaded after a collection. -/
theorem load_collected (hm : m.Activated starts) (hc : m.Collecting a starts live c)
    (hactive : m.registers.activeContext = .ofWordIndex a) :
    ∃ stackBase tempBase codeBase,
      (m.registers.mapRefs ((m.flushedHeap a).moveRef starts live)).load c.heap
          ((m.flushedHeap a).moveRef starts live m.registers.activeContext) =
        .ok { m.registers.mapRefs ((m.flushedHeap a).moveRef starts live) with
          stackBase, tempBase, codeBase } := by
  have hreads := hm.reads
  have hlive := hm.kept_context hc hactive
  have hcontext := hc.kept_register (by simp [Registers.refs]) hm.context
  have hhome := hc.kept_register (by simp [Registers.refs]) hm.home
  have hmethod := hc.kept_register (by simp [Registers.refs]) hm.method
  obtain ⟨code, hcode, -, hcodeLength⟩ := hreads.code
  have hkept := hc.kept_field hmethod rfl nofun hcode (hm.code code hcode)
  obtain ⟨header, len, hheader, hlen, hlimit⟩ := hreads.tempLimit
  have hbase : ∀ format r, Collecting.Kept m starts live format r → ∃ base,
      c.heap.elementsIndex ((m.flushedHeap a).moveRef starts live r) = .ok base := by
    rintro format r ⟨i, hi, hlive, rfl, -⟩
    exact ⟨_, hc.elementsIndex hi hlive⟩
  obtain ⟨stackBase, hstackBase⟩ := hbase _ _ hcontext
  obtain ⟨tempBase, htempBase⟩ := hbase _ _ hhome
  obtain ⟨codeBase, hcodeBase⟩ := hbase _ _ hkept
  refine ⟨stackBase, tempBase, codeBase * wordBytes, Registers.load_ok_iff.mpr
    ⟨rfl, ?_, ⟨some m.registers.pc, ?_, rfl⟩, ⟨some m.registers.sp, ?_, rfl⟩, rfl, rfl, rfl, rfl⟩⟩
  · exact
      { home := hc.home hcontext hreads.home
        method := hc.fetchField hhome rfl (fun _ => by decide) hreads.method
        receiver := hc.fetchField hhome rfl (fun _ => by decide) hreads.receiver
        literals := hc.fetchField hmethod rfl nofun hreads.literals
        code := ⟨_, hc.fetchField hmethod rfl nofun hcode,
          (by unfold Heap.bytesOffset; rw [hcodeBase]), (hc.length hkept).trans hcodeLength⟩
        stackBase := hstackBase
        stackLimit := (hc.length hcontext).trans hreads.stackLimit
        tempBase := htempBase
        tempLimit := ⟨header, len, hm.header_collected hc hheader,
          (hc.length hhome).trans hlen, hlimit⟩ }
  · rw [hactive]
    exact hc.register? hlive pcField_lt hm.pc_lt
      (position_flushedHeap hc.laidOut hc.mem hc.context)
  · rw [hactive]
    exact hc.register? hlive spField_lt hm.sp_lt
      (stackPointer_flushedHeap hc.laidOut hc.mem hc.context)

/-- What is found after a collection, once the registers are loaded. -/
theorem resumes (hm : m.Activated starts) (hc : m.Collecting a starts live c)
    (hactive : m.registers.activeContext = .ofWordIndex a) {stackBase tempBase codeBase : Nat}
    (hload : (m.registers.mapRefs ((m.flushedHeap a).moveRef starts live)).load c.heap
        ((m.flushedHeap a).moveRef starts live m.registers.activeContext) =
      .ok { m.registers.mapRefs ((m.flushedHeap a).moveRef starts live) with
        stackBase, tempBase, codeBase }) :
    m.Resumes { m.mapRoots ((m.flushedHeap a).moveRef starts live) with
      heap := c.heap
      contexts := m.contexts.clear
      cache := m.cache.flush
      registers := { m.registers.mapRefs ((m.flushedHeap a).moveRef starts live) with
        stackBase, tempBase, codeBase } } ((m.flushedHeap a).moveRef starts live) := by
  have hreads := hm.reads
  have hreads' := (Registers.load_ok_iff.mp hload).2.1
  have hcontext := hc.kept_register (by simp [Registers.refs]) hm.context
  have hhome := hc.kept_register (by simp [Registers.refs]) hm.home
  have hmethod := hc.kept_register (by simp [Registers.refs]) hm.method
  have hliterals := hc.kept_register (by simp [Registers.refs]) hm.literals
  obtain ⟨code, hcode, hcodeBase, hcodeLength⟩ := hreads.code
  have hkept := hc.kept_field hmethod rfl nofun hcode (hm.code code hcode)
  have hcode' := hc.fetchField hmethod rfl nofun hcode
  have hcodeBase' : c.heap.bytesOffset ((m.flushedHeap a).moveRef starts live code) =
      .ok codeBase := by
    obtain ⟨code', hread, hbase, -⟩ := hreads'.code
    have hsame : (m.flushedHeap a).moveRef starts live code = code' :=
      Except.ok.inj (hcode'.symm.trans hread)
    rw [hsame]
    exact hbase
  refine
    { registers := rfl
      stackBase := hreads'.stackBase
      tempBase := hreads'.tempBase
      codeBase := ⟨code, hcode, hcode', hcodeBase'⟩
      operands := fun k hk => ?_
      temporaries := fun k hk => ?_
      literalCount := ?_
      literals := fun k v hv => hc.fetchElement hliterals hv
      code := fun k hk => hc.byteAtOffset hkept hcodeBase hcodeBase' hcodeLength hk
      core := rfl
      symbols := rfl
      globals := rfl
      pinned := rfl
      contexts := ⟨rfl, rfl⟩
      cache := find?_flush m.cache }
  · refine hc.slot_element hcontext rfl hreads.stackBase hreads'.stackBase ?_
    rw [hactive, hc.laidOut.wordIndex hc.mem, hm.live_active hc hactive]
    exact hk
  · refine hc.slot_element hhome rfl hreads.tempBase hreads'.tempBase ?_
    have hcovered := hm.temporaries
    unfold settled at hcovered
    rw [hactive, hc.laidOut.wordIndex hc.mem] at hcovered
    omega
  · obtain ⟨i, hi, -, hliteral, -⟩ := hliterals
    refine ⟨(m.heap.view i).len, ?_, ?_⟩
    · rw [hliteral]
      exact hc.laidOut.length hi
    · have hlength := hc.length (hc.kept_register (by simp [Registers.refs]) hm.literals)
      rw [hliteral, hc.laidOut.length hi] at hlength
      rw [hliteral]
      exact hlength

end Activated

/-- Registers are computed again if there is an active context. -/
theorem reloadRegisters_eq {m : Machine} {registers : Registers}
    (hpointer : m.registers.activeContext.isPointer = true)
    (hload : m.registers.load m.heap m.registers.activeContext = .ok registers) :
    m.reloadRegisters = .ok () { m with registers } := by
  show (if m.registers.activeContext.isPointer = true then
    loadContext m.registers.activeContext else pure () : Action Unit) m = _
  rw [if_pos hpointer]
  unfold loadContext
  rw [hload]

/-- A collection succeeds if memory can be collected and the registers can be loaded again. -/
theorem collectGarbage_eq {m m₁ m' : Machine} {c : Collected} {f : Ref → Ref}
    (hflush : m.flushRegisters = .ok () m₁) (hcollect : m₁.heap.collect m₁.roots = .ok c)
    (hroots : c.roots = m₁.roots.map f)
    (hreload : reloadRegisters { m₁.mapRoots f with
      heap := c.heap, contexts := m₁.contexts.clear, cache := m₁.cache.flush } = .ok () m') :
    m.collectGarbage = .ok c.reclaimed m' := by
  let m₂ : Machine := { m₁ with heap := c.heap, contexts := m₁.contexts.clear }
  have hsame : ∀ n : Machine, n.registers = m₁.registers → n.core = m₁.core →
      n.symbols = m₁.symbols → n.globals = m₁.globals → n.pinned = m₁.pinned →
      n.roots = m₁.roots := by
    intro n hregisters hcore hsymbols hglobals hpinned
    rw [roots_eq, roots_eq, hregisters, hcore, hsymbols, hglobals, hpinned]
  have hreplaced : m₂.withRoots c.roots = m₂.mapRoots f := by
    rw [hroots, ← hsame m₂ rfl rfl rfl rfl rfl]
    exact m₂.withRoots_map f
  refine Action.bind_eq_ok.mpr ⟨(), m₁, hflush, ?_⟩
  refine Action.bind_eq_ok.mpr ⟨(), { m₁ with contexts := m₁.contexts.clear }, rfl, ?_⟩
  refine Action.bind_eq_ok.mpr ⟨m₁.roots, { m₁ with contexts := m₁.contexts.clear }, ?_, ?_⟩
  · exact congrArg (Outcome.ok · _) (hsame _ rfl rfl rfl rfl rfl)
  refine Action.bind_eq_ok.mpr ⟨(c.roots, c.reclaimed), m₂, ?_, ?_⟩
  · refine Action.onHeap_eq_ok.mpr ⟨c.heap, ?_, rfl⟩
    exact ObjectMachine.bind_eq_ok.mpr ⟨c, hcollect, rfl⟩
  refine Action.bind_eq_ok.mpr ⟨(), m₂.withRoots c.roots, rfl, ?_⟩
  rw [hreplaced]
  refine Action.bind_eq_ok.mpr ⟨(), _, rfl, ?_⟩
  exact Action.bind_eq_ok.mpr ⟨(), m', hreload, rfl⟩

/-- A collection whose work list does not overflow succeeds, carries everything that can be reached
over, and leaves the machine to go on where it was. -/
theorem collectGarbage_resumes {m : Machine} {starts : List Nat} (hm : m.Activated starts)
    (hmark : m.settled.mark m.roots ≠ .error (.markStackOverflow m.heap.config.markLimit)) :
    ∃ reclaimed m' c f, m.collectGarbage = .ok reclaimed m' ∧ m'.heap = c.heap ∧
      m.settled.Carries m.roots c f ∧ m.Resumes m' (·.image f) := by
  obtain ⟨a, ha, hactive, hformat⟩ := hm.context
  have hsettled : m.settled = m.flushedHeap a := by
    unfold settled
    rw [hactive, hm.laidOut.wordIndex ha]
  rw [hsettled] at hmark ⊢
  have hflush := flushRegisters_eq hm.laidOut ha hactive hformat
  have hroots : ({ m with heap := m.flushedHeap a } : Machine).roots = m.roots := by
    rw [roots_eq, roots_eq]
  have hw : (m.flushedHeap a).WellFormed starts := hsettled ▸ hm.wellFormed
  have hr : (m.flushedHeap a).RootsIn starts m.roots := hsettled ▸ hm.rootsIn
  rcases Heap.collect_spec hw hr with ⟨hoverflow, -⟩ | ⟨c, live, hcollect, hkeeps, hcollects⟩
  · exact absurd hoverflow hmark
  have hc := hm.collecting hactive ha hkeeps hcollects
  obtain ⟨stackBase, tempBase, codeBase, hload⟩ := hm.load_collected hc hactive
  have himage : (fun r : Ref => r.image ((m.flushedHeap a).moveRef starts live)) =
      (m.flushedHeap a).moveRef starts live := funext Heap.Collects.image_moveRef
  have hpointer : ((m.flushedHeap a).moveRef starts live m.registers.activeContext).isPointer =
      true := by
    rw [hactive]
    exact (Heap.isPointer_moveRef hw.toLaidOut fun _ => ⟨a, ha, rfl⟩).trans (hm.laidOut.isPointer ha)
  have hreload := reloadRegisters_eq
    (m := { m.mapRoots ((m.flushedHeap a).moveRef starts live) with
      heap := c.heap, contexts := m.contexts.clear, cache := m.cache.flush }) hpointer hload
  refine ⟨_, _, c, (m.flushedHeap a).moveRef starts live,
    collectGarbage_eq hflush (by rw [hroots]; exact hcollect)
      (by rw [hroots]; exact hcollects.roots) hreload,
    rfl, hcollects.carries hw hr hkeeps, ?_⟩
  rw [himage]
  exact hm.resumes hc hactive hload

/-- The machine in an activation of `midActivation`, with all registers of its context. -/
def loadedActivation : Machine :=
  { midActivation with
    registers := { midActivation.registers with
      homeContext := .ofWordIndex 15
      method := .ofWordIndex 10
      receiver := .ofNat 7
      literals := .ofWordIndex 7
      stackBase := 24
      stackLimit := 4
      tempBase := 24
      codeBase := 48 } }

theorem loadedActivation_activated : loadedActivation.Activated [1, 3, 7, 10, 15] where
  laidOut := midActivation_laidOut
  context := ⟨15, by decide, rfl, by decide⟩
  home := ⟨15, by decide, rfl, by decide⟩
  method := ⟨10, by decide, rfl, by decide⟩
  header word hword := by
    have hread : loadedActivation.heap.fetchField loadedActivation.registers.method
        Method.headerField = .ok (.ofNat 0) := by rfl
    rw [hread] at hword
    cases hword
    decide
  literals := ⟨7, by decide, rfl, by decide⟩
  code code hcode := by
    have hread : Method.code loadedActivation.heap loadedActivation.registers.method =
        .ok (.ofWordIndex 3) := by rfl
    rw [hread] at hcode
    cases hcode
    exact ⟨3, by decide, rfl, by decide⟩
  loaded := ⟨.empty, 0, 1, rfl⟩
  pc_lt := by decide
  sp_le := by decide
  temporaries := by decide
  wellFormed := midActivation_wellFormed
  rootsIn := by
    have hroots : ∀ r ∈ loadedActivation.roots, r.isPointer = true →
        r ∈ [Ref.ofWordIndex 7, .ofWordIndex 10, .ofWordIndex 15] := by
      rw [roots_eq]
      decide
    constructor
    · intro r hr hp
      have hmem := hroots r hr hp
      simp only [List.mem_cons, List.not_mem_nil, or_false] at hmem
      rcases hmem with rfl | rfl | rfl
      · exact ⟨7, by decide, rfl⟩
      · exact ⟨10, by decide, rfl⟩
      · exact ⟨15, by decide, rfl⟩
    · intro hp
      cases hp

/-- The context and its method move down over an object that nobody refers to, and the activation
goes on. -/
theorem loadedActivation_resumes : ∃ reclaimed m' c f,
    loadedActivation.collectGarbage = .ok reclaimed m' ∧ m'.heap = c.heap ∧
      loadedActivation.settled.Carries loadedActivation.roots c f ∧
      loadedActivation.Resumes m' (·.image f) := by
  apply collectGarbage_resumes loadedActivation_activated
  have hmarked : (loadedActivation.settled.mark loadedActivation.roots).toOption.isSome = true := by
    cbv
  intro hoverflow
  rw [hoverflow] at hmarked
  cases hmarked

end Machine

end ObjectMachine
