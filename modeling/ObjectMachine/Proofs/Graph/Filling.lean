import ObjectMachine.Execution.Activation
import ObjectMachine.Proofs.Graph.Stack

/-!
# Filling in contexts

A context is filled in field by field, its stack pointer before its elements: for a while it claims
elements that hold whatever was there before. Stores to different words may be done in any order, so
memory is afterwards what it would be if the elements had come first. In that order no store uncovers
anything.

## Main results

* `Heap.pokeRun_comm`: runs of words that do not overlap are written in any order.
* `Machine.Realizes.filled`: an object that is filled in.
* `Context.initMethod_eq`, `Context.initBlock_eq`, `Context.copySlots_eq`: the stores are runs of words.
-/

namespace ObjectMachine

/-! ## Runs of words -/

namespace Heap

/-- Words written one after the other from a position on. -/
def pokeRun (h : Heap) (position : Nat) : List Ref → Heap
  | [] => h
  | r :: rest => (h.poke position r.bits).pokeRun (position + 1) rest

variable {h : Heap} {a b : Nat}

theorem poke_comm (h : Heap) (hne : a ≠ b) (x y : UInt64) :
    (h.poke a x).poke b y = (h.poke b y).poke a x := by
  unfold poke
  dsimp only
  rw [Array.setIfInBounds_comm _ _ hne]

theorem pokeRun_poke (h : Heap) (x : UInt64) {refs : List Ref}
    (hapart : a < b ∨ b + refs.length ≤ a) :
    (h.poke a x).pokeRun b refs = (h.pokeRun b refs).poke a x := by
  induction refs generalizing h b with
  | nil => rfl
  | cons r rest ih =>
    rw [List.length_cons] at hapart
    show ((h.poke a x).poke b r.bits).pokeRun (b + 1) rest = ((h.poke b r.bits).pokeRun (b + 1) rest).poke a x
    rw [poke_comm h (by omega), ih _ (by omega)]

/-- Runs that do not overlap are written in any order. -/
theorem pokeRun_comm (h : Heap) {refs refs' : List Ref}
    (hapart : a + refs.length ≤ b ∨ b + refs'.length ≤ a) :
    (h.pokeRun a refs).pokeRun b refs' = (h.pokeRun b refs').pokeRun a refs := by
  induction refs generalizing h a with
  | nil => rfl
  | cons r rest ih =>
    rw [List.length_cons] at hapart
    show ((h.poke a r.bits).pokeRun (a + 1) rest).pokeRun b refs' =
      ((h.pokeRun b refs').poke a r.bits).pokeRun (a + 1) rest
    rw [ih _ (by omega), pokeRun_poke h _ (by omega)]

theorem pokeRun_append (h : Heap) (a : Nat) (refs refs' : List Ref) :
    h.pokeRun a (refs ++ refs') = (h.pokeRun a refs).pokeRun (a + refs.length) refs' := by
  induction refs generalizing h a with
  | nil => rfl
  | cons r rest ih =>
    show (h.poke a r.bits).pokeRun (a + 1) (rest ++ refs') = _
    rw [ih, List.length_cons, Nat.add_comm rest.length, ← Nat.add_assoc]
    rfl

@[simp] theorem nil_pokeRun (h : Heap) (a : Nat) (refs : List Ref) : (h.pokeRun a refs).nil = h.nil := by
  induction refs generalizing h a with
  | nil => rfl
  | cons r rest ih => exact ih ..

theorem size_pokeRun (h : Heap) (a : Nat) (refs : List Ref) :
    (h.pokeRun a refs).memory.size = h.memory.size := by
  induction refs generalizing h a with
  | nil => rfl
  | cons r rest ih => exact (ih ..).trans (size_poke ..)

/-- Only words change. -/
theorem pokeRun_rest (h : Heap) (a : Nat) (refs : List Ref) :
    { h.pokeRun a refs with memory := h.memory, largeIntegers := h.largeIntegers } = h := by
  induction refs generalizing h a with
  | nil => rfl
  | cons r rest ih =>
    have hrest := congrArg (fun x => { x with memory := h.memory }) (ih (h.poke a r.bits) (a + 1))
    exact hrest

theorem cell_pokeRun (h : Heap) {refs : List Ref} (hout : b < a ∨ a + refs.length ≤ b) :
    (h.pokeRun a refs).cell b = h.cell b := by
  induction refs generalizing h a with
  | nil => rfl
  | cons r rest ih =>
    rw [List.length_cons] at hout
    exact (ih _ (by omega)).trans (cell_poke_ne (by omega) _)

end Heap

/-! ## Fields and elements in a row -/

namespace Node

/-- The object with other values in fields from an index on. -/
def withFields (o : Node) (index : Nat) : List Value → Node
  | [] => o
  | v :: rest => (o.withField index v).withFields (index + 1) rest

/-- The object with other elements from an index on. -/
def withElements (o : Node) (index : Nat) : List Value → Node
  | [] => o
  | v :: rest => (o.withElement index v).withElements (index + 1) rest

/-- The object with other first fields and other first elements. -/
def filled (o : Node) (fields elements : List Value) : Node :=
  (o.withElements 0 elements).withFields 0 fields

variable (o : Node) (index : Nat) (values : List Value)

theorem withElements_eq :
    ∃ element, o.withElements index values = { o with element } ∧
      ∀ k, element k = if k < index then o.element k else (values[k - index]?).getD (o.element k) := by
  induction values generalizing o index with
  | nil => exact ⟨o.element, rfl, fun k => by simp⟩
  | cons v rest ih =>
    obtain ⟨element, heq, hall⟩ := ih (o.withElement index v) (index + 1)
    refine ⟨element, heq, fun k => ?_⟩
    rw [hall, element_withElement, Function.update_apply]
    by_cases hlt : k < index
    · rw [if_pos (by omega), if_neg (by omega), if_pos hlt]
    · by_cases heq : k = index
      · rw [if_pos (by omega), if_pos heq, if_neg hlt, heq]
        simp
      · rw [if_neg (by omega), if_neg heq, if_neg hlt,
          show k - index = k - (index + 1) + 1 by omega, List.getElem?_cons_succ]

theorem withFields_eq :
    ∃ field, o.withFields index values = { o with field } ∧
      ∀ k, field k = if k < index then o.field k else (values[k - index]?).getD (o.field k) := by
  induction values generalizing o index with
  | nil => exact ⟨o.field, rfl, fun k => by simp⟩
  | cons v rest ih =>
    obtain ⟨field, heq, hall⟩ := ih (o.withField index v) (index + 1)
    refine ⟨field, heq, fun k => ?_⟩
    rw [hall, field_withField, Function.update_apply]
    by_cases hlt : k < index
    · rw [if_pos (by omega), if_neg (by omega), if_pos hlt]
    · by_cases heq : k = index
      · rw [if_pos (by omega), if_pos heq, if_neg hlt, heq]
        simp
      · rw [if_neg (by omega), if_neg heq, if_neg hlt,
          show k - index = k - (index + 1) + 1 by omega, List.getElem?_cons_succ]

variable (fields elements : List Value)

/-- What a filled object holds. -/
theorem filled_eq :
    ∃ field element, o.filled fields elements = { o with field, element } ∧
      (∀ k, field k = (fields[k]?).getD (o.field k)) ∧
      ∀ k, element k = (elements[k]?).getD (o.element k) := by
  obtain ⟨element, helements, helement⟩ := o.withElements_eq 0 elements
  obtain ⟨field, hfields, hfield⟩ := (o.withElements 0 elements).withFields_eq 0 fields
  refine ⟨field, element, ?_, fun k => ?_, fun k => ?_⟩
  · unfold filled
    rw [hfields, helements]
  · rw [hfield, helements]
    simp
  · rw [helement]
    simp

@[simp] theorem format_filled : (o.filled fields elements).format = o.format := by
  obtain ⟨_, _, h, -⟩ := o.filled_eq fields elements
  rw [h]

@[simp] theorem fields_filled : (o.filled fields elements).fields = o.fields := by
  obtain ⟨_, _, h, -⟩ := o.filled_eq fields elements
  rw [h]

@[simp] theorem len_filled : (o.filled fields elements).len = o.len := by
  obtain ⟨_, _, h, -⟩ := o.filled_eq fields elements
  rw [h]

@[simp] theorem captured_filled : (o.filled fields elements).captured = o.captured := by
  obtain ⟨_, _, h, -⟩ := o.filled_eq fields elements
  rw [h]

@[simp] theorem cls_filled : (o.filled fields elements).cls = o.cls := by
  obtain ⟨_, _, h, -⟩ := o.filled_eq fields elements
  rw [h]

@[simp] theorem field_filled (k : Nat) :
    (o.filled fields elements).field k = (fields[k]?).getD (o.field k) := by
  obtain ⟨_, _, h, hfield, -⟩ := o.filled_eq fields elements
  rw [h]
  exact hfield k

@[simp] theorem element_filled (k : Nat) :
    (o.filled fields elements).element k = (elements[k]?).getD (o.element k) := by
  obtain ⟨_, _, h, -, helement⟩ := o.filled_eq fields elements
  rw [h]
  exact helement k

theorem sameLayout_filled : SameLayout o (o.filled fields elements) :=
  ⟨format_filled .., fields_filled .., len_filled ..⟩

end Node

namespace Heap.Depicts

variable {h : Heap} {starts : List Nat} {p : Placement} {nodes : Nat → Node} {known : Nat → Nat}
  {n i index : Nat} {r : Ref} {v : Value} {refs : List Ref} {values : List Value}

/-- An element is stored where the known ones end, or among them. -/
theorem withElement (hd : h.Depicts starts p nodes known) (hn : p.find? n = some i)
    (htail : (nodes n).format.hasReferenceTail = true) (hr : p.Shows r v) (hindex : index ≤ known n)
    (hlen : index < (nodes n).len) :
    (h.poke (i + (headerWords + (nodes n).fields + 1 + index)) r.bits).Depicts starts p
      (Function.update nodes n ((nodes n).withElement index v))
      (Function.update known n (max (known n) (index + 1))) := by
  have hs := hd.shows hn
  have hin : headerWords + (nodes n).fields + 1 + index < (nodes n).size := by
    rw [← hs.size_eq]
    exact View.elements_lt_size (by rw [hs.format]; exact htail)
      (by rw [hs.elements_eq, hs.len]; omega)
  have hallows : (nodes n).format.allowsFields = true := by
    cases hf : (nodes n).format <;> rw [hf] at htail <;> first | rfl | cases htail
  have hle := hs.le_len
  have hlive := hs.live_le
  refine hd.poked hn (by omega) hin (by omega) (.inr hallows) hr
    ⟨rfl, rfl, rfl⟩ rfl rfl rfl rfl ?_ ?_ ?_ ?_ ?_ fun n' hne => Function.update_of_ne hne ..
  · rw [if_neg (by simp only [headerWords]; omega)]
    rfl
  · intro j hj
    rw [if_neg (by omega)]
    rfl
  · intro j hj
    rw [Function.update_self] at hj
    rw [Node.element_withElement, Function.update_apply]
    by_cases heq : j = index
    · exact .inl ⟨by rw [heq], if_pos heq⟩
    · exact .inr ⟨by omega, by omega, if_neg heq⟩
  · rw [Function.update_self, Node.live_withElement]
    omega
  · rw [Function.update_self]
    omega

/-- Elements in a row. -/
theorem withElements (hd : h.Depicts starts p nodes known) (hn : p.find? n = some i)
    (htail : (nodes n).format.hasReferenceTail = true) (hall : List.Forall₂ p.Shows refs values)
    (hindex : index ≤ known n) (hlen : index + refs.length ≤ (nodes n).len) :
    (h.pokeRun (i + (headerWords + (nodes n).fields + 1 + index)) refs).Depicts starts p
      (Function.update nodes n ((nodes n).withElements index values))
      (Function.update known n (max (known n) (index + refs.length))) := by
  induction hall generalizing h nodes known index with
  | nil =>
    show h.Depicts starts p (Function.update nodes n (nodes n))
      (Function.update known n (max (known n) index))
    rw [Nat.max_eq_left hindex, Function.update_eq_self, Function.update_eq_self]
    exact hd
  | @cons r v refs values hr _ ih =>
    rw [List.length_cons] at hlen
    have hstep := hd.withElement hn htail hr hindex (by omega)
    have hnext : index + 1 ≤ Function.update known n (max (known n) (index + 1)) n := by
      rw [Function.update_self]
      exact Nat.le_max_right ..
    have hrest := ih hstep (by rw [Function.update_self]; exact htail) hnext
      (by
        rw [Function.update_self, Node.len_withElement]
        omega)
    simp only [Function.update_self, Function.update_idem, Node.fields_withElement] at hrest
    rw [List.length_cons, show max (known n) (index + (refs.length + 1)) =
      max (max (known n) (index + 1)) (index + 1 + refs.length) by omega]
    exact hrest

/-- A field is stored that uncovers nothing. -/
theorem withField (hd : h.Depicts starts p nodes known) (hn : p.find? n = some i)
    (hindex : index < (nodes n).fields) (hr : p.Shows r v)
    (hlive : ((nodes n).withField index v).live ≤ known n) :
    (h.poke (i + (headerWords + index)) r.bits).Depicts starts p
      (Function.update nodes n ((nodes n).withField index v)) known := by
  have hs := hd.shows hn
  have hallows := hd.allowsFields hn hindex
  have hin : headerWords + index < (nodes n).size := by
    rw [← hs.size_eq]
    exact View.fields_lt_size (by rw [hs.format]; exact hallows) (by rw [hs.fields]; omega)
  refine hd.poked hn (by simp only [headerWords]; omega) hin (by omega) (.inr hallows) hr
    ⟨rfl, rfl, rfl⟩ rfl rfl rfl rfl ?_ ?_ ?_ hlive hs.le_len fun _ _ => rfl
  · rw [if_neg (by simp only [headerWords]; omega)]
    rfl
  · intro j _
    rw [Node.field_withField, Function.update_apply]
    by_cases heq : j = index
    · rw [if_pos heq, if_pos (by rw [heq])]
    · rw [if_neg heq, if_neg (by omega)]
  · intro j hj
    exact .inr ⟨by omega, hj, rfl⟩

/-- Fields in a row, of which the stack pointer uncovers nothing. -/
theorem withFields (hd : h.Depicts starts p nodes known) (hn : p.find? n = some i)
    (hall : List.Forall₂ p.Shows refs values) (hfields : index + refs.length ≤ (nodes n).fields)
    (hsp : ∀ o : Node, Node.SameLayout (nodes n) o → ∀ j v, values[j]? = some v →
      index + j = contextStackPointer → (o.withField contextStackPointer v).live ≤ known n) :
    (h.pokeRun (i + (headerWords + index)) refs).Depicts starts p
      (Function.update nodes n ((nodes n).withFields index values)) known := by
  induction hall generalizing h nodes index with
  | nil =>
    show h.Depicts starts p (Function.update nodes n (nodes n)) known
    rw [Function.update_eq_self]
    exact hd
  | @cons r v refs values hr _ ih =>
    rw [List.length_cons] at hfields
    have hlive : ((nodes n).withField index v).live ≤ known n := by
      by_cases heq : index = contextStackPointer
      · rw [heq]
        exact hsp (nodes n) (.refl _) 0 v rfl heq
      · rw [Node.live_withField (fun _ => heq)]
        exact (hd.shows hn).live_le
    have hstep := hd.withField hn (by omega) hr hlive
    have hnext : index + 1 + refs.length ≤
        (Function.update nodes n ((nodes n).withField index v) n).fields := by
      rw [Function.update_self, Node.fields_withField]
      omega
    have hrest := ih hstep hnext
      (by
        intro o hlayout j w hw hj
        rw [Function.update_self] at hlayout
        exact hsp o ⟨hlayout.format, hlayout.fields, hlayout.len⟩ (j + 1) w hw (by omega))
    simp only [Function.update_self, Function.update_idem] at hrest
    exact hrest

end Heap.Depicts

/-! ## Filling in -/

/-- A stack pointer uncovers no more elements than it says. -/
theorem Node.live_withField_ofNat {o : Node} (hf : o.format = .context) (count : Nat) :
    (o.withField contextStackPointer (.immediate (.ofNat count))).live ≤ count := by
  unfold live
  rw [format_withField, hf]
  dsimp only
  rw [field_withField, Function.update_self]
  dsimp only
  split
  · exact (Nat.min_le_left ..).trans (Ref.toNat_toInt_ofNat_le count)
  · exact Nat.zero_le _

namespace Machine.Realizes

variable {m : Machine} {g : Graph} {p : Placement} {starts : List Nat} {n i : Nat}
  {fields elements : List Ref} {fieldValues elementValues : List Value}

/-- An object other than the active context that is filled in. -/
theorem filled (hm : m.Realizes g p starts) (hi : p.find? n = some i)
    (htail : (g.nodes n).format.hasReferenceTail = true) (hidle : g.registers.active ≠ .object n)
    (hfields : List.Forall₂ p.Shows fields fieldValues) (hroom : fields.length ≤ (g.nodes n).fields)
    (helements : List.Forall₂ p.Shows elements elementValues)
    (hlen : elements.length ≤ (g.nodes n).len)
    (hsp : ∀ v, fieldValues[contextStackPointer]? = some v →
      (g.nodes n).format = .context ∧ v = .immediate (.ofNat elements.length)) :
    { m with
      heap := (m.heap.pokeRun (i + (headerWords + (g.nodes n).fields + 1)) elements).pokeRun
        (i + headerWords) fields }.Realizes
      (g.setNode n ((g.nodes n).filled fieldValues elementValues)) p starts := by
  have hfirst := hm.depicts.withElements hi htail helements (Nat.zero_le _)
    (by rw [Nat.zero_add]; exact hlen)
  rw [Nat.zero_add, Nat.add_zero] at hfirst
  obtain ⟨element, heq, -⟩ := (g.nodes n).withElements_eq 0 elementValues
  have hlayout : Node.SameLayout (g.nodes n) ((g.nodes n).withElements 0 elementValues) := by
    rw [heq]
    exact ⟨rfl, rfl, rfl⟩
  have hboth := hfirst.withFields hi hfields
    (by
      rw [Function.update_self, hlayout.fields, Nat.zero_add]
      exact hroom)
    (by
      intro o ho j v hv hj
      rw [Function.update_self] at ho
      rw [Nat.zero_add] at hj
      rw [hj] at hv
      obtain ⟨hf, rfl⟩ := hsp v hv
      rw [Function.update_self]
      exact (Node.live_withField_ofNat (ho.format.trans (hlayout.format.trans hf)) _).trans
        (Nat.le_max_right ..))
  rw [Function.update_self, Function.update_idem, Nat.add_zero] at hboth
  refine hm.stored (Node.sameLayout_filled ..) ?_ ?_ ?_
  · have hrest := Heap.pokeRun_rest (m.heap.pokeRun
      (i + (headerWords + (g.nodes n).fields + 1)) elements) (i + headerWords) fields
    have hrest' := Heap.pokeRun_rest m.heap (i + (headerWords + (g.nodes n).fields + 1)) elements
    have := congrArg (fun x : Heap => { x with
      memory := m.heap.memory, largeIntegers := m.heap.largeIntegers }) hrest
    exact this.trans hrest'
  · rw [Heap.size_pokeRun, Heap.size_pokeRun]
  · refine hboth.withKnown ?_ ?_
    · intro n' _ _
      exact (g.setNode n ((g.nodes n).filled fieldValues elementValues)).live_le_known n'
    · intro n' i' hi'
      by_cases hne : n' = n
      · subst hne
        rw [Graph.known_setNode_self, if_neg hidle]
        have := (hboth.shows hi).live_le
        rw [Function.update_self] at this
        exact this
      · rw [Graph.known_setNode_of_ne hne, Function.update_of_ne hne]

end Machine.Realizes

/-! ## The stores of an activation -/

namespace Heap

variable {h h' : Heap} {starts : List Nat} {i index : Nat}

theorem Touches.refl (i : Nat) (h : Heap) : Touches i h h where
  rest := rfl
  size := rfl
  outside _ _ := rfl
  layout := .refl _

/-- What lies outside an object that was stored to is read as before. -/
theorem Touches.slot_outside {position : Nat} (ht : Touches i h h')
    (hout : position < i ∨ i + (h.view i).size ≤ position) : h'.slot position = h.slot position := by
  by_cases hlt : position < h.memory.size
  · rw [slot_eq hlt, slot_eq (ht.size.symm ▸ hlt), ht.outside position hout]
  · have hlt' : ¬ position < h'.memory.size := ht.size.symm ▸ hlt
    unfold slot word
    rw [dif_neg hlt, dif_neg hlt']

/-- A store to a field of an object that was stored to before. -/
theorem Touches.storeField (ht : Touches i h h') (hl : h.LaidOut starts) (hi : i ∈ starts)
    (hallows : (h.view i).format.allowsFields = true) (hindex : index < (h.view i).fields)
    (r : Ref) :
    h'.storeField (.ofWordIndex i) index r = .ok (h'.poke (i + (headerWords + index)) r.bits) ∧
      Touches i h (h'.poke (i + (headerWords + index)) r.bits) := by
  have hl' := ht.laidOut hl hi
  have hin : headerWords + index < (h'.view i).size :=
    View.fields_lt_size (by rw [ht.layout.format_eq]; exact hallows)
      (by rw [ht.layout.fields_eq]; omega)
  have hindex' : index < (h'.view i).fields := by
    rw [ht.layout.fields_eq]
    exact hindex
  exact ⟨storeField_eq hl' hi hindex' hin r, ht.trans (touches_poke hin (hl'.fits_memory hi)
    (by simp only [headerWords]; omega) (by omega) _)⟩

/-- A store to an element of an object that was stored to before. -/
theorem Touches.storeElement (ht : Touches i h h') (hl : h.LaidOut starts) (hi : i ∈ starts)
    (htail : (h.view i).format.hasReferenceTail = true) (hindex : index < (h.view i).len)
    (r : Ref) :
    h'.storeElement (.ofWordIndex i) index r =
        .ok (h'.poke (i + ((h.view i).elements + index)) r.bits) ∧
      Touches i h (h'.poke (i + ((h.view i).elements + index)) r.bits) := by
  have hl' := ht.laidOut hl hi
  have hin : (h'.view i).elements + index < (h'.view i).size :=
    View.elements_lt_size (by rw [ht.layout.format_eq]; exact htail)
      (by rw [ht.layout.len_eq]; omega)
  have hindex' : index < (h'.view i).len := by
    rw [ht.layout.len_eq]
    exact hindex
  have hstore := storeElement_eq hl' hi hindex' hin r
  have htouch := ht.trans (touches_poke hin (hl'.fits_memory hi)
    (by simp only [View.elements]; omega) (by simp only [View.elements]; omega) r.bits)
  rw [ht.layout.elements_eq] at hstore htouch
  exact ⟨hstore, htouch⟩

end Heap

namespace Context

variable {h : Heap} {starts : List Nat} {i : Nat}

/-- The six fields of a context are stored one after the other. -/
theorem storeFields_eq (hl : h.LaidOut starts) (hi : i ∈ starts)
    (hcontext : (h.view i).format = .context) (hfields : homeField < (h.view i).fields)
    (a b c d e f : Ref) :
    ∃ h₁ h₂ h₃ h₄ h₅, h.storeField (.ofWordIndex i) senderField a = .ok h₁ ∧
      h₁.storeField (.ofWordIndex i) pcField b = .ok h₂ ∧
      h₂.storeField (.ofWordIndex i) spField c = .ok h₃ ∧
      h₃.storeField (.ofWordIndex i) methodField d = .ok h₄ ∧ h₄.nil = h.nil ∧
      h₄.storeField (.ofWordIndex i) initialPcField e = .ok h₅ ∧
      h₅.storeField (.ofWordIndex i) receiverField f =
        .ok (h.pokeRun (i + headerWords) [a, b, c, d, e, f]) ∧
      Heap.Touches i h (h.pokeRun (i + headerWords) [a, b, c, d, e, f]) := by
  have hallows : (h.view i).format.allowsFields = true := by
    rw [hcontext]
    rfl
  have hlt : ∀ k ≤ homeField, k < (h.view i).fields := fun k hk => Nat.lt_of_le_of_lt hk hfields
  obtain ⟨h₁, t₁⟩ := (Heap.Touches.refl i h).storeField hl hi hallows (hlt senderField (by decide)) a
  obtain ⟨h₂, t₂⟩ := t₁.storeField hl hi hallows (hlt pcField (by decide)) b
  obtain ⟨h₃, t₃⟩ := t₂.storeField hl hi hallows (hlt spField (by decide)) c
  obtain ⟨h₄, t₄⟩ := t₃.storeField hl hi hallows (hlt methodField (by decide)) d
  obtain ⟨h₅, t₅⟩ := t₄.storeField hl hi hallows (hlt initialPcField (by decide)) e
  obtain ⟨h₆, t₆⟩ := t₅.storeField hl hi hallows (hlt receiverField (by decide)) f
  exact ⟨_, _, _, _, _, h₁, h₂, h₃, h₄, rfl, h₅, h₆, t₆⟩

/-- Nil in the first elements. -/
theorem clearTemporaries_eq {h' : Heap} (ht : Heap.Touches i h h') (hl : h.LaidOut starts)
    (hi : i ∈ starts) (hcontext : (h.view i).format = .context) {count : Nat}
    (hcount : count ≤ (h.view i).len) :
    clearTemporaries h' (.ofWordIndex i) count =
        .ok (h'.pokeRun (i + (h.view i).elements) (List.replicate count h'.nil)) ∧
      Heap.Touches i h (h'.pokeRun (i + (h.view i).elements) (List.replicate count h'.nil)) := by
  induction count with
  | zero => exact ⟨rfl, ht⟩
  | succ count ih =>
    obtain ⟨hclear, htouch⟩ := ih (by omega)
    obtain ⟨hstore, htouch'⟩ := htouch.storeElement hl hi (by rw [hcontext]; rfl) hcount h'.nil
    have hrun : h'.pokeRun (i + (h.view i).elements) (List.replicate (count + 1) h'.nil) =
        (h'.pokeRun (i + (h.view i).elements) (List.replicate count h'.nil)).poke
          (i + ((h.view i).elements + count)) h'.nil.bits := by
      rw [List.replicate_succ', Heap.pokeRun_append, List.length_replicate, Nat.add_assoc]
      rfl
    rw [hrun]
    refine ⟨?_, htouch'⟩
    refine bind_eq_ok.mpr ⟨_, hclear, ?_⟩
    rw [Heap.nil_pokeRun]
    exact hstore

/-- Filling in a method context writes its elements and its fields. -/
theorem initMethod_eq (hl : h.LaidOut starts) (hi : i ∈ starts)
    (hcontext : (h.view i).format = .context) (hfields : homeField < (h.view i).fields)
    {tempCount : Nat} (htemps : tempCount ≤ (h.view i).len) (sender method receiver : Ref) :
    initMethod h (.ofWordIndex i) sender method receiver tempCount =
      .ok ((h.pokeRun (i + (h.view i).elements) (List.replicate tempCount h.nil)).pokeRun
        (i + headerWords) [sender, .zero, .ofNat tempCount, method, h.nil, receiver]) := by
  obtain ⟨h₁, h₂, h₃, h₄, h₅, hok₁, hok₂, hok₃, hok₄, hnil, hok₅, hok₆, ht⟩ :=
    storeFields_eq hl hi hcontext hfields sender .zero (.ofNat tempCount) method h.nil receiver
  obtain ⟨hclear, -⟩ := clearTemporaries_eq ht hl hi hcontext htemps
  rw [Heap.nil_pokeRun, Heap.pokeRun_comm _ (.inl (by
    have : homeField < (h.view i).fields := hfields
    simp only [homeField, View.elements, List.length_cons, List.length_nil] at *
    omega))] at hclear
  refine bind_eq_ok.mpr ⟨h₁, hok₁, bind_eq_ok.mpr ⟨h₂, hok₂, bind_eq_ok.mpr ⟨h₃, hok₃,
    bind_eq_ok.mpr ⟨h₄, hok₄, bind_eq_ok.mpr ⟨h₅, ?_, bind_eq_ok.mpr ⟨_, hok₆, hclear⟩⟩⟩⟩⟩⟩
  rw [hnil]
  exact hok₅

/-- Filling in a block context writes its fields. -/
theorem initBlock_eq (hl : h.LaidOut starts) (hi : i ∈ starts)
    (hcontext : (h.view i).format = .context) (hfields : homeField < (h.view i).fields)
    (caller initialPc home argCount : Ref) (sp : Nat) :
    initBlock h (.ofWordIndex i) caller initialPc home argCount sp =
        .ok (h.pokeRun (i + headerWords) [caller, initialPc, .ofNat sp, argCount, initialPc, home]) ∧
      Heap.Touches i h
        (h.pokeRun (i + headerWords) [caller, initialPc, .ofNat sp, argCount, initialPc, home]) := by
  obtain ⟨h₁, h₂, h₃, h₄, h₅, hok₁, hok₂, hok₃, hok₄, -, hok₅, hok₆, ht⟩ :=
    storeFields_eq hl hi hcontext hfields caller initialPc (.ofNat sp) argCount initialPc home
  exact ⟨bind_eq_ok.mpr ⟨h₁, hok₁, bind_eq_ok.mpr ⟨h₂, hok₂, bind_eq_ok.mpr ⟨h₃, hok₃,
    bind_eq_ok.mpr ⟨h₄, hok₄, bind_eq_ok.mpr ⟨h₅, hok₅, hok₆⟩⟩⟩⟩⟩, ht⟩

/-- Copying slots from elsewhere writes elements in a row. -/
theorem copySlots_eq {h' : Heap} (ht : Heap.Touches i h h') (hl : h.LaidOut starts)
    (hi : i ∈ starts) (htail : (h.view i).format.hasReferenceTail = true) {refs : List Ref}
    {position index : Nat} (hlen : index + refs.length ≤ (h.view i).len)
    (hapart : ∀ k < refs.length, position + k < i ∨ i + (h.view i).size ≤ position + k)
    (hslots : ∀ k r, refs[k]? = some r → h.slot (position + k) = .ok r) :
    copySlots h' (.ofWordIndex i) position index refs.length =
      .ok (h'.pokeRun (i + ((h.view i).elements + index)) refs) := by
  induction refs generalizing h' position index with
  | nil => rfl
  | cons r rest ih =>
    rw [List.length_cons] at hlen hapart
    have hindex : index < (h.view i).len := by omega
    obtain ⟨hstore, htouch⟩ := ht.storeElement hl hi htail hindex r
    have hslot : h'.slot position = .ok r :=
      (ht.slot_outside (hapart 0 (by omega))).trans (hslots 0 r rfl)
    have hlen' : index + 1 + rest.length ≤ (h.view i).len := by omega
    have hapart' : ∀ k < rest.length,
        position + 1 + k < i ∨ i + (h.view i).size ≤ position + 1 + k := by
      intro k hk
      have := hapart (k + 1) (by omega)
      omega
    have hrest := ih htouch hlen' hapart'
      (by
        intro k r' hr'
        rw [Nat.add_assoc, Nat.add_comm 1 k]
        exact hslots (k + 1) r' hr')
    exact bind_eq_ok.mpr ⟨r, hslot, bind_eq_ok.mpr ⟨_, hstore, hrest⟩⟩

end Context

end ObjectMachine
