import ObjectMachine.Proofs.Class.Probing
import ObjectMachine.Proofs.Machine.Bootstrapped

/-!
# Method dictionaries in memory

A method dictionary is a table in memory: an array of selectors and an array of methods, whose places
are free or have a symbol and a method. Its keys are the names of the symbols and not the symbols,
since names do not move. A machine has one symbol for each name, and the hash of a symbol never
changes; so looking for a symbol in memory comes to looking for its name in the table.

## Main results

* `Machine.Table`: a method dictionary that has certain places.
* `Machine.Table.lookup_some`, `Machine.Table.lookup_none`, `Machine.Table.entries`: what is read
  from it.
* `Machine.Table.insert`: adding an entry succeeds, and what it leaves.
-/

namespace ObjectMachine

/-! ## Changes to memory -/

/-- Memory in which only some objects have other words, and as many. -/
structure Heap.Changes (h : Heap) (starts changed : List Nat) (h' : Heap) : Prop where
  nil : h'.nil = h.nil
  laidOut : h'.LaidOut starts
  layout : ∀ i ∈ starts, View.SameLayout (h.view i) (h'.view i)
  header : ∀ i ∈ starts, h'.view i 0 = h.view i 0
  words : ∀ i ∈ starts, i ∉ changed → ∀ k < (h.view i).size, h'.view i k = h.view i k

namespace Heap.Changes

variable {h h' h'' : Heap} {starts changed changed' : List Nat} {i k : Nat}

theorem refl (hl : h.LaidOut starts) (changed : List Nat) : h.Changes starts changed h :=
  ⟨rfl, hl, fun _ _ => .refl _, fun _ _ => rfl, fun _ _ _ _ _ => rfl⟩

theorem trans (hc : h.Changes starts changed h') (hc' : h'.Changes starts changed h'') :
    h.Changes starts changed h'' where
  nil := hc'.nil.trans hc.nil
  laidOut := hc'.laidOut
  layout i hi := (hc.layout i hi).trans (hc'.layout i hi)
  header i hi := (hc'.header i hi).trans (hc.header i hi)
  words i hi hnot k hk := by
    rw [hc'.words i hi hnot k (by rw [(hc.layout i hi).size_eq]; exact hk), hc.words i hi hnot k hk]

theorem mono (hc : h.Changes starts changed h') (hsub : ∀ i ∈ changed, i ∈ changed') :
    h.Changes starts changed' h' :=
  ⟨hc.nil, hc.laidOut, hc.layout, hc.header, fun i hi hnot => hc.words i hi fun hmem => hnot (hsub i hmem)⟩

theorem poke (hl : h.LaidOut starts) (hi : i ∈ starts) (hpos : k ≠ 0) (hlt : k < (h.view i).size)
    (hcount : k ≠ headerWords + (h.view i).fields) (hmem : i ∈ changed) (value : UInt64) :
    h.Changes starts changed (h.poke (i + k) value) := by
  have ht := touches_poke hlt (hl.fits_memory hi) hpos hcount value
  refine ⟨ht.nil, ht.laidOut hl hi, fun j hj => ht.sameLayout hl hi hj, fun j hj => ?_,
    fun j hj hnot k' hk' => ht.view_eq hl hi hj (fun heq => hnot (heq ▸ hmem)) hk'⟩
  by_cases hne : j = i
  · subst hne
    have hfits := hl.fits_memory hi
    rw [view_poke (by omega), if_neg (Ne.symm hpos)]
  · exact ht.view_eq hl hi hj hne (Nat.lt_of_lt_of_le (by decide) (h.view j).two_le_size)

theorem ref (hc : h.Changes starts changed h') (hi : i ∈ starts) (hnot : i ∉ changed)
    (hk : k < (h.view i).size) : (h'.view i).ref k = (h.view i).ref k :=
  congrArg Ref.mk (hc.words i hi hnot k hk)

end Heap.Changes

namespace Machine

/-! ## Symbols -/

/-- The identity hash of the symbol of a name. -/
def hashOf (m : Machine) (name : String) : Nat :=
  match m.symbols.find? name with
  | some r => (m.heap.view r.wordIndex).header.identityHash
  | none => 0

theorem hashOf_of_find {m : Machine} {name : String} {r : Ref} (hr : m.symbols.find? name = some r) :
    m.hashOf name = (m.heap.view r.wordIndex).header.identityHash := by
  unfold hashOf
  rw [hr]

/-- There is one symbol for each name. -/
def OneSymbol (m : Machine) : Prop :=
  ∀ name name' r, m.symbols.find? name = some r → m.symbols.find? name' = some r → name = name'

variable {m m' : Machine} {starts : List Nat} {name name' : String} {r s method : Ref} {h : Heap}

/-- A symbol is an object, and not nil. -/
theorem Sound.symbol (hm : m.Sound starts) (hs : m.symbols.find? name = some s) :
    s ≠ m.heap.nil ∧ ∃ i ∈ starts, s = .ofWordIndex i ∧ (m.heap.view i).shape = .text := by
  have hmem := NameTable.mem_of_find? hs
  have hkind := hm.symbols s hmem
  refine ⟨fun heq => ?_, hm.laidOut.of_kind (hm.known (mem_roots.mpr (.inr (.inr (.inl hmem))))) hkind⟩
  rw [heq, Heap.kind_nil] at hkind
  cases hkind

/-- An object of another shape than that of nil is not nil. -/
theorem Sound.kind_of_shape {i : Nat} {shape : Shape} (hm : m.Sound starts) (hi : i ∈ starts)
    (hshape : (m.heap.view i).shape = shape) (hne : shape ≠ .nil) :
    m.heap.kind (.ofWordIndex i) = .object shape := by
  rw [hm.laidOut.kind_eq hi, hshape]
  intro heq
  obtain ⟨j, hj, hnil, hshape'⟩ := hm.nil
  rw [hnil] at heq
  rw [hm.laidOut.ofWordIndex_inj hi hj heq, hshape'] at hshape
  exact hne hshape.symm

theorem Sound.identityHash (hm : m.Sound starts) (hs : m.symbols.find? name = some s) :
    m.heap.identityHash s = .ok (m.hashOf name) := by
  obtain ⟨-, i, hi, rfl, -⟩ := hm.symbol hs
  unfold Heap.identityHash hashOf
  rw [hm.laidOut.header hi, hs]
  show Except.ok _ = Except.ok (m.heap.view (Ref.ofWordIndex i).wordIndex).header.identityHash
  rw [hm.laidOut.wordIndex hi]

/-- The hash of a symbol does not change with the words of objects. -/
theorem hashOf_changes {changed : List Nat} (hm : m.Sound starts)
    (hc : m.heap.Changes starts changed h) (name : String) :
    ({ m with heap := h } : Machine).hashOf name = m.hashOf name := by
  unfold hashOf
  show (match m.symbols.find? name with
    | some r => _
    | none => _) = _
  cases hs : m.symbols.find? name with
  | none => rfl
  | some s =>
    obtain ⟨-, i, hi, rfl, -⟩ := hm.symbol hs
    show (h.view (Ref.ofWordIndex i).wordIndex).header.identityHash =
      (m.heap.view (Ref.ofWordIndex i).wordIndex).header.identityHash
    rw [hm.laidOut.wordIndex hi]
    exact congrArg (Header.identityHash ∘ Header.mk) (hc.header i hi)

/-! ## Dictionaries -/

/-- The word of a class that leads to its dictionary. -/
def dictionaryWord : Nat := headerWords + Class.dictionaryField

/-- The word of a dictionary that has the number of its entries. -/
def tallyWord : Nat := headerWords + MethodDictionary.tallyField

/-- The word of a dictionary that leads to its methods. -/
def methodsWord : Nat := headerWords + MethodDictionary.methodsField

/-- A method dictionary and the array of its methods, which have certain places. The capacity is a
power of two, of which at most three quarters are used. -/
structure Table (m : Machine) (starts : List Nat) (d a : Nat) (slots : Slots String Ref) : Prop where
  selectors : d ∈ starts ∧ (m.heap.view d).shape = .dictionary
  methods : a ∈ starts ∧ (m.heap.view a).shape = .array
  link : (m.heap.view d).ref methodsWord = .ofWordIndex a
  selectors_len : (m.heap.view d).len = slots.length
  methods_len : (m.heap.view a).len = slots.length
  power : ∃ k, slots.length = 2 ^ k
  tally : (m.heap.view d).ref tallyWord = .ofNat slots.used
  load : 4 * slots.used ≤ 3 * slots.length
  free : ∀ {j : Nat}, slots[j]? = some none →
    (m.heap.view d).ref ((m.heap.view d).elements + j) = m.heap.nil
  used : ∀ {j : Nat} {name r}, slots[j]? = some (some (name, r)) →
    m.symbols.find? name = some ((m.heap.view d).ref ((m.heap.view d).elements + j)) ∧
      (m.heap.view a).ref ((m.heap.view a).elements + j) = r
  probed : slots.Probed m.hashOf

namespace Table

variable {d a j n : Nat} {slots : Slots String Ref}

theorem format_selectors (ht : m.Table starts d a slots) : (m.heap.view d).format = .array :=
  congrArg Prod.fst ht.selectors.2

theorem fields_selectors (ht : m.Table starts d a slots) :
    (m.heap.view d).fields = MethodDictionary.fieldCount :=
  congrArg Prod.snd ht.selectors.2

theorem format_methods (ht : m.Table starts d a slots) : (m.heap.view a).format = .array :=
  congrArg Prod.fst ht.methods.2

theorem pos (ht : m.Table starts d a slots) : 0 < slots.length := by
  obtain ⟨k, hk⟩ := ht.power
  rw [hk]
  exact Nat.two_pow_pos k

theorem not_full (ht : m.Table starts d a slots) : slots.used < slots.length := by
  have hpos := ht.pos
  have hload := ht.load
  omega

/-- The elements of an array are words of it. -/
theorem element_lt {i : Nat} (hf : (m.heap.view i).format = .array) (hj : j < (m.heap.view i).len) :
    (m.heap.view i).elements + j < (m.heap.view i).size :=
  View.elements_lt_size (by rw [hf]; rfl) (Nat.add_lt_add_left hj _)

theorem methodsWord_lt (ht : m.Table starts d a slots) : methodsWord < (m.heap.view d).size :=
  View.fields_lt_size (by rw [ht.format_selectors]; rfl)
    (Nat.add_lt_add_left (by rw [ht.fields_selectors]; decide) headerWords)

theorem tallyWord_lt (ht : m.Table starts d a slots) : tallyWord < (m.heap.view d).size :=
  View.fields_lt_size (by rw [ht.format_selectors]; rfl)
    (Nat.add_lt_add_left (by rw [ht.fields_selectors]; decide) headerWords)

theorem length_lt (ht : m.Table starts d a slots) (hl : m.heap.LaidOut starts) :
    slots.length < Ref.addressLimit := by
  have hpos := ht.pos
  have hlen := ht.selectors_len
  have hin := element_lt ht.format_selectors (show slots.length - 1 < (m.heap.view d).len by omega)
  have hfits := hl.fits_memory ht.selectors.1
  have haddr := hl.addressable
  have hfirst := hl.first_le ht.selectors.1
  simp only [firstWord] at hfirst
  omega

/-! ### Reading -/

theorem capacity (ht : m.Table starts d a slots) (hl : m.heap.LaidOut starts) :
    MethodDictionary.capacity m.heap (.ofWordIndex d) = .ok slots.length := by
  unfold MethodDictionary.capacity
  rw [hl.length ht.selectors.1, ht.selectors_len]

theorem fetchMethods (ht : m.Table starts d a slots) (hl : m.heap.LaidOut starts) :
    m.heap.fetchField (.ofWordIndex d) MethodDictionary.methodsField = .ok (.ofWordIndex a) := by
  rw [Heap.fetchField_eq hl ht.selectors.1 (by rw [ht.fields_selectors]; decide) ht.methodsWord_lt]
  exact congrArg Except.ok ht.link

theorem tally_eq (ht : m.Table starts d a slots) (hl : m.heap.LaidOut starts) :
    MethodDictionary.tally m.heap (.ofWordIndex d) = .ok slots.used := by
  unfold MethodDictionary.tally
  rw [Heap.fetchField_eq hl ht.selectors.1 (by rw [ht.fields_selectors]; decide) ht.tallyWord_lt]
  show Except.ok ((m.heap.view d).ref tallyWord).toCount = _
  have hlength := ht.length_lt hl
  have hused := ht.not_full
  rw [ht.tally, Ref.toCount_ofNat (by omega)]

/-- A dictionary is full if one more entry would use more than three quarters. -/
theorem isFull_eq (ht : m.Table starts d a slots) (hl : m.heap.LaidOut starts) :
    MethodDictionary.isFull m.heap (.ofWordIndex d) =
      .ok (decide (slots.length * 3 < (slots.used + 1) * 4)) := by
  have hlength := ht.length_lt hl
  have hused := ht.not_full
  simp only [Ref.addressLimit] at hlength
  have hcount : ∀ n, n < countLimit → checkedCount n = .ok n := fun n hn => if_pos hn
  unfold MethodDictionary.isFull
  rw [ht.tally_eq hl, ht.capacity hl]
  show (checkedCount _ >>= fun needed => checkedCount _ >>= fun available => _) = _
  rw [hcount _ (by simp only [countLimit]; omega), hcount _ (by simp only [countLimit]; omega)]
  rfl

/-- The selector at a place. -/
theorem fetchSelector (ht : m.Table starts d a slots) (hl : m.heap.LaidOut starts)
    (hj : j < slots.length) : m.heap.fetchElement (.ofWordIndex d) j =
      .ok ((m.heap.view d).ref ((m.heap.view d).elements + j)) :=
  Heap.fetchElement_eq hl ht.selectors.1 (by rw [ht.format_selectors]; rfl)
    (by rw [ht.selectors_len]; exact hj)

/-- The method at a place. -/
theorem fetchMethod (ht : m.Table starts d a slots) (hl : m.heap.LaidOut starts)
    (hj : slots[j]? = some (some (name, r))) :
    m.heap.fetchElement (.ofWordIndex a) j = .ok r := by
  obtain ⟨hlt, -⟩ := List.getElem?_eq_some_iff.mp hj
  rw [Heap.fetchElement_eq hl ht.methods.1 (by rw [ht.format_methods]; rfl)
    (by rw [ht.methods_len]; exact hlt), (ht.used hj).2]

/-- The methods are known. -/
theorem known (ht : m.Table starts d a slots) (hm : m.Sound starts)
    (hj : slots[j]? = some (some (name, r))) : Known starts r := by
  obtain ⟨hlt, -⟩ := List.getElem?_eq_some_iff.mp hj
  have hlive : (m.heap.view a).live = (m.heap.view a).len := by
    unfold View.live
    rw [ht.format_methods]
  have hlen := ht.methods_len
  rw [← (ht.used hj).2]
  exact hm.shaped.traced a ht.methods.1 _ (.inr (.inr ⟨by rw [ht.format_methods]; rfl, by omega,
    by omega⟩))

/-- The selector at a place is a symbol if and only if the place has its name. -/
theorem selector_eq (ht : m.Table starts d a slots) (hone : m.OneSymbol)
    (hs : m.symbols.find? name = some s) (hj : slots[j]? = some (some (name', r))) :
    (m.heap.view d).ref ((m.heap.view d).elements + j) = s ↔ name' = name := by
  obtain ⟨hfound, -⟩ := ht.used hj
  constructor
  · intro heq
    rw [heq] at hfound
    exact hone name' name s hfound hs
  · rintro rfl
    rw [hfound] at hs
    exact Option.some.inj hs

/-- Looking for a symbol in memory comes to looking for its name in the table. -/
theorem probeFrom (ht : m.Table starts d a slots) (hm : m.Sound starts) (hone : m.OneSymbol)
    (hs : m.symbols.find? name = some s) (hn : slots.Lands (m.hashOf name) name n) (k i : Nat)
    (hik : i + k = n) :
    MethodDictionary.probeFrom m.heap (.ofWordIndex d) s slots.length
      (slots.place (m.hashOf name) i) (slots.length - i) =
      .ok (some (slots.place (m.hashOf name) n)) := by
  have hl := hm.laidOut
  have hlt := hn.lt
  induction k generalizing i with
  | zero =>
    obtain rfl : i = n := by omega
    rw [show slots.length - i = (slots.length - i - 1) + 1 by omega]
    unfold MethodDictionary.probeFrom
    rw [ht.fetchSelector hl (slots.place_lt _ hlt)]
    refine if_pos ?_
    rcases hn.ends with hfree | ⟨value, hkey⟩
    · exact .inr (ht.free hfree)
    · exact .inl ((ht.selector_eq hone hs hkey).mpr rfl)
  | succ k ih =>
    obtain ⟨name', r, hslot, hne⟩ := hn.passes i (by omega)
    rw [show slots.length - i = (slots.length - (i + 1)) + 1 by omega]
    unfold MethodDictionary.probeFrom
    rw [ht.fetchSelector hl (slots.place_lt _ (by omega))]
    have hother : ¬ ((m.heap.view d).ref ((m.heap.view d).elements +
        slots.place (m.hashOf name) i) = s ∨ (m.heap.view d).ref ((m.heap.view d).elements +
        slots.place (m.hashOf name) i) = m.heap.nil) := by
      rintro (heq | heq)
      · exact hne ((ht.selector_eq hone hs hslot).mp heq)
      · exact (hm.symbol (ht.used hslot).1).1 heq
    have hnext : (slots.place (m.hashOf name) i + 1) &&& (slots.length - 1) =
        slots.place (m.hashOf name) (i + 1) := by
      obtain ⟨p, hp⟩ := ht.power
      unfold Slots.place
      rw [hp, Nat.and_two_pow_sub_one_eq_mod]
      rw [Nat.mod_add_mod, Nat.add_assoc]
    simp only [if_neg hother, hnext]
    exact ih (i + 1) (by omega)

theorem probe (ht : m.Table starts d a slots) (hm : m.Sound starts) (hone : m.OneSymbol)
    (hs : m.symbols.find? name = some s) (hn : slots.Lands (m.hashOf name) name n) :
    MethodDictionary.probe m.heap (.ofWordIndex d) s =
      .ok (some (slots.place (m.hashOf name) n)) := by
  have hpos := ht.pos
  have hstart : m.hashOf name &&& (slots.length - 1) = slots.place (m.hashOf name) 0 := by
    obtain ⟨p, hp⟩ := ht.power
    unfold Slots.place
    rw [hp, Nat.and_two_pow_sub_one_eq_mod, Nat.add_zero]
  have hrequire : require (slots.length != 0) .overflow = .ok () :=
    if_pos (bne_iff_ne.mpr hpos.ne')
  unfold MethodDictionary.probe
  rw [ht.capacity hm.laidOut]
  show (require (slots.length != 0) .overflow >>= fun _ => m.heap.identityHash s >>= fun hash =>
    MethodDictionary.probeFrom m.heap (.ofWordIndex d) s slots.length
      (hash &&& (slots.length - 1)) slots.length) = _
  rw [hrequire, hm.identityHash hs]
  show MethodDictionary.probeFrom m.heap (.ofWordIndex d) s slots.length
    (m.hashOf name &&& (slots.length - 1)) slots.length = _
  rw [hstart]
  exact ht.probeFrom hm hone hs hn n 0 (by omega)

/-- A dictionary answers the method of a name that it has. -/
theorem lookup_some (ht : m.Table starts d a slots) (hm : m.Sound starts) (hone : m.OneSymbol)
    (hs : m.symbols.find? name = some s) (hmem : some (name, r) ∈ slots) :
    MethodDictionary.lookup? m.heap (.ofWordIndex d) s = .ok (some r) := by
  obtain ⟨n, hn⟩ := slots.exists_lands (m.hashOf name) name ht.not_full
  have hslot := ht.probed.lands hn hmem
  unfold MethodDictionary.lookup?
  rw [ht.probe hm hone hs hn]
  show (m.heap.fetchElement (.ofWordIndex d) _ >>= _) = _
  rw [ht.fetchSelector hm.laidOut (slots.place_lt _ hn.lt)]
  show (if _ = s then m.heap.fetchField (.ofWordIndex d) _ >>= fun methods =>
    m.heap.fetchElement methods _ >>= _ else _) = _
  rw [if_pos ((ht.selector_eq hone hs hslot).mpr rfl), ht.fetchMethods hm.laidOut]
  show (m.heap.fetchElement (.ofWordIndex a) _ >>= _) = _
  rw [ht.fetchMethod hm.laidOut hslot]
  rfl

/-- It answers nothing for a name that it does not have. -/
theorem lookup_none (ht : m.Table starts d a slots) (hm : m.Sound starts) (hone : m.OneSymbol)
    (hs : m.symbols.find? name = some s) (hmem : ∀ r, some (name, r) ∉ slots) :
    MethodDictionary.lookup? m.heap (.ofWordIndex d) s = .ok none := by
  obtain ⟨n, hn⟩ := slots.exists_lands (m.hashOf name) name ht.not_full
  have hslot := Slots.Probed.lands_free hn hmem
  unfold MethodDictionary.lookup?
  rw [ht.probe hm hone hs hn]
  show (m.heap.fetchElement (.ofWordIndex d) _ >>= _) = _
  rw [ht.fetchSelector hm.laidOut (slots.place_lt _ hn.lt), ht.free hslot]
  show (if m.heap.nil = s then _ else _) = _
  rw [if_neg (Ne.symm (hm.symbol hs).1)]
  rfl

/-- The symbol and the method at a place. -/
def entry (m : Machine) (e : String × Ref) : Ref × Ref :=
  ((m.symbols.find? e.1).getD .null, e.2)

theorem entriesAt (ht : m.Table starts d a slots) (hm : m.Sound starts) (indices : List Nat)
    (hindices : ∀ j ∈ indices, j < slots.length) :
    MethodDictionary.entriesAt m.heap (.ofWordIndex d) (.ofWordIndex a) indices =
      .ok ((indices.filterMap fun j => slots[j]?.join).map (entry m)) := by
  have hl := hm.laidOut
  induction indices with
  | nil => rfl
  | cons j rest ih =>
    have hj := hindices j List.mem_cons_self
    have hrest := ih fun j hj => hindices j (List.mem_cons_of_mem _ hj)
    unfold MethodDictionary.entriesAt
    rw [ht.fetchSelector hl hj]
    cases hslot : slots[j] with
    | none =>
      have hfree : slots[j]? = some none := by rw [List.getElem?_eq_getElem hj, hslot]
      show (if _ = m.heap.nil then _ else _) = _
      rw [if_pos (ht.free hfree), hrest, List.filterMap_cons_none (by rw [hfree]; rfl)]
    | some e =>
      obtain ⟨name, r⟩ := e
      have hused : slots[j]? = some (some (name, r)) := by rw [List.getElem?_eq_getElem hj, hslot]
      obtain ⟨hs, -⟩ := ht.used hused
      show (if _ = m.heap.nil then _ else m.heap.fetchElement (.ofWordIndex a) j >>= _) = _
      rw [if_neg (hm.symbol hs).1, ht.fetchMethod hl hused, hrest,
        List.filterMap_cons_some (b := (name, r)) (by rw [hused]; rfl), List.map_cons]
      show Except.ok ((_, r) :: _) = _
      unfold entry
      rw [hs]
      rfl

/-- All entries are listed in the order of their places. -/
theorem entries (ht : m.Table starts d a slots) (hm : m.Sound starts) :
    MethodDictionary.entries m.heap (.ofWordIndex d) =
      .ok ((slots.filterMap id).map (entry m)) := by
  have hrange : (List.range slots.length).filterMap (fun j => slots[j]?.join) =
      slots.filterMap id := by
    have hmap : (List.range slots.length).map (fun j => slots[j]?.join) = slots := by
      apply List.ext_getElem?
      intro j
      rw [List.getElem?_map]
      by_cases hj : j < slots.length
      · rw [List.getElem?_range hj]
        simp [List.getElem?_eq_getElem hj]
      · rw [List.getElem?_eq_none (by simp; omega), List.getElem?_eq_none (by omega)]
        rfl
    conv_rhs => rw [← hmap, List.filterMap_map]
    rfl
  unfold MethodDictionary.entries
  rw [ht.fetchMethods hm.laidOut, ht.capacity hm.laidOut]
  show MethodDictionary.entriesAt m.heap (.ofWordIndex d) (.ofWordIndex a)
    (List.range slots.length) = _
  rw [ht.entriesAt hm _ fun j hj => List.mem_range.mp hj, hrange]

/-! ### Other machines -/

/-- A dictionary that was moved, or left alone, and whose symbols were. -/
theorem mapped {m' : Machine} {starts' : List Nat} {d' a' : Nat} {f : Ref → Ref}
    (ht : m.Table starts d a slots) (hd : d' ∈ starts') (ha : a' ∈ starts')
    (hdl : View.SameLayout (m.heap.view d) (m'.heap.view d'))
    (hal : View.SameLayout (m.heap.view a) (m'.heap.view a'))
    (hdr : ∀ k, (m.heap.view d).IsTraced k → (m'.heap.view d').ref k = f ((m.heap.view d).ref k))
    (har : ∀ k, (m.heap.view a).IsTraced k → (m'.heap.view a').ref k = f ((m.heap.view a).ref k))
    (hlink : f (.ofWordIndex a) = .ofWordIndex a') (hnil : m'.heap.nil = f m.heap.nil)
    (hsmall : ∀ n, f (.ofNat n) = .ofNat n)
    (hsymbols : ∀ name s, m.symbols.find? name = some s → m'.symbols.find? name = some (f s))
    (hhash : ∀ name s, m.symbols.find? name = some s → m'.hashOf name = m.hashOf name) :
    m'.Table starts' d' a' (slots.mapValues f) := by
  have hfield : ∀ {k}, k < MethodDictionary.fieldCount →
      (m.heap.view d).IsTraced (headerWords + k) := fun hk =>
    .inr (.inl ⟨by rw [ht.format_selectors]; rfl, by omega, by rw [ht.fields_selectors]; omega⟩)
  have helement : ∀ {i j}, (m.heap.view i).format = .array → j < (m.heap.view i).len →
      (m.heap.view i).IsTraced ((m.heap.view i).elements + j) := fun {i j} hf hj => by
    have hlive : (m.heap.view i).live = (m.heap.view i).len := by
      unfold View.live
      rw [hf]
    exact .inr (.inr ⟨by rw [hf]; rfl, by omega, by rw [hlive]; omega⟩)
  have hlt : ∀ {j} {slot : Option (String × Ref)}, slots[j]? = some slot → j < slots.length :=
    fun hj => (List.getElem?_eq_some_iff.mp hj).1
  refine
    { selectors := ⟨hd, hdl.shape_eq.trans ht.selectors.2⟩
      methods := ⟨ha, hal.shape_eq.trans ht.methods.2⟩
      link := (hdr _ (hfield (by decide))).trans ((congrArg f ht.link).trans hlink)
      selectors_len := by rw [hdl.len_eq, ht.selectors_len, Slots.length_mapValues]
      methods_len := by rw [hal.len_eq, ht.methods_len, Slots.length_mapValues]
      power := by rw [Slots.length_mapValues]; exact ht.power
      tally := ?_
      load := by rw [Slots.used_mapValues, Slots.length_mapValues]; exact ht.load
      free := fun {j} hj => ?_
      used := fun {j name r} hj => ?_
      probed := ?_ }
  · rw [Slots.used_mapValues]
    exact (hdr _ (hfield (by decide))).trans ((congrArg f ht.tally).trans (hsmall _))
  · have hj := Slots.mapValues_free.mp hj
    rw [hdl.elements_eq, hdr _ (helement ht.format_selectors (by rw [ht.selectors_len]; exact hlt hj)),
      ht.free hj, hnil]
  · obtain ⟨old, hold, rfl⟩ := Slots.mapValues_used.mp hj
    obtain ⟨hfound, hmethod⟩ := ht.used hold
    constructor
    · rw [hdl.elements_eq,
        hdr _ (helement ht.format_selectors (by rw [ht.selectors_len]; exact hlt hold))]
      exact hsymbols _ _ hfound
    · rw [hal.elements_eq,
        har _ (helement ht.format_methods (by rw [ht.methods_len]; exact hlt hold)), hmethod]
  · refine (ht.probed.mapValues f).congr fun name r hmem => ?_
    obtain ⟨old, hmem, -⟩ := Slots.mem_mapValues.mp hmem
    obtain ⟨j, hj⟩ := Slots.mem_iff.mp hmem
    exact hhash _ _ (ht.used hj).1

/-- A dictionary in a machine with other words elsewhere. -/
theorem changes {changed : List Nat} (ht : m.Table starts d a slots) (hm : m.Sound starts)
    (hc : m.heap.Changes starts changed h) (hd : d ∉ changed) (ha : a ∉ changed) :
    ({ m with heap := h } : Machine).Table starts d a slots := by
  have hmapped : ({ m with heap := h } : Machine).Table starts d a (slots.mapValues id) :=
    ht.mapped ht.selectors.1 ht.methods.1 (hc.layout _ ht.selectors.1) (hc.layout _ ht.methods.1)
      (fun k hk => hc.ref ht.selectors.1 hd hk.bounds.2)
      (fun k hk => hc.ref ht.methods.1 ha hk.bounds.2) rfl hc.nil (fun _ => rfl) (fun _ _ hs => hs)
      fun name _ _ => hashOf_changes hm hc name
  rwa [Slots.mapValues_id] at hmapped

/-! ### Adding an entry -/

/-- The two arrays of a dictionary are different objects. -/
theorem ne (ht : m.Table starts d a slots) : d ≠ a := by
  rintro rfl
  have hshape := ht.selectors.2.symm.trans ht.methods.2
  cases hshape

/-- A dictionary in which the places are what they were but for one, which has a symbol and a
method. -/
theorem updated {place : Nat} (ht : m.Table starts d a slots) (hm : m.Sound starts)
    (hc : m.heap.Changes starts [d, a] h) (hs : m.symbols.find? name = some s)
    (hn : slots.Lands (m.hashOf name) name n) (hplace : slots.place (m.hashOf name) n = place)
    (hd : ∀ j < slots.length, (h.view d).ref ((m.heap.view d).elements + j) =
      if j = place then s else (m.heap.view d).ref ((m.heap.view d).elements + j))
    (ha : ∀ j < slots.length, (h.view a).ref ((m.heap.view a).elements + j) =
      if j = place then method else (m.heap.view a).ref ((m.heap.view a).elements + j))
    (hlink : (h.view d).ref methodsWord = .ofWordIndex a)
    (htally : (h.view d).ref tallyWord = .ofNat (Slots.used (slots.set place (some (name, method)))))
    (hload : 4 * Slots.used (slots.set place (some (name, method))) ≤ 3 * slots.length) :
    ({ m with heap := h } : Machine).Table starts d a (slots.set place (some (name, method))) := by
  have hdl := hc.layout _ ht.selectors.1
  have hal := hc.layout _ ht.methods.1
  have hlt := slots.place_lt (m.hashOf name) hn.lt
  rw [hplace] at hlt
  have hbelow : ∀ {j} {slot : Option (String × Ref)}, slots[j]? = some slot → j < slots.length :=
    fun hj => (List.getElem?_eq_some_iff.mp hj).1
  refine
    { selectors := ⟨ht.selectors.1, hdl.shape_eq.trans ht.selectors.2⟩
      methods := ⟨ht.methods.1, hal.shape_eq.trans ht.methods.2⟩
      link := hlink
      selectors_len := by rw [List.length_set]; exact hdl.len_eq.trans ht.selectors_len
      methods_len := by rw [List.length_set]; exact hal.len_eq.trans ht.methods_len
      power := by rw [List.length_set]; exact ht.power
      tally := htally
      load := by rwa [List.length_set]
      free := fun {j} hj => ?_
      used := fun {j name' r} hj => ?_
      probed := ?_ }
  · show (h.view d).ref ((h.view d).elements + j) = h.nil
    by_cases hne : j = place
    · rw [hne, List.getElem?_set_self hlt] at hj
      cases hj
    · rw [List.getElem?_set_ne (Ne.symm hne)] at hj
      rw [hdl.elements_eq, hd j (hbelow hj), if_neg hne, ht.free hj, hc.nil]
  · show m.symbols.find? name' = some ((h.view d).ref ((h.view d).elements + j)) ∧
      (h.view a).ref ((h.view a).elements + j) = r
    rw [hdl.elements_eq, hal.elements_eq]
    by_cases hne : j = place
    · rw [hne, List.getElem?_set_self hlt] at hj
      cases hj
      rw [hne, hd _ hlt, ha _ hlt, if_pos rfl, if_pos rfl]
      exact ⟨hs, rfl⟩
    · rw [List.getElem?_set_ne (Ne.symm hne)] at hj
      rw [hd j (hbelow hj), ha j (hbelow hj), if_neg hne, if_neg hne]
      exact ht.used hj
  · have hset := ht.probed.set hn method
    rw [hplace] at hset
    exact hset.congr fun name' _ _ => hashOf_changes hm hc name'

/-- The words of a dictionary that are no elements. -/
theorem word_lt_elements (ht : m.Table starts d a slots) :
    tallyWord < (m.heap.view d).elements ∧ methodsWord < (m.heap.view d).elements := by
  unfold View.elements
  rw [ht.fields_selectors]
  decide

/-- A word of one of the two arrays gets another value. -/
theorem changes_poke {g : Heap} {i k : Nat} (hc : m.heap.Changes starts [d, a] g) (hi : i ∈ starts)
    (hmem : i ∈ [d, a]) (hpos : k ≠ 0) (hlt : k < (m.heap.view i).size)
    (hcount : k ≠ headerWords + (m.heap.view i).fields) (value : Ref) :
    m.heap.Changes starts [d, a] (g.poke (i + k) value.bits) ∧
      (∀ l, ((g.poke (i + k) value.bits).view i).ref l =
        if l = k then value else (g.view i).ref l) ∧
      ∀ j ∈ starts, j ≠ i → ∀ l < (m.heap.view j).size,
        ((g.poke (i + k) value.bits).view j).ref l = (g.view j).ref l := by
  have hlayout := hc.layout i hi
  have hfits := hc.laidOut.fits_memory hi
  have hlt' : k < (g.view i).size := by rw [hlayout.size_eq]; exact hlt
  have hcount' : k ≠ headerWords + (g.view i).fields := by rw [hlayout.fields_eq]; exact hcount
  refine ⟨hc.trans (.poke hc.laidOut hi hpos hlt' hcount' hmem _), fun l => ?_,
    fun j hj hne l hl => ?_⟩
  · unfold View.ref
    rw [Heap.view_poke (by omega)]
    split <;> rfl
  · have htouches := Heap.touches_poke hlt' hfits hpos hcount' value.bits
    exact congrArg Ref.mk (htouches.view_eq hc.laidOut hi hj hne
      (by rw [(hc.layout j hj).size_eq]; exact hl))

/-- An element of one of the two arrays is stored. -/
theorem storeElement_eq {g : Heap} {i j : Nat} (hc : m.heap.Changes starts [d, a] g)
    (hi : i ∈ starts) (hf : (m.heap.view i).format = .array) (hj : j < (m.heap.view i).len)
    (value : Ref) : g.storeElement (.ofWordIndex i) j value =
      .ok (g.poke (i + ((m.heap.view i).elements + j)) value.bits) := by
  have hlayout := hc.layout i hi
  rw [Heap.storeElement_eq hc.laidOut hi (by rw [hlayout.len_eq]; exact hj)
    (by rw [hlayout.elements_eq, hlayout.size_eq]; exact element_lt hf hj), hlayout.elements_eq]

/-- A field of a dictionary is read from memory in which only the two arrays have changed. -/
theorem fetchField_eq {g : Heap} {index : Nat} (ht : m.Table starts d a slots)
    (hc : m.heap.Changes starts [d, a] g) (hindex : index < MethodDictionary.fieldCount) :
    g.fetchField (.ofWordIndex d) index = .ok ((g.view d).ref (headerWords + index)) := by
  have hlayout := hc.layout d ht.selectors.1
  have hlt : index < (g.view d).fields := by rw [hlayout.fields_eq, ht.fields_selectors]; exact hindex
  exact Heap.fetchField_eq hc.laidOut ht.selectors.1 hlt
    (View.fields_lt_size (by rw [hlayout.format_eq, ht.format_selectors]; rfl) (by omega))

/-- A symbol and a method are put where looking for the symbol ends, if there is room. -/
theorem insert (ht : m.Table starts d a slots) (hm : m.Sound starts) (hone : m.OneSymbol)
    (hs : m.symbols.find? name = some s) (hn : slots.Lands (m.hashOf name) name n)
    (hroom : (∃ old, some (name, old) ∈ slots) ∨ 4 * (slots.used + 1) ≤ 3 * slots.length)
    (method : Ref) :
    ∃ h, MethodDictionary.insert m.heap (.ofWordIndex d) s method = .ok h ∧
      m.heap.Changes starts [d, a] h ∧
      ({ m with heap := h } : Machine).Table starts d a
        (slots.set (slots.place (m.hashOf name) n) (some (name, method))) := by
  have hl := hm.laidOut
  have hlt := slots.place_lt (m.hashOf name) hn.lt
  generalize hplace : slots.place (m.hashOf name) n = place at hlt
  have helements : ∀ i, headerWords + (m.heap.view i).fields < (m.heap.view i).elements := fun i =>
    Nat.lt_succ_self _
  have hdlt : place < (m.heap.view d).len := by rw [ht.selectors_len]; exact hlt
  have halt : place < (m.heap.view a).len := by rw [ht.methods_len]; exact hlt
  have hfields := ht.word_lt_elements
  have hbound : ∀ {j}, j < slots.length →
      (m.heap.view d).elements + j < (m.heap.view d).size ∧
        (m.heap.view a).elements + j < (m.heap.view a).size := fun hj =>
    ⟨element_lt ht.format_selectors (by rw [ht.selectors_len]; exact hj),
      element_lt ht.format_methods (by rw [ht.methods_len]; exact hj)⟩
  unfold MethodDictionary.insert
  rw [ht.probe hm hone hs hn, hplace]
  show ∃ h, (m.heap.fetchElement (.ofWordIndex d) place >>= _) = .ok h ∧ _
  rw [ht.fetchSelector hl hlt]
  show ∃ h, (if decide (_ = s) = true then m.heap.fetchField (.ofWordIndex d) _ >>= fun methods =>
    m.heap.storeElement methods place method else MethodDictionary.claim m.heap (.ofWordIndex d) s place
      >>= fun h => h.fetchField (.ofWordIndex d) _ >>= fun methods =>
        h.storeElement methods place method) = .ok h ∧ _
  by_cases hpresent : ∃ old, some (name, old) ∈ slots
  · obtain ⟨old, hold⟩ := hpresent
    have hslot := ht.probed.lands hn hold
    rw [hplace] at hslot
    have hkey := (ht.selector_eq hone hs hslot).mpr rfl
    obtain ⟨hc, hviews, hothers⟩ := changes_poke (.refl hl [d, a]) ht.methods.1 (by simp)
      (by have := helements a; omega) (hbound hlt).2 (by have := helements a; omega) method
    have hd := hothers d ht.selectors.1 ht.ne
    refine ⟨_, ?_, hc, ht.updated hm hc hs hn hplace (fun j hj => ?_) (fun j hj => ?_) ?_ ?_ ?_⟩
    · rw [if_pos (decide_eq_true hkey), ht.fetchMethods hl]
      exact storeElement_eq (.refl hl [d, a]) ht.methods.1 ht.format_methods halt method
    · rw [hd _ (hbound hj).1]
      split
      · rename_i heq
        rw [heq, hkey]
      · rfl
    · rw [hviews]
      simp only [Nat.add_left_cancel_iff]
    · rw [hd _ ht.methodsWord_lt]
      exact ht.link
    · rw [hd _ ht.tallyWord_lt, Slots.used_set_used hslot]
      exact ht.tally
    · rw [Slots.used_set_used hslot]
      exact ht.load
  · have hload := hroom.resolve_left hpresent
    have hslot := Slots.Probed.lands_free hn fun old hold => hpresent ⟨old, hold⟩
    rw [hplace] at hslot
    have hkey : (m.heap.view d).ref ((m.heap.view d).elements + place) ≠ s := by
      rw [ht.free hslot]
      exact Ne.symm (hm.symbol hs).1
    -- The selector, the number of entries and the method are stored one after the other.
    have hstore₁ := storeElement_eq (.refl hl [d, a]) ht.selectors.1 ht.format_selectors hdlt s
    obtain ⟨hc₁, hviews₁, hothers₁⟩ := changes_poke (.refl hl [d, a]) ht.selectors.1 (by simp)
      (by have := helements d; omega) (hbound hlt).1 (by have := helements d; omega) s
    generalize m.heap.poke (d + ((m.heap.view d).elements + place)) s.bits = h₁ at *
    have htally₁ : MethodDictionary.tally h₁ (.ofWordIndex d) = .ok slots.used := by
      have hlength := ht.length_lt hl
      have hused := ht.not_full
      unfold MethodDictionary.tally
      rw [ht.fetchField_eq hc₁ (by decide)]
      show Except.ok ((h₁.view d).ref tallyWord).toCount = _
      rw [hviews₁, if_neg (by omega), ht.tally, Ref.toCount_ofNat (by omega)]
    have hstore₂ : h₁.storeField (.ofWordIndex d) MethodDictionary.tallyField
        (.ofNat (slots.used + 1)) = .ok (h₁.poke (d + tallyWord) (Ref.ofNat (slots.used + 1)).bits) :=
      Heap.storeField_eq hc₁.laidOut ht.selectors.1
        (by rw [(hc₁.layout d ht.selectors.1).fields_eq, ht.fields_selectors]; decide)
        (by rw [(hc₁.layout d ht.selectors.1).size_eq]; exact ht.tallyWord_lt) _
    obtain ⟨hc₂, hviews₂, hothers₂⟩ := changes_poke hc₁ ht.selectors.1 (k := tallyWord) (by simp)
      (by decide) ht.tallyWord_lt (by rw [ht.fields_selectors]; decide) (.ofNat (slots.used + 1))
    generalize h₁.poke (d + tallyWord) (Ref.ofNat (slots.used + 1)).bits = h₂ at *
    have hlink₂ : (h₂.view d).ref methodsWord = .ofWordIndex a := by
      rw [hviews₂, if_neg (by decide), hviews₁, if_neg (by omega)]
      exact ht.link
    have hstore₃ := storeElement_eq hc₂ ht.methods.1 ht.format_methods halt method
    obtain ⟨hc₃, hviews₃, hothers₃⟩ := changes_poke hc₂ ht.methods.1 (by simp)
      (by have := helements a; omega) (hbound hlt).2 (by have := helements a; omega) method
    have hd := hothers₃ d ht.selectors.1 ht.ne
    refine ⟨_, ?_, hc₃, ht.updated hm hc₃ hs hn hplace (fun j hj => ?_) (fun j hj => ?_) ?_ ?_ ?_⟩
    · rw [if_neg (by simpa using hkey)]
      unfold MethodDictionary.claim
      rw [hstore₁]
      show ((MethodDictionary.tally h₁ _ >>= fun n => _) >>= _) = _
      rw [htally₁]
      show (h₁.storeField _ _ _ >>= _) = _
      rw [hstore₂]
      show (h₂.fetchField _ _ >>= _) = _
      rw [ht.fetchField_eq hc₂ (by decide)]
      show h₂.storeElement ((h₂.view d).ref methodsWord) place method = _
      rw [hlink₂]
      exact hstore₃
    · rw [hd _ (hbound hj).1, hviews₂, if_neg (by omega), hviews₁]
      simp only [Nat.add_left_cancel_iff]
    · rw [hviews₃, hothers₂ a ht.methods.1 ht.ne.symm _ (hbound hj).2,
        hothers₁ a ht.methods.1 ht.ne.symm _ (hbound hj).2]
      simp only [Nat.add_left_cancel_iff]
    · rw [hd _ ht.methodsWord_lt]
      exact hlink₂
    · rw [hd _ ht.tallyWord_lt, hviews₂, if_pos rfl, Slots.used_set_free hslot]
    · rw [Slots.used_set_free hslot]
      exact hload

/-- The arrays of a dictionary are no classes. -/
theorem ne_cls {c : Nat} (ht : m.Table starts d a slots) (hc : (m.heap.view c).shape = .cls) :
    c ≠ d ∧ c ≠ a := by
  constructor <;> rintro rfl
  · rw [ht.selectors.2] at hc
    cases hc
  · rw [ht.methods.2] at hc
    cases hc

/-- The arrays of a dictionary are no kernel classes. -/
theorem ne_kernel (ht : m.Table starts d a slots) (hm : m.Sound starts) (k : KernelClass) :
    m.core.cls k ≠ .ofWordIndex d ∧ m.core.cls k ≠ .ofWordIndex a := by
  have hl := hm.laidOut
  obtain ⟨i, hi, heq, hclass⟩ := hl.of_kind (hm.known (root_cls m k))
    (hm.classes _ (Vector.mem_toList_iff.mpr (mem_classes m.core k)))
  rw [heq]
  exact ⟨fun h => (ht.ne_cls hclass).1 (hl.ofWordIndex_inj hi ht.selectors.1 h),
    fun h => (ht.ne_cls hclass).2 (hl.ofWordIndex_inj hi ht.methods.1 h)⟩

theorem kind_selectors (ht : m.Table starts d a slots) (hm : m.Sound starts) :
    m.heap.kind (.ofWordIndex d) = .object .dictionary :=
  hm.kind_of_shape ht.selectors.1 ht.selectors.2 (by decide)

/-- Adding an entry keeps the machine sound. -/
theorem sound_insert (ht : m.Table starts d a slots) (hm : m.Sound starts) (hs : Known starts s)
    (hmethod : Known starts method)
    (hok : MethodDictionary.insert m.heap (.ofWordIndex d) s method = .ok h) :
    ({ m with heap := h } : Machine).Sound starts := by
  have hstage : Stage (.any m.pinned.size) [] m starts := by
    refine ⟨hm, Nat.le_refl _, ?_, trivial⟩
    unfold Pins
    rw [show (Watch.any m.pinned.size).base = m.pinned.toList.length from rfl, List.drop_length]
    exact .nil
  have hd : (Mark.of .dictionary).Holds (.any m.pinned.size) m starts (.ofWordIndex d) :=
    ⟨fun _ => ⟨d, ht.selectors.1, rfl⟩, ht.kind_selectors hm, fun _ h => nomatch h⟩
  exact (hstage.insert (Watch.closed_any _) (hd.toFits.withWritable trivial) hs hmethod hok).1.sound

/-- Entries of other names are added one after the other, if there is room for all of them. -/
theorem insertAll (ht : m.Table starts d a slots) (hm : m.Sound starts) (hone : m.OneSymbol)
    (added : List (String × Ref)) (hsymbols : ∀ e ∈ added, ∃ s, m.symbols.find? e.1 = some s)
    (hmethods : ∀ e ∈ added, Known starts e.2) (hnodup : (added.map Prod.fst).Nodup)
    (hnew : ∀ e ∈ added, ∀ r, some (e.1, r) ∉ slots)
    (hroom : 4 * (slots.used + added.length) ≤ 3 * slots.length) :
    ∃ h slots', Machine.insertAll m.heap (.ofWordIndex d) (added.map (entry m)) = .ok h ∧
      m.heap.Changes starts [d, a] h ∧ ({ m with heap := h } : Machine).Sound starts ∧
      ({ m with heap := h } : Machine).Table starts d a slots' ∧
      slots'.used = slots.used + added.length ∧ slots'.length = slots.length ∧
      ∀ name r, some (name, r) ∈ slots' ↔ some (name, r) ∈ slots ∨ (name, r) ∈ added := by
  induction added generalizing m slots with
  | nil =>
    refine ⟨m.heap, slots, rfl, .refl hm.laidOut _, hm, ht, rfl, rfl, fun name r => ?_⟩
    simp
  | cons e rest ih =>
    obtain ⟨name, method⟩ := e
    obtain ⟨s, (hs : m.symbols.find? name = some s)⟩ := hsymbols _ List.mem_cons_self
    have hnot := hnew (name, method) List.mem_cons_self
    rw [List.map_cons, List.nodup_cons] at hnodup
    rw [List.length_cons] at hroom ⊢
    obtain ⟨n, hn⟩ := slots.exists_lands (m.hashOf name) name ht.not_full
    obtain ⟨h₁, hinsert, hc₁, ht₁⟩ := ht.insert hm hone hs hn (.inr (by omega)) method
    have hmem := NameTable.mem_of_find? hs
    have hm₁ := ht.sound_insert hm (hm.known (mem_roots.mpr (.inr (.inr (.inl hmem)))))
      (hmethods _ List.mem_cons_self) hinsert
    have hused : Slots.used (slots.set (slots.place (m.hashOf name) n) (some (name, method))) =
        slots.used + 1 := Slots.used_set_free (Slots.Probed.lands_free hn hnot) _
    have hnew₁ : ∀ e ∈ rest, ∀ r, some (e.1, r) ∉
        slots.set (slots.place (m.hashOf name) n) (some (name, method)) := by
      intro e he r hin
      rw [ht.probed.mem_set hn] at hin
      rcases hin with ⟨heq, -⟩ | ⟨-, hold⟩
      · exact hnodup.1 (List.mem_map.mpr ⟨e, he, heq⟩)
      · exact hnew e (List.mem_cons_of_mem _ he) r hold
    obtain ⟨h₂, slots₂, hrest, hc₂, hm₂, ht₂, hused₂, hlen₂, hmem₂⟩ := ih ht₁ hm₁ hone
      (fun e he => hsymbols e (List.mem_cons_of_mem _ he))
      (fun e he => hmethods e (List.mem_cons_of_mem _ he)) hnodup.2 hnew₁
      (by rw [hused, List.length_set]; omega)
    refine ⟨h₂, slots₂, ?_, hc₁.trans hc₂, hm₂, ht₂, by omega, by rw [hlen₂, List.length_set], ?_⟩
    · rw [List.map_cons]
      show (MethodDictionary.insert m.heap _ ((m.symbols.find? name).getD .null) method >>= fun h =>
        Machine.insertAll h _ _) = _
      rw [hs]
      show (MethodDictionary.insert m.heap _ s method >>= fun h => Machine.insertAll h _ _) = _
      rw [hinsert]
      exact hrest
    · intro name' r
      rw [hmem₂, ht.probed.mem_set hn, List.mem_cons, Prod.mk.injEq]
      constructor
      · rintro ((heq | ⟨-, hold⟩) | hin)
        · exact .inr (.inl heq)
        · exact .inl hold
        · exact .inr (.inr hin)
      · rintro (hold | heq | hin)
        · refine .inl (.inr ⟨?_, hold⟩)
          rintro rfl
          exact hnot r hold
        · exact .inl (.inl heq)
        · exact .inr hin

end Table

end Machine

end ObjectMachine
