import ObjectMachine.Proofs.Graph.Making

/-!
# Method dictionaries and lookup

Method dictionaries and chains of superclasses in graphs. A walk along a chain that comes to an end
passes no object twice, so that it is not longer than memory.

## Main results

* `Writes.insert`: an entry is added to a dictionary.
* `Reads.lookupMethod?`: a lookup along a chain of superclasses.
-/

namespace ObjectMachine

/-! ## Method dictionaries -/

namespace Graph

variable (g : Graph)

/-- The number of entries of a method dictionary. -/
def tally (dictionary : Value) : Option Nat :=
  g.field dictionary MethodDictionary.tallyField >>= fun count => count.bits?.map Ref.toCount

/-- Whether one more entry would fill more than three quarters. -/
def isFull (dictionary : Value) : Option Bool := do
  let tally ← g.tally dictionary
  let o ← g.nodeOf dictionary .array
  if tally ≤ o.len then some (decide (o.len * 3 < (tally + 1) * 4)) else none

/-- Probes some slots from an index on. -/
def probeFrom (dictionary selector : Value) (capacity index : Nat) : Nat → Option (Option Nat)
  | 0 => some none
  | fuel + 1 => do
    let key ← g.element dictionary index
    if key = selector ∨ key = g.nil then some (some index)
    else probeFrom dictionary selector capacity ((index + 1) &&& (capacity - 1)) fuel

/-- The slot that holds a selector, or the free one where it would go. -/
def probe (dictionary selector : Value) : Option (Option Nat) := do
  let capacity ← g.length dictionary
  let hash ← g.hash selector
  if capacity = 0 then none
  else g.probeFrom dictionary selector capacity (hash &&& (capacity - 1)) capacity

/-- The method of a selector. -/
def methodAt? (dictionary selector : Value) : Option (Option Value) := do
  match ← g.probe dictionary selector with
  | none => some none
  | some index =>
    if (← g.element dictionary index) = selector then
      some (← g.element (← g.field dictionary MethodDictionary.methodsField) index)
    else some none

/-- Puts a selector into a free slot and counts it. -/
def claim (dictionary selector : Value) (index : Nat) : Option Graph := do
  let g ← g.storeElement dictionary index selector
  let tally ← g.tally dictionary
  g.storeField dictionary MethodDictionary.tallyField (.immediate (.ofNat (tally + 1)))

/-- Adds an entry or replaces the one with the same selector. -/
def insert (dictionary selector method : Value) : Option Graph := do
  match ← g.probe dictionary selector with
  | none => none
  | some index =>
    let present := decide ((← g.element dictionary index) = selector)
    let g ← if present then some g else g.claim dictionary selector index
    g.storeElement (← g.field dictionary MethodDictionary.methodsField) index method

/-- The entries at some indices. -/
def entriesAt (dictionary methods : Value) : List Nat → Option (List (Value × Value))
  | [] => some []
  | index :: rest => do
    let key ← g.element dictionary index
    if key = g.nil then entriesAt dictionary methods rest
    else
      let method ← g.element methods index
      return (key, method) :: (← entriesAt dictionary methods rest)

/-- All entries in the order of their slots. -/
def entries (dictionary : Value) : Option (List (Value × Value)) := do
  let methods ← g.field dictionary MethodDictionary.methodsField
  g.entriesAt dictionary methods (List.range (← g.length dictionary))

/-- Puts entries into a method dictionary. -/
def insertAll (g : Graph) (dictionary : Value) : List (Value × Value) → Option Graph
  | [] => some g
  | (selector, method) :: rest => do
    let g ← g.insert dictionary selector method
    insertAll g dictionary rest

end Graph

namespace Reads

variable {p : Placement} {dictionary selector methods : Ref}
  {dictionaryValue selectorValue methodsValue : Value} {capacity index : Nat}

/-- The word of an immediate value. -/
theorem bits {f : Machine → Except Fatal Ref} {φ : Graph → Option Value} (hf : Reads p f φ)
    {α : Type} [Depicted α α] (h : Ref → α) (hrefl : ∀ a, Depicted.shows p (h a) (h a)) :
    Reads p (fun m => f m >>= fun r => .ok (h r)) fun g => φ g >>= fun v => v.bits?.map h := by
  intro m g starts hm b hb
  obtain ⟨v, hv, hb⟩ := Option.bind_eq_some_iff.mp hb
  obtain ⟨a, hbits, rfl⟩ := Option.map_eq_some_iff.mp hb
  obtain ⟨r, hr, hshows⟩ := hf m g starts hm v hv
  cases v with
  | object n => cases hbits
  | immediate r' =>
    cases hbits
    obtain ⟨rfl, -⟩ := hshows
    refine ⟨h r, ?_, hrefl _⟩
    show (f m >>= _) = _
    rw [hr]
    rfl

theorem tally (hd : p.Shows dictionary dictionaryValue) :
    Reads p (fun m => MethodDictionary.tally m.heap dictionary) (·.tally dictionaryValue) :=
  bits (field hd _) Ref.toCount fun _ => rfl

theorem isFull (hd : p.Shows dictionary dictionaryValue) :
    Reads p (fun m => MethodDictionary.isFull m.heap dictionary) (·.isFull dictionaryValue) := by
  intro m g starts hm b hb
  obtain ⟨tally', htally, hb⟩ := Option.bind_eq_some_iff.mp hb
  obtain ⟨o, ho, hb⟩ := Option.bind_eq_some_iff.mp hb
  obtain ⟨t, ht, rfl⟩ := tally hd m g starts hm _ htally
  obtain ⟨n, i, rfl, rfl, hformat, hi, rfl⟩ := Machine.Holds.object hd ho
  have hlength := hm.depicts.laidOut.length (hm.depicts.placed hi)
  rw [(hm.depicts.shows hi).len] at hlength
  have hlen := hm.len_le hi (by rw [hformat]; rfl)
  split at hb <;> cases hb
  simp only [Ref.addressLimit] at hlen
  refine ⟨_, ?_, rfl⟩
  have hneeded : checkedCount ((t + 1) * 4) = .ok ((t + 1) * 4) :=
    if_pos (by simp only [countLimit]; omega)
  have havailable : checkedCount ((g.nodes n).len * 3) = .ok ((g.nodes n).len * 3) :=
    if_pos (by simp only [countLimit]; omega)
  show MethodDictionary.isFull m.heap (.ofWordIndex i) = _
  have ht' : MethodDictionary.tally m.heap (.ofWordIndex i) = .ok t := ht
  unfold MethodDictionary.isFull MethodDictionary.capacity
  simp only [ht', hlength, hneeded, havailable, Bind.bind, Except.bind, Pure.pure,
    Except.pure]

/-- Keys are compared with the selector and with nil. -/
theorem probeFrom (hd : p.Shows dictionary dictionaryValue) (hs : p.Shows selector selectorValue)
    (fuel : Nat) :
    Reads p (fun m => MethodDictionary.probeFrom m.heap dictionary selector capacity index fuel)
      (·.probeFrom dictionaryValue selectorValue capacity index fuel) := by
  induction fuel generalizing index with
  | zero => exact pure .none
  | succ fuel ih =>
    intro m g starts hm b hb
    obtain ⟨key, hkey, hb⟩ := Option.bind_eq_some_iff.mp hb
    obtain ⟨k, hk, hshows⟩ := element hd index m g starts hm _ hkey
    have hiff := or_congr (hshows.eq_iff hs) (hshows.eq_iff hm.nil)
    show ∃ a, MethodDictionary.probeFrom m.heap dictionary selector capacity index (fuel + 1) = _ ∧ _
    unfold MethodDictionary.probeFrom
    rw [show m.heap.fetchElement dictionary index = .ok k from hk]
    dsimp only
    split at hb
    · rename_i hfound
      cases hb
      rw [if_pos (hiff.mpr hfound)]
      exact ⟨_, rfl, .some rfl⟩
    · rename_i hnot
      rw [if_neg (mt hiff.mp hnot)]
      exact ih m g starts hm b hb

theorem probe (hd : p.Shows dictionary dictionaryValue) (hs : p.Shows selector selectorValue) :
    Reads p (fun m => MethodDictionary.probe m.heap dictionary selector)
      (·.probe dictionaryValue selectorValue) := by
  intro m g starts hm b hb
  obtain ⟨capacity, hcapacity, hb⟩ := Option.bind_eq_some_iff.mp hb
  obtain ⟨hash', hhash, hb⟩ := Option.bind_eq_some_iff.mp hb
  obtain ⟨c, hc, rfl⟩ := length hd m g starts hm _ hcapacity
  obtain ⟨x, hx, rfl⟩ := hash hs m g starts hm _ hhash
  split at hb
  · cases hb
  rename_i hne
  obtain ⟨a, ha, hab⟩ := probeFrom hd hs c m g starts hm b hb
  refine ⟨a, ?_, hab⟩
  have hc' : m.heap.length dictionary = .ok c := hc
  have hx' : m.heap.identityHash selector = .ok x := hx
  have hrequire : require (c != 0) .overflow = .ok () := if_pos (by simpa using hne)
  show MethodDictionary.probe m.heap dictionary selector = _
  unfold MethodDictionary.probe MethodDictionary.capacity
  simp only [hc', hrequire, hx', Bind.bind, Except.bind]
  exact ha

theorem methodAt? (hd : p.Shows dictionary dictionaryValue) (hs : p.Shows selector selectorValue) :
    Reads p (fun m => MethodDictionary.lookup? m.heap dictionary selector)
      (·.methodAt? dictionaryValue selectorValue) := by
  refine (probe hd hs).bind fun found found' hfound => ?_
  cases hfound with
  | none => exact pure .none
  | some heq =>
    cases heq
    refine (element hd _).bind fun key key' hkey => ?_
    refine ite (hkey.eq_iff hs) ?_ (pure .none)
    refine (field hd _).bind fun methods methodsValue hm => ?_
    exact (element hm _).bind fun _ _ hab => pure (.some hab)

theorem entriesAt (hd : p.Shows dictionary dictionaryValue) (hm : p.Shows methods methodsValue)
    (indices : List Nat) :
    Reads p (fun m => MethodDictionary.entriesAt m.heap dictionary methods indices)
      (·.entriesAt dictionaryValue methodsValue indices) := by
  induction indices with
  | nil => exact pure .nil
  | cons index rest ih =>
    intro m g starts hmg b hb
    obtain ⟨key', hkey, hb⟩ := Option.bind_eq_some_iff.mp hb
    obtain ⟨key, hk, hshows⟩ := element hd index m g starts hmg _ hkey
    have hk' : m.heap.fetchElement dictionary index = .ok key := hk
    show ∃ a, MethodDictionary.entriesAt m.heap dictionary methods (index :: rest) = _ ∧ _
    unfold MethodDictionary.entriesAt
    rw [hk']
    have hiff := hshows.eq_iff hmg.nil
    show ∃ a, (if key = m.heap.nil then _ else _) = _ ∧ _
    split at hb
    · rename_i hfree
      rw [if_pos (hiff.mpr hfree)]
      exact ih m g starts hmg b hb
    · rename_i hused
      rw [if_neg (mt hiff.mp hused)]
      obtain ⟨method', hmethod, hb⟩ := Option.bind_eq_some_iff.mp hb
      obtain ⟨others', hothers, hb⟩ := Option.bind_eq_some_iff.mp hb
      cases hb
      obtain ⟨method, hmethod, hm'⟩ := element hm index m g starts hmg _ hmethod
      obtain ⟨others, hothers, hall⟩ := ih m g starts hmg _ hothers
      refine ⟨(key, method) :: others, ?_, .cons ⟨hshows, hm'⟩ hall⟩
      rw [show m.heap.fetchElement methods index = .ok method from hmethod]
      show (MethodDictionary.entriesAt m.heap dictionary methods rest >>= _) = _
      rw [show MethodDictionary.entriesAt m.heap dictionary methods rest = .ok others from hothers]
      rfl

theorem entries (hd : p.Shows dictionary dictionaryValue) :
    Reads p (fun m => MethodDictionary.entries m.heap dictionary) (·.entries dictionaryValue) := by
  refine (field hd _).bind fun methods methodsValue hm => ?_
  refine (length hd).bind fun c c' hc => ?_
  cases hc
  exact entriesAt hd hm _

end Reads


namespace Writes

variable {p : Placement} {dictionary selector method : Ref}
  {dictionaryValue selectorValue methodValue : Value} {index : Nat}

/-- What is read from memory after a store decides what is stored next. -/
theorem claim (hd : p.Shows dictionary dictionaryValue) (hs : p.Shows selector selectorValue) :
    Writes p (MethodDictionary.claim · dictionary selector index)
      (·.claim dictionaryValue selectorValue index) := by
  refine (storeElement hd hs).bind ?_
  refine Writes.read (Reads.tally hd) fun t _ ht => ?_
  cases ht
  exact storeField hd (p.shows_ofNat _)

theorem insert (hd : p.Shows dictionary dictionaryValue) (hs : p.Shows selector selectorValue)
    (hm : p.Shows method methodValue) :
    Writes p (MethodDictionary.insert · dictionary selector method)
      (·.insert dictionaryValue selectorValue methodValue) := by
  refine Writes.read (Reads.probe hd hs) fun found found' hfound => ?_
  cases hfound with
  | none => exact fun m g starts hm g' hg' => nomatch hg'
  | @some index _ heq =>
    cases heq
    refine Writes.read (Reads.element hd index) fun key key' hkey => ?_
    have hsame : decide (key = selector) = decide (key' = selectorValue) :=
      decide_eq_decide.mpr (hkey.eq_iff hs)
    have hlast : Writes p
        (fun h => h.fetchField dictionary MethodDictionary.methodsField >>= fun methods =>
          h.storeElement methods index method)
        (fun g => g.field dictionaryValue MethodDictionary.methodsField >>= fun methods =>
          g.storeElement methods index methodValue) :=
      Writes.read (Reads.field hd _) fun methods methodsValue hmethods => storeElement hmethods hm
    dsimp only
    rw [hsame]
    cases decide (key' = selectorValue) with
    | true => exact pure.bind hlast
    | false => exact (claim hd hs).bind hlast

theorem insertAll {entries : List (Ref × Ref)} {values : List (Value × Value)}
    (hd : p.Shows dictionary dictionaryValue)
    (hall : List.Forall₂ (fun e v => p.Shows e.1 v.1 ∧ p.Shows e.2 v.2) entries values) :
    Writes p (Machine.insertAll · dictionary entries) (·.insertAll dictionaryValue values) := by
  induction hall with
  | nil => exact pure
  | cons hhead _ ih => exact (insert hd hhead.1 hhead.2).bind ih

end Writes

end ObjectMachine
