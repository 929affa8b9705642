import ObjectMachine.Proofs.Class.Probing
import ObjectMachine.Proofs.Graph.Evolving

/-!
# Method dictionaries in graphs

A method dictionary is a table: an array of selectors and an array of methods, whose places are free
or have a selector and a method. Since selectors are objects with names that never change, the keys of
the table are the selectors themselves.

## Main results

* `Graph.IsDictionary`: a method dictionary that has certain places.
* `Graph.IsDictionary.methodAt?_of_mem`, `Graph.IsDictionary.entries`: what is read from it.
* `Graph.IsDictionary.insert`, `Graph.IsDictionary.insertAll`: entries are added.
-/

namespace ObjectMachine

/-- The entries of a table are those at its places. -/
theorem Slots.filterMap_range {κ ν : Type} (slots : Slots κ ν) :
    (List.range slots.length).filterMap (fun j => slots[j]?.join) = slots.filterMap id := by
  have hmap : (List.range slots.length).map (fun j => slots[j]?.join) = slots := by
    apply List.ext_getElem?
    intro j
    rw [List.getElem?_map]
    by_cases hj : j < slots.length
    · rw [List.getElem?_range hj]
      simp [List.getElem?_eq_getElem hj]
    · rw [List.getElem?_eq_none (by simp; omega), List.getElem?_eq_none (by omega)]
      rfl
  conv_rhs => rw [← hmap, List.filterMap_map]
  rfl

/-- A power of two has exactly one bit. -/
theorem isPowerOfTwo_two_pow (e : Nat) : isPowerOfTwo (2 ^ e) = true := by
  have hpos := Nat.two_pow_pos e
  unfold isPowerOfTwo
  rw [Nat.and_two_pow_sub_one_eq_mod, Nat.mod_self]
  simp

namespace Graph

/-- The identity hash of an object. -/
def hashOf (g : Graph) (v : Value) : Nat := (g.hash v).getD 0

/-- A value that may be a selector: an object, and not nil. -/
def IsSelector (g : Graph) (v : Value) : Prop := v ≠ g.nil ∧ ∃ n, v = .object n ∧ n < g.next

/-- A method dictionary and the array of its methods, which have certain places. The capacity is a
power of two, of which at most three quarters are used. -/
structure IsDictionary (g : Graph) (d a : Nat) (slots : Slots Value Value) : Prop where
  selectors_lt : d < g.next
  methods_lt : a < g.next
  selectors : (g.nodes d).format = .array
  fields : (g.nodes d).fields = MethodDictionary.fieldCount
  selectors_len : (g.nodes d).len = slots.length
  methods : (g.nodes a).format = .array
  methods_fields : (g.nodes a).fields = 0
  methods_len : (g.nodes a).len = slots.length
  link : (g.nodes d).field MethodDictionary.methodsField = .object a
  tally : (g.nodes d).field MethodDictionary.tallyField = .immediate (.ofNat slots.used)
  power : ∃ k, slots.length = 2 ^ k
  addressable : slots.length < Ref.addressLimit
  load : 4 * slots.used ≤ 3 * slots.length
  free : ∀ {j : Nat}, slots[j]? = some none → (g.nodes d).element j = g.nil
  used : ∀ {j : Nat} {selector method}, slots[j]? = some (some (selector, method)) →
    (g.nodes d).element j = selector ∧ (g.nodes a).element j = method ∧ g.IsSelector selector
  probed : slots.Probed g.hashOf

variable {g g' : Graph} {d a : Nat} {slots : Slots Value Value} {selector method : Value}

theorem IsSelector.evolves {changed : Nat → Prop} {v : Value} (hv : g.IsSelector v)
    (h : g.Evolves changed g') : g'.IsSelector v := by
  obtain ⟨hnil, n, rfl, hn⟩ := hv
  exact ⟨by rw [h.nil]; exact hnil, n, rfl, hn.trans_le h.next_le⟩

theorem IsSymbol.isSelector {name : String} {v : Value} (hv : g.IsSymbol name v) (hg : g.Kernel) :
    g.IsSelector v := by
  have hnil := hv.ne_nil hg
  obtain ⟨n, rfl, -, hn, -⟩ := hv
  exact ⟨hnil, n, rfl, hn⟩

theorem hashOf_evolves {changed : Nat → Prop} {v : Value} (hv : g.IsSelector v)
    (h : g.Evolves changed g') : g'.hashOf v = g.hashOf v := by
  obtain ⟨-, n, rfl, hn⟩ := hv
  exact h.hash n hn

namespace IsDictionary

theorem pos (hd : g.IsDictionary d a slots) : 0 < slots.length := by
  obtain ⟨k, hk⟩ := hd.power
  rw [hk]
  exact Nat.two_pow_pos k

theorem not_full (hd : g.IsDictionary d a slots) : slots.used < slots.length := by
  have hload := hd.load
  have hpos := hd.pos
  omega

/-- The two arrays are different objects. -/
theorem ne (hd : g.IsDictionary d a slots) : d ≠ a := by
  rintro rfl
  have hfields := hd.fields
  rw [hd.methods_fields] at hfields
  cases hfields

/-- A dictionary whose objects did not change. -/
theorem evolves {changed : Nat → Prop} (hd : g.IsDictionary d a slots) (h : g.Evolves changed g')
    (hdn : ¬ changed d) (han : ¬ changed a) : g'.IsDictionary d a slots := by
  have hdn := h.nodes d hd.selectors_lt hdn
  have han := h.nodes a hd.methods_lt han
  refine
    { selectors_lt := hd.selectors_lt.trans_le h.next_le
      methods_lt := hd.methods_lt.trans_le h.next_le
      selectors := by rw [hdn, hd.selectors]
      fields := by rw [hdn, hd.fields]
      selectors_len := by rw [hdn, hd.selectors_len]
      methods := by rw [han, hd.methods]
      methods_fields := by rw [han, hd.methods_fields]
      methods_len := by rw [han, hd.methods_len]
      link := by rw [hdn, hd.link]
      tally := by rw [hdn, hd.tally]
      power := hd.power
      addressable := hd.addressable
      load := hd.load
      free := fun hj => by rw [hdn, hd.free hj, h.nil]
      used := fun hj => by
        rw [hdn, han]
        obtain ⟨hs, hm, hselector⟩ := hd.used hj
        exact ⟨hs, hm, hselector.evolves h⟩
      probed := hd.probed.congr fun key value hmem => ?_ }
  obtain ⟨j, hj⟩ := Slots.mem_iff.mp hmem
  exact hashOf_evolves (hd.used hj).2.2 h

/-! ### Reading -/

theorem length (hd : g.IsDictionary d a slots) : g.length (.object d) = some slots.length :=
  congrArg some hd.selectors_len

theorem field_methods (hd : g.IsDictionary d a slots) :
    g.field (.object d) MethodDictionary.methodsField = some (.object a) := by
  rw [field_of_lt (by rw [hd.fields]; decide), hd.link]

theorem tally_eq (hd : g.IsDictionary d a slots) : g.tally (.object d) = some slots.used := by
  unfold Graph.tally
  rw [field_of_lt (by rw [hd.fields]; decide), hd.tally]
  have hlt := hd.not_full
  have hcount := Ref.toCount_ofNat (hlt.trans hd.addressable)
  exact congrArg some hcount

theorem isFull_eq (hd : g.IsDictionary d a slots) :
    g.isFull (.object d) = some (decide (slots.length * 3 < (slots.used + 1) * 4)) := by
  unfold isFull nodeOf
  rw [hd.tally_eq]
  simp only [node?_object, Option.bind_eq_bind, Option.bind_some, if_pos hd.selectors,
    hd.selectors_len]
  exact if_pos hd.not_full.le

/-- The selector at a place. -/
theorem element_selectors {j : Nat} (hd : g.IsDictionary d a slots) (hj : j < slots.length) :
    g.element (.object d) j = some ((g.nodes d).element j) :=
  element_of_lt hd.selectors (by rwa [hd.selectors_len])

theorem element_methods {j : Nat} (hd : g.IsDictionary d a slots) (hj : j < slots.length) :
    g.element (.object a) j = some ((g.nodes a).element j) :=
  element_of_lt hd.methods (by rwa [hd.methods_len])

/-- Looking for a selector is looking for a key. -/
theorem probeFrom {n : Nat} (hd : g.IsDictionary d a slots)
    (hn : slots.Lands (g.hashOf selector) selector n) (k i : Nat) (hik : i + k = n) :
    g.probeFrom (.object d) selector slots.length (slots.place (g.hashOf selector) i)
      (slots.length - i) = some (some (slots.place (g.hashOf selector) n)) := by
  have hlt := hn.lt
  obtain ⟨fuel, hfuel⟩ : ∃ fuel, slots.length - i = fuel + 1 := ⟨slots.length - i - 1, by omega⟩
  have hplace := slots.place_lt (g.hashOf selector) (show i < slots.length by omega)
  rw [hfuel]
  unfold Graph.probeFrom
  rw [hd.element_selectors hplace]
  induction k generalizing i fuel with
  | zero =>
    have hi : i = n := by omega
    subst hi
    refine if_pos ?_
    obtain hfree | ⟨value, hused⟩ := hn.ends
    · exact .inr (hd.free hfree)
    · exact .inl (hd.used hused).1
  | succ k ih =>
    obtain ⟨key, value, hkey, hne⟩ := hn.passes i (by omega)
    obtain ⟨hsel, -, hselector⟩ := hd.used hkey
    have hnot : ¬ ((g.nodes d).element (slots.place (g.hashOf selector) i) = selector ∨
        (g.nodes d).element (slots.place (g.hashOf selector) i) = g.nil) := by
      rw [hsel]
      rintro (h | h)
      · exact hne h
      · exact hselector.1 h
    show (if _ then _ else _) = _
    rw [if_neg hnot]
    have hstep : (slots.place (g.hashOf selector) i + 1) &&& (slots.length - 1) =
        slots.place (g.hashOf selector) (i + 1) := by
      obtain ⟨e, he⟩ := hd.power
      rw [he, Nat.and_two_pow_sub_one_eq_mod, ← he]
      unfold Slots.place
      rw [Nat.mod_add_mod, Nat.add_assoc]
    rw [hstep]
    obtain ⟨fuel', hfuel'⟩ : ∃ fuel', slots.length - (i + 1) = fuel' + 1 :=
      ⟨slots.length - (i + 1) - 1, by omega⟩
    have hplace' := slots.place_lt (g.hashOf selector) (show i + 1 < slots.length by omega)
    have hih := ih (i + 1) (by omega) fuel' hfuel' hplace'
    rw [show fuel = fuel' + 1 by omega]
    unfold Graph.probeFrom
    rw [hd.element_selectors hplace']
    exact hih

theorem probe {n : Nat} (hd : g.IsDictionary d a slots) (hs : g.IsSelector selector)
    (hn : slots.Lands (g.hashOf selector) selector n) :
    g.probe (.object d) selector = some (some (slots.place (g.hashOf selector) n)) := by
  obtain ⟨-, s, rfl, -⟩ := hs
  have hpos := hd.pos
  have hfrom := hd.probeFrom hn n 0 (Nat.zero_add n)
  have hstart : (g.nodes s).hash &&& (slots.length - 1) =
      slots.place (g.hashOf (.object s)) 0 := by
    obtain ⟨e, he⟩ := hd.power
    rw [he, Nat.and_two_pow_sub_one_eq_mod, ← he]
    rfl
  unfold Graph.probe
  rw [hd.length]
  show (if slots.length = 0 then none else _) = _
  rw [if_neg (by omega), hstart]
  exact hfrom

/-- A dictionary answers the method of a selector that it has. -/
theorem methodAt?_of_mem (hd : g.IsDictionary d a slots) (hs : g.IsSelector selector)
    (hmem : some (selector, method) ∈ slots) :
    g.methodAt? (.object d) selector = some (some method) := by
  obtain ⟨n, hn⟩ := Slots.exists_lands (g.hashOf selector) selector hd.not_full
  have hplace := slots.place_lt (g.hashOf selector) hn.lt
  obtain ⟨hsel, hmethod, -⟩ := hd.used (hd.probed.lands hn hmem)
  unfold Graph.methodAt?
  rw [hd.probe hs hn]
  simp only [Option.bind_eq_bind, Option.bind_some, hd.element_selectors hplace, hsel,
    hd.field_methods, hd.element_methods hplace, hmethod, if_true]

/-- It answers nothing for a selector that it does not have. -/
theorem methodAt?_of_not_mem (hd : g.IsDictionary d a slots) (hs : g.IsSelector selector)
    (hmem : ∀ method, some (selector, method) ∉ slots) :
    g.methodAt? (.object d) selector = some none := by
  obtain ⟨n, hn⟩ := Slots.exists_lands (g.hashOf selector) selector hd.not_full
  have hplace := slots.place_lt (g.hashOf selector) hn.lt
  have hfree := hd.free (Slots.Probed.lands_free hn hmem)
  unfold Graph.methodAt?
  rw [hd.probe hs hn]
  simp only [Option.bind_eq_bind, Option.bind_some, hd.element_selectors hplace, hfree,
    if_neg hs.1.symm]

theorem entriesAt (hd : g.IsDictionary d a slots) (indices : List Nat)
    (hindices : ∀ j ∈ indices, j < slots.length) :
    g.entriesAt (.object d) (.object a) indices =
      some (indices.filterMap fun j => slots[j]?.join) := by
  induction indices with
  | nil => rfl
  | cons j rest ih =>
    have hj := hindices j (List.mem_cons_self ..)
    have hrest := ih fun i hi => hindices i (List.mem_cons_of_mem _ hi)
    unfold Graph.entriesAt
    rw [hd.element_selectors hj]
    obtain ⟨slot, hslot⟩ : ∃ slot, slots[j]? = some slot := ⟨_, List.getElem?_eq_getElem hj⟩
    cases slot with
    | none =>
      simp [hd.free hslot, hrest, hslot]
    | some entry =>
      obtain ⟨hsel, hmethod, hselector⟩ := hd.used hslot
      simp [hsel, hselector.1, hd.element_methods hj, hmethod, hrest, hslot]

/-- All entries are listed in the order of their places. -/
theorem entries (hd : g.IsDictionary d a slots) :
    g.entries (.object d) = some (slots.filterMap id) := by
  unfold Graph.entries
  rw [hd.field_methods, hd.length]
  simp only [Option.bind_eq_bind, Option.bind_some]
  rw [hd.entriesAt _ fun j hj => List.mem_range.mp hj]
  rw [Slots.filterMap_range]

/-! ### Adding an entry -/

/-- The array of selectors with a selector at a place and a count. -/
def claimed (o : Node) (place : Nat) (selector : Value) (count : Nat) : Node :=
  (o.withElement place selector).withField MethodDictionary.tallyField (.immediate (.ofNat count))

/-- What is put into a dictionary is put into its two arrays. -/
theorem insert_eq {n : Nat} (hd : g.IsDictionary d a slots) (hs : g.IsSelector selector)
    (hn : slots.Lands (g.hashOf selector) selector n) (method : Value) :
    g.insert (.object d) selector method = some ((g.setNode d (claimed (g.nodes d)
        (slots.place (g.hashOf selector) n) selector
        (Slots.used (slots.set (slots.place (g.hashOf selector) n) (some (selector, method)))))).setNode
      a ((g.nodes a).withElement (slots.place (g.hashOf selector) n) method)) := by
  have hplace := slots.place_lt (g.hashOf selector) hn.lt
  have hne := hd.ne
  unfold Graph.insert
  rw [hd.probe hs hn]
  simp only [Option.bind_eq_bind, Option.bind_some, hd.element_selectors hplace]
  generalize hp : slots.place (g.hashOf selector) n = place at *
  have hmethods : ∀ o, Node.SameLayout (g.nodes d) o →
      o.field MethodDictionary.methodsField = .object a →
      ((g.setNode d o).field (.object d) MethodDictionary.methodsField >>= fun methods =>
        (g.setNode d o).storeElement methods place method) =
      some ((g.setNode d o).setNode a ((g.nodes a).withElement place method)) := by
    intro o hlayout hlink
    have hself : (g.setNode d o).nodes d = o := Function.update_self ..
    have hother : (g.setNode d o).nodes a = g.nodes a := Function.update_of_ne hne.symm ..
    rw [field_of_lt (by rw [hself, hlayout.fields, hd.fields]; decide), hself, hlink]
    show (g.setNode d o).storeElement (.object a) place method = _
    rw [storeElement_of_lt (by rw [hother, hd.methods]) (by rwa [hother, hd.methods_len]), hother]
  have hlink : (claimed (g.nodes d) place selector
      (Slots.used (slots.set place (some (selector, method))))).field
      MethodDictionary.methodsField = .object a := by
    simp [claimed, MethodDictionary.methodsField, MethodDictionary.tallyField]
    exact hd.link
  by_cases hpresent : (g.nodes d).element place = selector
  · -- The selector is there already, and is counted.
    have hsame : claimed (g.nodes d) place selector
        (Slots.used (slots.set place (some (selector, method)))) = g.nodes d := by
      have hused : Slots.used (slots.set place (some (selector, method))) = slots.used := by
        obtain hfree | ⟨old, hused⟩ := hn.ends
        · rw [hp] at hfree
          exact absurd (hpresent.symm.trans (hd.free hfree)) hs.1
        · rw [hp] at hused
          exact Slots.used_set_used hused _
      rw [hused, claimed, Node.withElement, ← hpresent, Function.update_eq_self, Node.withField,
        ← hd.tally]
      dsimp only
      rw [Function.update_eq_self]
    have hstore := hmethods _ ⟨by rw [hsame], by rw [hsame], by rw [hsame]⟩ hlink
    rw [hsame, setNode_self] at hstore
    rw [decide_eq_true hpresent, if_pos rfl, hsame, setNode_self]
    exact hstore
  · have hfree : slots[place]? = some none := by
      obtain hfree | ⟨old, hused⟩ := hn.ends
      · rwa [hp] at hfree
      · rw [hp] at hused
        exact absurd (hd.used hused).1 hpresent
    have hused := Slots.used_set_free hfree (selector, method)
    have hclaim : g.claim (.object d) selector place = some (g.setNode d (claimed (g.nodes d) place
        selector (Slots.used (slots.set place (some (selector, method)))))) := by
      unfold Graph.claim
      rw [storeElement_of_lt hd.selectors (by rwa [hd.selectors_len])]
      have hself : (g.setNode d ((g.nodes d).withElement place selector)).nodes d =
        (g.nodes d).withElement place selector := Function.update_self ..
      have htally : (g.setNode d ((g.nodes d).withElement place selector)).tally (.object d) =
          some slots.used := by
        have hread := hd.tally_eq
        unfold Graph.tally at hread ⊢
        rw [field_of_lt (by rw [hd.fields]; decide)] at hread
        rw [field_of_lt (by rw [hself]; simp [hd.fields]; decide), hself]
        exact hread
      simp only [Option.bind_eq_bind, Option.bind_some, htally]
      rw [setNode_storeField (by simp [hd.selectors]) (by simp [hd.fields]; decide), hused]
      rfl
    rw [decide_eq_false hpresent, if_neg (by decide), hclaim]
    exact hmethods _ ⟨rfl, rfl, rfl⟩ hlink

/-- Only the two arrays of a dictionary changed. -/
structure Changes (d a : Nat) (g g' : Graph) : Prop where
  evolves : g.Evolves (fun n => n = d ∨ n = a) g'
  next : g'.next = g.next
  pinned : g'.pinned = g.pinned
  symbols : g'.symbols = g.symbols
  globals : g'.globals = g.globals

theorem Changes.refl (d a : Nat) (g : Graph) : Changes d a g g :=
  ⟨.refl _ g, rfl, rfl, rfl, rfl⟩

theorem Changes.trans {g g' g'' : Graph} (h : Changes d a g g') (h' : Changes d a g' g'') :
    Changes d a g g'' :=
  ⟨h.evolves.trans h'.evolves fun _ _ hc => hc, h'.next.trans h.next, h'.pinned.trans h.pinned,
    h'.symbols.trans h.symbols, h'.globals.trans h.globals⟩

/-- A selector and a method are put where looking for the selector ends, if there is room. -/
theorem insert (hd : g.IsDictionary d a slots) (hs : g.IsSelector selector)
    (hroom : (∃ old, some (selector, old) ∈ slots) ∨ 4 * (slots.used + 1) ≤ 3 * slots.length)
    (method : Value) :
    ∃ g' slots', g.insert (.object d) selector method = some g' ∧ Changes d a g g' ∧
      g'.IsDictionary d a slots' ∧ slots'.length = slots.length ∧ slots'.used ≤ slots.used + 1 ∧
      ∀ s m, some (s, m) ∈ slots' ↔ (s = selector ∧ m = method) ∨ (s ≠ selector ∧ some (s, m) ∈ slots) := by
  obtain ⟨n, hn⟩ := Slots.exists_lands (g.hashOf selector) selector hd.not_full
  have hplace := slots.place_lt (g.hashOf selector) hn.lt
  have hne := hd.ne
  have heq := hd.insert_eq hs hn method
  have hprobed := hd.probed.set hn method
  have hmem : ∀ s m, some (s, m) ∈ slots.set (slots.place (g.hashOf selector) n) (some (selector, method)) ↔
      (s = selector ∧ m = method) ∨ (s ≠ selector ∧ some (s, m) ∈ slots) :=
    fun s m => hd.probed.mem_set hn
  have hused : Slots.used (slots.set (slots.place (g.hashOf selector) n) (some (selector, method))) =
      slots.used ∨
      Slots.used (slots.set (slots.place (g.hashOf selector) n) (some (selector, method))) =
      slots.used + 1 ∧ 4 * (slots.used + 1) ≤ 3 * slots.length := by
    by_cases hold : ∃ old, some (selector, old) ∈ slots
    · obtain ⟨old, hold⟩ := hold
      exact .inl (Slots.used_set_used (hd.probed.lands hn hold) _)
    · have hfree := Slots.Probed.lands_free hn fun old h => hold ⟨old, h⟩
      exact .inr ⟨Slots.used_set_free hfree _, hroom.resolve_left hold⟩
  generalize slots.place (g.hashOf selector) n = place at *
  have hload := hd.load
  refine ⟨_, _, heq, ⟨?_, rfl, rfl, rfl, rfl⟩, ?_, List.length_set, ?_, hmem⟩
  · refine (evolves_setNode (n := d) (by exact ⟨rfl, rfl, rfl⟩) (by rfl)).mono (fun _ _ h => .inl h)
      |>.trans (evolves_setNode (n := a) ?_ ?_) fun _ _ h => .inr h
    · rw [show (g.setNode d _).nodes a = g.nodes a from Function.update_of_ne hne.symm ..]
      exact ⟨rfl, rfl, rfl⟩
    · rw [show (g.setNode d _).nodes a = g.nodes a from Function.update_of_ne hne.symm ..]
      rfl
  · have hnd : ∀ o o', ((g.setNode d o).setNode a o').nodes d = o := fun o o' => by
      show Function.update (Function.update g.nodes d o) a o' d = o
      rw [Function.update_of_ne hne, Function.update_self]
    have hna : ∀ o o', ((g.setNode d o).setNode a o').nodes a = o' := fun o o' =>
      Function.update_self ..
    refine
      { selectors_lt := hd.selectors_lt
        methods_lt := hd.methods_lt
        selectors := by rw [hnd]; exact hd.selectors
        fields := by rw [hnd]; exact hd.fields
        selectors_len := by rw [hnd, List.length_set]; exact hd.selectors_len
        methods := by rw [hna]; exact hd.methods
        methods_fields := by rw [hna]; exact hd.methods_fields
        methods_len := by rw [hna, List.length_set]; exact hd.methods_len
        link := by
          rw [hnd]
          simp [claimed, MethodDictionary.methodsField, MethodDictionary.tallyField]
          exact hd.link
        tally := by rw [hnd]; simp [claimed]
        power := by rw [List.length_set]; exact hd.power
        addressable := by rw [List.length_set]; exact hd.addressable
        load := by rw [List.length_set]; omega
        free := fun {j} hj => ?_
        used := fun {j s m} hj => ?_
        probed := hprobed.congr fun key value hkey => ?_ }
    · rw [List.getElem?_set] at hj
      split at hj
      · cases hj
      · rename_i hother
        rw [hnd]
        simp only [claimed, Node.element_withField, Node.element_withElement]
        rw [Function.update_of_ne (Ne.symm hother)]
        exact hd.free hj
    · rw [hnd, hna]
      simp only [claimed, Node.element_withField, Node.element_withElement]
      rw [List.getElem?_set] at hj
      split at hj
      · rename_i hself
        subst hself
        cases hj
        rw [Function.update_self, Function.update_self]
        exact ⟨rfl, rfl, hs⟩
      · rename_i hother
        rw [Function.update_of_ne (Ne.symm hother), Function.update_of_ne (Ne.symm hother)]
        exact hd.used hj
    · have hselector : g.IsSelector key := by
        obtain ⟨rfl, -⟩ | ⟨-, hold⟩ := (hmem key value).mp hkey
        · exact hs
        · obtain ⟨j, hj⟩ := Slots.mem_iff.mp hold
          exact (hd.used hj).2.2
      obtain ⟨-, k, rfl, hk⟩ := hselector
      show (Function.update (Function.update g.nodes d _) a _ k).hash = (g.nodes k).hash
      by_cases hka : k = a
      · subst hka
        rw [Function.update_self]
        rfl
      · rw [Function.update_of_ne hka]
        by_cases hkd : k = d
        · subst hkd
          rw [Function.update_self]
          rfl
        · rw [Function.update_of_ne hkd]
  · omega

/-- Entries with other selectors are put into a dictionary one after the other, if there is room for
all of them. -/
theorem insertAll (hd : g.IsDictionary d a slots) (added : List (Value × Value))
    (hselectors : ∀ e ∈ added, g.IsSelector e.1) (hnodup : (added.map Prod.fst).Nodup)
    (hnew : ∀ e ∈ added, ∀ m, some (e.1, m) ∉ slots)
    (hroom : 4 * (slots.used + added.length) ≤ 3 * slots.length) :
    ∃ g' slots', g.insertAll (.object d) added = some g' ∧ Changes d a g g' ∧
      g'.IsDictionary d a slots' ∧ slots'.length = slots.length ∧
      slots'.used ≤ slots.used + added.length ∧
      ∀ s m, some (s, m) ∈ slots' ↔ some (s, m) ∈ slots ∨ (s, m) ∈ added := by
  induction added generalizing g slots with
  | nil => exact ⟨g, slots, rfl, .refl d a g, hd, rfl, Nat.le_refl _, by simp⟩
  | cons entry rest ih =>
    obtain ⟨s, m⟩ := entry
    rw [List.length_cons] at hroom
    rw [List.map_cons, List.nodup_cons] at hnodup
    obtain ⟨g₁, slots₁, hinsert, hchanges, hd₁, hlen₁, hused₁, hmem₁⟩ :=
      hd.insert (hselectors _ (List.mem_cons_self ..)) (.inr (by omega)) m
    obtain ⟨g₂, slots₂, hall, hchanges₂, hd₂, hlen₂, hused₂, hmem₂⟩ := ih hd₁
      (fun e he => (hselectors e (List.mem_cons_of_mem _ he)).evolves hchanges.evolves) hnodup.2
      (fun e he m' hmem => by
        obtain ⟨heq, -⟩ | ⟨-, hold⟩ := (hmem₁ _ _).mp hmem
        · exact hnodup.1 (heq ▸ List.mem_map_of_mem he)
        · exact hnew e (List.mem_cons_of_mem _ he) m' hold)
      (by omega)
    refine ⟨g₂, slots₂, ?_, hchanges.trans hchanges₂, hd₂, hlen₂.trans hlen₁, ?_, fun s' m' => ?_⟩
    · show (g.insert (.object d) s m >>= fun g => g.insertAll (.object d) rest) = _
      rw [hinsert]
      exact hall
    · rw [List.length_cons]
      omega
    · have hs := hnew (s, m) (List.mem_cons_self ..)
      rw [hmem₂, hmem₁, List.mem_cons]
      constructor
      · rintro ((⟨rfl, rfl⟩ | ⟨-, hold⟩) | hrest)
        · exact .inr (.inl rfl)
        · exact .inl hold
        · exact .inr (.inr hrest)
      · rintro (hold | heq | hrest)
        · by_cases hsame : s' = s
          · subst hsame
            exact absurd hold (hs m')
          · exact .inl (.inr ⟨hsame, hold⟩)
        · cases heq
          exact .inl (.inl ⟨rfl, rfl⟩)
        · exact .inr hrest

end IsDictionary

end Graph

namespace Spec.Ends

open ObjectMachine.Graph

variable {g : Graph} {E : Failure → Graph → Prop} {S : Fatal → Prop}

/-- What is known of a method dictionary that was just made. -/
structure FreshDictionary (g : Graph) (capacity : Nat) (v : Value) (g' : Graph) (d a : Nat) : Prop where
  adds : g.Adds g'
  value : v = .object d
  selectors_new : g.next ≤ d
  methods_new : g.next ≤ a
  dictionary : g'.IsDictionary d a (List.replicate capacity none)

/-- The words of the larger of the two arrays of a method dictionary. -/
abbrev dictionaryWords (capacity : Nat) : Nat :=
  Format.array.sizeInWords MethodDictionary.fieldCount capacity

theorem newMethodDictionary {capacity e : Nat} (hg : g.Settled) (hpower : capacity = 2 ^ e)
    (hS : Allows S g (dictionaryWords capacity)) :
    (Spec.newMethodDictionary capacity).Ends g
      (fun v g' => ∃ d a, FreshDictionary g capacity v g' d a) E S := by
  refine guard (hpower ▸ isPowerOfTwo_two_pow e) (bind (newArray hg (hS.mono rfl ?_)) ?_)
  · simp only [Format.sizeInWords, MethodDictionary.fieldCount]
    omega
  rintro methods g₁ ⟨hadds₁, rfl, hnext₁, ⟨hash₁, hnode₁⟩, -⟩
  have hg₁ := hg.adds hadds₁
  refine pin (ask (bind (allocate_core hg₁.idle { hg₁.kernel with } (.inr rfl) (by decide) (by decide)
    (hS.mono hadds₁.grows.capacity (Nat.le_refl _))) ?_))
  rintro v g₂ ⟨hadds₂, rfl, hnext₂, ⟨hash₂, hnode₂⟩, hsize⟩
  refine unpin hadds₂.pinned ?_
  have hadds₂ : g₁.Adds (g₂.withPinned g₁.pinned) := hadds₂.withPinned g₁.pinned
  simp only [next_withPinned, nilValue_withPinned] at *
  have hstored : ((g₂.withPinned g₁.pinned).storeField (.object g₁.next) MethodDictionary.tallyField
      (.immediate .zero) >>= fun g' =>
        g'.storeField (.object g₁.next) MethodDictionary.methodsField (.object g.next)) =
      some ((g₂.withPinned g₁.pinned).setNode g₁.next
        (((g₂.nodes g₁.next).withField MethodDictionary.tallyField (.immediate .zero)).withField
          MethodDictionary.methodsField (.object g.next))) := by
    rw [storeField_of_lt (by simp [hnode₂, Node.fresh]) (by simp [hnode₂, Node.fresh]; decide)]
    exact setNode_storeField (by simp [hnode₂, Node.fresh]) (by simp [hnode₂, Node.fresh]; decide)
  have hne : g.next ≠ g₁.next := by omega
  have hmethods : g₂.nodes g.next = g₁.nodes g.next :=
    hadds₂.grows.nodes g.next (by omega) id
  have hnil : g₂.nil = g.nil := hadds₂.grows.nil.trans hadds₁.grows.nil
  refine write hstored (pure ⟨g₁.next, g.next, (hadds₁.trans hadds₂).setNode (by omega) ⟨rfl, rfl, rfl⟩
    rfl, rfl, by omega, Nat.le_refl _, ?_⟩)
  refine
    { selectors_lt := by simp [hnext₂]
      methods_lt := by simp [hnext₂]; omega
      selectors := by simp [hnode₂, Node.fresh]
      fields := by simp [hnode₂, Node.fresh]
      selectors_len := by simp [hnode₂, Node.fresh, Format.isIndexable]
      methods := by simp [hne, hmethods, hnode₁, Node.fresh]
      methods_fields := by simp [hne, hmethods, hnode₁, Node.fresh]
      methods_len := by simp [hne, hmethods, hnode₁, Node.fresh, Format.isIndexable]
      link := by simp
      tally := by
        simp [MethodDictionary.tallyField, MethodDictionary.methodsField, Slots.used_replicate]
        rfl
      power := ⟨e, by simp [hpower]⟩
      addressable := ?_
      load := by simp [Slots.used_replicate]
      free := fun {j} hj => ?_
      used := fun hj => absurd (Slots.mem_iff.mpr ⟨_, hj⟩) (Slots.not_mem_replicate _ _)
      probed := Slots.probed_replicate _ _ }
  · simp only [Format.sizeInWords, Format.tailWords, headerWords, List.length_replicate] at hsize ⊢
    omega
  · simp [hnode₂, Node.fresh, hnil, hadds₁.grows.nil]

end Spec.Ends

end ObjectMachine
