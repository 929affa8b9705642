import ObjectMachine.Proofs.Interface.Shapes
import ObjectMachine.Proofs.Machine.Outcomes
import ObjectMachine.Proofs.Machine.Resumption

/-!
# Machines between runs

A machine that runs nothing keeps its memory in order: every pointer among its roots leads to an
object, and words lead to objects of the shapes expected of them. Everything that is done to such a
machine is made of a few actions, each of which keeps that so: allocations, which may collect, stores
of what is expected, and changes to the pinned temporaries.

What is known of a reference is a `Mark`: the shape of what it leads to, and whether that was made
since an earlier time, the origin. Marks of pinned temporaries survive collections. As long as the
method cache was not flushed since the origin, there was no collection, and of the objects that were
there then only associations have changed.

## Main results

* `Machine.Sound`, `Machine.Stage`: the invariant, alone and with marks and an origin.
* `Machine.Stage.collectKeeping`, `Machine.Stage.allocate`: what collections and allocations give.
* `Machine.Stage.storeField`, `Machine.Stage.storeElement` and so on: what stores leave.
-/

namespace ObjectMachine

/-- A cache that answers nothing. -/
def MethodCache.IsEmpty (c : MethodCache) : Prop := ∀ cls selector, c.find? cls selector = none

theorem NameTable.refs_mapRefs (t : NameTable) (f : Ref → Ref) :
    (t.mapRefs f).refs = t.refs.map f := by
  simp [refs, mapRefs, Array.toList_map, Function.comp_def]

theorem NameTable.refs_add (t : NameTable) (name : String) (r : Ref) :
    (t.add name r).refs = t.refs ++ [r] := by
  simp [refs, add]

/-- The names that a table has. -/
def NameTable.names (t : NameTable) : List String := t.entries.toList.map (·.1)

/-- A name that is added leaves the others what they are. -/
theorem NameTable.find?_add (t : NameTable) (name name' : String) (r : Ref) :
    (t.add name r).find? name' = (t.find? name').or (if name = name' then some r else none) := by
  unfold find? add
  rw [Array.find?_push]
  cases hfound : t.entries.find? fun entry => entry.1 == name' with
  | some entry => rfl
  | none =>
    by_cases hname : name = name'
    · simp [hname]
    · simp [hname]

theorem NameTable.find?_mapRefs (t : NameTable) (f : Ref → Ref) (name : String) :
    (t.mapRefs f).find? name = (t.find? name).map f := by
  unfold find? mapRefs
  rw [Array.find?_map, Option.map_map, Option.map_map]
  rfl

theorem NameTable.names_mapRefs (t : NameTable) (f : Ref → Ref) :
    (t.mapRefs f).names = t.names := by
  simp [names, mapRefs, Array.toList_map, Function.comp_def]

theorem NameTable.find?_eq_none {t : NameTable} {name : String} :
    t.find? name = none ↔ name ∉ t.names := by
  unfold find? names
  rw [Option.map_eq_none_iff, Array.find?_eq_none]
  constructor
  · intro hall hmem
    obtain ⟨entry, hentry, rfl⟩ := List.mem_map.mp hmem
    exact hall entry (by simpa using hentry) (by simp)
  · intro hnot entry hentry heq
    exact hnot (List.mem_map.mpr ⟨entry, by simpa using hentry, by simpa using heq⟩)

namespace Shape

/-- The word of a class that leads to its dictionary, and the word of a dictionary that leads to its
methods. -/
def Owns (s : Shape) (k : Nat) : Prop :=
  s.expects k = some .dictionary ∨ s.expects k = some .array

instance (s : Shape) (k : Nat) : Decidable (s.Owns k) :=
  inferInstanceAs (Decidable (_ ∨ _))

theorem Owns.cases {s : Shape} {k : Nat} (h : s.Owns k) :
    (s = cls ∧ k = headerWords + Class.dictionaryField) ∨
      (s = dictionary ∧ k = headerWords + MethodDictionary.methodsField) := by
  unfold Owns expects at h
  split at h
  · rename_i hcls
    split at h
    · rcases h with h | h <;> cases h
    · split at h
      · exact .inl ⟨hcls, ‹_›⟩
      · rcases h with h | h <;> cases h
  · split at h
    · exact .inr ‹_›
    · rcases h with h | h <;> cases h

theorem Owns.allowsFields {s : Shape} {k : Nat} (h : s.Owns k) : s.1.allowsFields = true := by
  rcases h.cases with ⟨rfl, -⟩ | ⟨rfl, -⟩ <;> rfl

theorem Owns.isFixed {o : View} {k : Nat} (h : o.shape.Owns k) : o.IsFixed k := by
  have hallows := h.allowsFields
  rcases h.cases with ⟨hs, rfl⟩ | ⟨hs, rfl⟩
  all_goals
    have hfields : o.fields = _ := congrArg Prod.snd hs
    refine .inr ⟨hallows, Nat.le_add_right _ _, Nat.add_lt_add_left ?_ headerWords⟩
    rw [hfields]
    decide

end Shape

namespace Machine

theorem classes_mapRefs (c : CoreObjects) (f : Ref → Ref) :
    (c.mapRefs f).classes.toList = c.classes.toList.map f := by
  simp [CoreObjects.mapRefs, ← Vector.toList_toArray]

theorem roots_mapRoots (m : Machine) (f : Ref → Ref) : (m.mapRoots f).roots = m.roots.map f := by
  have hclasses : (m.core.classes.map f).toList = m.core.classes.toList.map f := by
    simp [← Vector.toList_toArray]
  rw [roots_eq, roots_eq]
  simp [hclasses, mapRoots, Registers.mapRefs, Registers.refs, CoreObjects.mapRefs, CoreObjects.refs,
    NameTable.refs_mapRefs, Array.toList_map]

theorem mem_roots {m : Machine} {r : Ref} : r ∈ m.roots ↔ r ∈ m.registers.refs ∨ r ∈ m.core.refs ∨
    r ∈ m.symbols.refs ∨ r ∈ m.globals.refs ∨ r ∈ m.pinned.toList := by
  rw [roots_eq]
  simp only [List.mem_append]

theorem mem_classes (c : CoreObjects) (k : KernelClass) : c.cls k ∈ c.classes :=
  Vector.getElem_mem k.index.isLt

theorem root_cls (m : Machine) (k : KernelClass) : m.core.cls k ∈ m.roots :=
  mem_roots.mpr (.inr (.inl (by simp [CoreObjects.refs, mem_classes])))

/-! ## The invariant -/

/-- A machine that runs nothing and whose memory is in order. -/
structure Stored (m : Machine) (starts : List Nat) : Prop where
  idle : m.registers.activeContext.isPointer = false
  shaped : m.heap.Shaped starts
  rootsIn : m.heap.RootsIn starts m.roots

/-- A machine with nil, whose classes, symbols and globals have the shapes expected of them. -/
structure Sound (m : Machine) (starts : List Nat) : Prop extends Stored m starts where
  nil : ∃ i ∈ starts, m.heap.nil = .ofWordIndex i ∧ (m.heap.view i).shape = .nil
  core : m.core.nil = m.heap.nil
  classes : ∀ r ∈ m.core.classes.toList, m.heap.kind r = .object .cls
  symbols : ∀ r ∈ m.symbols.refs, m.heap.kind r = .object .text
  globals : ∀ r ∈ m.globals.refs, m.heap.kind r = .object .association

variable {m m' : Machine} {starts starts' : List Nat} {live : Nat → Bool} {c : Collected} {h : Heap}
  {r cls value : Ref} {s : Shape} {index : Nat}

theorem Stored.known (hm : m.Stored starts) (hr : r ∈ m.roots) : Known starts r :=
  hm.rootsIn.roots r hr

theorem Stored.laidOut (hm : m.Stored starts) : m.heap.LaidOut starts :=
  hm.shaped.toLaidOut

namespace Sound

/-- What the machine refers to keeps its shape when memory changes otherwise. -/
theorem withHeap (hm : m.Sound starts) (hshaped : h.Shaped starts')
    (hmem : ∀ i ∈ starts, i ∈ starts') (hnil : h.nil = m.heap.nil)
    (hsame : ∀ i ∈ starts, View.SameLayout (m.heap.view i) (h.view i)) :
    ({ m with heap := h } : Machine).Sound starts' where
  idle := hm.idle
  shaped := hshaped
  rootsIn := by
    have hroots : ({ m with heap := h } : Machine).roots = m.roots := by rw [roots_eq, roots_eq]
    rw [hroots]
    refine ⟨fun r hr => (hm.known hr).mono hmem, ?_⟩
    show h.nil.isPointer = true → Designates starts' h.nil
    rw [hnil]
    exact Known.mono hm.rootsIn.nil hmem
  nil := by
    obtain ⟨i, hi, heq, hshape⟩ := hm.nil
    exact ⟨i, hmem i hi, hnil.trans heq, (hsame i hi).shape_eq.trans hshape⟩
  core := hm.core.trans hnil.symm
  classes r hr := by
    have hroot : r ∈ m.roots := mem_roots.mpr (.inr (.inl (by simp [CoreObjects.refs, hr])))
    show h.kind r = .object .cls
    rw [Heap.kind_congr hm.laidOut hnil (hm.known hroot) hsame]
    exact hm.classes r hr
  symbols r hr := by
    have hroot : r ∈ m.roots := mem_roots.mpr (.inr (.inr (.inl hr)))
    exact (Heap.kind_congr hm.laidOut hnil (hm.known hroot) hsame).trans (hm.symbols r hr)
  globals r hr := by
    have hroot : r ∈ m.roots := mem_roots.mpr (.inr (.inr (.inr (.inl hr))))
    exact (Heap.kind_congr hm.laidOut hnil (hm.known hroot) hsame).trans (hm.globals r hr)

/-- What the machine refers to may change while memory stays. -/
theorem withRefs (hm : m.Sound starts) (hheap : m'.heap = m.heap)
    (hregisters : m'.registers = m.registers) (hcore : m'.core.nil = m.core.nil)
    (hroots : ∀ r ∈ m'.roots, r ∉ m.roots → Known starts r)
    (hclasses : ∀ r ∈ m'.core.classes.toList, r ∉ m.core.classes.toList →
      m.heap.kind r = .object .cls)
    (hsymbols : ∀ r ∈ m'.symbols.refs, r ∉ m.symbols.refs → m.heap.kind r = .object .text)
    (hglobals : ∀ r ∈ m'.globals.refs, r ∉ m.globals.refs →
      m.heap.kind r = .object .association) : m'.Sound starts where
  idle := by
    rw [hregisters]
    exact hm.idle
  shaped := by
    rw [hheap]
    exact hm.shaped
  rootsIn := by
    rw [hheap]
    refine ⟨fun r hr hp => ?_, hm.rootsIn.nil⟩
    by_cases hold : r ∈ m.roots
    · exact hm.known hold hp
    · exact hroots r hr hold hp
  nil := by
    rw [hheap]
    exact hm.nil
  core := by
    rw [hheap, hcore]
    exact hm.core
  classes r hr := by
    rw [hheap]
    by_cases hold : r ∈ m.core.classes.toList
    · exact hm.classes r hold
    · exact hclasses r hr hold
  symbols r hr := by
    rw [hheap]
    by_cases hold : r ∈ m.symbols.refs
    · exact hm.symbols r hold
    · exact hsymbols r hr hold
  globals r hr := by
    rw [hheap]
    by_cases hold : r ∈ m.globals.refs
    · exact hm.globals r hold
    · exact hglobals r hr hold

end Sound

/-! ### Collections -/

/-- A machine whose memory was collected. -/
def Moved (m : Machine) (starts : List Nat) (live : Nat → Bool) (c : Collected) : Machine :=
  { m.mapRoots (m.heap.moveRef starts live) with
    heap := c.heap
    contexts := m.contexts.clear
    cache := m.cache.flush }

theorem flushRegisters_idle (hidle : m.registers.activeContext.isPointer = false) :
    m.flushRegisters = .ok () m := by
  show (if m.registers.activeContext.isPointer = true then _ else _ : Action Unit) m = _
  rw [hidle]
  rfl

theorem reloadRegisters_idle (hidle : m.registers.activeContext.isPointer = false) :
    m.reloadRegisters = .ok () m := by
  show (if m.registers.activeContext.isPointer = true then _ else _ : Action Unit) m = _
  rw [hidle]
  rfl

/-- Between runs there is nothing to write back, and a collection succeeds unless the work list of
marking overflows. -/
theorem collectGarbage_idle (hidle : m.registers.activeContext.isPointer = false)
    (hw : m.heap.WellFormed starts) (hr : m.heap.RootsIn starts m.roots) :
    (m.heap.mark m.roots = .error (.markStackOverflow m.heap.config.markLimit) ∧
        m.collectGarbage = .stopped (.markStackOverflow m.heap.config.markLimit)) ∨
      ∃ live c, m.heap.KeepsReachable starts live m.roots ∧
        m.heap.Collects starts live m.roots c ∧
        m.collectGarbage = .ok c.reclaimed (m.Moved starts live c) := by
  have hsame : ∀ n : Machine, n.registers = m.registers → n.core = m.core →
      n.symbols = m.symbols → n.globals = m.globals → n.pinned = m.pinned →
      n.roots = m.roots := by
    intro n hregisters hcore hsymbols hglobals hpinned
    rw [roots_eq, roots_eq, hregisters, hcore, hsymbols, hglobals, hpinned]
  have hbegin : m.collectGarbage = (do
      let found ← Action.onHeap fun h => do
        let collected ← h.collect m.roots
        return ((collected.roots, collected.reclaimed), collected.heap)
      modify (·.withRoots found.1)
      Machine.flushCache
      Machine.reloadRegisters
      return found.2 : Action Nat) { m with contexts := m.contexts.clear } := by
    unfold Machine.collectGarbage
    rw [Action.bind_of_ok (flushRegisters_idle hidle),
      ← hsame { m with contexts := m.contexts.clear } rfl rfl rfl rfl rfl]
    rfl
  rw [hbegin]
  rcases Heap.collect_spec hw hr with ⟨hoverflow, herror⟩ | ⟨c, live, hok, hk, hc⟩
  · refine .inl ⟨hoverflow, Action.bind_of_stopped (Action.onHeap_of_error ?_)⟩
    dsimp only
    rw [herror]
    rfl
  · refine .inr ⟨live, c, hk, hc, ?_⟩
    let n : Machine := { m with heap := c.heap, contexts := m.contexts.clear }
    have hcollect : Action.onHeap (fun h => do
        let collected ← h.collect m.roots
        return ((collected.roots, collected.reclaimed), collected.heap))
        { m with contexts := m.contexts.clear } = .ok (c.roots, c.reclaimed) n := by
      refine Action.onHeap_eq_ok.mpr ⟨c.heap, ?_, rfl⟩
      dsimp only
      rw [hok]
      rfl
    have hreplaced : n.withRoots c.roots = n.mapRoots (m.heap.moveRef starts live) := by
      rw [hc.roots, ← hsame n rfl rfl rfl rfl rfl]
      exact n.withRoots_map _
    have hmoved : ({ n.withRoots c.roots with cache := (n.withRoots c.roots).cache.flush } : Machine) =
        m.Moved starts live c := by
      rw [hreplaced]
      rfl
    rw [Action.bind_of_ok hcollect]
    show (Machine.reloadRegisters >>= fun _ => pure c.reclaimed)
      { n.withRoots c.roots with cache := (n.withRoots c.roots).cache.flush } = _
    rw [hmoved, Action.bind_of_ok (reloadRegisters_idle ?_)]
    · rfl
    · show (m.heap.moveRef starts live m.registers.activeContext).isPointer = false
      rw [Heap.moveRef, if_neg (by simp [hidle])]
      exact hidle

namespace Stored

/-- A collection succeeds unless the work list of marking overflows. -/
theorem collectGarbage_cases (hm : m.Stored starts) :
    m.collectGarbage = .stopped (.markStackOverflow m.heap.config.markLimit) ∨
      ∃ live c, m.heap.KeepsReachable starts live m.roots ∧
        m.heap.Collects starts live m.roots c ∧
        m.collectGarbage = .ok c.reclaimed (m.Moved starts live c) := by
  rcases collectGarbage_idle hm.idle hm.shaped.toWellFormed hm.rootsIn with ⟨-, hstopped⟩ | hdone
  · exact .inl hstopped
  · exact .inr hdone

theorem collectGarbage (hm : m.Stored starts) :
    m.collectGarbage.Meets (fun _ m' => ∃ live c, m.heap.KeepsReachable starts live m.roots ∧
      m.heap.Collects starts live m.roots c ∧ m' = m.Moved starts live c) fun _ => False := by
  rcases hm.collectGarbage_cases with hstopped | ⟨live, c, hk, hc, hok⟩
  · rw [hstopped]
    trivial
  · rw [hok]
    exact ⟨live, c, hk, hc, rfl⟩

/-- What roots lead to survives. -/
theorem live_of_root (hm : m.Stored starts) (hk : m.heap.KeepsReachable starts live m.roots)
    (hr : r ∈ m.roots) (hp : r.isPointer = true) :
    ∃ i ∈ starts, live i = true ∧ r = .ofWordIndex i :=
  hk.live_of_reachable hm.shaped.toWellFormed hm.rootsIn (.root hr hp)

theorem kind_moved (hm : m.Stored starts) (hk : m.heap.KeepsReachable starts live m.roots)
    (hc : m.heap.Collects starts live m.roots c) (hr : r ∈ m.roots) :
    c.heap.kind (m.heap.moveRef starts live r) = m.heap.kind r :=
  hc.kind hm.shaped.toWellFormed (hm.live_of_root hk hr) fun hp =>
    hk.live_of_reachable hm.shaped.toWellFormed hm.rootsIn (.nil hp)

theorem moved (hm : m.Stored starts) (hk : m.heap.KeepsReachable starts live m.roots)
    (hc : m.heap.Collects starts live m.roots c) :
    (m.Moved starts live c).Stored (m.heap.survivors starts live) where
  idle := by
    show (m.heap.moveRef starts live m.registers.activeContext).isPointer = false
    rw [Heap.moveRef, if_neg (by simp [hm.idle])]
    exact hm.idle
  shaped := hm.shaped.collected hm.rootsIn hk hc
  rootsIn := by
    have hroots : (m.Moved starts live c).roots = c.roots := by
      have hmap : (m.mapRoots (m.heap.moveRef starts live)).roots =
          m.roots.map (m.heap.moveRef starts live) := roots_mapRoots ..
      rw [hc.roots, ← hmap, roots_eq, roots_eq]
      rfl
    rw [hroots]
    exact hc.rootsIn hm.shaped.toWellFormed hm.rootsIn hk

/-- Nil is still an object without fields. -/
theorem nil_moved (hm : m.Stored starts) (hk : m.heap.KeepsReachable starts live m.roots)
    (hc : m.heap.Collects starts live m.roots c)
    (hnil : ∃ i ∈ starts, m.heap.nil = .ofWordIndex i ∧ (m.heap.view i).shape = .nil) :
    ∃ j ∈ m.heap.survivors starts live, c.heap.nil = .ofWordIndex j ∧
      (c.heap.view j).shape = .nil := by
  have hw := hm.shaped.toWellFormed
  obtain ⟨i, hi, heq, hshape⟩ := hnil
  have hp : m.heap.nil.isPointer = true := by
    rw [heq]
    exact hw.isPointer hi
  obtain ⟨j, hj, hlive, heq'⟩ := hk.live_of_reachable hw hm.rootsIn (.nil hp)
  have hij := hw.ofWordIndex_inj hi hj (heq.symm.trans heq')
  subst hij
  refine ⟨_, Heap.mem_survivors.mpr ⟨i, hi, hlive, rfl⟩, ?_,
    (hc.agrees hw hi hlive).toSameLayout.shape_eq.trans hshape⟩
  rw [hc.nil, heq, Heap.moveRef_ofWordIndex hw.toLaidOut hi]

end Stored

theorem Sound.moved (hm : m.Sound starts) (hk : m.heap.KeepsReachable starts live m.roots)
    (hc : m.heap.Collects starts live m.roots c) :
    (m.Moved starts live c).Sound (m.heap.survivors starts live) where
  toStored := hm.toStored.moved hk hc
  nil := hm.nil_moved hk hc hm.nil
  core := by
    show m.heap.moveRef starts live m.core.nil = c.heap.nil
    rw [hc.nil, hm.core]
  classes r hr := by
    have hr' : r ∈ (m.core.mapRefs (m.heap.moveRef starts live)).classes.toList := hr
    rw [classes_mapRefs] at hr'
    obtain ⟨r, hmem, rfl⟩ := List.mem_map.mp hr'
    show c.heap.kind _ = .object .cls
    rw [hm.kind_moved hk hc (mem_roots.mpr (.inr (.inl (by simp [CoreObjects.refs, hmem]))))]
    exact hm.classes r hmem
  symbols r hr := by
    have hr' : r ∈ (m.symbols.mapRefs (m.heap.moveRef starts live)).refs := hr
    rw [NameTable.refs_mapRefs] at hr'
    obtain ⟨r, hmem, rfl⟩ := List.mem_map.mp hr'
    exact (hm.kind_moved hk hc (mem_roots.mpr (.inr (.inr (.inl hmem))))).trans
      (hm.symbols r hmem)
  globals r hr := by
    have hr' : r ∈ (m.globals.mapRefs (m.heap.moveRef starts live)).refs := hr
    rw [NameTable.refs_mapRefs] at hr'
    obtain ⟨r, hmem, rfl⟩ := List.mem_map.mp hr'
    exact (hm.kind_moved hk hc (mem_roots.mpr (.inr (.inr (.inr (.inl hmem)))))).trans
      (hm.globals r hmem)

/-! ## Allocation -/

/-- An allocation comes down to collections that keep the class, and to placing the object. -/
theorem allocate_meets {format : Format} {fields len : Nat} {P Q : Ref → Machine → Prop}
    (hcls : P cls m)
    (hcollect : ∀ r n, P r n → (n.collectKeeping r).Meets P fun _ => False)
    (hplace : ∀ r n h, P r n → n.heap.Allocated r format fields len h →
      Q (.ofWordIndex n.heap.top) { n with heap := h }) :
    (m.allocate cls format fields len).Meets Q fun _ => False := by
  have hattempt : ∀ r n (next : Option Ref → Action Ref), P r n → (∀ x, next (some x) = pure x) →
      ((next none n).Meets Q fun _ => False) →
      ((Action.onHeap (·.tryAllocate r format fields len) >>= next) n).Meets Q fun _ => False := by
    intro r n next hr hfound hnext
    refine .onHeap fun found h hok => ?_
    rcases Heap.tryAllocate_cases hok with ⟨rfl, rfl⟩ | ⟨rfl, ha⟩
    · exact hnext
    · rw [hfound]
      exact hplace r n h hr ha
  -- With and without a collection beforehand there are two attempts.
  have hbefore : ∀ (crossed : Bool) (next : Ref → Action Ref),
      (∀ r n, P r n → (next r n).Meets Q fun _ => False) →
      ((if crossed = true then Machine.collectKeeping cls >>= next else pure cls >>= next :
        Action Ref) m).Meets Q fun _ => False := by
    intro crossed next hnext
    cases crossed with
    | true => exact .bind_of_never (hcollect cls m hcls) hnext
    | false => exact .step rfl (hnext cls m hcls)
  unfold Machine.allocate
  refine .lift fun words _ => .read fun crossed _ => hbefore crossed _ fun r n hr => ?_
  refine hattempt r n _ hr (fun _ => rfl) (.bind_of_never (hcollect r n hr) fun r' n' hr' => ?_)
  refine hattempt r' n' _ hr' (fun _ => rfl) ?_
  show (Action.read _ n').Meets _ _
  unfold Action.read
  trivial

/-! ## Watches -/

/-- What is known of a reference beside what it leads to. -/
inductive Tag where
  /-- Nothing that is kept depends on the object. -/
  | free
  /-- Nothing that is kept depends on the fields and the elements of the object. -/
  | writable
  /-- It leads to what is watched. -/
  | subject
  /-- It is the temporary pinned at a position. -/
  | handle (position : Nat)
  /-- It is the symbol of a name. -/
  | symbol (name : String)
  /-- Nothing that is kept depends on the object, and it has so many elements. -/
  | spare (len : Nat)

/-- Machines with the same memory, the same cache and the same kernel classes, and with the same
temporaries below a position. The symbols of the one are symbols of the other. -/
structure AlikeBelow (base : Nat) (m m' : Machine) : Prop where
  heap : m'.heap = m.heap
  classes : m'.core.classes = m.core.classes
  cache : m'.cache = m.cache
  pinned : ∀ i < base, m'.pinned[i]? = m.pinned[i]?
  symbols : ∀ name r, m.symbols.find? name = some r → m'.symbols.find? name = some r

/-- A store to an object that may be written to. The class of an object changes only if nothing
depends on it. What becomes the class of an object, the dictionary of a class or the methods of a
dictionary may be written to as well. -/
structure Stores (tells : Tag → Ref → Prop) (h : Heap) (starts : List Nat) (i : Nat) (h' : Heap) :
    Prop where
  mem : i ∈ starts
  touches : Heap.Touches i h h'
  shaped : h'.Shaped starts
  header : h'.view i 0 = h.view i 0
  allowed : tells .writable (.ofWordIndex i) ∨ (h.view i).shape = .association
  cls : (h'.view i).ref 1 = (h.view i).ref 1 ∨
    (tells .free (.ofWordIndex i) ∧ tells .writable ((h'.view i).ref 1))
  links : ∀ k, (h.view i).shape.Owns k →
    (h'.view i).ref k = (h.view i).ref k ∨ tells .writable ((h'.view i).ref k)

/-- Something that is kept while objects are made. The lowest temporaries belong to it, and stay
pinned. It holds still after everything that machines are made with: collections, allocations, stores
to what it does not depend on, and new symbols. -/
structure Watch where
  base : Nat
  Kept : Machine → List Nat → Prop
  Tells : Tag → Machine → Ref → Prop
  writable : ∀ {m r}, Tells .free m r → Tells .writable m r
  symbol : ∀ {m name r}, m.symbols.find? name = some r → Tells (.symbol name) m r
  congr : ∀ {m m' starts}, AlikeBelow base m m' → m'.symbols = m.symbols → Kept m starts → Kept m' starts
  tells_congr : ∀ {tag m m' r}, AlikeBelow base m m' → Tells tag m r → Tells tag m' r
  flushed : ∀ {m starts}, Kept m starts → Kept { m with cache := m.cache.flush } starts
  tells_flushed : ∀ {tag m r}, Tells tag m r → Tells tag { m with cache := m.cache.flush } r
  named : ∀ {m starts name r}, m.symbols.find? name = none → r ∉ m.symbols.refs → Kept m starts →
    Kept { m with symbols := m.symbols.add name r } starts
  collected : ∀ {m starts live c}, m.Sound starts → base ≤ m.pinned.size →
    m.heap.KeepsReachable starts live m.roots → m.heap.Collects starts live m.roots c →
    Kept m starts → Kept (m.Moved starts live c) (m.heap.survivors starts live)
  tells_collected : ∀ {tag m starts live c r}, m.Sound starts → base ≤ m.pinned.size →
    m.heap.KeepsReachable starts live m.roots → m.heap.Collects starts live m.roots c →
    Kept m starts → r ∈ m.roots → Tells tag m r →
    Tells tag (m.Moved starts live c) (m.heap.moveRef starts live r)
  allocated : ∀ {m starts cls format fields len h}, m.Sound starts →
    m.heap.Allocated cls format fields len h → h.Shaped (starts ++ [m.heap.top]) →
    Kept m starts → Kept { m with heap := h } (starts ++ [m.heap.top])
  tells_allocated : ∀ {tag m starts cls format fields len h r}, m.Sound starts →
    m.heap.Allocated cls format fields len h → Kept m starts → Known starts r → Tells tag m r →
    Tells tag { m with heap := h } r
  fresh : ∀ {m starts cls format fields len h}, m.Sound starts →
    m.heap.Allocated cls format fields len h → h.Shaped (starts ++ [m.heap.top]) →
    Kept m starts → Tells .free { m with heap := h } (.ofWordIndex m.heap.top)
  stored : ∀ {m starts i h}, m.Sound starts → Stores (Tells · m) m.heap starts i h →
    Kept m starts → Kept { m with heap := h } starts
  tells_stored : ∀ {tag m starts i h r}, m.Sound starts → Stores (Tells · m) m.heap starts i h →
    Kept m starts → Known starts r → Tells tag m r → Tells tag { m with heap := h } r

namespace Watch

/-- Nothing is kept. -/
def any (base : Nat) : Watch where
  base
  Kept _ _ := True
  Tells _ _ _ := True
  writable := id
  symbol _ := trivial
  congr _ _ := id
  tells_congr _ := id
  flushed := id
  tells_flushed := id
  named _ _ := id
  collected _ _ _ _ := id
  tells_collected _ _ _ _ _ _ := id
  allocated _ _ _ := id
  tells_allocated _ _ _ _ := id
  fresh _ _ _ := id
  stored _ _ := id
  tells_stored _ _ _ _ := id

/-- What an object owns that may be written to may be written to as well. -/
def Closed (w : Watch) : Prop :=
  ∀ {m starts i k}, m.Sound starts → w.Kept m starts → i ∈ starts →
    w.Tells .writable m (.ofWordIndex i) → (m.heap.view i).IsFixed k →
    (m.heap.view i).shape.Owns k → w.Tells .writable m ((m.heap.view i).ref k)

theorem closed_any (base : Nat) : (any base).Closed := fun _ _ _ _ _ _ => trivial

end Watch

/-- A machine at an earlier time, and where its objects began. -/
structure Origin where
  machine : Machine
  starts : List Nat
  laidOut : machine.heap.LaidOut starts

/-- A reference that led to nothing at the origin, if nothing was moved since. -/
def New (x : Origin) (m : Machine) (r : Ref) : Prop :=
  m.cache.IsEmpty ∨ x.machine.heap.top ≤ r.wordIndex

/-- What happened since the origin: the cache was flushed, or objects were added and associations
changed and nothing else. -/
def Since (x : Origin) (m : Machine) (starts : List Nat) : Prop :=
  m.cache.IsEmpty ∨ (m.cache = x.machine.cache ∧ x.machine.heap.Extends x.starts m.heap starts)

/-- What is kept since the origin does not depend on objects that are new. -/
def Origin.Tells (x : Origin) : Tag → Machine → Ref → Prop
  | .free, m, r => New x m r
  | .writable, m, r => New x m r
  | _, _, _ => True

theorem Origin.Tells.mono {x : Origin} {tag : Tag} {m m' : Machine} {r r' : Ref}
    (hr : x.Tells tag m r) (hnew : New x m r → New x m' r') : x.Tells tag m' r' := by
  cases tag with
  | free => exact hnew hr
  | writable => exact hnew hr
  | subject => trivial
  | handle position => trivial
  | symbol name => trivial
  | spare len => trivial

namespace Watch

/-- What happens is watched from an origin on. -/
def since (x : Origin) : Watch where
  base := 0
  Kept := Since x
  Tells := x.Tells
  writable := id
  symbol _ := trivial
  congr halike _ hm := by
    unfold Since at hm ⊢
    rw [halike.heap, halike.cache]
    exact hm
  tells_congr halike hr := hr.mono fun hnew => by
    unfold New at hnew ⊢
    rw [halike.cache]
    exact hnew
  flushed _ := .inl (find?_flush _)
  tells_flushed hr := hr.mono fun _ => .inl (find?_flush _)
  named _ _ hm := hm
  collected _ _ _ _ _ := .inl (find?_flush _)
  tells_collected _ _ _ _ _ _ hr := hr.mono fun _ => .inl (find?_flush _)
  allocated hsound ha _ hm :=
    hm.imp_right fun ⟨hcache, hextends⟩ => ⟨hcache, hextends.trans (ha.extends hsound.laidOut)⟩
  tells_allocated _ _ _ _ hr := hr.mono id
  fresh {m starts _ _ _ _ _} _ _ hshaped hm := by
    refine hm.imp_right fun ⟨_, hextends⟩ => ?_
    rw [hshaped.wordIndex (show m.heap.top ∈ starts ++ [m.heap.top] by simp)]
    exact hextends.top
  stored {m starts i h} hsound hstores hm := by
    rcases hm with hempty | ⟨hcache, hextends⟩
    · exact .inl hempty
    · have htouches : ∀ _, Since x { m with heap := h } starts := fun hnew => .inr
        ⟨hcache, hextends.touches hstores.touches x.laidOut hsound.laidOut hstores.mem hnew⟩
      rcases hstores.allowed with (hempty | htop) | hshape
      · exact .inl hempty
      · rw [hsound.laidOut.wordIndex hstores.mem] at htop
        exact htouches (.inl htop)
      · exact htouches (.inr hshape)
  tells_stored _ _ _ _ hr := hr.mono id

end Watch

/-! ## Marks -/

/-- What is known of a reference: the kind of what it leads to, and a tag. -/
structure Mark where
  kind : Kind → Prop
  tag : Option Tag := none

namespace Mark

/-- Nothing is known. -/
def any : Mark := ⟨fun _ => True, none⟩

/-- Nil itself. -/
def nil : Mark := ⟨(· = .nil), none⟩

/-- An object of a shape. -/
def of (s : Shape) : Mark := ⟨(· = .object s), none⟩

/-- A new object of a shape. -/
def new (s : Shape) : Mark := ⟨(· = .object s), some .free⟩

/-- What may stand where a shape is expected. -/
def fits (s : Shape) : Mark := ⟨(·.Fits s), none⟩

/-- What may stand where a shape is expected and may be written to. -/
def writable (s : Shape) : Mark := ⟨(·.Fits s), some .writable⟩

/-- The symbol of a name. -/
def symbol (name : String) : Mark := ⟨(· = .object .text), some (.symbol name)⟩

/-- A reference is marked rightly. -/
structure Holds (t : Mark) (w : Watch) (m : Machine) (starts : List Nat) (r : Ref) : Prop where
  known : Known starts r
  kind : t.kind (m.heap.kind r)
  tag : ∀ tag ∈ t.tag, w.Tells tag m r

end Mark

variable {w : Watch} {t : Mark} {marks : List Mark}

theorem Mark.Holds.any (hr : Known starts r) : Mark.any.Holds w m starts r :=
  ⟨hr, trivial, fun _ h => nomatch h⟩

theorem Mark.Holds.toAny (hr : t.Holds w m starts r) : Mark.any.Holds w m starts r :=
  .any hr.known

/-- What stands where something other than a class is expected is that or nil. -/
theorem Mark.Holds.cases_fits (hr : (Mark.fits s).Holds w m starts r) (hs : s ≠ .cls) :
    Mark.nil.Holds w m starts r ∨ (Mark.of s).Holds w m starts r := by
  rcases hr.kind with hkind | hkind | ⟨-, hcls⟩
  · exact .inl ⟨hr.known, hkind, fun _ h => nomatch h⟩
  · exact .inr ⟨hr.known, hkind, fun _ h => nomatch h⟩
  · exact absurd hcls hs

/-- What is expected of a word is known of what it leads to. -/
theorem Mark.Holds.ofSuits {k : Nat} (hr : Mark.Holds ⟨(·.Suits s k), none⟩ w m starts r)
    (expected : Shape) (he : s.expects k = some expected) :
    (Mark.fits expected).Holds w m starts r :=
  ⟨hr.known, hr.kind expected he, fun _ h => nomatch h⟩

theorem Mark.Holds.forget (hr : t.Holds w m starts r) (base : Nat) :
    t.Holds (.any base) m starts r :=
  ⟨hr.known, hr.kind, fun _ _ => trivial⟩

theorem Mark.Holds.withFree (hr : (Mark.of s).Holds w m starts r) (htells : w.Tells .free m r) :
    (Mark.new s).Holds w m starts r := by
  refine ⟨hr.known, hr.kind, fun tag h => ?_⟩
  cases h
  exact htells

theorem Mark.Holds.toOf (hr : (Mark.new s).Holds w m starts r) : (Mark.of s).Holds w m starts r :=
  ⟨hr.known, hr.kind, fun _ h => nomatch h⟩

theorem Mark.Holds.toFits (hr : (Mark.of s).Holds w m starts r) :
    (Mark.fits s).Holds w m starts r :=
  ⟨hr.known, .inr (.inl hr.kind), fun _ h => nomatch h⟩

theorem Mark.Holds.withWritable (hr : (Mark.fits s).Holds w m starts r)
    (htells : w.Tells .writable m r) : (Mark.writable s).Holds w m starts r := by
  refine ⟨hr.known, hr.kind, fun tag h => ?_⟩
  cases h
  exact htells

theorem Mark.Holds.toWritable (hr : (Mark.new s).Holds w m starts r) :
    (Mark.writable s).Holds w m starts r :=
  hr.toOf.toFits.withWritable (w.writable (hr.tag _ rfl))

theorem Mark.Holds.ofWritable (hr : (Mark.writable s).Holds w m starts r) :
    (Mark.fits s).Holds w m starts r :=
  ⟨hr.known, hr.kind, fun _ h => nomatch h⟩

theorem Mark.Holds.tells (hr : (Mark.writable s).Holds w m starts r) : w.Tells .writable m r :=
  hr.tag _ rfl

/-- What is known of references in one machine is known of them in another. -/
def Carries (w : Watch) (m : Machine) (starts : List Nat) (m' : Machine) (starts' : List Nat) :
    Prop :=
  ∀ t r, Mark.Holds t w m starts r → Mark.Holds t w m' starts' r

theorem Carries.trans {m'' : Machine} {starts'' : List Nat} (h : Carries w m starts m' starts')
    (h' : Carries w m' starts' m'' starts'') : Carries w m starts m'' starts'' :=
  fun t r hr => h' t r (h t r hr)

/-- References are known alike in machines that are alike. -/
theorem Mark.Holds.congr (hr : t.Holds w m starts r) (halike : AlikeBelow w.base m m') :
    t.Holds w m' starts r := by
  refine ⟨hr.known, by rw [halike.heap]; exact hr.kind, fun tag htag => ?_⟩
  exact w.tells_congr halike (hr.tag tag htag)

theorem carries_of_alike (halike : AlikeBelow w.base m m') : Carries w m starts m' starts :=
  fun _ _ hr => hr.congr halike

/-- The temporaries above those of the watch are marked rightly, the first one lowest. -/
def Pins (w : Watch) (m : Machine) (starts : List Nat) (marks : List Mark) : Prop :=
  List.Forall₂ (fun r t => Mark.Holds t w m starts r) (m.pinned.toList.drop w.base) marks

/-- A sound machine that keeps what is watched, with marks on its pinned temporaries. -/
structure Stage (w : Watch) (marks : List Mark) (m : Machine) (starts : List Nat) : Prop where
  sound : m.Sound starts
  base_le : w.base ≤ m.pinned.size
  pins : Pins w m starts marks
  kept : w.Kept m starts

/-- A reference is answered by a machine at a stage. -/
def Gives (w : Watch) (marks : List Mark) (t : Mark) (r : Ref) (m : Machine) : Prop :=
  ∃ starts, Stage w marks m starts ∧ t.Holds w m starts r

/-- The machine is at a stage. -/
def Keeps (w : Watch) (marks : List Mark) (m : Machine) : Prop :=
  ∃ starts, Stage w marks m starts

namespace Stage

theorem laidOut (hs : Stage w marks m starts) : m.heap.LaidOut starts :=
  hs.sound.laidOut

/-- What the machine refers to is known. -/
theorem root (hs : Stage w marks m starts) (hr : r ∈ m.roots) : Mark.any.Holds w m starts r :=
  .any (hs.sound.known hr)

theorem nil (hs : Stage w marks m starts) : Mark.nil.Holds w m starts m.core.nil := by
  rw [hs.sound.core]
  exact ⟨hs.sound.rootsIn.nil, Heap.kind_nil _, fun _ h => nomatch h⟩

theorem kernelClass (hs : Stage w marks m starts) (k : KernelClass) :
    (Mark.of .cls).Holds w m starts (m.core.cls k) :=
  ⟨hs.sound.known (root_cls m k),
    hs.sound.classes _ (Vector.mem_toList_iff.mpr (mem_classes m.core k)), fun _ h => nomatch h⟩

theorem forget (hs : Stage w marks m starts) : Stage (.any w.base) marks m starts :=
  ⟨hs.sound, hs.base_le, hs.pins.imp fun _ _ h => h.forget w.base, trivial⟩

/-- A machine all of whose temporaries belong to the watch. -/
theorem of_size (hm : m.Sound starts) (hsize : m.pinned.size = w.base) (hkept : w.Kept m starts) :
    Stage w [] m starts := by
  refine ⟨hm, Nat.le_of_eq hsize.symm, ?_, hkept⟩
  unfold Pins
  rw [List.drop_of_length_le (by rw [Array.length_toList, hsize])]
  exact .nil

/-- A machine to begin with. -/
theorem start (hm : m.Sound starts) (hpinned : m.pinned = #[]) :
    Stage (.since ⟨m, starts, hm.laidOut⟩) [] m starts := by
  refine ⟨hm, Nat.zero_le _, ?_, .inr ⟨rfl, .refl ..⟩⟩
  unfold Pins
  rw [hpinned]
  exact .nil

/-- Another machine with the same memory, symbols and temporaries. -/
theorem withRefs (hs : Stage w marks m starts) (hm' : m'.Sound starts)
    (halike : AlikeBelow w.base m m') (hkept : w.Kept m' starts) (hpinned : m'.pinned = m.pinned) :
    Stage w marks m' starts := by
  refine ⟨hm', by rw [hpinned]; exact hs.base_le, ?_, hkept⟩
  unfold Pins
  rw [hpinned]
  exact hs.pins.imp fun r t hr => hr.congr halike

/-- Without methods found so far. -/
theorem flushCache (hs : Stage w marks m starts) :
    Stage w marks { m with cache := m.cache.flush } starts := by
  refine ⟨?_, hs.base_le, ?_, w.flushed hs.kept⟩
  · exact hs.sound.withRefs rfl rfl rfl (fun r hr hnew => absurd hr hnew)
      (fun r hr hnew => absurd hr hnew) (fun r hr hnew => absurd hr hnew)
      fun r hr hnew => absurd hr hnew
  · exact hs.pins.imp fun r t hr =>
      ⟨hr.known, hr.kind, fun tag htag => w.tells_flushed (hr.tag tag htag)⟩

/-! ## Pinned temporaries -/

theorem size_pinned (hs : Stage w marks m starts) : m.pinned.size = w.base + marks.length := by
  have hlen := hs.pins.length_eq
  have hbase := hs.base_le
  rw [List.length_drop, Array.length_toList] at hlen
  omega

/-- Another selection of the temporaries above those of the watch. -/
theorem withPinned (hs : Stage w marks m starts) {pinned : Array Ref} {marks' : List Mark}
    (hbase : w.base ≤ pinned.size) (hlow : ∀ i < w.base, pinned[i]? = m.pinned[i]?)
    (hknown : ∀ r ∈ pinned.toList, Known starts r)
    (hpins : List.Forall₂ (fun r t => Mark.Holds t w m starts r) (pinned.toList.drop w.base)
      marks') : Stage w marks' { m with pinned } starts ∧ Carries w m starts { m with pinned } starts := by
  have halike : AlikeBelow w.base m { m with pinned } := ⟨rfl, rfl, rfl, hlow, fun _ _ h => h⟩
  refine ⟨⟨?_, hbase, hpins.imp fun r t hr => hr.congr halike, w.congr halike rfl hs.kept⟩,
    carries_of_alike halike⟩
  refine hs.sound.withRefs rfl rfl rfl ?_ (fun r hr hnew => absurd hr hnew)
    (fun r hr hnew => absurd hr hnew) fun r hr hnew => absurd hr hnew
  intro r hr hnew
  rw [mem_roots] at hr hnew
  simp only at hr
  exact hknown r (by tauto)

theorem pinning (hs : Stage w marks m starts) (hr : t.Holds w m starts r) :
    Stage w (marks ++ [t]) { m with pinned := m.pinned.push r } starts ∧
      Carries w m starts { m with pinned := m.pinned.push r } starts := by
  have hbase := hs.base_le
  refine hs.withPinned (by rw [Array.size_push]; omega) ?_ ?_ ?_
  · intro i hi
    rw [Array.getElem?_push, if_neg (by omega)]
  · intro x hx
    rw [Array.toList_push, List.mem_append, List.mem_singleton] at hx
    rcases hx with hold | rfl
    · exact hs.sound.known (mem_roots.mpr (.inr (.inr (.inr (.inr hold)))))
    · exact hr.known
  · rw [Array.toList_push, List.drop_append_of_le_length (by simpa using hbase)]
    exact List.rel_append hs.pins (.cons hr .nil)

theorem pin (hs : Stage w marks m starts) (hr : t.Holds w m starts r) :
    Stage w (marks ++ [t]) { m with pinned := m.pinned.push r } starts :=
  (hs.pinning hr).1

theorem unpinning (hs : Stage w marks m starts) (count : Nat) :
    Stage w (marks.take count) { m with pinned := m.pinned.take (w.base + count) } starts ∧
      Carries w m starts { m with pinned := m.pinned.take (w.base + count) } starts := by
  have hbase := hs.base_le
  have htake : (m.pinned.take (w.base + count)).toList = m.pinned.toList.take (w.base + count) := by
    simp
  refine hs.withPinned (by simp; omega) ?_ ?_ ?_
  · intro i hi
    rw [← Array.getElem?_toList, htake, List.getElem?_take, if_pos (by omega),
      Array.getElem?_toList]
  · intro x hx
    rw [htake] at hx
    exact hs.sound.known (mem_roots.mpr (.inr (.inr (.inr (.inr (List.mem_of_mem_take hx))))))
  · rw [htake, List.drop_take, Nat.add_sub_cancel_left]
    exact List.forall₂_take count hs.pins

/-- The temporary at a position. -/
theorem pinned (hs : Stage w marks m starts) (ht : marks[index]? = some t) :
    ∃ r, m.pinned[w.base + index]? = some r ∧ t.Holds w m starts r := by
  obtain ⟨hlt, heq⟩ := List.getElem?_eq_some_iff.mp ht
  have hlen := hs.pins.length_eq
  have hlt' : index < (m.pinned.toList.drop w.base).length := by omega
  have hget := List.Forall₂.get hs.pins hlt' hlt
  refine ⟨(m.pinned.toList.drop w.base)[index], ?_, ?_⟩
  · rw [← Array.getElem?_toList, ← List.getElem?_drop]
    exact List.getElem?_eq_getElem hlt'
  · rw [← heq]
    exact hget

theorem pinnedAt (hs : Stage w marks m starts) (ht : marks[index]? = some t) :
    ∃ r, m.pinnedAt (w.base + index) = .ok r m ∧ t.Holds w m starts r := by
  obtain ⟨r, hr, hholds⟩ := hs.pinned ht
  refine ⟨r, ?_, hholds⟩
  unfold Machine.pinnedAt
  rw [hr]

theorem unpin (hs : Stage w (marks ++ [t]) m starts) :
    ∃ r m', m.unpin = .ok r m' ∧ Stage w marks m' starts ∧ t.Holds w m' starts r ∧
      Carries w m starts m' starts := by
  obtain ⟨r, hr, hholds⟩ := hs.pinned (show (marks ++ [t])[marks.length]? = some t by simp)
  have hsize := hs.size_pinned
  simp only [List.length_append, List.length_singleton] at hsize
  have hback : m.pinned.back? = some r := by
    rw [Array.back?_eq_getElem?, hsize]
    exact hr
  have hpop : m.pinned.pop = m.pinned.take (w.base + marks.length) := by
    rw [← Array.toList_inj]
    simp [Array.toList_pop, List.dropLast_eq_take, hsize]
  obtain ⟨hstage, hcarries⟩ := hs.unpinning marks.length
  rw [← hpop] at hstage hcarries
  rw [List.take_left] at hstage
  refine ⟨r, { m with pinned := m.pinned.pop }, ?_, hstage, hcarries t r hholds, hcarries⟩
  unfold Machine.unpin
  rw [hback]

/-! ## Collections and allocations -/

theorem moved (hs : Stage w marks m starts) (hk : m.heap.KeepsReachable starts live m.roots)
    (hc : m.heap.Collects starts live m.roots c) :
    Stage w marks (m.Moved starts live c) (m.heap.survivors starts live) := by
  refine ⟨hs.sound.moved hk hc, ?_, ?_, w.collected hs.sound hs.base_le hk hc hs.kept⟩
  · show w.base ≤ (m.pinned.map (m.heap.moveRef starts live)).size
    rw [Array.size_map]
    exact hs.base_le
  show List.Forall₂ _ ((m.pinned.map (m.heap.moveRef starts live)).toList.drop w.base) marks
  rw [Array.toList_map, ← List.map_drop, List.forall₂_map_left_iff]
  have hknown : ∀ r ∈ m.pinned.toList.drop w.base, ∀ t, Mark.Holds t w m starts r →
      Mark.Holds t w (m.Moved starts live c) (m.heap.survivors starts live)
        (m.heap.moveRef starts live r) := by
    intro r hr t ht
    have hmem := List.mem_of_mem_drop hr
    have hroot : r ∈ m.roots := mem_roots.mpr (.inr (.inr (.inr (.inr hmem))))
    refine ⟨?_, ?_, fun tag htag =>
      w.tells_collected hs.sound hs.base_le hk hc hs.kept hroot (ht.tag tag htag)⟩
    · refine (hs.sound.moved hk hc).known (mem_roots.mpr (.inr (.inr (.inr (.inr ?_)))))
      show _ ∈ (m.pinned.map (m.heap.moveRef starts live)).toList
      rw [Array.toList_map]
      exact List.mem_map_of_mem hmem
    · show t.kind (c.heap.kind _)
      rw [hs.sound.kind_moved hk hc hroot]
      exact ht.kind
  have hboth := (List.forall₂_and_left _ _).mpr ⟨hknown, hs.pins⟩
  exact hboth.imp fun r t h => h.1 t h.2

theorem collectGarbage (hs : Stage w marks m starts) :
    m.collectGarbage.Meets (fun _ m' => Keeps w marks m') fun _ => False := by
  refine hs.sound.collectGarbage.mono ?_ fun _ h => h
  rintro _ _ ⟨live, c, hk, hc, rfl⟩
  exact ⟨_, hs.moved hk hc⟩

theorem collectKeeping (hs : Stage w marks m starts) (hr : t.Holds w m starts r) :
    (m.collectKeeping r).Meets (Gives w marks t) fun _ => False := by
  unfold Machine.collectKeeping
  refine .step rfl (.bind_of_never (hs.pin hr).collectGarbage ?_)
  rintro _ m' ⟨starts', hs'⟩
  obtain ⟨r', m'', hunpin, hs'', hr', -⟩ := hs'.unpin
  rw [hunpin]
  exact ⟨starts', hs'', hr'⟩

variable {format : Format} {fields len : Nat}

/-- A fresh object is known to be new. -/
theorem allocated {tag : Tag} (hs : Stage w marks m starts)
    (ha : m.heap.Allocated cls format fields len h) (hctx : format = .context → 3 ≤ fields)
    (hcls : Mark.Holds ⟨(·.Suits (format, fields) 1), none⟩ w m starts cls)
    (htag : h.Shaped (starts ++ [m.heap.top]) →
      w.Tells tag { m with heap := h } (.ofWordIndex m.heap.top)) :
    Gives w marks ⟨(· = .object (format, fields)), some tag⟩ (.ofWordIndex m.heap.top)
      { m with heap := h } := by
  have hl := hs.laidOut
  have hshaped := hs.sound.shaped.allocated ha hctx hcls.known hcls.kind hs.sound.rootsIn.nil
  have hmem : m.heap.top ∈ starts ++ [m.heap.top] := by simp
  have hsub : ∀ i ∈ starts, i ∈ starts ++ [m.heap.top] := fun i hi => List.mem_append.mpr (.inl hi)
  have hsame : ∀ i ∈ starts, View.SameLayout (m.heap.view i) (h.view i) := fun i hi =>
    (ha.agrees hl hi).toSameLayout
  have hnil : Ref.ofWordIndex m.heap.top ≠ h.nil := by
    obtain ⟨i, hi, heq, -⟩ := hs.sound.nil
    rw [ha.nil, heq]
    intro hsame
    have htop := hshaped.ofWordIndex_inj hmem (List.mem_append.mpr (.inl hi)) hsame
    have hlt := hl.lt_top hi
    omega
  refine ⟨starts ++ [m.heap.top], ⟨hs.sound.withHeap hshaped hsub ha.nil hsame, hs.base_le, ?_,
    w.allocated hs.sound ha hshaped hs.kept⟩, fun _ => ⟨_, hmem, rfl⟩, ?_, ?_⟩
  · refine hs.pins.imp fun r t hr => ⟨hr.known.mono hsub, ?_, fun tag htag =>
      w.tells_allocated hs.sound ha hs.kept hr.known (hr.tag tag htag)⟩
    show t.kind (h.kind r)
    rw [Heap.kind_congr hl ha.nil hr.known hsame]
    exact hr.kind
  · show h.kind _ = _
    rw [hshaped.kind_eq hmem hnil]
    exact congrArg Kind.object (Prod.ext ha.fresh_format ha.fresh_fields)
  · intro tag htag'
    cases htag'
    exact htag hshaped

/-- What an allocation gives, and what the watch tells of it. -/
theorem allocate_tagged {tag : Tag} (hs : Stage w marks m starts)
    (hctx : format = .context → 3 ≤ fields)
    (hcls : Mark.Holds ⟨(·.Suits (format, fields) 1), none⟩ w m starts cls)
    (htag : ∀ {n starts cls h}, n.Sound starts → n.heap.Allocated cls format fields len h →
      h.Shaped (starts ++ [n.heap.top]) → w.Kept n starts →
      w.Tells tag { n with heap := h } (.ofWordIndex n.heap.top)) :
    (m.allocate cls format fields len).Meets
      (Gives w marks ⟨(· = .object (format, fields)), some tag⟩) fun _ => False := by
  refine allocate_meets (P := Gives w marks ⟨(·.Suits (format, fields) 1), none⟩)
    ⟨starts, hs, hcls⟩ ?_ ?_
  · rintro r n ⟨starts, hs, hr⟩
    exact hs.collectKeeping hr
  · rintro r n h ⟨starts, hs, hr⟩ ha
    exact hs.allocated ha hctx hr fun hshaped => htag hs.sound ha hshaped hs.kept

/-- What an allocation gives. -/
theorem allocate (hs : Stage w marks m starts) (hctx : format = .context → 3 ≤ fields)
    (hcls : Mark.Holds ⟨(·.Suits (format, fields) 1), none⟩ w m starts cls) :
    (m.allocate cls format fields len).Meets (Gives w marks (.new (format, fields)))
      fun _ => False :=
  hs.allocate_tagged hctx hcls w.fresh

/-- An allocation of which nothing is expected. -/
theorem allocate_any (hs : Stage w marks m starts) (hctx : format ≠ .context)
    (hclass : (format, fields) ≠ Shape.cls) (hcls : t.Holds w m starts cls) :
    (m.allocate cls format fields len).Meets (Gives w marks (.new (format, fields)))
      fun _ => False := by
  refine hs.allocate (fun h => absurd h hctx) ⟨hcls.known, ?_, fun _ h => nomatch h⟩
  refine Kind.suits_of_expects ?_
  unfold Shape.expects
  rw [if_neg hclass, if_neg fun h => nomatch h.2]

/-- An instance of a class is made. -/
theorem allocate_instance (hs : Stage w marks m starts) (hctx : format = .context → 3 ≤ fields)
    (hcls : (Mark.of .cls).Holds w m starts cls) :
    (m.allocate cls format fields len).Meets (Gives w marks (.new (format, fields)))
      fun _ => False := by
  refine hs.allocate hctx ⟨hcls.known, fun expected he => ?_, fun _ h => nomatch h⟩
  rw [Shape.eq_cls_of_expects he, show m.heap.kind cls = .object .cls from hcls.kind]
  exact Kind.fits_object _

/-- A class is made. -/
theorem allocate_cls (hs : Stage w marks m starts) (hcls : (Mark.of .cls).Holds w m starts cls) :
    (m.allocate cls .plain Class.fieldCount 0).Meets (Gives w marks (.new .cls))
      fun _ => False :=
  hs.allocate_instance (fun h => nomatch h) hcls

/-- Machines whose symbols have the same names, and whose globals have. -/
def SameNames (m m' : Machine) : Prop :=
  m'.symbols.names = m.symbols.names ∧ m'.globals.names = m.globals.names

theorem collectKeeping_names (hs : Stage w marks m starts) (hr : t.Holds w m starts r) :
    (m.collectKeeping r).Meets (fun _ => SameNames m) fun _ => False := by
  unfold Machine.collectKeeping
  refine .step rfl (.bind_of_never (hs.pin hr).sound.collectGarbage ?_)
  rintro _ _ ⟨live, c, -, -, rfl⟩
  unfold Machine.unpin
  split
  · exact ⟨NameTable.names_mapRefs .., NameTable.names_mapRefs ..⟩
  · trivial

/-- What is allocated is not referred to yet, and no names are added. -/
theorem allocate_names (hs : Stage w marks m starts) (hcls : t.Holds w m starts cls) :
    (m.allocate cls format fields len).Meets (fun r m' => SameNames m m' ∧ r ∉ m'.roots)
      fun _ => False := by
  refine allocate_meets (P := fun r n => Gives w marks t r n ∧ SameNames m n)
    ⟨⟨starts, hs, hcls⟩, rfl, rfl⟩ ?_ ?_
  · rintro r n ⟨⟨starts, hs, hr⟩, hnames⟩
    refine ((hs.collectKeeping hr).and (hs.collectKeeping_names hr)).mono ?_ fun _ h => h.1
    rintro r' n' ⟨hgives, hnames'⟩
    exact ⟨hgives, hnames'.1.trans hnames.1, hnames'.2.trans hnames.2⟩
  · rintro r n h ⟨⟨starts, hs, -⟩, hnames⟩ ha
    refine ⟨hnames, fun hroot => ?_⟩
    have hl := hs.laidOut
    have htop : n.heap.top < Ref.addressLimit := by
      have hsize := format.two_le_sizeInWords fields len
      have hcommitted := ha.committed
      rw [ha.top] at hcommitted
      have haddressable := ha.addressable hl hs.sound.shaped.reserved
      omega
    obtain ⟨i, hi, heq⟩ := hs.sound.known (r := .ofWordIndex n.heap.top) (by
      rw [roots_eq] at hroot ⊢
      exact hroot) (Ref.isPointer_ofWordIndex hl.tiles.le htop)
    have hlt := hl.lt_top hi
    rw [Ref.ofWordIndex_inj htop (hl.lt_addressLimit hi) heq] at hlt
    exact Nat.lt_irrefl _ hlt

/-! ## Stores -/

/-- An object of a shape that may be stored to. -/
def Writable (w : Watch) (m : Machine) (starts : List Nat) (s : Shape) (r : Ref) : Prop :=
  (∃ i ∈ starts, r = .ofWordIndex i ∧ (m.heap.view i).shape = s) ∧
    (w.Tells .writable m r ∨ s = .association)

theorem writable_new (hs : Stage w marks m starts) (hr : (Mark.new s).Holds w m starts r) :
    Writable w m starts s r :=
  ⟨hs.laidOut.of_kind hr.known hr.kind, .inl hr.toWritable.tells⟩

theorem writable_of (hs : Stage w marks m starts) (hr : (Mark.of s).Holds w m starts r)
    (htells : w.Tells .writable m r) : Writable w m starts s r :=
  ⟨hs.laidOut.of_kind hr.known hr.kind, .inl htells⟩

theorem writable_association (hs : Stage w marks m starts)
    (hr : (Mark.of .association).Holds w m starts r) : Writable w m starts .association r :=
  ⟨hs.laidOut.of_kind hr.known hr.kind, .inr rfl⟩

theorem stores (hs : Stage w marks m starts) {i : Nat}
    (hstores : Stores (w.Tells · m) m.heap starts i h) :
    Stage w marks { m with heap := h } starts ∧ Carries w m starts { m with heap := h } starts := by
  have hl := hs.laidOut
  have ht := hstores.touches
  have hsame : ∀ j ∈ starts, View.SameLayout (m.heap.view j) (h.view j) := fun j hj =>
    ht.sameLayout hl hstores.mem hj
  have hcarries : Carries w m starts { m with heap := h } starts := by
    intro t r hr
    refine ⟨hr.known, ?_, fun tag htag =>
      w.tells_stored hs.sound hstores hs.kept hr.known (hr.tag tag htag)⟩
    show t.kind (h.kind r)
    rw [Heap.kind_congr hl ht.nil hr.known hsame]
    exact hr.kind
  exact ⟨⟨hs.sound.withHeap hstores.shaped (fun _ hj => hj) ht.nil hsame, hs.base_le,
    hs.pins.imp fun r t hr => hcarries t r hr, w.stored hs.sound hstores hs.kept⟩, hcarries⟩

/-- A reference is stored to a word of an object. -/
theorem poked (hs : Stage w marks m starts) {i k : Nat} (hi : i ∈ starts)
    (hview : (m.heap.view i).shape = s)
    (hwritable : w.Tells .writable m (.ofWordIndex i) ∨ s = .association) (hpos : k ≠ 0)
    (hlt : k < (m.heap.view i).size) (hcount : k ≠ headerWords + (m.heap.view i).fields)
    (hformat : s.1 = .plain ∨ s.1 = .array) (hvalue : Known starts value)
    (hsuits : (m.heap.view i).IsFixed k → (m.heap.kind value).Suits s k)
    (hcls : k = 1 → w.Tells .free m (.ofWordIndex i) ∧ w.Tells .writable m value)
    (hlinks : (m.heap.view i).IsFixed k → s.Owns k → w.Tells .writable m value) :
    Stage w marks { m with heap := m.heap.poke (i + k) value.bits } starts ∧
      Carries w m starts { m with heap := m.heap.poke (i + k) value.bits } starts := by
  have hfits := hs.laidOut.fits_memory hi
  have hfmt : (m.heap.view i).format = s.1 := congrArg Prod.fst hview
  have hword : ∀ k', (m.heap.poke (i + k) value.bits).view i k' =
      if k' = k then value.bits else m.heap.view i k' := Heap.view_poke (by omega) _
  refine hs.stores (i := i)
    { mem := hi
      touches := Heap.touches_poke hlt hfits hpos hcount _
      shaped := hs.sound.shaped.storeRef hi (Nat.pos_of_ne_zero hpos) hlt hcount ?_ (.inl ?_)
        hvalue (by rwa [hview])
      header := by rw [hword, if_neg (Ne.symm hpos)]
      allowed := by rwa [hview]
      cls := ?_
      links := ?_ }
  · rw [hfmt]
    rcases hformat with h | h <;> rw [h] <;> decide
  · rw [hfmt]
    rcases hformat with h | h <;> rw [h] <;> decide
  · by_cases hone : k = 1
    · subst hone
      have href : ((m.heap.poke (i + 1) value.bits).view i).ref 1 = value :=
        congrArg Ref.mk ((hword 1).trans (if_pos rfl))
      rw [href]
      exact .inr (hcls rfl)
    · refine .inl (congrArg Ref.mk ?_)
      rw [hword, if_neg (Ne.symm hone)]
  · intro k' howns
    by_cases hk : k' = k
    · subst hk
      have href : ((m.heap.poke (i + k') value.bits).view i).ref k' = value :=
        congrArg Ref.mk ((hword k').trans (if_pos rfl))
      rw [href]
      exact .inr (hlinks howns.isFixed (by rwa [hview] at howns))
    · refine .inl (congrArg Ref.mk ?_)
      rw [hword, if_neg hk]

theorem storeField (hs : Stage w marks m starts) (hr : Writable w m starts s r)
    (hformat : s.1 = .plain ∨ s.1 = .array) (hvalue : Known starts value)
    (hsuits : (m.heap.kind value).Suits s (headerWords + index))
    (hlinks : s.Owns (headerWords + index) → w.Tells .writable m value)
    (hok : m.heap.storeField r index value = .ok h) :
    Stage w marks { m with heap := h } starts ∧ Carries w m starts { m with heap := h } starts := by
  have hl := hs.laidOut
  obtain ⟨⟨i, hi, rfl, hview⟩, hwritable⟩ := hr
  have hallows : (m.heap.view i).format.allowsFields = true := by
    rw [show (m.heap.view i).format = s.1 from congrArg Prod.fst hview]
    rcases hformat with h | h <;> rw [h] <;> rfl
  have hindex : index < (m.heap.view i).fields := by
    by_contra hout
    have hout' : ¬ index < (m.heap.view i).header.fixedFields := hout
    unfold Heap.storeField Heap.fieldIndex at hok
    rw [hl.header hi] at hok
    simp only [if_neg hout'] at hok
    cases hok
  have hin := View.fields_lt_size hallows (Nat.add_lt_add_left hindex headerWords)
  rw [Heap.storeField_eq hl hi hindex hin] at hok
  cases hok
  exact hs.poked hi hview hwritable (by simp [headerWords]) hin (by omega) hformat hvalue
    (fun _ => hsuits) (fun h => absurd h (by simp only [headerWords]; omega)) fun _ => hlinks

theorem storeElement (hs : Stage w marks m starts) (hr : Writable w m starts s r)
    (hformat : s.1 = .array) (hvalue : Known starts value)
    (hok : m.heap.storeElement r index value = .ok h) :
    Stage w marks { m with heap := h } starts ∧ Carries w m starts { m with heap := h } starts := by
  have hl := hs.laidOut
  obtain ⟨⟨i, hi, rfl, hview⟩, hwritable⟩ := hr
  have hfmt : (m.heap.view i).format = .array := (congrArg Prod.fst hview).trans hformat
  have htail : (m.heap.view i).format.hasReferenceTail = true := by
    rw [hfmt]
    rfl
  have hindex : index < (m.heap.view i).len := by
    by_contra hout
    unfold Heap.storeElement Heap.elementIndex Heap.checkElement at hok
    rw [hl.length hi] at hok
    simp only [if_neg hout] at hok
    cases hok
  have hin := View.elements_lt_size htail (Nat.add_lt_add_left hindex (m.heap.view i).elements)
  rw [Heap.storeElement_eq hl hi hindex hin] at hok
  cases hok
  have hbehind : headerWords + (m.heap.view i).fields < (m.heap.view i).elements + index := by
    simp only [View.elements]
    omega
  have hfixed : ¬ (m.heap.view i).IsFixed ((m.heap.view i).elements + index) := by
    rintro (hone | ⟨-, -, hlt⟩)
    · simp only [headerWords] at hbehind
      omega
    · omega
  exact hs.poked hi hview hwritable (by omega) hin (by omega) (.inr hformat) hvalue
    (fun h => absurd h hfixed) (fun h => absurd (.inl h) hfixed) fun h => absurd h hfixed

theorem setClassOf (hs : Stage w marks m starts) (hr : Writable w m starts s r)
    (hfree : w.Tells .free m r) (hwritable : w.Tells .writable m cls) (hformat : s.1 = .plain)
    (hcls : Known starts cls)
    (hsuits : (m.heap.kind cls).Suits s 1) (hok : m.heap.setClassOf r cls = .ok h) :
    Stage w marks { m with heap := h } starts ∧ Carries w m starts { m with heap := h } starts := by
  have hl := hs.laidOut
  obtain ⟨⟨i, hi, rfl, hview⟩, hallowed⟩ := hr
  rw [Heap.setClassOf_eq hl hi] at hok
  cases hok
  have htwo := (m.heap.view i).two_le_size
  refine hs.poked hi hview hallowed (by omega) (by omega) (by simp only [headerWords]; omega)
    (.inl hformat) hcls (fun _ => hsuits) (fun _ => ⟨hfree, hwritable⟩) fun _ howns => ?_
  rcases howns with he | he <;> cases Shape.eq_cls_of_expects he

/-- Words that are no references are stored to an object. -/
theorem storesRaw (hs : Stage w marks m starts) {i : Nat} (hi : i ∈ starts)
    (hview : (m.heap.view i).shape = s)
    (hwritable : w.Tells .writable m (.ofWordIndex i) ∨ s = .association)
    (hraw : s.1.allowsFields = false) (ht : Heap.Touches i m.heap h) (hshaped : h.Shaped starts)
    (hwords : ∀ k < headerWords, h.view i k = m.heap.view i k) :
    Stage w marks { m with heap := h } starts ∧ Carries w m starts { m with heap := h } starts := by
  refine hs.stores ⟨hi, ht, hshaped, hwords 0 (by decide), by rwa [hview],
    .inl (congrArg Ref.mk (hwords 1 (by decide))), fun k howns => ?_⟩
  rw [hview] at howns
  rw [howns.allowsFields] at hraw
  cases hraw

theorem storeBytes (hs : Stage w marks m starts) (hr : Writable w m starts .text r)
    {bytes : List UInt8} (hok : m.heap.storeBytes r bytes = .ok h) :
    Stage w marks { m with heap := h } starts ∧ Carries w m starts { m with heap := h } starts := by
  have hl := hs.laidOut
  obtain ⟨⟨i, hi, rfl, hview⟩, hwritable⟩ := hr
  have hfmt : (m.heap.view i).format = .byteArray := congrArg Prod.fst hview
  have hidx : (m.heap.view i).format.isIndexable = true := by
    rw [hfmt]
    rfl
  have hlen : bytes.length ≤ (m.heap.view i).len := by
    by_contra hout
    unfold Heap.storeBytes at hok
    rw [hl.length hi] at hok
    obtain ⟨_, hrequire, -⟩ := bind_eq_ok.mp (show (require _ _ >>= _) = _ from hok)
    exact hout (of_decide_eq_true (require_ok hrequire))
  have hsize := View.size_of_isIndexable hidx
  rw [hfmt] at hsize
  simp only [Format.tailWords] at hsize
  obtain ⟨h', hrun, hw⟩ := Heap.storeBytes_within hl hi hlen (by omega)
  rw [hrun] at hok
  cases hok
  obtain ⟨htouch, hshaped⟩ := hs.sound.shaped.storeRaw hi (by rw [hfmt]; rfl)
    (by rw [hfmt]; decide) hw (by simp only [View.elements]; omega) (fun _ => Nat.le_refl _)
    (Nat.le_refl _)
  refine hs.storesRaw hi hview hwritable rfl htouch hshaped fun k hk => hw.outside _ (.inl ?_)
  simp only [View.elements]
  omega

theorem setFloatValue (hs : Stage w marks m starts) (hr : Writable w m starts (.float, 0) r)
    {x : Binary64} (hok : m.heap.setFloatValue r x = .ok h) :
    Stage w marks { m with heap := h } starts ∧ Carries w m starts { m with heap := h } starts := by
  have hl := hs.laidOut
  obtain ⟨⟨i, hi, rfl, hview⟩, hwritable⟩ := hr
  have hfmt : (m.heap.view i).format = .float := congrArg Prod.fst hview
  have hsize : (m.heap.view i).size = headerWords + 1 := by
    simp [View.size, hfmt, Format.sizeInWords]
  rw [Heap.setFloatValue_eq hl hi hfmt] at hok
  cases hok
  have hwithin : Heap.Within (i + headerWords) (i + headerWords + 1) m.heap
      (m.heap.poke (i + headerWords) x.bits) := .poke (Nat.le_refl _) (by omega) _
  obtain ⟨htouch, hshaped⟩ := hs.sound.shaped.storeRaw hi (by rw [hfmt]; rfl)
    (by rw [hfmt]; decide) hwithin (Nat.le_refl _)
    (fun hidx => by rw [hfmt] at hidx; cases hidx) (by omega)
  exact hs.storesRaw hi hview hwritable rfl htouch hshaped fun k hk =>
    hwithin.outside _ (.inl (Nat.add_lt_add_left hk i))

theorem setLargeInteger (hs : Stage w marks m starts)
    (hr : Writable w m starts (.largeInteger, 0) r) {x : Int}
    (hok : m.heap.setLargeInteger r x = .ok h) :
    Stage w marks { m with heap := h } starts ∧ Carries w m starts { m with heap := h } starts := by
  have hl := hs.laidOut
  obtain ⟨⟨i, hi, rfl, hview⟩, hwritable⟩ := hr
  have hfmt : (m.heap.view i).format = .largeInteger := congrArg Prod.fst hview
  obtain ⟨h', hrun, htouch, hwords, howned, htable, -⟩ :=
    Heap.setLargeInteger_spec hs.sound.shaped.toWellFormed hs.sound.shaped.table hi hfmt x
  rw [hrun] at hok
  cases hok
  have hheader : (h.view i).header = (m.heap.view i).header :=
    congrArg Header.mk (hwords 0 (by decide))
  have hclass : (h.view i).ref 1 = (m.heap.view i).ref 1 := congrArg Ref.mk (hwords 1 (by decide))
  refine hs.storesRaw hi hview hwritable rfl htouch
    (hs.sound.shaped.touch hi htouch ?_ ?_ ?_ howned htable) fun k hk => hwords k (by omega)
  · rw [hheader]
    exact hs.sound.shaped.unmarked i hi
  · intro k hk
    rw [(View.isTraced_iff_class (by rw [htouch.layout.format_eq, hfmt]; rfl) k).mp hk, hclass]
    exact hs.sound.shaped.traced i hi 1 (.inl rfl)
  · rintro k (rfl | ⟨hallows, -⟩)
    · rw [hclass]
      exact hs.sound.shaped.follows i hi 1 (.inl rfl)
    · rw [hfmt] at hallows
      cases hallows

end Stage

end Machine

end ObjectMachine
