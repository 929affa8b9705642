import ObjectMachine.Proofs.Class.Tables

/-!
# Dictionaries that are followed

A class and its dictionary move, and the dictionary is replaced when it grows; so a dictionary is told
by the way that leads to it, from a kernel class or a pinned temporary over the words of classes. A
catalog has such ways, and for each of them what was put into the dictionary so far. Everything that
machines are made with keeps what a catalog says, as long as nothing is stored to the objects on the
ways.

## Main results

* `Machine.Records`: a dictionary that has the methods put into it, the latest of each name.
* `Machine.Catalog.watch`: what a catalog says is kept by collections, allocations and stores.
-/

namespace ObjectMachine.Machine

variable {m m' : Machine} {starts starts' : List Nat} {live : Nat → Bool} {c : Collected} {h : Heap}
  {r : Ref} {i k : Nat} {path : List Nat}

/-! ## Ways -/

/-- Where a way begins: at a kernel class or at a pinned temporary. -/
inductive Root where
  | kernel (k : KernelClass)
  | pinned (position : Nat)
  deriving DecidableEq

/-- What the machine has there. -/
def Root.ref (m : Machine) : Root → Ref
  | .kernel k => m.core.cls k
  | .pinned position => m.pinned.getD position .null

/-- A root that no change above the lowest temporaries concerns. -/
def Root.Below (base : Nat) : Root → Prop
  | .kernel _ => True
  | .pinned position => position < base

/-- A word of what a reference leads to. -/
def word (m : Machine) (r : Ref) (k : Nat) : Ref := (m.heap.view r.wordIndex).ref k

/-- Where a way over words leads. -/
def wayEnd (m : Machine) (r : Ref) : List Nat → Ref
  | [] => r
  | k :: rest => m.wayEnd (m.word r k) rest

/-- The references on a way, before its end. -/
def trail (m : Machine) (r : Ref) : List Nat → List Ref
  | [] => []
  | k :: rest => r :: m.trail (m.word r k) rest

/-- The words that a way goes over. -/
def steps (m : Machine) (r : Ref) : List Nat → List (Ref × Nat)
  | [] => []
  | k :: rest => (r, k) :: m.steps (m.word r k) rest

/-- A way goes over classes: to the class of a class, or to its dictionary. -/
def Walks (m : Machine) (starts : List Nat) (r : Ref) : List Nat → Prop
  | [] => True
  | k :: rest => (∃ i ∈ starts, r = .ofWordIndex i ∧ (m.heap.view i).shape = .cls) ∧
      (k = 1 ∨ k = dictionaryWord) ∧ m.Walks starts (m.word r k) rest

theorem word_ofWordIndex (hl : m.heap.LaidOut starts) (hi : i ∈ starts) (k : Nat) :
    m.word (.ofWordIndex i) k = (m.heap.view i).ref k := by
  unfold word
  rw [hl.wordIndex hi]

/-- The words of classes on a way are traced. -/
theorem isFixed_of_walks (hshape : (m.heap.view i).shape = .cls) (hk : k = 1 ∨ k = dictionaryWord) :
    (m.heap.view i).IsFixed k := by
  rcases hk with rfl | rfl
  · exact .inl rfl
  · have hformat : (m.heap.view i).format = .plain := congrArg Prod.fst hshape
    have hfields : (m.heap.view i).fields = Class.fieldCount := congrArg Prod.snd hshape
    exact .inr ⟨by rw [hformat]; rfl, by unfold dictionaryWord; omega,
      by rw [hfields]; decide⟩

/-- The references on a way lead to classes. -/
theorem Walks.cls (hw : m.Walks starts r path) {r' : Ref} (hr' : r' ∈ m.trail r path) :
    ∃ i ∈ starts, r' = .ofWordIndex i ∧ (m.heap.view i).shape = .cls := by
  induction path generalizing r with
  | nil => cases hr'
  | cons k rest ih =>
    rcases List.mem_cons.mp hr' with rfl | hr'
    · exact hw.1
    · exact ih hw.2.2 hr'

/-- The words that a way goes over are words of the classes on it. -/
theorem mem_trail_of_steps {r' : Ref} (hs : (r', k) ∈ m.steps r path) : r' ∈ m.trail r path := by
  induction path generalizing r with
  | nil => cases hs
  | cons k' rest ih =>
    rcases List.mem_cons.mp hs with heq | hs
    · cases heq
      exact List.mem_cons_self
    · exact List.mem_cons_of_mem _ (ih hs)

/-- A way is the same in a machine in which the words that it goes over are. -/
theorem Walks.congr (hw : m.Walks starts r path) (hl : m.heap.LaidOut starts)
    (hsub : ∀ i ∈ starts, i ∈ starts')
    (hlayout : ∀ i ∈ starts, View.SameLayout (m.heap.view i) (m'.heap.view i))
    (hwords : ∀ i ∈ starts, ∀ k, (Ref.ofWordIndex i, k) ∈ m.steps r path →
      (m.heap.view i).IsFixed k → (m'.heap.view i).ref k = (m.heap.view i).ref k) :
    m'.Walks starts' r path ∧ m'.wayEnd r path = m.wayEnd r path ∧
      m'.trail r path = m.trail r path := by
  induction path generalizing r with
  | nil => exact ⟨trivial, rfl, rfl⟩
  | cons k rest ih =>
    obtain ⟨⟨i, hi, rfl, hshape⟩, hk, hrest⟩ := hw
    have hword : m'.word (.ofWordIndex i) k = m.word (.ofWordIndex i) k := by
      unfold word
      rw [hl.wordIndex hi]
      exact hwords i hi k List.mem_cons_self (isFixed_of_walks hshape hk)
    obtain ⟨hw', hfollow, htrail⟩ := ih hrest fun j hj k hmem =>
      hwords j hj k (List.mem_cons_of_mem _ hmem)
    refine ⟨⟨⟨i, hsub i hi, rfl, (hlayout i hi).shape_eq.trans hshape⟩, hk, ?_⟩, ?_, ?_⟩
    · rw [hword]
      exact hw'
    · show m'.wayEnd (m'.word _ k) rest = m.wayEnd (m.word _ k) rest
      rw [hword, hfollow]
    · show _ :: m'.trail (m'.word _ k) rest = _ :: m.trail (m.word _ k) rest
      rw [hword, htrail]

/-! ### Ways and collections -/

theorem moveRef_ofNat (h : Heap) (starts : List Nat) (live : Nat → Bool) (n : Nat) :
    h.moveRef starts live (.ofNat n) = .ofNat n := by
  have hsmall : (Ref.ofNat n).isSmallInteger = true := Ref.isSmallInteger_ofPayload _
  rw [Heap.moveRef, if_neg (by simp [Ref.not_isPointer_of_isSmallInteger hsmall])]

/-- A reference to an object that survives a collection. -/
def Survives (starts : List Nat) (live : Nat → Bool) (r : Ref) : Prop :=
  ∃ i ∈ starts, live i = true ∧ r = .ofWordIndex i

theorem word_moved (hm : m.Stored starts) (hc : m.heap.Collects starts live m.roots c)
    (hi : i ∈ starts) (hlive : live i = true) (hk : (m.heap.view i).IsTraced k) :
    (m.Moved starts live c).word (m.heap.moveRef starts live (.ofWordIndex i)) k =
      m.heap.moveRef starts live (m.word (.ofWordIndex i) k) := by
  have hw := hm.shaped.toWellFormed
  have hj : slide m.heap.sizeOf live starts i ∈ m.heap.survivors starts live :=
    Heap.mem_survivors.mpr ⟨i, hi, hlive, rfl⟩
  rw [Heap.moveRef_ofWordIndex hw.toLaidOut hi, word_ofWordIndex hw.toLaidOut hi]
  unfold word
  rw [(hc.laidOut hw).wordIndex hj]
  exact hc.ref_of_isTraced hi hlive hk

/-- What a surviving object leads to survives. -/
theorem survives_word (hm : m.Stored starts) (hk : m.heap.KeepsReachable starts live m.roots)
    (hi : i ∈ starts) (hlive : live i = true) (htraced : (m.heap.view i).IsTraced k)
    (hp : (m.word (.ofWordIndex i) k).isPointer = true) :
    Survives starts live (m.word (.ofWordIndex i) k) := by
  rw [word_ofWordIndex hm.laidOut hi] at hp ⊢
  exact hk.live_of_traced hm.shaped.toWellFormed hm.rootsIn hi hlive htraced hp

/-- A collection moves a way with the classes on it, which survive if the first one does and if what
is at the end is an object. -/
theorem Walks.moved (hw : m.Walks starts r path) (hm : m.Stored starts)
    (hk : m.heap.KeepsReachable starts live m.roots)
    (hc : m.heap.Collects starts live m.roots c) (hr : Survives starts live r)
    (hend : (m.wayEnd r path).isPointer = true) :
    (m.Moved starts live c).Walks (m.heap.survivors starts live) (m.heap.moveRef starts live r) path ∧
      (m.Moved starts live c).wayEnd (m.heap.moveRef starts live r) path =
        m.heap.moveRef starts live (m.wayEnd r path) ∧
      (m.Moved starts live c).trail (m.heap.moveRef starts live r) path =
        (m.trail r path).map (m.heap.moveRef starts live) ∧
      (∀ r' ∈ m.trail r path, Survives starts live r') ∧
      Survives starts live (m.wayEnd r path) := by
  have hl := hm.laidOut
  induction path generalizing r with
  | nil => exact ⟨trivial, rfl, rfl, by simp [trail], hr⟩
  | cons k rest ih =>
    obtain ⟨⟨i, hi, rfl, hshape⟩, hword, hrest⟩ := hw
    obtain ⟨i', hi', hlive, heq⟩ := hr
    cases hl.ofWordIndex_inj hi hi' heq
    have htraced := (isFixed_of_walks hshape hword).isTraced
    have hmoved := word_moved hm hc hi hlive htraced
    have hp : (m.word (.ofWordIndex i) k).isPointer = true := by
      cases rest with
      | nil => exact hend
      | cons k' rest =>
        obtain ⟨⟨j, hj, heq, -⟩, -⟩ := hrest
        rw [heq]
        exact hl.isPointer hj
    obtain ⟨hw', hfollow, htrail, hall, hlast⟩ := ih hrest (survives_word hm hk hi hlive htraced hp)
      hend
    have hj : slide m.heap.sizeOf live starts i ∈ m.heap.survivors starts live :=
      Heap.mem_survivors.mpr ⟨i, hi, hlive, rfl⟩
    refine ⟨⟨⟨_, hj, Heap.moveRef_ofWordIndex hl hi, ?_⟩, hword, ?_⟩, ?_, ?_, ?_, hlast⟩
    · exact (hc.agrees hm.shaped.toWellFormed hi hlive).toSameLayout.shape_eq.trans hshape
    · rw [hmoved]
      exact hw'
    · show (m.Moved starts live c).wayEnd ((m.Moved starts live c).word _ k) rest = _
      rw [hmoved, hfollow]
      rfl
    · show _ :: (m.Moved starts live c).trail ((m.Moved starts live c).word _ k) rest = _
      rw [hmoved, htrail]
      rfl
    · intro r' hr'
      rcases List.mem_cons.mp hr' with rfl | hr'
      · exact ⟨i, hi, hlive, rfl⟩
      · exact hall r' hr'

/-! ## Dictionaries at the end of ways -/

/-- A way to a dictionary. -/
structure Handle where
  root : Root
  path : List Nat
  deriving DecidableEq

namespace Handle

/-- The dictionary itself. -/
def direct (root : Root) : Handle := ⟨root, []⟩

/-- The dictionary of a class. -/
def cls (root : Root) : Handle := ⟨root, [dictionaryWord]⟩

/-- The dictionary of the metaclass of a class. -/
def metaclass (root : Root) : Handle := ⟨root, [1, dictionaryWord]⟩

def trail (x : Handle) (m : Machine) : List Ref := m.trail (x.root.ref m) x.path

def dictionary (x : Handle) (m : Machine) : Ref := m.wayEnd (x.root.ref m) x.path

/-- The array of the methods. -/
def methods (x : Handle) (m : Machine) : Ref := m.word (x.dictionary m) methodsWord

/-- The objects that a dictionary consists of and those on the way to it. -/
def parts (x : Handle) (m : Machine) : List Ref := x.trail m ++ [x.dictionary m, x.methods m]

end Handle

/-- What was put into a dictionary, the latest first: the name, and the position at which the method
is pinned if it is. -/
abbrev Log := List (String × Option Nat)

/-- A table with the names of a log, and with the latest method of each that is pinned. -/
structure Records (log : Log) (pinned : Array Ref) (slots : Slots String Ref) : Prop where
  names : ∀ name, name ∈ slots.keys ↔ name ∈ log.map Prod.fst
  methods : ∀ name position r, log.lookup name = some (some position) →
    some (name, r) ∈ slots → pinned[position]? = some r

/-- The dictionary at the end of a way has what was put into it. -/
structure Filed (m : Machine) (starts : List Nat) (x : Handle) (log : Log) : Prop where
  walks : m.Walks starts (x.root.ref m) x.path
  table : ∃ d a slots, x.dictionary m = .ofWordIndex d ∧ m.Table starts d a slots ∧
    Records log m.pinned slots

variable {x : Handle} {log : Log}

namespace Filed

theorem methods_eq (hl : m.heap.LaidOut starts) {d a : Nat} {slots : Slots String Ref}
    (hd : x.dictionary m = .ofWordIndex d) (ht : m.Table starts d a slots) :
    x.methods m = .ofWordIndex a := by
  unfold Handle.methods
  rw [hd, word_ofWordIndex hl ht.selectors.1]
  exact ht.link

/-- The parts of a dictionary are classes, dictionaries and arrays. -/
theorem part (hf : m.Filed starts x log) (hl : m.heap.LaidOut starts) (hr : r ∈ x.parts m) :
    ∃ i ∈ starts, r = .ofWordIndex i ∧ ((m.heap.view i).shape = .cls ∨
      (m.heap.view i).shape = .dictionary ∨ (m.heap.view i).shape = .array) := by
  obtain ⟨d, a, slots, hd, ht, -⟩ := hf.table
  rcases List.mem_append.mp hr with hr | hr
  · obtain ⟨i, hi, heq, hshape⟩ := hf.walks.cls hr
    exact ⟨i, hi, heq, .inl hshape⟩
  · simp only [List.mem_cons, List.not_mem_nil, or_false] at hr
    rcases hr with rfl | rfl
    · exact ⟨d, ht.selectors.1, hd, .inr (.inl ht.selectors.2)⟩
    · exact ⟨a, ht.methods.1, methods_eq hl hd ht, .inr (.inr ht.methods.2)⟩

/-- A dictionary is the same in a machine in which its arrays are, and the words that lead to it. -/
theorem congr (hf : m.Filed starts x log) (hl : m.heap.LaidOut starts)
    (hroot : x.root.ref m' = x.root.ref m) (hsub : ∀ i ∈ starts, i ∈ starts')
    (hnil : m'.heap.nil = m.heap.nil)
    (hlayout : ∀ i ∈ starts, View.SameLayout (m.heap.view i) (m'.heap.view i))
    (hsteps : ∀ i ∈ starts, ∀ k, (Ref.ofWordIndex i, k) ∈ m.steps (x.root.ref m) x.path →
      (m.heap.view i).IsFixed k → (m'.heap.view i).ref k = (m.heap.view i).ref k)
    (hwords : ∀ i ∈ starts, Ref.ofWordIndex i = x.dictionary m ∨ Ref.ofWordIndex i = x.methods m →
      ∀ k < (m.heap.view i).size, m'.heap.view i k = m.heap.view i k)
    (hpinned : ∀ e ∈ log, ∀ position ∈ e.2, m'.pinned[position]? = m.pinned[position]?)
    (hsymbols : ∀ name s, m.symbols.find? name = some s → m'.symbols.find? name = some s)
    (hhash : ∀ name s, m.symbols.find? name = some s → m'.hashOf name = m.hashOf name) :
    m'.Filed starts' x log ∧ x.parts m' = x.parts m ∧ x.trail m' = x.trail m := by
  obtain ⟨d, a, slots, hd, ht, hrecords⟩ := hf.table
  have hmethods := methods_eq hl hd ht
  have href : ∀ i ∈ starts, Ref.ofWordIndex i = x.dictionary m ∨ Ref.ofWordIndex i = x.methods m →
      ∀ k < (m.heap.view i).size, (m'.heap.view i).ref k = (m.heap.view i).ref k :=
    fun i hi hmem k hk => congrArg Ref.mk (hwords i hi hmem k hk)
  obtain ⟨hwalks, hfollow, htrail⟩ : m'.Walks starts' (x.root.ref m) x.path ∧
      m'.wayEnd (x.root.ref m) x.path = x.dictionary m ∧
      m'.trail (x.root.ref m) x.path = x.trail m :=
    hf.walks.congr hl hsub hlayout hsteps
  have htrail' : x.trail m' = x.trail m := by
    rw [← htrail, ← hroot]
    rfl
  have hd' : x.dictionary m' = .ofWordIndex d := by
    unfold Handle.dictionary
    rw [hroot, hfollow]
    exact hd
  have htable : m'.Table starts' d a (slots.mapValues id) :=
    ht.mapped (hsub d ht.selectors.1) (hsub a ht.methods.1) (hlayout d ht.selectors.1)
      (hlayout a ht.methods.1) (fun k hk => href d ht.selectors.1 (.inl hd.symm) k hk.bounds.2)
      (fun k hk => href a ht.methods.1 (.inr hmethods.symm) k hk.bounds.2) rfl hnil (fun _ => rfl) hsymbols hhash
  rw [Slots.mapValues_id] at htable
  refine ⟨⟨by rw [hroot]; exact hwalks, d, a, slots, hd', htable, hrecords.names, ?_⟩, ?_, ?_⟩
  · intro name position r hlookup hmem
    obtain ⟨before, after, rfl, -⟩ := List.lookup_eq_some_iff.mp hlookup
    rw [hpinned _ (List.mem_append_right _ List.mem_cons_self) position rfl]
    exact hrecords.methods name position r hlookup hmem
  · have hword : m'.word (.ofWordIndex d) methodsWord = m.word (.ofWordIndex d) methodsWord := by
      unfold word
      rw [hl.wordIndex ht.selectors.1]
      exact href d ht.selectors.1 (.inl hd.symm) _ ht.methodsWord_lt
    unfold Handle.parts Handle.methods
    rw [htrail', hd', hd, hword]
  · exact htrail'

/-- A collection moves a dictionary with its parts, which survive. -/
theorem moved (hf : m.Filed starts x log) (hm : m.Sound starts)
    (hk : m.heap.KeepsReachable starts live m.roots)
    (hc : m.heap.Collects starts live m.roots c)
    (hroot : x.root.ref (m.Moved starts live c) = m.heap.moveRef starts live (x.root.ref m))
    (hmem : x.root.ref m ∈ m.roots) :
    (m.Moved starts live c).Filed (m.heap.survivors starts live) x log ∧
      x.parts (m.Moved starts live c) = (x.parts m).map (m.heap.moveRef starts live) ∧
      x.trail (m.Moved starts live c) = (x.trail m).map (m.heap.moveRef starts live) ∧
      ∀ r ∈ x.parts m, Survives starts live r := by
  obtain ⟨d, a, slots, hd, ht, hrecords⟩ := hf.table
  have hw := hm.shaped.toWellFormed
  have hl := hm.laidOut
  have hend : (x.dictionary m).isPointer = true := by
    rw [hd]
    exact hl.isPointer ht.selectors.1
  have hfirst : (x.root.ref m).isPointer = true := by
    unfold Handle.dictionary at hend
    cases hpath : x.path with
    | nil =>
      rw [hpath] at hend
      exact hend
    | cons k rest =>
      have hwalks := hf.walks
      rw [hpath] at hwalks
      obtain ⟨⟨i, hi, heq, -⟩, -⟩ := hwalks
      rw [heq]
      exact hl.isPointer hi
  obtain ⟨hwalks, hfollow, htrail, hall, d', hd'mem, hlive, heq⟩ := hf.walks.moved hm.toStored hk hc
    (hm.live_of_root hk hmem hfirst) hend
  cases hl.ofWordIndex_inj ht.selectors.1 hd'mem (hd.symm.trans heq)
  have hfields : (m.heap.view d).IsTraced methodsWord :=
    .inr (.inl ⟨by rw [ht.format_selectors]; rfl, by unfold methodsWord; omega,
      by rw [ht.fields_selectors]; decide⟩)
  have hword := word_ofWordIndex hl ht.selectors.1 methodsWord
  have hsurvives := survives_word hm.toStored hk ht.selectors.1 hlive hfields (by
    rw [hword, ht.link]
    exact hl.isPointer ht.methods.1)
  obtain ⟨a', ha'mem, halive, haeq⟩ := hsurvives
  rw [hword, ht.link] at haeq
  cases hl.ofWordIndex_inj ht.methods.1 ha'mem haeq
  have hmethods := methods_eq hl hd ht
  have hd' : x.dictionary (m.Moved starts live c) = m.heap.moveRef starts live (.ofWordIndex d) := by
    unfold Handle.dictionary
    rw [hroot, hfollow]
    exact congrArg _ hd
  have hmethods' : x.methods (m.Moved starts live c) = m.heap.moveRef starts live (.ofWordIndex a) := by
    unfold Handle.methods
    rw [hd', word_moved hm.toStored hc ht.selectors.1 hlive hfields, hword, ht.link]
  have hsymbols : ∀ name s, m.symbols.find? name = some s →
      (m.Moved starts live c).symbols.find? name = some (m.heap.moveRef starts live s) := by
    intro name s hs
    show (m.symbols.mapRefs _).find? name = _
    rw [NameTable.find?_mapRefs, hs]
    rfl
  have hhash : ∀ name s, m.symbols.find? name = some s →
      (m.Moved starts live c).hashOf name = m.hashOf name := by
    intro name s hs
    obtain ⟨-, i, hi, rfl, -⟩ := hm.symbol hs
    have hroot : Ref.ofWordIndex i ∈ m.roots :=
      mem_roots.mpr (.inr (.inr (.inl (NameTable.mem_of_find? hs))))
    obtain ⟨j, hj, hjlive, heq⟩ := hm.live_of_root hk hroot (hl.isPointer hi)
    cases hl.ofWordIndex_inj hi hj heq
    rw [hashOf_of_find (hsymbols name _ hs), hashOf_of_find hs, Heap.moveRef_ofWordIndex hl hi]
    show (c.heap.view (Ref.ofWordIndex
        (slide m.heap.sizeOf live starts i)).wordIndex).header.identityHash = _
    rw [(hc.laidOut hw).wordIndex (Heap.mem_survivors.mpr ⟨i, hi, hjlive, rfl⟩), hl.wordIndex hi,
      hc.header_eq hi hjlive]
  have htable : (m.Moved starts live c).Table (m.heap.survivors starts live)
      (slide m.heap.sizeOf live starts d) (slide m.heap.sizeOf live starts a)
      (slots.mapValues (m.heap.moveRef starts live)) :=
    ht.mapped (Heap.mem_survivors.mpr ⟨d, ht.selectors.1, hlive, rfl⟩)
      (Heap.mem_survivors.mpr ⟨a, ht.methods.1, halive, rfl⟩)
      (hc.agrees hw ht.selectors.1 hlive).toSameLayout
      (hc.agrees hw ht.methods.1 halive).toSameLayout
      (fun k hk => hc.ref_of_isTraced ht.selectors.1 hlive hk)
      (fun k hk => hc.ref_of_isTraced ht.methods.1 halive hk)
      (Heap.moveRef_ofWordIndex hl ht.methods.1) hc.nil (moveRef_ofNat _ _ _) hsymbols hhash
  refine ⟨⟨by rw [hroot]; exact hwalks, _, _, _, ?_, htable, ?_, ?_⟩, ?_, ?_, ?_⟩
  · rw [hd', Heap.moveRef_ofWordIndex hl ht.selectors.1]
  · intro name
    rw [← hrecords.names, Slots.mem_keys, Slots.mem_keys]
    simp [Slots.mem_mapValues]
  · intro name position r hlookup hr
    obtain ⟨old, hold, rfl⟩ := Slots.mem_mapValues.mp hr
    show (m.pinned.map (m.heap.moveRef starts live))[position]? = _
    rw [Array.getElem?_map, hrecords.methods name position old hlookup hold]
    rfl
  · unfold Handle.parts Handle.trail
    rw [hd', hmethods', hroot, htrail, hd, hmethods]
    simp
  · unfold Handle.trail
    rw [hroot, htrail]
  · intro r hr
    rcases List.mem_append.mp hr with hr | hr
    · exact hall r hr
    · simp only [List.mem_cons, List.not_mem_nil, or_false] at hr
      rcases hr with rfl | rfl
      · exact ⟨d, ht.selectors.1, hlive, hd⟩
      · exact ⟨a, ht.methods.1, halive, hmethods⟩

end Filed

/-! ## Catalogs -/

/-- Dictionaries that are followed, with what was put into them. The ways begin below a position among
the pinned temporaries, and of some temporaries below it the kind is known. Some kernel classes are
on none of the ways. -/
structure Catalog where
  base : Nat
  entries : Handle → Option Log
  /-- A way whose last class is of interest. -/
  subject : Option Handle := none
  kinds : List (Nat × (Kind → Prop)) := []
  vacant : List KernelClass := []

namespace Catalog

/-- Everything that a catalog mentions is below its position. -/
structure Below (t : Catalog) : Prop where
  roots : ∀ {x log}, t.entries x = some log → x.root.Below t.base
  logs : ∀ {x log}, t.entries x = some log → ∀ put ∈ log, ∀ position ∈ put.2, position < t.base
  kinds : ∀ e ∈ t.kinds, e.1 < t.base
  subject : ∀ x ∈ t.subject, ∃ log, t.entries x = some log

/-- Two dictionaries have no part in common but classes. -/
def Apart (m : Machine) (x y : Handle) : Prop :=
  x.dictionary m ≠ y.dictionary m ∧ x.methods m ≠ y.methods m

/-- The machine has what the catalog says. -/
structure Kept (t : Catalog) (m : Machine) (starts : List Nat) : Prop where
  laidOut : m.heap.LaidOut starts
  one : m.OneSymbol
  filed : ∀ {x log}, t.entries x = some log → m.Filed starts x log
  apart : ∀ {x y log log'}, t.entries x = some log → t.entries y = some log' → x ≠ y → Apart m x y
  kinds : ∀ e ∈ t.kinds, Known starts ((Root.pinned e.1).ref m) ∧
    e.2 (m.heap.kind ((Root.pinned e.1).ref m))
  vacant : (t.vacant.map m.core.cls).Nodup
  away : ∀ k ∈ t.vacant, ∀ {x log}, t.entries x = some log → m.core.cls k ∉ x.parts m

/-- A reference to an object that is no part of a dictionary in the catalog. -/
def Free (t : Catalog) (m : Machine) (r : Ref) : Prop :=
  ∀ x log, t.entries x = some log → r ∉ x.parts m

/-- What is known of a reference. -/
def Tells (t : Catalog) : Tag → Machine → Ref → Prop
  | .free, m, r => t.Free m r
  | .writable, m, r => t.Free m r
  | .subject, m, r => ∀ x ∈ t.subject, (x.trail m).getLast? = some r
  | .handle position, m, r => position < t.base ∧ m.pinned[position]? = some r
  | .symbol name, m, r => m.symbols.find? name = some r
  | .spare len, m, r => t.Free m r ∧ r.isPointer = true ∧ (m.heap.view r.wordIndex).len = len

variable {t : Catalog} {tag : Tag}

/-! ### Machines that differ elsewhere -/

/-- A machine in which the objects that the catalog depends on are where they were, with the same
words. -/
structure Alike (t : Catalog) (m : Machine) (starts : List Nat) (m' : Machine) (starts' : List Nat) :
    Prop where
  sub : ∀ i ∈ starts, i ∈ starts'
  nil : m'.heap.nil = m.heap.nil
  layout : ∀ i ∈ starts, View.SameLayout (m.heap.view i) (m'.heap.view i)
  words : ∀ i ∈ starts, ¬ t.Free m (.ofWordIndex i) → ∀ k < (m.heap.view i).size,
    m'.heap.view i k = m.heap.view i k
  classes : m'.core.classes = m.core.classes
  pinned : ∀ position < t.base, m'.pinned[position]? = m.pinned[position]?
  symbols : ∀ name r, m.symbols.find? name = some r → m'.symbols.find? name = some r
  hash : ∀ name r, m.symbols.find? name = some r → m'.hashOf name = m.hashOf name

theorem root_eq {root : Root} {base : Nat} (hroot : root.Below base)
    (hclasses : m'.core.classes = m.core.classes)
    (hpinned : ∀ position < base, m'.pinned[position]? = m.pinned[position]?) :
    root.ref m' = root.ref m := by
  cases root with
  | kernel k =>
    show m'.core.classes[k.index] = m.core.classes[k.index]
    rw [hclasses]
  | pinned position =>
    show m'.pinned.getD position .null = m.pinned.getD position .null
    rw [Array.getD_eq_getD_getElem?, Array.getD_eq_getD_getElem?, hpinned position hroot]

namespace Alike

theorem filed (ha : t.Alike m starts m' starts') (hb : t.Below) (hk : t.Kept m starts)
    (hx : t.entries x = some log) :
    m'.Filed starts' x log ∧ x.parts m' = x.parts m ∧ x.trail m' = x.trail m := by
  refine (hk.filed hx).congr hk.laidOut (root_eq (hb.roots hx) ha.classes ha.pinned) ha.sub ha.nil
    ha.layout ?_ ?_ (fun put hput position hp => ha.pinned position (hb.logs hx put hput position hp))
    ha.symbols ha.hash
  · intro i hi k hmem hfixed
    have hpart : Ref.ofWordIndex i ∈ x.parts m := List.mem_append_left _ (mem_trail_of_steps hmem)
    exact congrArg Ref.mk (ha.words i hi (fun hfree => hfree x log hx hpart) k hfixed.isTraced.bounds.2)
  · intro i hi hmem
    have hpart : Ref.ofWordIndex i ∈ x.parts m := by
      rcases hmem with heq | heq <;> simp [Handle.parts, heq]
    exact ha.words i hi fun hfree => hfree x log hx hpart

theorem free (ha : t.Alike m starts m' starts') (hb : t.Below) (hk : t.Kept m starts)
    (hr : t.Free m r) : t.Free m' r := by
  intro x log hx
  rw [(ha.filed hb hk hx).2.1]
  exact hr x log hx

theorem kept (ha : t.Alike m starts m' starts') (hb : t.Below) (hk : t.Kept m starts)
    (hl : m'.heap.LaidOut starts') (hone : m'.OneSymbol) : t.Kept m' starts' := by
  have hlast : ∀ {x log}, t.entries x = some log → x.dictionary m' = x.dictionary m ∧
      x.methods m' = x.methods m := by
    intro x log hx
    obtain ⟨-, hparts, htrail⟩ := ha.filed hb hk hx
    obtain ⟨-, hend⟩ := List.append_inj hparts (congrArg List.length htrail)
    simpa using hend
  have hcls : ∀ k, m'.core.cls k = m.core.cls k := by
    intro k
    show m'.core.classes[k.index] = m.core.classes[k.index]
    rw [ha.classes]
  refine ⟨hl, hone, fun hx => (ha.filed hb hk hx).1, ?_, ?_, ?_, ?_⟩
  · intro x y log log' hx hy hne
    unfold Apart
    rw [(hlast hx).1, (hlast hx).2, (hlast hy).1, (hlast hy).2]
    exact hk.apart hx hy hne
  · intro e he
    obtain ⟨hknown, hkind⟩ := hk.kinds e he
    have hroot : (Root.pinned e.1).ref m' = (Root.pinned e.1).ref m :=
      root_eq (hb.kinds e he) ha.classes ha.pinned
    rw [hroot, Heap.kind_congr hk.laidOut ha.nil hknown ha.layout]
    exact ⟨hknown.mono ha.sub, hkind⟩
  · rw [show m'.core.cls = m.core.cls from funext hcls]
    exact hk.vacant
  · intro k hkv x log hx
    rw [hcls, (ha.filed hb hk hx).2.1]
    exact hk.away k hkv hx

theorem tells (ha : t.Alike m starts m' starts') (hb : t.Below) (hk : t.Kept m starts)
    (hr : Known starts r) (htells : t.Tells tag m r) : t.Tells tag m' r := by
  cases tag with
  | free => exact ha.free hb hk htells
  | writable => exact ha.free hb hk htells
  | subject =>
    intro x hx
    obtain ⟨log, hlog⟩ := hb.subject x hx
    rw [(ha.filed hb hk hlog).2.2]
    exact htells x hx
  | handle position => exact ⟨htells.1, (ha.pinned position htells.1).trans htells.2⟩
  | symbol name => exact ha.symbols name r htells
  | spare len =>
    obtain ⟨hfree, hp, hlen⟩ := htells
    obtain ⟨i, hi, rfl⟩ := hr hp
    refine ⟨ha.free hb hk hfree, hp, ?_⟩
    rw [hk.laidOut.wordIndex hi] at hlen ⊢
    rw [(ha.layout i hi).len_eq, hlen]

end Alike

/-! ### What is done to machines -/

/-- Machines with the same memory. -/
theorem alike_of_heap (starts : List Nat) (hheap : m'.heap = m.heap)
    (hclasses : m'.core.classes = m.core.classes)
    (hpinned : ∀ position < t.base, m'.pinned[position]? = m.pinned[position]?)
    (hsymbols : ∀ name r, m.symbols.find? name = some r → m'.symbols.find? name = some r) :
    t.Alike m starts m' starts where
  sub _ hi := hi
  nil := by rw [hheap]
  layout _ _ := by rw [hheap]; exact .refl _
  words _ _ _ _ _ := by rw [hheap]
  classes := hclasses
  pinned := hpinned
  symbols := hsymbols
  hash name r hr := by
    rw [hashOf_of_find (hsymbols name r hr), hashOf_of_find hr, hheap]

/-- What is known of references does not depend on anything else. -/
theorem tells_of_heap (hb : t.Below) (hheap : m'.heap = m.heap)
    (hclasses : m'.core.classes = m.core.classes)
    (hpinned : ∀ position < t.base, m'.pinned[position]? = m.pinned[position]?)
    (hsymbols : ∀ name r, m.symbols.find? name = some r → m'.symbols.find? name = some r)
    (htells : t.Tells tag m r) : t.Tells tag m' r := by
  have hword : ∀ r k, m'.word r k = m.word r k := fun r k => by
    unfold word
    rw [hheap]
  have hpath : ∀ path r, m'.trail r path = m.trail r path ∧ m'.wayEnd r path = m.wayEnd r path := by
    intro path
    induction path with
    | nil => exact fun _ => ⟨rfl, rfl⟩
    | cons k rest ih =>
      intro r
      refine ⟨?_, ?_⟩
      · show r :: m'.trail (m'.word r k) rest = r :: m.trail (m.word r k) rest
        rw [hword, (ih _).1]
      · show m'.wayEnd (m'.word r k) rest = m.wayEnd (m.word r k) rest
        rw [hword, (ih _).2]
  have htrail : ∀ {x log}, t.entries x = some log →
      x.trail m' = x.trail m ∧ x.parts m' = x.parts m := by
    intro x log hx
    unfold Handle.parts Handle.methods Handle.dictionary Handle.trail
    rw [root_eq (hb.roots hx) hclasses hpinned, (hpath ..).1, (hpath ..).2, hword]
    exact ⟨rfl, rfl⟩
  have hfree : t.Free m r → t.Free m' r := fun h x log hx => by
    rw [(htrail hx).2]
    exact h x log hx
  cases tag with
  | free => exact hfree htells
  | writable => exact hfree htells
  | subject =>
    intro x hx
    obtain ⟨log, hlog⟩ := hb.subject x hx
    rw [(htrail hlog).1]
    exact htells x hx
  | handle position => exact ⟨htells.1, (hpinned position htells.1).trans htells.2⟩
  | symbol name => exact hsymbols name r htells
  | spare len =>
    refine ⟨hfree htells.1, htells.2.1, ?_⟩
    rw [hheap]
    exact htells.2.2

/-- Machines with other words in objects that are no parts of dictionaries. -/
theorem alike_of_changes {changed : List Nat} (hm : m.Sound starts)
    (hc : m.heap.Changes starts changed h)
    (hfree : ∀ i ∈ starts, i ∈ changed → t.Free m (.ofWordIndex i)) :
    t.Alike m starts { m with heap := h } starts where
  sub _ hi := hi
  nil := hc.nil
  layout := hc.layout
  words i hi hpart := hc.words i hi fun hmem => hpart (hfree i hi hmem)
  classes := rfl
  pinned _ _ := rfl
  symbols _ _ hr := hr
  hash name _ _ := hashOf_changes hm hc name

theorem alike_of_allocated {cls : Ref} {format : Format} {fields len : Nat} (hm : m.Sound starts)
    (ha : m.heap.Allocated cls format fields len h) :
    t.Alike m starts { m with heap := h } (starts ++ [m.heap.top]) where
  sub _ hi := List.mem_append_left _ hi
  nil := ha.nil
  layout _ hi := (ha.agrees hm.laidOut hi).toSameLayout
  words _ hi _ _ hk := ha.view_eq hm.laidOut hi hk
  classes := rfl
  pinned _ _ := rfl
  symbols _ _ hr := hr
  hash name r hr := by
    obtain ⟨-, i, hi, rfl, -⟩ := hm.symbol hr
    rw [hashOf_of_find hr, hashOf_of_find (m := { m with heap := h }) hr]
    rw [hm.laidOut.wordIndex hi, ha.header_eq hm.laidOut hi]

/-- A store to an object that is no part of a dictionary. -/
theorem alike_of_stores (hm : m.Sound starts) (hk : t.Kept m starts)
    (hs : Stores (t.Tells · m) m.heap starts i h) : t.Alike m starts { m with heap := h } starts := by
  have ht := hs.touches
  have hl := hm.laidOut
  have hheader : ∀ j ∈ starts, h.view j 0 = m.heap.view j 0 := by
    intro j hj
    by_cases hne : j = i
    · rw [hne]
      exact hs.header
    · exact ht.view_eq hl hs.mem hj hne (Nat.lt_of_lt_of_le (by decide) (m.heap.view j).two_le_size)
  have hc : m.heap.Changes starts [i] h :=
    ⟨ht.nil, ht.laidOut hl hs.mem, fun j hj => ht.sameLayout hl hs.mem hj, hheader,
      fun j hj hne k hk => ht.view_eq hl hs.mem hj (by simpa using hne) hk⟩
  refine alike_of_changes hm hc fun j hj hmem => ?_
  cases List.mem_singleton.mp hmem
  rcases hs.allowed with hfree | hassociation
  · exact hfree
  · -- No part of a dictionary is an association.
    intro x log hx hpart
    obtain ⟨i', hi', heq, hshape⟩ := (hk.filed hx).part hl hpart
    cases hl.ofWordIndex_inj hj hi' heq
    rw [hassociation] at hshape
    rcases hshape with hshape | hshape | hshape <;> cases hshape

/-- A new symbol has a name of its own. -/
theorem oneSymbol_add {name : String} (hone : m.OneSymbol) (hr : r ∉ m.symbols.refs) :
    ({ m with symbols := m.symbols.add name r } : Machine).OneSymbol := by
  have hfound : ∀ {name' r'}, (m.symbols.add name r).find? name' = some r' →
      m.symbols.find? name' = some r' ∨ (m.symbols.find? name' = none ∧ name = name' ∧ r = r') := by
    intro name' r' h
    rw [NameTable.find?_add] at h
    cases hold : m.symbols.find? name' with
    | some old =>
      rw [hold] at h
      exact .inl h
    | none =>
      rw [hold] at h
      refine .inr ⟨rfl, ?_⟩
      by_cases heq : name = name'
      · rw [if_pos heq] at h
        exact ⟨heq, Option.some.inj h⟩
      · rw [if_neg heq] at h
        cases h
  intro name₁ name₂ r' h₁ h₂
  rcases hfound h₁ with h₁ | ⟨-, rfl, rfl⟩ <;> rcases hfound h₂ with h₂ | ⟨-, rfl, hrr⟩
  · exact hone name₁ name₂ r' h₁ h₂
  · exact absurd (NameTable.mem_of_find? h₁) (hrr ▸ hr)
  · exact absurd (NameTable.mem_of_find? h₂) hr
  · rfl

/-! ### Collections -/

theorem cls_moved (k : KernelClass) :
    (m.Moved starts live c).core.cls k = m.heap.moveRef starts live (m.core.cls k) := by
  show (m.core.mapRefs (m.heap.moveRef starts live)).cls k = _
  simp [CoreObjects.cls, CoreObjects.mapRefs]

theorem root_moved (starts : List Nat) (live : Nat → Bool) (c : Collected) {root : Root} {base : Nat}
    (hroot : root.Below base) (hbase : base ≤ m.pinned.size) :
    root.ref (m.Moved starts live c) = m.heap.moveRef starts live (root.ref m) ∧
      root.ref m ∈ m.roots := by
  cases root with
  | kernel k =>
    exact ⟨cls_moved k, root_cls m k⟩
  | pinned position =>
    have hlt : position < m.pinned.size := Nat.lt_of_lt_of_le hroot hbase
    constructor
    · show (m.pinned.map (m.heap.moveRef starts live)).getD position .null =
        m.heap.moveRef starts live (m.pinned.getD position .null)
      rw [Array.getD_eq_getD_getElem?, Array.getD_eq_getD_getElem?, Array.getElem?_map,
        Array.getElem?_eq_getElem hlt]
      rfl
    · refine mem_roots.mpr (.inr (.inr (.inr (.inr ?_))))
      show m.pinned.getD position .null ∈ m.pinned.toList
      rw [Array.getD_eq_getD_getElem?, Array.getElem?_eq_getElem hlt]
      simp

section Moved

variable (hb : t.Below) (hm : m.Sound starts) (hbase : t.base ≤ m.pinned.size)
  (hkeeps : m.heap.KeepsReachable starts live m.roots)
  (hc : m.heap.Collects starts live m.roots c) (hk : t.Kept m starts)

include hb hm hbase hkeeps hc hk

theorem filed_moved (hx : t.entries x = some log) :
    (m.Moved starts live c).Filed (m.heap.survivors starts live) x log ∧
      x.parts (m.Moved starts live c) = (x.parts m).map (m.heap.moveRef starts live) ∧
      x.trail (m.Moved starts live c) = (x.trail m).map (m.heap.moveRef starts live) ∧
      ∀ r ∈ x.parts m, Survives starts live r := by
  obtain ⟨hroot, hmem⟩ := root_moved starts live c (hb.roots hx) hbase
  exact (hk.filed hx).moved hm hkeeps hc hroot hmem

/-- What is no part of a dictionary is none after it was moved. -/
theorem not_mem_moved (hx : t.entries x = some log) (hr : r ∈ m.roots) (hnot : r ∉ x.parts m) :
    m.heap.moveRef starts live r ∉ x.parts (m.Moved starts live c) := by
  obtain ⟨-, hparts, -, hsurvives⟩ := filed_moved hb hm hbase hkeeps hc hk hx
  rw [hparts]
  intro hmem
  obtain ⟨part, hpart, heq⟩ := List.mem_map.mp hmem
  have hsame := Heap.moveRef_inj hm.laidOut (fun _ => hsurvives part hpart)
    (hm.live_of_root hkeeps hr) heq
  exact hnot (hsame ▸ hpart)

theorem kept_moved : t.Kept (m.Moved starts live c) (m.heap.survivors starts live) := by
  have hl := hm.laidOut
  have hfiled : ∀ {x log}, t.entries x = some log → _ := fun hx =>
    filed_moved hb hm hbase hkeeps hc hk hx
  have hlast : ∀ {x log}, t.entries x = some log →
      x.dictionary (m.Moved starts live c) = m.heap.moveRef starts live (x.dictionary m) ∧
        x.methods (m.Moved starts live c) = m.heap.moveRef starts live (x.methods m) := by
    intro x log hx
    obtain ⟨-, hparts, htrail, -⟩ := hfiled hx
    unfold Handle.parts at hparts
    rw [htrail, List.map_append] at hparts
    simpa using List.append_cancel_left hparts
  refine ⟨hc.laidOut hm.shaped.toWellFormed, ?_, fun hx => (hfiled hx).1, ?_, ?_, ?_, ?_⟩
  · intro name name' r hr hr'
    have hr : (m.symbols.mapRefs (m.heap.moveRef starts live)).find? name = some r := hr
    have hr' : (m.symbols.mapRefs (m.heap.moveRef starts live)).find? name' = some r := hr'
    rw [NameTable.find?_mapRefs] at hr hr'
    obtain ⟨s, hs, rfl⟩ := Option.map_eq_some_iff.mp hr
    obtain ⟨s', hs', heq⟩ := Option.map_eq_some_iff.mp hr'
    have hroot : ∀ {name s}, m.symbols.find? name = some s → s ∈ m.roots := fun h =>
      mem_roots.mpr (.inr (.inr (.inl (NameTable.mem_of_find? h))))
    have hsame := Heap.moveRef_inj hl (hm.live_of_root hkeeps (hroot hs'))
      (hm.live_of_root hkeeps (hroot hs)) heq
    rw [hsame] at hs'
    exact hk.one name name' s hs hs'
  · intro x y log log' hx hy hne
    have hinj : ∀ {r r'}, r ∈ x.parts m → r' ∈ y.parts m →
        m.heap.moveRef starts live r = m.heap.moveRef starts live r' → r = r' := fun hr hr' heq =>
      Heap.moveRef_inj hl (fun _ => (hfiled hx).2.2.2 _ hr) (fun _ => (hfiled hy).2.2.2 _ hr') heq
    have h := hk.apart hx hy hne
    unfold Apart
    rw [(hlast hx).1, (hlast hx).2, (hlast hy).1, (hlast hy).2]
    refine ⟨fun heq => h.1 (hinj ?_ ?_ heq), fun heq => h.2 (hinj ?_ ?_ heq)⟩ <;>
      simp [Handle.parts]
  · intro e he
    have hbelow : (Root.pinned e.1).Below t.base := hb.kinds e he
    obtain ⟨hroot, hmem⟩ := root_moved starts live c hbelow hbase
    rw [hroot]
    refine ⟨fun hp => ?_, ?_⟩
    · refine (hc.rootsIn hm.shaped.toWellFormed hm.rootsIn hkeeps).roots _ ?_ hp
      rw [hc.roots]
      exact List.mem_map_of_mem hmem
    · show e.2 (c.heap.kind _)
      rw [hm.kind_moved hkeeps hc hmem]
      exact (hk.kinds e he).2
  · have hmap : t.vacant.map (m.Moved starts live c).core.cls =
        (t.vacant.map m.core.cls).map (m.heap.moveRef starts live) := by
      rw [List.map_map]
      exact List.map_congr_left fun k _ => cls_moved k
    rw [hmap]
    refine hk.vacant.map_on fun r hr r' hr' heq => ?_
    obtain ⟨k, -, rfl⟩ := List.mem_map.mp hr
    obtain ⟨k', -, rfl⟩ := List.mem_map.mp hr'
    exact Heap.moveRef_inj hl (hm.live_of_root hkeeps (root_cls m k))
      (hm.live_of_root hkeeps (root_cls m k')) heq
  · intro k hkv x log hx
    rw [cls_moved]
    exact not_mem_moved hb hm hbase hkeeps hc hk hx (root_cls m k) (hk.away k hkv hx)

theorem tells_moved (hr : r ∈ m.roots) (htells : t.Tells tag m r) :
    t.Tells tag (m.Moved starts live c) (m.heap.moveRef starts live r) := by
  have hfree : t.Free m r → t.Free (m.Moved starts live c) (m.heap.moveRef starts live r) :=
    fun h x log hx => not_mem_moved hb hm hbase hkeeps hc hk hx hr (h x log hx)
  cases tag with
  | free => exact hfree htells
  | writable => exact hfree htells
  | subject =>
    intro x hx
    obtain ⟨log, hlog⟩ := hb.subject x hx
    rw [(filed_moved hb hm hbase hkeeps hc hk hlog).2.2.1, List.getLast?_map, htells x hx]
    rfl
  | handle position =>
    refine ⟨htells.1, ?_⟩
    show (m.pinned.map (m.heap.moveRef starts live))[position]? = _
    rw [Array.getElem?_map, htells.2]
    rfl
  | symbol name =>
    show (m.symbols.mapRefs (m.heap.moveRef starts live)).find? name = _
    rw [NameTable.find?_mapRefs, show m.symbols.find? name = some r from htells]
    rfl
  | spare len =>
    obtain ⟨hfree', hp, hlen⟩ := htells
    obtain ⟨i, hi, hlive, rfl⟩ := hm.live_of_root hkeeps hr hp
    have hl := hm.laidOut
    have hj : slide m.heap.sizeOf live starts i ∈ m.heap.survivors starts live :=
      Heap.mem_survivors.mpr ⟨i, hi, hlive, rfl⟩
    have hl' := hc.laidOut hm.shaped.toWellFormed
    refine ⟨hfree hfree', ?_, ?_⟩
    · rw [Heap.moveRef_ofWordIndex hl hi]
      exact hl'.isPointer hj
    · rw [Heap.moveRef_ofWordIndex hl hi]
      show (c.heap.view (Ref.ofWordIndex _).wordIndex).len = len
      rw [hl'.wordIndex hj, (hc.agrees hm.shaped.toWellFormed hi hlive).toSameLayout.len_eq]
      rwa [hl.wordIndex hi] at hlen

end Moved

/-! ### The watch -/

/-- What a catalog says is kept by everything that machines are made with. -/
def watch (t : Catalog) (hb : t.Below) : Watch where
  base := t.base
  Kept := t.Kept
  Tells := t.Tells
  writable := id
  symbol := id
  congr {m m' starts} halike hsymbols hk := by
    refine (alike_of_heap starts halike.heap halike.classes halike.pinned halike.symbols).kept hb hk
      (by rw [halike.heap]; exact hk.laidOut) ?_
    intro name name' r hr hr'
    rw [hsymbols] at hr hr'
    exact hk.one name name' r hr hr'
  tells_congr halike htells :=
    tells_of_heap hb halike.heap halike.classes halike.pinned halike.symbols htells
  flushed {m starts} hk := by
    have halike : t.Alike m starts { m with cache := m.cache.flush } starts :=
      alike_of_heap starts rfl rfl (fun _ _ => rfl) fun _ _ h => h
    exact halike.kept hb hk hk.laidOut hk.one
  tells_flushed {_ m _} htells :=
    tells_of_heap (m := m) hb rfl rfl (fun _ _ => rfl) (fun _ _ h => h) htells
  named {m starts name r} _ hr hk := by
    have halike : t.Alike m starts { m with symbols := m.symbols.add name r } starts :=
      alike_of_heap starts rfl rfl (fun _ _ => rfl) fun name' r' h => by
        rw [NameTable.find?_add, h]
        rfl
    exact halike.kept hb hk hk.laidOut (oneSymbol_add hk.one hr)
  collected hm hbase hkeeps hc hk := kept_moved hb hm hbase hkeeps hc hk
  tells_collected hm hbase hkeeps hc hk hr htells := tells_moved hb hm hbase hkeeps hc hk hr htells
  allocated hm ha hshaped hk := (alike_of_allocated hm ha).kept hb hk hshaped.toLaidOut hk.one
  tells_allocated hm ha hk hr htells := (alike_of_allocated hm ha).tells hb hk hr htells
  fresh {m starts cls format fields len h} hm ha hshaped hk := by
    have halike := alike_of_allocated (t := t) hm ha
    intro x log hx hpart
    rw [(halike.filed hb hk hx).2.1] at hpart
    obtain ⟨i, hi, heq, -⟩ := (hk.filed hx).part hm.laidOut hpart
    have htop := hshaped.ofWordIndex_inj (by simp) (List.mem_append_left _ hi) heq
    have hlt := hm.laidOut.lt_top hi
    omega
  stored hm hs hk :=
    (alike_of_stores hm hk hs).kept hb hk (hs.touches.laidOut hm.laidOut hs.mem) hk.one
  tells_stored hm hs hk hr htells := (alike_of_stores hm hk hs).tells hb hk hr htells

end Catalog

end ObjectMachine.Machine
