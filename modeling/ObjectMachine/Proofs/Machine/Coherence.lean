import ObjectMachine.Execution.Send
import ObjectMachine.Proofs.Interface.Invariance
import ObjectMachine.Proofs.Machine.Bootstrapped

/-!
# The method cache agrees with the classes

The cache keeps references that the collector does not know, and answers with them as long as nobody
tells it not to. What it answers is right because nothing that a lookup reads changes while its
entries are kept: a lookup reads classes, dictionaries, arrays and the hash of a symbol, and of the
objects that are there only associations change without a flush.

## Main results

* `Heap.Extends.lookupFrom`: a lookup in memory that has grown answers what it did.
* `Machine.Coherent.lookup`: with a coherent cache a lookup answers what the classes answer.
* `Machine.lookup_agrees`: so it does in every machine that is made and used.
-/

namespace ObjectMachine

/-- An object of a shape. -/
def Heap.HasShape (h : Heap) (r : Ref) (s : Shape) : Prop :=
  h.Holds r ∧ h.format r = .ok s.1 ∧ h.fixedFields r = .ok s.2

/-- What continues a chain of superclasses, or a lookup, is the object expected there. -/
theorem Heap.kind_of_isLink {h : Heap} {r : Ref} {s : Shape} (hfits : (h.kind r).Fits s)
    (hlink : Class.isLink h r = true) : h.kind r = .object s := by
  obtain ⟨hp, hne⟩ : r.isPointer = true ∧ r ≠ h.nil := by simpa [Class.isLink] using hlink
  rcases hfits with hnil | hkind | ⟨hnull, -⟩
  · exact absurd (eq_nil_of_kind hnil) hne
  · exact hkind
  · rw [eq_null_of_kind hnull] at hp
    cases hp

/-- More classes to look at make no difference to a lookup that ended. -/
theorem Class.lookupFrom_mono {h : Heap} {selector cls : Ref} {found : Option Ref}
    {fuel fuel' : Nat} (hok : lookupFrom h selector cls fuel = .ok found) (hle : fuel ≤ fuel') :
    lookupFrom h selector cls fuel' = .ok found := by
  induction fuel generalizing cls fuel' with
  | zero => cases hok
  | succ fuel ih =>
    obtain ⟨fuel', rfl⟩ : ∃ k, fuel' = k + 1 := ⟨fuel' - 1, by omega⟩
    unfold lookupFrom at hok ⊢
    split at hok
    · obtain ⟨own, hown, hok⟩ := bind_eq_ok.mp hok
      rw [if_pos ‹_›, hown]
      cases own with
      | some method => exact hok
      | none =>
        obtain ⟨superclass, hsuper, hok⟩ := bind_eq_ok.mp hok
        show (Class.superclass h cls >>= _) = _
        rw [hsuper]
        exact ih hok (by omega)
    · rw [if_neg ‹_›]
      exact hok

namespace Heap.Extends

variable {h h' : Heap} {starts starts' : List Nat} {i index : Nat} {r cls selector dictionary : Ref}

/-! ## Memory that has grown -/

theorem header (he : h.Extends starts h' starts') (hi : i ∈ starts)
    (hshape : (h.view i).shape ≠ .association) : (h'.view i).header = (h.view i).header :=
  congrArg Header.mk (he.words i hi hshape 0 (Nat.lt_of_lt_of_le (by decide) (h.view i).two_le_size))

theorem identityHash (he : h.Extends starts h' starts') (hl : h.LaidOut starts)
    (hl' : h'.LaidOut starts') (hi : i ∈ starts) (hshape : (h.view i).shape ≠ .association) :
    h'.identityHash (.ofWordIndex i) = h.identityHash (.ofWordIndex i) := by
  unfold Heap.identityHash
  rw [hl'.header (he.mem i hi), hl.header hi, he.header hi hshape]

theorem length (he : h.Extends starts h' starts') (hl : h.LaidOut starts)
    (hl' : h'.LaidOut starts') (hi : i ∈ starts) :
    h'.length (.ofWordIndex i) = h.length (.ofWordIndex i) := by
  rw [hl'.length (he.mem i hi), hl.length hi, (he.layout i hi).len_eq]

theorem fetchField (he : h.Extends starts h' starts') (hl : h.LaidOut starts)
    (hl' : h'.LaidOut starts') (hi : i ∈ starts) (hshape : (h.view i).shape ≠ .association)
    (hallows : (h.view i).format.allowsFields = true) (index : Nat) :
    h'.fetchField (.ofWordIndex i) index = h.fetchField (.ofWordIndex i) index := by
  have hlayout := he.layout i hi
  by_cases hlt : index < (h.view i).fields
  · have hin := View.fields_lt_size hallows (Nat.add_lt_add_left hlt headerWords)
    rw [fetchField_eq hl hi hlt hin, fetchField_eq hl' (he.mem i hi)
      (by rw [hlayout.fields_eq]; exact hlt) (by rw [hlayout.size_eq]; exact hin)]
    exact congrArg (Except.ok ∘ Ref.mk) (he.words i hi hshape _ hin)
  · unfold Heap.fetchField Heap.fieldIndex
    rw [hl'.header (he.mem i hi), hl.header hi, he.header hi hshape]
    have hlt' : ¬ index < (h.view i).header.fixedFields := hlt
    simp only [if_neg hlt']

theorem fetchElement (he : h.Extends starts h' starts') (hl : h.LaidOut starts)
    (hl' : h'.LaidOut starts') (hi : i ∈ starts) (hshape : (h.view i).shape ≠ .association)
    (hformat : (h.view i).format = .plain ∨ (h.view i).format = .array) (index : Nat) :
    h'.fetchElement (.ofWordIndex i) index = h.fetchElement (.ofWordIndex i) index := by
  have hlayout := he.layout i hi
  by_cases hlt : index < (h.view i).len
  · have htail : (h.view i).format.hasReferenceTail = true := by
      rcases hformat with hf | hf
      · rw [View.len, hf] at hlt
        cases hlt
      · rw [hf]
        rfl
    have hin := View.elements_lt_size htail (Nat.add_lt_add_left hlt (h.view i).elements)
    rw [fetchElement_eq hl hi htail hlt, fetchElement_eq hl' (he.mem i hi)
      (by rw [hlayout.format_eq]; exact htail) (by rw [hlayout.len_eq]; exact hlt),
      hlayout.elements_eq]
    exact congrArg (Except.ok ∘ Ref.mk) (he.words i hi hshape _ hin)
  · unfold Heap.fetchElement Heap.elementIndex Heap.checkElement
    rw [he.length hl hl' hi, hl.length hi]
    simp only [if_neg hlt]
    rfl

/-! ## Lookups -/

theorem probeFrom (he : h.Extends starts h' starts') (hl : h.LaidOut starts)
    (hl' : h'.LaidOut starts') (hi : i ∈ starts) (hview : (h.view i).shape = .dictionary)
    (capacity fuel : Nat) :
    MethodDictionary.probeFrom h' (.ofWordIndex i) selector capacity index fuel =
      MethodDictionary.probeFrom h (.ofWordIndex i) selector capacity index fuel := by
  have hformat : (h.view i).format = .array := congrArg Prod.fst hview
  induction fuel generalizing index with
  | zero => rfl
  | succ fuel ih =>
    unfold MethodDictionary.probeFrom
    rw [he.fetchElement hl hl' hi (by rw [hview]; decide) (.inr hformat), he.nil]
    simp only [ih]

/-- A dictionary answers what it did. -/
theorem lookup? (he : h.Extends starts h' starts') (ho : h.Shaped starts)
    (hl' : h'.LaidOut starts') (hnil : ∃ i ∈ starts, h.nil = .ofWordIndex i ∧
      (h.view i).shape = .nil)
    (hd : Known starts dictionary) (hdkind : h.kind dictionary = .object .dictionary)
    (hs : Known starts selector) (hskind : h.kind selector = .object .text) :
    MethodDictionary.lookup? h' dictionary selector =
      MethodDictionary.lookup? h dictionary selector := by
  have hl := ho.toLaidOut
  obtain ⟨i, hi, rfl, hview⟩ := hl.of_kind hd hdkind
  obtain ⟨j, hj, rfl, htext⟩ := hl.of_kind hs hskind
  have hne : (h.view i).shape ≠ .association := by rw [hview]; decide
  have hformat : (h.view i).format = .array := congrArg Prod.fst hview
  have hprobe : MethodDictionary.probe h' (.ofWordIndex i) (.ofWordIndex j) =
      MethodDictionary.probe h (.ofWordIndex i) (.ofWordIndex j) := by
    unfold MethodDictionary.probe MethodDictionary.capacity
    rw [he.length hl hl' hi, he.identityHash hl hl' hj (by rw [htext]; decide)]
    simp only [he.probeFrom hl hl' hi hview]
  have hmethods : ∀ methods index, h.fetchField (.ofWordIndex i) MethodDictionary.methodsField =
      .ok methods → h'.fetchElement methods index = h.fetchElement methods index := by
    intro methods index hok
    obtain ⟨hindex, rfl⟩ := fetchField_ok hl hi (by rw [hformat]; rfl) hok
    have hfixed : (h.view i).IsFixed (headerWords + MethodDictionary.methodsField) :=
      .inr ⟨by rw [hformat]; rfl, by omega, by omega⟩
    have hsuits := ho.follows i hi _ hfixed
    rw [hview] at hsuits
    rcases hsuits .array rfl with hkind | hkind | ⟨-, hcls⟩
    · obtain ⟨k, hk, hnil, hshape⟩ := hnil
      rw [eq_nil_of_kind hkind, hnil]
      exact he.fetchElement hl hl' hk (by rw [hshape]; decide) (.inl (congrArg Prod.fst hshape)) _
    · obtain ⟨k, hk, heq, hshape⟩ := hl.of_kind (ho.traced i hi _ hfixed.isTraced) hkind
      rw [heq]
      exact he.fetchElement hl hl' hk (by rw [hshape]; decide) (.inr (congrArg Prod.fst hshape)) _
    · cases hcls
  unfold MethodDictionary.lookup?
  rw [hprobe]
  refine bind_congr fun found => ?_
  cases found with
  | none => rfl
  | some index =>
    simp only [he.fetchElement hl hl' hi hne (.inr hformat),
      he.fetchField hl hl' hi hne (by rw [hformat]; rfl)]
    refine bind_congr fun key => ?_
    split
    · cases hok : h.fetchField (.ofWordIndex i) MethodDictionary.methodsField with
      | error e => rfl
      | ok methods =>
        show (h'.fetchElement methods index >>= _) = (h.fetchElement methods index >>= _)
        rw [hmethods methods index hok]
    · rfl

theorem isLink (he : h.Extends starts h' starts') (r : Ref) :
    Class.isLink h' r = Class.isLink h r := by
  unfold Class.isLink
  rw [he.nil]

/-- A lookup in memory that has grown answers what it did. -/
theorem lookupFrom (he : h.Extends starts h' starts') (ho : h.Shaped starts)
    (hl' : h'.LaidOut starts') (hnil : ∃ i ∈ starts, h.nil = .ofWordIndex i ∧
      (h.view i).shape = .nil) (hs : Known starts selector) (hskind : h.kind selector = .object .text)
    (hcls : Known starts cls) (hfits : (h.kind cls).Fits .cls) (fuel : Nat) :
    Class.lookupFrom h' selector cls fuel = Class.lookupFrom h selector cls fuel := by
  have hl := ho.toLaidOut
  induction fuel generalizing cls with
  | zero => rfl
  | succ fuel ih =>
    unfold Class.lookupFrom
    rw [he.isLink]
    split
    · rename_i hlink
      obtain ⟨i, hi, rfl, hview⟩ := hl.of_kind hcls (kind_of_isLink hfits hlink)
      have hformat : (h.view i).format = .plain := congrArg Prod.fst hview
      have hallows : (h.view i).format.allowsFields = true := by rw [hformat]; rfl
      have hfield := he.fetchField hl hl' hi (by rw [hview]; decide) hallows
      have hleads : ∀ index value expected, h.fetchField (.ofWordIndex i) index = .ok value →
          Shape.cls.expects (headerWords + index) = some expected →
          Known starts value ∧ (h.kind value).Fits expected := by
        intro index value expected hok hexpects
        obtain ⟨hindex, rfl⟩ := fetchField_ok hl hi hallows hok
        have hfixed : (h.view i).IsFixed (headerWords + index) :=
          .inr ⟨hallows, by omega, by omega⟩
        have hsuits := ho.follows i hi _ hfixed
        rw [hview] at hsuits
        exact ⟨ho.traced i hi _ hfixed.isTraced, hsuits expected hexpects⟩
      have hown : Class.ownMethod? h' (.ofWordIndex i) selector =
          Class.ownMethod? h (.ofWordIndex i) selector := by
        unfold Class.ownMethod? Class.dictionary
        rw [hfield]
        cases hok : h.fetchField (.ofWordIndex i) Class.dictionaryField with
        | error e => rfl
        | ok dictionary =>
          show (if Class.isLink h' dictionary = true then _ else _) =
            (if Class.isLink h dictionary = true then _ else _)
          rw [he.isLink]
          split
          · rename_i hlink
            obtain ⟨hknown, hkind⟩ := hleads _ _ _ hok rfl
            exact he.lookup? ho hl' hnil hknown (kind_of_isLink hkind hlink) hs hskind
          · rfl
      rw [hown]
      refine bind_congr fun found => ?_
      cases found with
      | some method => rfl
      | none =>
        unfold Class.superclass
        dsimp only
        rw [hfield]
        cases hok : h.fetchField (.ofWordIndex i) Class.superclassField with
        | error e => rfl
        | ok superclass =>
          obtain ⟨hknown, hkind⟩ := hleads _ _ _ hok rfl
          exact ih hknown hkind
    · rfl

end Heap.Extends

/-! ## The cache -/

namespace MethodCache

@[simp] theorem find?_record (c : MethodCache) (hit : Bool) (cls selector : Ref) :
    (c.record hit).find? cls selector = c.find? cls selector := by
  cases hit <;> rfl

/-- An entry displaces one at most. -/
theorem find?_insert {c : MethodCache} {cls selector method cls' selector' method' : Ref}
    (hfound : (c.insert cls selector method).find? cls' selector' = some method') :
    (cls' = cls ∧ selector' = selector ∧ method' = method) ∨
      c.find? cls' selector' = some method' := by
  have hindex : (c.insert cls selector method).index cls' selector' = c.index cls' selector' := by
    unfold index insert
    rw [Array.size_setIfInBounds]
  unfold find? at hfound
  rw [hindex] at hfound
  by_cases hsame : c.index cls selector = c.index cls' selector'
  · left
    split at hfound
    · rename_i entry hentry
      unfold insert at hentry
      rw [Array.getElem?_setIfInBounds, if_pos hsame] at hentry
      split at hentry
      · cases hentry
        split at hfound
        · rename_i hmatch
          cases hfound
          exact ⟨hmatch.1.symm, hmatch.2.1.symm, rfl⟩
        · cases hfound
      · cases hentry
    · cases hfound
  · right
    have hentry : (c.insert cls selector method).entries[c.index cls' selector']? =
        c.entries[c.index cls' selector']? := by
      unfold insert
      rw [Array.getElem?_setIfInBounds_ne hsame]
    rw [hentry] at hfound
    exact hfound

end MethodCache

namespace Machine

variable {m m' : Machine} {starts starts' : List Nat} {cls selector : Ref}

/-- A lookup counts a hit, or a miss and puts what is found into the cache. -/
theorem lookup_eq (m : Machine) (cls selector : Ref) : m.lookup cls selector =
    match m.cache.find? cls selector with
    | some method => .ok (some method) { m with cache := m.cache.record true }
    | none => match Class.lookupMethod? m.heap cls selector with
      | .ok (some method) =>
        .ok (some method) { m with cache := (m.cache.record false).insert cls selector method }
      | .ok none => .ok none { m with cache := m.cache.record false }
      | .error cause => .stopped cause := by
  unfold Machine.lookup
  show (match m.cache.find? cls selector with
    | some method => _
    | none => _ : Action (Option Ref)) m = _
  cases m.cache.find? cls selector with
  | some method => rfl
  | none =>
    show (Action.read (Class.lookupMethod? · cls selector) >>= _) _ = _
    cases hok : Class.lookupMethod? m.heap cls selector with
    | error cause => exact Action.bind_of_stopped (Action.read_of_error hok)
    | ok found =>
      refine (Action.bind_of_ok (Action.read_of_ok hok)).trans ?_
      cases found <;> rfl

/-- The cache answers what the classes answer. Its entries are of classes and of symbols, or of what
has the same shape. -/
structure Coherent (m : Machine) (starts : List Nat) : Prop where
  cls : ∀ cls selector method, m.cache.find? cls selector = some method →
    Known starts cls ∧ m.heap.kind cls = .object .cls
  selector : ∀ cls selector method, m.cache.find? cls selector = some method →
    Known starts selector ∧ m.heap.kind selector = .object .text
  method : ∀ cls selector method, m.cache.find? cls selector = some method →
    Class.lookupMethod? m.heap cls selector = .ok (some method)

namespace Coherent

theorem of_isEmpty (hempty : m.cache.IsEmpty) : m.Coherent starts := by
  constructor <;> intro cls selector method hfound <;> rw [hempty] at hfound <;> cases hfound

/-- Entries that were kept since a coherent machine are right. -/
theorem extended (hm : m.Coherent starts) (hsound : m.Sound starts) (hsound' : m'.Sound starts')
    (hcache : m'.cache = m.cache) (he : m.heap.Extends starts m'.heap starts') :
    m'.Coherent starts' := by
  have hkind : ∀ r, Known starts r → m'.heap.kind r = m.heap.kind r := fun r hr =>
    Heap.kind_congr hsound.laidOut he.nil hr he.layout
  constructor <;> intro cls selector method hfound <;> rw [hcache] at hfound <;>
    obtain ⟨hcls, hclskind⟩ := hm.cls _ _ _ hfound <;>
    obtain ⟨hselector, hselectorkind⟩ := hm.selector _ _ _ hfound
  · exact ⟨hcls.mono he.mem, (hkind cls hcls).trans hclskind⟩
  · exact ⟨hselector.mono he.mem, (hkind selector hselector).trans hselectorkind⟩
  · unfold Class.lookupMethod?
    rw [he.lookupFrom hsound.shaped hsound'.laidOut hsound.nil hselector hselectorkind hcls
      (by rw [hclskind]; exact Kind.fits_object _)]
    exact Class.lookupFrom_mono (hm.method _ _ _ hfound) (Nat.succ_le_succ he.size)

/-- With a coherent cache a lookup answers what the classes answer, and changes nothing but the
cache. -/
theorem lookup (hm : m.Coherent starts) (cls selector : Ref) :
    ∃ cache, m.lookup cls selector = match Class.lookupMethod? m.heap cls selector with
      | .ok found => .ok found { m with cache }
      | .error cause => .stopped cause := by
  rw [lookup_eq]
  cases hfound : m.cache.find? cls selector with
  | some method =>
    refine ⟨m.cache.record true, ?_⟩
    rw [hm.method _ _ _ hfound]
  | none =>
    cases Class.lookupMethod? m.heap cls selector with
    | error cause => exact ⟨m.cache, rfl⟩
    | ok found =>
      cases found with
      | none => exact ⟨_, rfl⟩
      | some method => exact ⟨_, rfl⟩

/-- A lookup of a symbol in a class leaves the cache coherent. -/
theorem lookup_coherent (hm : m.Coherent starts) (hcls : Known starts cls)
    (hclskind : m.heap.kind cls = .object .cls) (hselector : Known starts selector)
    (hselectorkind : m.heap.kind selector = .object .text) :
    (m.lookup cls selector).Meets (fun _ m' => ∃ cache, m' = { m with cache } ∧ m'.Coherent starts)
      fun _ => False := by
  have hrecorded : ∀ hit, Coherent { m with cache := m.cache.record hit } starts := by
    intro hit
    constructor <;> intro cls selector method hfound <;>
      have hfound' := (m.cache.find?_record hit cls selector).symm.trans hfound
    · exact hm.cls _ _ _ hfound'
    · exact hm.selector _ _ _ hfound'
    · exact hm.method _ _ _ hfound'
  rw [lookup_eq]
  split
  · exact ⟨_, rfl, hrecorded true⟩
  · split
    · rename_i method hmethod
      refine ⟨_, rfl, ?_⟩
      have hold := hrecorded false
      constructor <;> intro cls' selector' method' hfound' <;>
        rcases MethodCache.find?_insert hfound' with ⟨rfl, rfl, rfl⟩ | hfound'
      · exact ⟨hcls, hclskind⟩
      · exact hold.cls _ _ _ hfound'
      · exact ⟨hselector, hselectorkind⟩
      · exact hold.selector _ _ _ hfound'
      · exact hmethod
      · exact hold.method _ _ _ hfound'
    · exact ⟨_, rfl, hrecorded false⟩
    · trivial

end Coherent

/-! ## Machines in use -/

/-- What is done to a machine between runs. -/
inductive Request where
  | lookup (cls selector : Ref)
  | installMethod (cls : Ref) (selector : String) (method : Ref)
  | install (code : Assembler) (cls : Ref) (selector : String)
  | defineClass (name : String) (superclass : Ref) (spec : InstanceSpec)
  | intern (name : String)
  | setGlobal (name : String) (value : Ref)
  | allocate (cls : Ref) (format : Format) (fields len : Nat)
  | instantiate (cls : Ref) (len : Nat)
  | newArray (len : Nat)
  | newString (text : String)
  | newFloat (value : Binary64)
  | newInteger (value : Int)
  | collectGarbage

/-- Does what is asked for. -/
def Request.run : Request → Action Unit
  | .lookup cls selector => do let _ ← Machine.lookup cls selector
  | .installMethod cls selector method => Machine.installMethod cls selector method
  | .install code cls selector => Machine.install code cls selector
  | .defineClass name superclass spec => do let _ ← Machine.defineClass name superclass spec
  | .intern name => do let _ ← Machine.intern name
  | .setGlobal name value => Machine.setGlobal name value
  | .allocate cls format fields len => do let _ ← Machine.allocate cls format fields len
  | .instantiate cls len => do let _ ← Machine.instantiate cls len
  | .newArray len => do let _ ← Machine.newArray len
  | .newString text => do let _ ← Machine.newString text
  | .newFloat value => do let _ ← Machine.newFloat value
  | .newInteger value => do let _ ← Machine.newInteger value
  | .collectGarbage => do let _ ← Machine.collectGarbage

/-- What a request may be given: classes and symbols that are there, and values that exist. -/
def Allows (m : Machine) : Request → Prop
  | .lookup cls selector => m.heap.HasShape cls .cls ∧ ∃ name, m.symbol? name = some selector
  | .installMethod cls _ method =>
    m.heap.HasShape cls .cls ∧ (method.isPointer = true → m.heap.Holds method)
  | .install _ cls _ => m.heap.HasShape cls .cls
  | .defineClass _ superclass _ => superclass = m.core.nil ∨ m.heap.HasShape superclass .cls
  | .setGlobal _ value => value.isPointer = true → m.heap.Holds value
  | .allocate cls format fields _ => m.heap.HasShape cls .cls ∧ format.Admits fields
  | .instantiate cls _ => m.heap.HasShape cls .cls ∧
    ∀ spec, Class.instanceSpec? m.heap cls = .ok (some spec) → spec.format.Admits spec.fields
  | _ => True

/-- The machines that are bootstrapped with memory whose size is counted in a word and a cache of any
size, or are sound and have an empty cache, and that requests lead to. A request that fails leaves a
machine too. -/
inductive Reached : Machine → Prop
  | bootstrapped {config : MachineConfig} {m m' : Machine} : ofConfig config = .ok m →
      config.heap.maxBytes < countLimit → m.bootstrap = .ok () m' → Reached m'
  | prepared {m : Machine} {starts : List Nat} :
      m.Sound starts → m.pinned = #[] → m.cache.IsEmpty → Reached m
  | served {m m' : Machine} {request : Request} :
      Reached m → m.Allows request → request.run m = .ok () m' → Reached m'
  | refused {m m' : Machine} {request : Request} {failure : Failure} :
      Reached m → m.Allows request → request.run m = .failed failure m' → Reached m'

/-- A sound machine with a coherent cache. -/
def AtRest (m : Machine) : Prop :=
  ∃ starts, m.Sound starts ∧ m.pinned = #[] ∧ m.Coherent starts

namespace AtRest

theorem of_isEmpty (hm : Keeps (.any 0) [] m) (hempty : m.cache.IsEmpty) : m.AtRest := by
  obtain ⟨starts, hs⟩ := hm
  exact ⟨starts, hs.sound, Array.eq_empty_of_size_eq_zero hs.size_pinned, .of_isEmpty hempty⟩

/-- What is known since a machine at rest makes another one. -/
theorem of_keeps (hsound : m.Sound starts) (hm : m.Coherent starts)
    (hm' : Keeps (.since ⟨m, starts, hsound.laidOut⟩) [] m') : m'.AtRest := by
  obtain ⟨starts', hs⟩ := hm'
  refine ⟨starts', hs.sound, Array.eq_empty_of_size_eq_zero hs.size_pinned, ?_⟩
  rcases hs.kept with hempty | ⟨hcache, hextends⟩
  · exact .of_isEmpty hempty
  · exact hm.extended hsound hs.sound hcache hextends

end AtRest

/-- An object of the shape of a class is known to be one. -/
theorem Stage.of_hasShape {w : Watch} {marks : List Mark} {r : Ref}
    (hs : Stage w marks m starts) (hr : m.heap.HasShape r .cls) : (Mark.of .cls).Holds w m starts r := by
  have hl := hs.laidOut
  obtain ⟨hholds, hformat, hfields⟩ := hr
  obtain ⟨i, hi, rfl⟩ := hl.holds_iff.mp hholds
  have hshape : (m.heap.view i).shape = .cls := by
    rw [hl.format hi] at hformat
    unfold Heap.fixedFields at hfields
    rw [hl.header hi] at hfields
    exact Prod.ext (Except.ok.inj hformat) (Except.ok.inj hfields)
  refine ⟨fun _ => ⟨i, hi, rfl⟩, ?_, fun _ h => nomatch h⟩
  have hne : Ref.ofWordIndex i ≠ m.heap.nil := by
    obtain ⟨j, hj, hnil, hshape'⟩ := hs.sound.nil
    rw [hnil]
    intro heq
    rw [hl.ofWordIndex_inj hi hj heq, hshape'] at hshape
    cases hshape
  show m.heap.kind _ = _
  rw [hl.kind_eq hi hne, hshape]

/-- An instance of a class is made, or there is none. -/
theorem Stage.instantiate {w : Watch} {marks : List Mark} (hs : Stage w marks m starts)
    (hcls : (Mark.of .cls).Holds w m starts cls) (len : Nat)
    (hspec : ∀ spec, Class.instanceSpec? m.heap cls = .ok (some spec) →
      spec.format = .context → 3 ≤ spec.fields) :
    (m.instantiate cls len).Meets (fun _ => Keeps w marks) fun _ => False := by
  have hmade : ∀ {n starts' cls'} (spec : InstanceSpec), Stage w marks n starts' →
      (Mark.of .cls).Holds w n starts' cls' → (spec.format = .context → 3 ≤ spec.fields) →
      ((do return some (← Machine.allocate cls' spec.format spec.fields len) :
        Action (Option Ref)) n).Meets (fun _ => Keeps w marks) fun _ => False := by
    intro n starts' cls' spec hs' hcls' hctx
    refine .bind_of_never (hs'.allocate_instance hctx hcls') ?_
    rintro _ n' ⟨starts'', hs'', -⟩
    exact ⟨starts'', hs''⟩
  have hnone : Outcome.Meets (.ok none m) (fun (_ : Option Ref) => Keeps w marks) fun _ => False :=
    ⟨starts, hs⟩
  unfold Machine.instantiate
  split
  · exact hnone
  refine .read fun fields _ => ?_
  split
  · exact hnone
  refine .read fun spec? hok => ?_
  cases spec? with
  | none => exact hnone
  | some spec =>
    dsimp only
    split
    · exact hnone
    refine .lift fun words _ => .read fun room _ => ?_
    split
    · exact hmade spec hs hcls (hspec spec hok)
    · refine .bind_of_never (hs.collectKeeping hcls) ?_
      rintro cls' n ⟨starts', hs', hcls'⟩
      refine .read fun room _ => ?_
      split
      · exact hmade spec hs' hcls' (hspec spec hok)
      · exact ⟨starts', hs'⟩

/-- A request that neither adds a method nor looks for one. -/
def Request.Plain : Request → Prop
  | .lookup .. | .installMethod .. | .install .. => False
  | _ => True

/-- A class may be defined below nil or below a class. -/
theorem Stage.superclass {w : Watch} {marks : List Mark} {name : String} {superclass : Ref}
    {spec : InstanceSpec} (hs : Stage w marks m starts)
    (hallows : m.Allows (.defineClass name superclass spec)) :
    superclassMark.Holds w m starts superclass := by
  rcases hallows with rfl | hshape
  · exact ⟨hs.nil.known, .inl hs.nil.kind, fun _ h => nomatch h⟩
  · have hcls := hs.of_hasShape hshape
    exact ⟨hcls.known, .inr hcls.kind, fun _ h => nomatch h⟩

/-- Whatever is watched is kept by requests that do not concern methods. -/
theorem Stage.serve {w : Watch} (hs : Stage w [] m starts) {request : Request}
    (hplain : request.Plain) (hallows : m.Allows request) :
    (request.run m).Meets (fun _ => Keeps w []) fun _ => False := by
  have hkept : ∀ {α : Type} {x : Action α}, (x m).Meets (fun _ => Keeps w []) (fun _ => False) →
      ((do let _ ← x : Action Unit) m).Meets (fun _ => Keeps w []) fun _ => False :=
    fun hx => .bind_of_never hx fun _ _ hm' => hm'
  have hmade : ∀ {x : Action Ref} {t : Mark}, (x m).Meets (Gives w [] t) (fun _ => False) →
      ((do let _ ← x : Action Unit) m).Meets (fun _ => Keeps w []) fun _ => False :=
    fun hx => hkept (hx.mono (fun _ _ ⟨starts', hs', _⟩ => ⟨starts', hs'⟩) fun _ h => h)
  cases request with
  | lookup => exact hplain.elim
  | installMethod => exact hplain.elim
  | install => exact hplain.elim
  | defineClass name superclass spec =>
    exact hkept (hs.defineClass name (hs.superclass hallows) spec)
  | intern name => exact hmade (hs.intern name)
  | setGlobal name value =>
    exact hs.setGlobal name (.any fun hp => hs.laidOut.holds_iff.mp (hallows hp))
  | allocate cls format fields len =>
    obtain ⟨hshape, hadmits⟩ := hallows
    exact hmade (hs.allocate_instance (Session.Sound.three_le_of_admits hadmits)
      (hs.of_hasShape hshape))
  | instantiate cls len =>
    obtain ⟨hshape, hspec⟩ := hallows
    exact hkept (hs.instantiate (hs.of_hasShape hshape) len fun spec hok =>
      Session.Sound.three_le_of_admits (hspec spec hok))
  | newArray len => exact hmade (hs.newArray len)
  | newString text => exact hmade (.step rfl (hs.newBytes (hs.kernelClass .string) _))
  | newFloat value => exact hmade (hs.newFloat value)
  | newInteger value => exact hmade (hs.newInteger value)
  | collectGarbage => exact hkept hs.collectGarbage

/-- Another cache makes no difference to a sound machine. -/
theorem Sound.withCache (hm : m.Sound starts) (cache : MethodCache) :
    ({ m with cache } : Machine).Sound starts :=
  hm.withRefs rfl rfl rfl (fun _ hr hnew => absurd hr hnew) (fun _ hr hnew => absurd hr hnew)
    (fun _ hr hnew => absurd hr hnew) fun _ hr hnew => absurd hr hnew

/-- What is asked for leaves a machine at rest, also when it is refused. -/
theorem AtRest.run (hm : m.AtRest) {request : Request} (hallows : m.Allows request) :
    (request.run m).Meets (fun _ m' => m'.AtRest) AtRest := by
  obtain ⟨starts, hsound, hpinned, hcoherent⟩ := hm
  have hs := Stage.start hsound hpinned
  have hserved : request.Plain → (request.run m).Meets (fun _ m' => m'.AtRest) AtRest := by
    intro hplain
    exact (hs.serve hplain hallows).mono (fun _ m' hm' => .of_keeps hsound hcoherent hm')
      fun _ h => h.elim
  cases request with
  | lookup cls selector =>
    obtain ⟨hshape, name, hname⟩ := hallows
    have hcls := hs.of_hasShape hshape
    have hmem := NameTable.mem_of_find? hname
    refine .bind_of_never (hcoherent.lookup_coherent hcls.known hcls.kind
      (hsound.known (mem_roots.mpr (.inr (.inr (.inl hmem))))) (hsound.symbols _ hmem)) ?_
    rintro found _ ⟨cache, rfl, hcoherent'⟩
    exact ⟨starts, hsound.withCache cache, hpinned, hcoherent'⟩
  | installMethod cls selector method =>
    obtain ⟨hshape, hmethod⟩ := hallows
    have hcls := (hs.forget.of_hasShape hshape).toFits.withWritable trivial
    have hinstalled := hs.forget.installMethod (Watch.closed_any 0) hcls selector
      (.any fun hp => hsound.laidOut.holds_iff.mp (hmethod hp))
    refine hinstalled.mono ?_ fun _ h => h.elim
    rintro _ m' ⟨hm', hempty⟩
    exact .of_isEmpty hm' hempty
  | install code cls selector =>
    have hinstalled := hs.install (hs.of_hasShape hallows).toFits code selector
      fun m' starts' cls' method' hs' hcls' hmethod' => hs'.forget.installMethod
        (Watch.closed_any 0) ((hcls'.forget 0).withWritable trivial) selector (hmethod'.forget 0)
    refine hinstalled.mono ?_ fun m' hm' => .of_keeps hsound hcoherent hm'
    rintro _ m' ⟨hm', hempty⟩
    exact .of_isEmpty hm' hempty
  | _ => exact hserved trivial

theorem Reached.atRest (hm : Reached m) : m.AtRest := by
  induction hm with
  | bootstrapped hok hbytes hrun =>
    obtain ⟨hkeeps, hempty⟩ := (bootstrap_sound hok hbytes).of_ok hrun
    exact .of_isEmpty hkeeps hempty
  | prepared hsound hpinned hempty => exact ⟨_, hsound, hpinned, .of_isEmpty hempty⟩
  | served _ hallows hrun ih => exact (ih.run hallows).of_ok hrun
  | refused _ hallows hrun ih =>
    have hmeets := ih.run hallows
    rw [hrun] at hmeets
    exact hmeets

/-- A lookup through the cache answers exactly what the classes answer, or stops as they do, and
changes nothing but the cache. -/
theorem lookup_agrees (hm : Reached m) (cls selector : Ref) :
    ∃ cache, m.lookup cls selector = match Class.lookupMethod? m.heap cls selector with
      | .ok found => .ok found { m with cache }
      | .error cause => .stopped cause := by
  obtain ⟨starts, -, -, hcoherent⟩ := hm.atRest
  exact hcoherent.lookup cls selector

/-- A machine with a class, whose dictionary has one method, and with the symbol of that method. -/
def oneMethod : Machine :=
  let nil : UInt64 := (Ref.ofWordIndex 1).bits
  let cls : UInt64 := (Ref.ofWordIndex 3).bits
  let heap : Heap :=
    { memory := #[0,
        (Header.pack .plain 0 4).bits, cls,
        (Header.pack .plain 5 5).bits, cls, nil, (Ref.ofWordIndex 10).bits, nil, nil, nil,
        (Header.pack .array 2 6).bits, cls, (Ref.ofNat 1).bits, (Ref.ofWordIndex 16).bits, 1,
        (Ref.ofWordIndex 20).bits,
        (Header.pack .array 0 7).bits, cls, 1, (Ref.ofWordIndex 24).bits,
        (Header.pack .byteArray 0 8).bits, cls, 1, 120,
        (Header.pack .plain 3 9).bits, cls, nil, nil, nil]
      top := 29
      reservedWords := 64
      sinceCollection := 0
      config := {}
      hashState := 1
      nil := .ofWordIndex 1
      largeIntegers := .empty
      stats := {} }
  { ofHeap heap ⟨Array.replicate 4 MethodCache.noEntry, 0, 0⟩ with
    core := { CoreObjects.empty with
      nil := .ofWordIndex 1
      classes := Vector.replicate _ (.ofWordIndex 3) }
    symbols := ⟨#[("x", .ofWordIndex 20)]⟩ }

theorem oneMethod_laidOut : oneMethod.heap.LaidOut [1, 3, 10, 16, 20, 24] where
  committed := by decide
  addressable := by decide
  tiles := .cons (.cons (.cons (.cons (.cons (.cons (.nil 29))))))
  readable i hi := by
    have hall : ∀ i ∈ [1, 3, 10, 16, 20, 24], (oneMethod.heap.view i).header.isValid = true ∧
        Format.ofCode? (oneMethod.heap.view i).header.formatCode =
          some (oneMethod.heap.view i).format ∧
        ((oneMethod.heap.view i).format = .context → 3 ≤ (oneMethod.heap.view i).fields) := by
      decide
    obtain ⟨hvalid, hknown, hctx⟩ := hall i hi
    exact ⟨hvalid, hknown, hctx⟩

theorem oneMethod_wellFormed : oneMethod.heap.WellFormed [1, 3, 10, 16, 20, 24] :=
  oneMethod_laidOut.wellFormed_of_checked (b := 7) (by decide) (by decide) (by decide) (by decide)

theorem oneMethod_shaped : oneMethod.heap.Shaped [1, 3, 10, 16, 20, 24] where
  toWellFormed := oneMethod_wellFormed
  zero := rfl
  table := by constructor <;> simp [oneMethod, ofHeap, LargeIntegers.empty]
  reserved := by decide
  follows i hi k hk expected he := by
    have hall : ∀ i ∈ [1, 3, 10, 16, 20, 24], ∀ k < 7, (oneMethod.heap.view i).IsFixed k →
        ∀ expected ∈ (oneMethod.heap.view i).shape.expects k,
          (oneMethod.heap.kind ((oneMethod.heap.view i).ref k)).Fits expected := by decide
    have hsize : ∀ i ∈ [1, 3, 10, 16, 20, 24], (oneMethod.heap.view i).size ≤ 7 := by decide
    exact hall i hi k (Nat.lt_of_lt_of_le hk.isTraced.bounds.2 (hsize i hi)) hk expected he

theorem oneMethod_sound : oneMethod.Sound [1, 3, 10, 16, 20, 24] where
  idle := by decide
  shaped := oneMethod_shaped
  rootsIn := by
    have hroots : ∀ r ∈ oneMethod.roots, r.isPointer = true →
        r ∈ [Ref.ofWordIndex 1, .ofWordIndex 3, .ofWordIndex 20] := by
      rw [roots_eq]
      decide
    constructor
    · intro r hr hp
      have hmem := hroots r hr hp
      simp only [List.mem_cons, List.not_mem_nil, or_false] at hmem
      rcases hmem with rfl | rfl | rfl
      · exact ⟨1, by decide, rfl⟩
      · exact ⟨3, by decide, rfl⟩
      · exact ⟨20, by decide, rfl⟩
    · exact fun _ => ⟨1, by decide, rfl⟩
  nil := ⟨1, by decide, rfl, by decide⟩
  core := rfl
  classes := by decide
  symbols := by decide
  globals := by decide

/-- The first lookup puts the method into the cache, and the second one finds it there. -/
theorem oneMethod_lookup : ∃ m' cache,
    (Request.lookup (.ofWordIndex 3) (.ofWordIndex 20)).run oneMethod = .ok () m' ∧
      m'.cache.find? (.ofWordIndex 3) (.ofWordIndex 20) = some (.ofWordIndex 24) ∧
      m'.lookup (.ofWordIndex 3) (.ofWordIndex 20) =
        .ok (some (.ofWordIndex 24)) { m' with cache } := by
  have hwalk : Class.lookupMethod? oneMethod.heap (.ofWordIndex 3) (.ofWordIndex 20) =
      .ok (some (.ofWordIndex 24)) := by rfl
  have hrun : (Request.lookup (.ofWordIndex 3) (.ofWordIndex 20)).run oneMethod = .ok ()
      { oneMethod with
        cache := (oneMethod.cache.record false).insert (.ofWordIndex 3) (.ofWordIndex 20)
          (.ofWordIndex 24) } := by
    refine Action.bind_of_ok (a := some (.ofWordIndex 24)) ?_
    rw [lookup_eq, hwalk]
    rfl
  have hallows : oneMethod.Allows (.lookup (.ofWordIndex 3) (.ofWordIndex 20)) := by
    refine ⟨⟨?_, rfl, rfl⟩, "x", by decide⟩
    exact oneMethod_wellFormed.toLaidOut.holds_iff.mpr ⟨3, by decide, rfl⟩
  have hreached := Reached.served
    (.prepared oneMethod_sound rfl fun cls selector => find?_flush oneMethod.cache cls selector)
    hallows hrun
  obtain ⟨cache, hlookup⟩ := lookup_agrees hreached (.ofWordIndex 3) (.ofWordIndex 20)
  refine ⟨_, cache, hrun, by decide, hlookup.trans ?_⟩
  rw [show Class.lookupMethod? _ (.ofWordIndex 3) (.ofWordIndex 20) = _ from hwalk]

end Machine

end ObjectMachine
