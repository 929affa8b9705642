import ObjectMachine.Proofs.Graph.Basic
import ObjectMachine.Proofs.Machine.Outcomes

/-!
# Machines and graphs

A machine realizes a graph if its memory depicts the nodes and its registers, tables and temporaries
stand for those of the graph. The first objects that were ever made, those of the kernel, have to be
where they were made. An action simulates a computation on graphs if each of its outcomes is one that
the computation may have, as long as that cannot go wrong; it may be stopped for good only if the
computation may be, or for want of memory.

## Main results

* `Machine.Realizes`: what a machine has to do with a graph.
* `Simulates.bind`: actions are simulated one after another.
* `Simulates.concludes`: what a computation comes to is what an action comes to.
-/

namespace ObjectMachine

/-- The number of objects that the machine knows from the start: nil, the truth values and the kernel
classes. -/
def kernelObjects : Nat := KernelClass.count + 3

/-- The machine stopped for want of memory: for an object, or for the work list of a collection. -/
def Fatal.IsMemory : Fatal → Prop
  | .reservationExhausted _ _ _ | .markStackOverflow _ => True
  | _ => False

/-! ## Roots -/

theorem forall₂_of_mem {α β : Type} {R S : α → β → Prop} {xs : List α} {ys : List β}
    (h : List.Forall₂ R xs ys) (hRS : ∀ x ∈ xs, ∀ y, R x y → S x y) : List.Forall₂ S xs ys := by
  induction h with
  | nil => exact .nil
  | cons hhead _ ih =>
    exact .cons (hRS _ (List.mem_cons_self ..) _ hhead)
      (ih fun x hx => hRS x (List.mem_cons_of_mem _ hx))

namespace Placement

/-- A table of references stands for one of values. -/
def ShowsNames (p : Placement) (t : NameTable) (names : List (String × Value)) : Prop :=
  List.Forall₂ (fun entry named => entry.1 = named.1 ∧ p.Shows entry.2 named.2) t.entries.toList names

/-- Known objects stand for those of a graph. -/
structure ShowsCore (p : Placement) (core : CoreObjects) (c : Graph.Core) : Prop where
  nil : p.Shows core.nil c.nil
  trueObject : p.Shows core.trueObject c.trueObject
  falseObject : p.Shows core.falseObject c.falseObject
  cls : ∀ k, p.Shows (core.cls k) (c.cls k)
  doesNotUnderstand : p.Shows core.doesNotUnderstand c.doesNotUnderstand
  escapedBlock : p.Shows core.escapedBlock c.escapedBlock
  mustBeBoolean : p.Shows core.mustBeBoolean c.mustBeBoolean
  special : List.Forall₂ p.Shows core.specialSelectors.toList c.special

/-- The references in registers stand for the values in those of a graph. -/
structure ShowsRegisters (p : Placement) (r : Registers) (s : Graph.Registers) : Prop where
  active : p.Shows r.activeContext s.active
  home : p.Shows r.homeContext s.home
  method : p.Shows r.method s.method
  receiver : p.Shows r.receiver s.receiver
  literals : p.Shows r.literals s.literals
  selector : p.Shows r.selector s.selector
  lookupClass : p.Shows r.lookupClass s.lookupClass
  newMethod : p.Shows r.newMethod s.newMethod
  pc : r.pc = s.pc
  sp : r.sp = s.sp
  argCount : r.argCount = s.argCount

/-- The roots of a machine stand for those of a graph. -/
structure ShowsRoots (p : Placement) (m : Machine) (g : Graph) : Prop where
  registers : p.ShowsRegisters m.registers g.registers
  core : p.ShowsCore m.core g.core
  symbols : p.ShowsNames m.symbols g.symbols
  globals : p.ShowsNames m.globals g.globals
  pinned : List.Forall₂ p.Shows m.pinned.toList g.pinned

variable {p p' : Placement} {m : Machine} {g : Graph} {f : Ref → Ref}

theorem ShowsNames.map {t : NameTable} {names : List (String × Value)} (ht : p.ShowsNames t names)
    (hf : ∀ r ∈ t.refs, ∀ v, p.Shows r v → p'.Shows (f r) v) :
    p'.ShowsNames (t.mapRefs f) names := by
  unfold ShowsNames NameTable.mapRefs
  unfold NameTable.refs at hf
  rw [Array.toList_map, List.forall₂_map_left_iff]
  refine forall₂_of_mem ht fun entry hmem named hshows => ?_
  exact ⟨hshows.1, hf entry.2 (List.mem_map_of_mem hmem) _ hshows.2⟩

theorem ShowsCore.map {core : CoreObjects} {c : Graph.Core} (hc : p.ShowsCore core c)
    (hf : ∀ r ∈ core.refs, ∀ v, p.Shows r v → p'.Shows (f r) v) :
    p'.ShowsCore (core.mapRefs f) c := by
  unfold CoreObjects.refs at hf
  simp only [List.mem_cons, List.mem_append] at hf
  refine
    { nil := hf _ (by simp) _ hc.nil
      trueObject := hf _ (by simp) _ hc.trueObject
      falseObject := hf _ (by simp) _ hc.falseObject
      cls := ?_
      doesNotUnderstand := hf _ (by simp) _ hc.doesNotUnderstand
      escapedBlock := hf _ (by simp) _ hc.escapedBlock
      mustBeBoolean := hf _ (by simp) _ hc.mustBeBoolean
      special := ?_ }
  · intro k
    have hmap : (core.mapRefs f).cls k = f (core.cls k) := by
      simp [CoreObjects.mapRefs, CoreObjects.cls]
    rw [hmap]
    refine hf _ (.inr (.inr (.inr (.inl ?_)))) _ (hc.cls k)
    exact Vector.mem_toList_iff.mpr (Vector.getElem_mem _)
  · unfold CoreObjects.mapRefs
    dsimp only
    rw [Array.toList_map, List.forall₂_map_left_iff]
    refine forall₂_of_mem hc.special fun r hmem v hshows => ?_
    exact hf r (by simp [hmem]) v hshows

theorem ShowsRegisters.map {r : Registers} {s : Graph.Registers} (hr : p.ShowsRegisters r s)
    (hf : ∀ x ∈ r.refs, ∀ v, p.Shows x v → p'.Shows (f x) v) :
    p'.ShowsRegisters (r.mapRefs f) s := by
  unfold Registers.refs at hf
  exact
    { active := hf _ (by simp) _ hr.active
      home := hf _ (by simp) _ hr.home
      method := hf _ (by simp) _ hr.method
      receiver := hf _ (by simp) _ hr.receiver
      literals := hf _ (by simp) _ hr.literals
      selector := hf _ (by simp) _ hr.selector
      lookupClass := hf _ (by simp) _ hr.lookupClass
      newMethod := hf _ (by simp) _ hr.newMethod
      pc := hr.pc
      sp := hr.sp
      argCount := hr.argCount }

/-- Roots that are replaced by their images stand for the same values. -/
theorem ShowsRoots.map (hm : p.ShowsRoots m g)
    (hf : ∀ r ∈ m.roots, ∀ v, p.Shows r v → p'.Shows (f r) v) :
    p'.ShowsRoots (m.mapRoots f) g := by
  rw [Machine.roots_eq] at hf
  simp only [List.mem_append] at hf
  refine
    { registers := hm.registers.map fun r hr => hf r (.inl hr)
      core := hm.core.map fun r hr => hf r (.inr (.inl hr))
      symbols := hm.symbols.map fun r hr => hf r (.inr (.inr (.inl hr)))
      globals := hm.globals.map fun r hr => hf r (.inr (.inr (.inr (.inl hr))))
      pinned := ?_ }
  show List.Forall₂ p'.Shows (m.pinned.map f).toList g.pinned
  rw [Array.toList_map, List.forall₂_map_left_iff]
  refine forall₂_of_mem hm.pinned fun r hmem v hshows => ?_
  exact hf r (.inr (.inr (.inr (.inr hmem)))) v hshows

/-- Roots stand for the same values where all references do. -/
theorem ShowsRoots.imp (hm : p.ShowsRoots m g) (hshows : ∀ r v, p.Shows r v → p'.Shows r v) :
    p'.ShowsRoots m g := by
  have hid : m.mapRoots id = m := by
    simp [Machine.mapRoots, Registers.mapRefs, CoreObjects.mapRefs, NameTable.mapRefs]
  rw [← hid]
  exact hm.map fun r _ v hv => hshows r v hv

/-- Every root stands for a value. -/
theorem ShowsRoots.shows (hm : p.ShowsRoots m g) : ∀ r ∈ m.roots, ∃ v, p.Shows r v := by
  have hlist : ∀ {refs : List Ref} {values : List Value}, List.Forall₂ p.Shows refs values →
      ∀ r ∈ refs, ∃ v, p.Shows r v := by
    intro refs values hall
    induction hall with
    | nil => simp
    | cons hhead _ ih =>
      intro r hr
      obtain rfl | hr := List.mem_cons.mp hr
      · exact ⟨_, hhead⟩
      · exact ih r hr
  have hnames : ∀ {t : NameTable} {names : List (String × Value)}, p.ShowsNames t names →
      ∀ r ∈ t.refs, ∃ v, p.Shows r v := by
    intro t names ht
    unfold ShowsNames at ht
    unfold NameTable.refs
    generalize t.entries.toList = entries at ht
    induction ht with
    | nil => simp
    | cons hhead _ ih =>
      intro r hr
      obtain rfl | hr := List.mem_cons.mp hr
      · exact ⟨_, hhead.2⟩
      · exact ih r hr
  have hregisters : ∀ r ∈ m.registers.refs, ∃ v, p.Shows r v := by
    have hs := hm.registers
    unfold Registers.refs
    simp only [List.forall_mem_cons]
    exact ⟨⟨_, hs.active⟩, ⟨_, hs.home⟩, ⟨_, hs.method⟩, ⟨_, hs.receiver⟩, ⟨_, hs.literals⟩,
      ⟨_, hs.selector⟩, ⟨_, hs.lookupClass⟩, ⟨_, hs.newMethod⟩, by simp⟩
  have hcore : ∀ r ∈ m.core.refs, ∃ v, p.Shows r v := by
    have hs := hm.core
    unfold CoreObjects.refs
    simp only [List.forall_mem_cons, List.mem_append]
    refine ⟨⟨_, hs.nil⟩, ⟨_, hs.trueObject⟩, ⟨_, hs.falseObject⟩, ?_⟩
    rintro r (hr | hr)
    · obtain ⟨k, hk, rfl⟩ := Vector.mem_iff_getElem.mp (Vector.mem_toList_iff.mp hr)
      have hall : ∀ i : Fin KernelClass.count, ∃ c ∈ KernelClass.all, c.index = i := by decide
      obtain ⟨c, -, hc⟩ := hall ⟨k, hk⟩
      have hcls : m.core.cls c = m.core.classes[k] := by simp [CoreObjects.cls, hc]
      exact ⟨_, hcls ▸ hs.cls c⟩
    · simp only [List.mem_cons] at hr
      obtain rfl | rfl | rfl | hr := hr
      · exact ⟨_, hs.doesNotUnderstand⟩
      · exact ⟨_, hs.escapedBlock⟩
      · exact ⟨_, hs.mustBeBoolean⟩
      · exact hlist hs.special r hr
  rw [Machine.roots_eq]
  intro r hr
  simp only [List.mem_append] at hr
  obtain hr | hr | hr | hr | hr := hr
  · exact hregisters r hr
  · exact hcore r hr
  · exact hnames hm.symbols r hr
  · exact hnames hm.globals r hr
  · exact hlist hm.pinned r hr

end Placement

/-! ## Realization -/

/-- The objects of the kernel are where they were. -/
def Placement.Steady (p p' : Placement) : Prop :=
  ∀ n < kernelObjects, ∀ i, p.find? n = some i → p'.find? n = some i

theorem Placement.Steady.refl (p : Placement) : p.Steady p := fun _ _ _ hi => hi

theorem Placement.Steady.trans {p p' p'' : Placement} (h : p.Steady p') (h' : p'.Steady p'') :
    p.Steady p'' := fun n hn i hi => h' n hn i (h n hn i hi)

/-- The positions in registers are those of the stack of the active context, of the temporaries of its
home and of the instructions. -/
structure Placement.Positions (p : Placement) (r : Registers) (g : Graph) (c : Nat) : Prop where
  context : (g.nodes c).format = .context
  stack : ∃ i, p.find? c = some i ∧ r.stackBase = i + (headerWords + (g.nodes c).fields + 1) ∧
    r.stackLimit = (g.nodes c).len
  home : ∃ d j, g.registers.home = .object d ∧ p.find? d = some j ∧ (g.nodes d).format = .context ∧
    r.tempBase = j + (headerWords + (g.nodes d).fields + 1) ∧
    r.tempLimit = g.registers.tempLimit ∧ r.tempLimit ≤ (g.nodes d).len
  code : ∃ b l, g.registers.code = .object b ∧ p.find? b = some l ∧
    (g.nodes b).format = .byteArray ∧
    r.codeBase = (l + (headerWords + (g.nodes b).fields + 1)) * 8 ∧ r.codeLength = (g.nodes b).len

/-- The memory and the roots of a machine are what a graph says, with objects at some places, of
which some elements are known. -/
structure Machine.Holds (m : Machine) (g : Graph) (p : Placement) (starts : List Nat)
    (known : Nat → Nat) : Prop where
  depicts : m.heap.Depicts starts p g.nodes known
  bounded : ∀ {n i}, p.find? n = some i → n < g.next
  /-- The objects of the kernel are where they were made. -/
  first : ∀ n < kernelObjects, n < g.next → p.find? n = some (originOf g.nodes n)
  /-- At first there is nothing but these. -/
  packed : g.next ≤ kernelObjects → m.heap.top = originOf g.nodes g.next
  nil : p.Shows m.heap.nil g.nil
  /-- Memory does not grow beyond its capacity. -/
  committed : m.heap.memory.size ≤ g.capacity
  reserved : m.heap.reservedWords ≤ g.capacity
  /-- No more was allocated since the last collection than there is. -/
  counted : m.heap.sinceCollection ≤ m.heap.top * wordBytes
  roots : p.ShowsRoots m g
  small : List.Forall₂ p.Shows m.contexts.small g.pool.small
  large : List.Forall₂ p.Shows m.contexts.large g.pool.large
  /-- What the cache holds may be answered. -/
  cache : ∀ entry ∈ m.cache.entries.toList, entry.method.isNull = false →
    ∃ cls selector method, p.Shows entry.cls cls ∧ p.Shows entry.selector selector ∧
      p.Shows entry.method method ∧ g.memo cls selector method

/-- A machine is what a graph says, the positions in its registers included. -/
structure Machine.Realizes (m : Machine) (g : Graph) (p : Placement) (starts : List Nat) : Prop
    extends m.Holds g p starts g.known where
  positions : ∀ c, g.registers.active = .object c → p.Positions m.registers g c

/-! ## Simulation -/

/-- What a value of the machine stands for, wherever objects are. -/
class Depicted (α β : Type) where
  shows : Placement → α → β → Prop

instance : Depicted Ref Value := ⟨fun p r v => p.Shows r v⟩
instance : Depicted Unit Unit := ⟨fun _ _ _ => True⟩
instance : Depicted Bool Bool := ⟨fun _ a b => a = b⟩
instance : Depicted Nat Nat := ⟨fun _ a b => a = b⟩
instance : Depicted Int Int := ⟨fun _ a b => a = b⟩
instance : Depicted UInt8 UInt8 := ⟨fun _ a b => a = b⟩
instance : Depicted String String := ⟨fun _ a b => a = b⟩
instance : Depicted CoreObjects Graph.Core := ⟨fun p c c' => p.ShowsCore c c'⟩
instance {α β : Type} [Depicted α β] : Depicted (Option α) (Option β) :=
  ⟨fun p => Option.Rel (Depicted.shows p)⟩
instance {α β : Type} [Depicted α β] : Depicted (List α) (List β) :=
  ⟨fun p => List.Forall₂ (Depicted.shows p)⟩
instance {α β α' β' : Type} [Depicted α β] [Depicted α' β'] : Depicted (α × α') (β × β') :=
  ⟨fun p a b => Depicted.shows p a.1 b.1 ∧ Depicted.shows p a.2 b.2⟩

/-- An outcome of a machine is among the outcomes of a computation. Of the places of objects
afterwards `K` is known, and after a failure that no object of the kernel was moved. -/
def Outcome.Fits {α β : Type} [Depicted α β] (x : Outcome α) (R : Result β → Prop) (p : Placement)
    (K : Placement → Prop) : Prop :=
  match x with
  | .ok a m => ∃ b g p' starts, R (.ok b g) ∧ K p' ∧ Depicted.shows p' a b ∧ m.Realizes g p' starts
  | .failed failure m => ∃ g p' starts, R (.failed failure g) ∧ p.Steady p' ∧ m.Realizes g p' starts
  | .stopped cause => cause.IsMemory ∨ R (.stopped cause)
  | .unfinished => R .unfinished

theorem Outcome.Fits.mono {α β : Type} [Depicted α β] {x : Outcome α} {R R' : Result β → Prop}
    {p p₀ : Placement} {K L : Placement → Prop} (hx : x.Fits R p K) (hR : ∀ r, R r → R' r)
    (hp : p₀.Steady p) (hK : ∀ p, K p → L p) : x.Fits R' p₀ L := by
  cases x with
  | ok a m' =>
    obtain ⟨b, g', p', starts', hr, hk, hrest⟩ := hx
    exact ⟨b, g', p', starts', hR _ hr, hK p' hk, hrest⟩
  | failed e m' =>
    obtain ⟨g', p', starts', hr, hsteady, hrest⟩ := hx
    exact ⟨g', p', starts', hR _ hr, hp.trans hsteady, hrest⟩
  | stopped cause => exact hx.imp_right (hR _)
  | unfinished => exact hR _ hx

/-- An action does what a computation says, with objects at some places at first, of which `K` is
known afterwards. -/
def Simulates {α β : Type} [Depicted α β] (p : Placement) (K : Placement → Prop) (x : Action α)
    (y : Spec β) : Prop :=
  ∀ m g starts, m.Realizes g p starts → ¬ y g .wrong → (x m).Fits (y g) p K

/-- Reading from a machine answers what is read from the graph. -/
def Reads {α β : Type} [Depicted α β] (p : Placement) (f : Machine → Except Fatal α)
    (φ : Graph → Option β) : Prop :=
  ∀ m g starts, m.Realizes g p starts → ∀ b, φ g = some b → ∃ a, f m = .ok a ∧ Depicted.shows p a b

theorem Reads.intro {α β : Type} [Depicted α β] {p : Placement} {f : Machine → Except Fatal α}
    {φ : Graph → Option β} (h : ∀ m g starts, m.Realizes g p starts → ∀ b, φ g = some b →
      ∃ a, f m = .ok a ∧ Depicted.shows p a b) : Reads p f φ := h

theorem Reads.ok {α β : Type} [Depicted α β] {p : Placement} {f : Machine → Except Fatal α}
    {φ : Graph → Option β} (hf : Reads p f φ) {m : Machine} {g : Graph} {starts : List Nat}
    (hm : m.Realizes g p starts) {b : β} (hb : φ g = some b) :
    ∃ a, f m = .ok a ∧ Depicted.shows p a b :=
  hf m g starts hm b hb

/-- Writing to memory changes the graph. -/
def Writes (p : Placement) (f : Heap → Except Fatal Heap) (ψ : Graph → Option Graph) : Prop :=
  ∀ (m : Machine) (g : Graph) (starts : List Nat), m.Realizes g p starts → ∀ g', ψ g = some g' →
    ∃ h, f m.heap = .ok h ∧ { m with heap := h }.Realizes g' p starts

namespace Simulates

variable {α β γ δ : Type} [Depicted α β] [Depicted γ δ] {p : Placement} {K L : Placement → Prop}
  {x : Action α} {y : Spec β}

theorem mono (hx : Simulates p K x y) (hK : ∀ p', K p' → L p') : Simulates p L x y :=
  fun m g starts hm hright => (hx m g starts hm hright).mono (fun _ hr => hr) (.refl p) hK

/-- After actions that moved no object of the kernel. -/
theorem after {p₀ : Placement} (hp : p₀.Steady p) (hx : Simulates p p.Steady x y) :
    Simulates p p₀.Steady x y :=
  hx.mono fun _ hp' => hp.trans hp'

/-- A computation with more outcomes is simulated as well. -/
theorem widen {y' : Spec β} (hx : Simulates p K x y) (hy : ∀ g r, y g r → y' g r) :
    Simulates p K x y' := fun m g starts hm hright =>
  (hx m g starts hm fun hwrong => hright (hy g _ hwrong)).mono (hy g) (.refl p) fun _ hp => hp

/-- An action that leaves objects where they are promises anything that is known of places. -/
theorem still (hx : Simulates p (· = p) x y) (hp : L p) : Simulates p L x y :=
  hx.mono (by rintro p' rfl; exact hp)

theorem pure {a : α} {b : β} (hab : Depicted.shows p a b) (hp : K p) :
    Simulates p K (Pure.pure a : Action α) (Pure.pure b : Spec β) := by
  intro m g starts hm _
  exact ⟨b, g, p, starts, rfl, hp, hab, hm⟩

/-- One action after another, of whose value something is known. -/
theorem bind_of {f : α → Action γ} {h : β → Spec δ} {P : β → Prop} (hx : Simulates p K x y)
    (hK : ∀ p', K p' → p.Steady p') (hy : ∀ g b g', y g (.ok b g') → P b)
    (hf : ∀ p', K p' → ∀ a b, Depicted.shows p' a b → P b → Simulates p' L (f a) (h b)) :
    Simulates p L (x >>= f) (y >>= h) := by
  intro m g starts hm hright
  have hfits := hx m g starts hm fun hwrong => hright ⟨_, hwrong, rfl⟩
  show (Action.bind x f m).Fits _ p L
  unfold Action.bind
  cases hxm : x m with
  | ok a m' =>
    rw [hxm] at hfits
    obtain ⟨b, g', p', starts', hr, hk, hab, hm'⟩ := hfits
    have hnext := hf p' hk a b hab (hy g b g' hr) m' g' starts' hm' fun hwrong =>
      hright ⟨_, hr, hwrong⟩
    exact hnext.mono (fun _ hr' => ⟨_, hr, hr'⟩) (hK p' hk) fun _ hp => hp
  | failed e m' =>
    rw [hxm] at hfits
    obtain ⟨g', p', starts', hr, hrest⟩ := hfits
    exact ⟨g', p', starts', ⟨_, hr, rfl⟩, hrest⟩
  | stopped cause =>
    rw [hxm] at hfits
    exact hfits.imp_right fun hr => ⟨.stopped cause, hr, rfl⟩
  | unfinished =>
    rw [hxm] at hfits
    exact ⟨.unfinished, hfits, rfl⟩

/-- One action after another. -/
theorem bind {f : α → Action γ} {h : β → Spec δ} (hx : Simulates p K x y)
    (hK : ∀ p', K p' → p.Steady p')
    (hf : ∀ p', K p' → ∀ a b, Depicted.shows p' a b → Simulates p' L (f a) (h b)) :
    Simulates p L (x >>= f) (y >>= h) :=
  hx.bind_of (P := fun _ => True) hK (fun _ _ _ _ => trivial) fun p' hp' a b hab _ => hf p' hp' a b hab

/-- After an action that leaves objects where they are. -/
theorem bind_still {f : α → Action γ} {h : β → Spec δ} (hx : Simulates p (· = p) x y)
    (hf : ∀ a b, Depicted.shows p a b → Simulates p L (f a) (h b)) :
    Simulates p L (x >>= f) (y >>= h) :=
  hx.bind (by rintro p' rfl; exact .refl p') (by rintro p' rfl; exact hf)

/-- After an action that may move objects, though none of the kernel. -/
theorem bind_steady {f : α → Action γ} {h : β → Spec δ} (hx : Simulates p p.Steady x y)
    (hf : ∀ p', p.Steady p' → ∀ a b, Depicted.shows p' a b → Simulates p' p'.Steady (f a) (h b)) :
    Simulates p p.Steady (x >>= f) (y >>= h) :=
  hx.bind (fun _ hp => hp) fun p' hp' a b hab => (hf p' hp' a b hab).mono fun _ hp'' => hp'.trans hp''

/-- An action that leaves objects where they are moves none of the kernel. -/
theorem steady (hx : Simulates p (· = p) x y) : Simulates p p.Steady x y :=
  hx.still (.refl p)

/-- A look at the machine. -/
theorem ask {f : Machine → α} {φ : Graph → β}
    (hf : ∀ m g starts, m.Realizes g p starts → Depicted.shows p (f m) (φ g)) :
    Simulates p (· = p) (Action.ask f) (Spec.ask φ) := by
  intro m g starts hm _
  exact ⟨φ g, g, p, starts, rfl, rfl, hf m g starts hm, hm⟩

theorem inspect {f : Machine → Except Fatal α} {φ : Graph → Option β} (hf : Reads p f φ) :
    Simulates p (· = p) (Action.inspect f) (Spec.read φ) := by
  intro m g starts hm hright
  cases hφ : φ g with
  | none =>
    rw [Spec.read_of_none hφ] at hright
    exact absurd rfl hright
  | some b =>
    obtain ⟨a, ha, hab⟩ := hf m g starts hm b hφ
    rw [Spec.read_of_some hφ]
    unfold Action.inspect
    rw [ha]
    exact ⟨b, g, p, starts, rfl, rfl, hab, hm⟩

theorem read {f : Heap → Except Fatal α} {φ : Graph → Option β} (hf : Reads p (fun m => f m.heap) φ) :
    Simulates p (· = p) (Action.read f) (Spec.read φ) :=
  inspect hf

/-- An action that changes the machine as a graph is changed. -/
theorem change {x : Action Unit} {ψ : Graph → Option Graph}
    (hx : ∀ m g starts, m.Realizes g p starts → ∀ g', ψ g = some g' →
      ∃ m', x m = .ok () m' ∧ m'.Realizes g' p starts) :
    Simulates p (· = p) x (Spec.write ψ) := by
  intro m g starts hm hright
  cases hψ : ψ g with
  | none =>
    rw [Spec.write_of_none hψ] at hright
    exact absurd rfl hright
  | some g' =>
    obtain ⟨m', hok, hm'⟩ := hx m g starts hm g' hψ
    rw [hok, Spec.write_of_some hψ]
    exact ⟨(), g', p, starts, rfl, rfl, trivial, hm'⟩

theorem write {f : Heap → Except Fatal Heap} {ψ : Graph → Option Graph} (hf : Writes p f ψ) :
    Simulates p (· = p) (Action.write f) (Spec.write ψ) :=
  change fun m g starts hm g' hg' =>
    let ⟨_, hh, hm'⟩ := hf m g starts hm g' hg'
    ⟨_, Action.write_ok hh, hm'⟩

/-- A change of the machine that leaves memory alone. -/
theorem modify {f : Machine → Machine} {φ : Graph → Graph}
    (hf : ∀ m g starts, m.Realizes g p starts → (f m).Realizes (φ g) p starts) :
    Simulates p (· = p) (MonadState.modifyGet fun m => ((), f m) : Action Unit) (Spec.modify φ) := by
  intro m g starts hm _
  exact ⟨(), φ g, p, starts, rfl, rfl, trivial, hf m g starts hm⟩

theorem fail {failure : Failure} {P : Failure → Prop} (hP : P failure) :
    Simulates p K (Action.fail failure : Action α) (Spec.fail P : Spec β) := by
  intro m g starts hm _
  exact ⟨g, p, starts, ⟨failure, hP, rfl⟩, .refl p, hm⟩

theorem stop {cause : Fatal} {P : Fatal → Prop} (hP : P cause) :
    Simulates p K (Action.stop cause : Action α) (Spec.stop P : Spec β) := by
  intro m g starts hm _
  exact .inr ⟨cause, hP, rfl⟩

/-- A condition of the computation is a fact that the action may rely on. -/
theorem guard {P : Graph → Prop} {h : Unit → Spec β}
    (hx : ∀ m g starts, m.Realizes g p starts → P g → ¬ h () g .wrong →
      (x m).Fits (h () g) p K) :
    Simulates p K x (Spec.guard P >>= h) := by
  intro m g starts hm hright
  have hP : P g := by
    by_contra hnot
    exact hright ⟨_, .inr ⟨hnot, rfl⟩, rfl⟩
  have hsame : (Spec.guard P >>= h) g = h () g := by
    funext r
    apply propext
    constructor
    · rintro ⟨r₁, ⟨-, rfl⟩ | ⟨hnot, -⟩, hr⟩
      · exact hr
      · exact absurd hP hnot
    · exact fun hr => ⟨_, .inl ⟨hP, rfl⟩, hr⟩
  rw [hsame] at hright ⊢
  exact hx m g starts hm hP hright

/-- A condition that does not depend on the graph. -/
theorem require {P : Prop} {h : Unit → Spec β} (hx : P → Simulates p K x (h ())) :
    Simulates p K x (Spec.guard (fun _ => P) >>= h) :=
  guard fun m g starts hm hP hright => hx hP m g starts hm hright

end Simulates

/-! ## Conclusions -/

/-- What an action comes to: a value with `Q` or a failure with `E`. It may be stopped for good for
want of memory, and otherwise only by a cause with `S`. -/
def Outcome.Concludes {α : Type} (x : Outcome α) (Q : α → Machine → Prop)
    (E : Failure → Machine → Prop) (S : Fatal → Prop) : Prop :=
  match x with
  | .ok a m => Q a m
  | .failed failure m => E failure m
  | .stopped cause => cause.IsMemory ∨ S cause
  | .unfinished => True

namespace Outcome.Concludes

variable {α β : Type} {m : Machine} {Q R : α → Machine → Prop} {E E' : Failure → Machine → Prop}
  {S : Fatal → Prop}

theorem mono {x : Outcome α} (hx : x.Concludes Q E S) (hQ : ∀ a m', Q a m' → R a m')
    (hE : ∀ failure m', E failure m' → E' failure m') : x.Concludes R E' S := by
  cases x with
  | ok a m' => exact hQ a m' hx
  | failed failure m' => exact hE failure m' hx
  | stopped cause => exact hx
  | unfinished => trivial

theorem bind {x : Action α} {f : α → Action β} {P : β → Machine → Prop}
    (hx : (x m).Concludes Q E S) (hf : ∀ a m', Q a m' → (f a m').Concludes P E S) :
    ((x >>= f) m).Concludes P E S := by
  show (Action.bind x f m).Concludes P E S
  unfold Action.bind
  cases hrun : x m with
  | ok a m' =>
    rw [hrun] at hx
    exact hf a m' hx
  | failed failure m' =>
    rw [hrun] at hx
    exact hx
  | stopped cause =>
    rw [hrun] at hx
    exact hx
  | unfinished => trivial

end Outcome.Concludes

/-- What is known of all outcomes of a computation is known of an action that simulates it. -/
theorem Simulates.concludes {α β : Type} [Depicted α β] {p : Placement} {K : Placement → Prop}
    {x : Action α} {y : Spec β} (hx : Simulates p K x y) {m : Machine} {g : Graph}
    {starts : List Nat} (hm : m.Realizes g p starts) {Q : β → Graph → Prop}
    {E : Failure → Graph → Prop} {S : Fatal → Prop} (hy : y.Ends g Q E S) :
    (x m).Concludes
      (fun a m' => ∃ b g' p' starts', Q b g' ∧ K p' ∧ Depicted.shows p' a b ∧
        m'.Realizes g' p' starts')
      (fun failure m' => ∃ g' p' starts', E failure g' ∧ p.Steady p' ∧ m'.Realizes g' p' starts')
      S := by
  have hfits := hx m g starts hm hy.not_wrong
  cases hrun : x m with
  | ok a m' =>
    rw [hrun] at hfits
    obtain ⟨b, g', p', starts', hr, hK, hab, hm'⟩ := hfits
    exact ⟨b, g', p', starts', hy _ hr, hK, hab, hm'⟩
  | failed failure m' =>
    rw [hrun] at hfits
    obtain ⟨g', p', starts', hr, hp, hm'⟩ := hfits
    exact ⟨g', p', starts', hy _ hr, hp, hm'⟩
  | stopped cause =>
    rw [hrun] at hfits
    exact hfits.imp id fun hr => hy _ hr
  | unfinished => trivial

end ObjectMachine
