import ObjectMachine.Proofs.Graph.Bootstrapping
import ObjectMachine.Proofs.Graph.Finishing

/-!
# Classes and their superclasses

A program that uses the machine defines classes, adds methods to them and may collect at any time. It
knows a class by the global of its name, by its position among the temporaries or as a superclass of
another class. Whichever way it comes to a class, the class and its metaclass are what was defined,
and the way up from them comes to an end.

## Main results

* `Machine.develop_reflects`: classes and metaclasses after any number of definitions, installations
  and collections.
-/

namespace ObjectMachine

/-- A specification is read as it was written, if its fields fit sixteen bits. -/
theorem InstanceSpec.ofRef?_toRef {spec : InstanceSpec} (hfields : spec.fields ≤ 65535) :
    ofRef? spec.toRef = some spec := by
  have hcode : spec.format.code ≤ 7 := by cases spec.format <;> decide
  have hlimit : spec.format.code <<< 16 + spec.fields < Ref.addressLimit := by
    simp only [Ref.addressLimit, Nat.shiftLeft_eq]
    omega
  have hword : spec.toRef = .ofNat (spec.format.code <<< 16 + spec.fields) := by
    unfold toRef Ref.ofNat
    rw [Nat.shiftLeft_add_eq_or_of_lt (show spec.fields < 2 ^ 16 by omega)]
    congr 1
    apply UInt64.toNat_inj.mp
    simp [UInt64.toNat_or, UInt64.toNat_shiftLeft, Nat.mod_eq_of_lt, Nat.shiftLeft_eq]
  have hpayload : ((spec.toRef.bits.toInt64 >>> 2).toUInt64).toNat =
      spec.format.code <<< 16 + spec.fields := by
    rw [hword]
    exact Ref.toCount_ofNat hlimit
  unfold ofRef?
  rw [if_pos (hword ▸ Ref.isSmallInteger_ofNat hlimit)]
  dsimp only
  generalize (spec.toRef.bits.toInt64 >>> 2).toUInt64 = payload at hpayload ⊢
  have hformat : ((payload >>> 16) &&& 0xFF).toNat = spec.format.code := by
    rw [UInt64.toNat_and, UInt64.toNat_shiftRight, show (16 : UInt64).toNat % 64 = 16 from rfl,
      hpayload, show (0xFF : UInt64).toNat = 2 ^ 8 - 1 from rfl, Nat.and_two_pow_sub_one_eq_mod,
      Nat.shiftRight_eq_div_pow, Nat.shiftLeft_eq]
    omega
  have hcount : (payload &&& 0xFFFF).toNat = spec.fields := by
    rw [UInt64.toNat_and, show (0xFFFF : UInt64).toNat = 2 ^ 16 - 1 from rfl,
      Nat.and_two_pow_sub_one_eq_mod, hpayload, Nat.shiftLeft_eq]
    omega
  rw [hformat, hcount, Format.ofCode?_code]

/-! ## What a program does -/

/-- A class as it was defined. Its superclass is one of those that were defined before. -/
structure Definition where
  name : String
  superclass : Option Nat
  spec : InstanceSpec

/-- What is known of the classes: their definitions in order, the class that each global was bound to
last, and the classes among the temporaries. -/
structure Directory where
  definitions : List Definition
  globals : List (String × Nat)
  pinned : List (Option Nat)

/-- A way to come to a class. -/
inductive Way where
  | kernel (k : KernelClass)
  | global (name : String)
  | pinned (position : Nat)
  | superclass (way : Way)

/-- The reference that a way leads to. -/
def Way.ref (m : Machine) : Way → Except Fatal Ref
  | kernel k => .ok (m.core.cls k)
  | global name => do
    match ← m.global? name with
    | some r => .ok r
    | none => .error (.fault .position)
  | pinned position =>
    match m.pinned[position]? with
    | some r => .ok r
    | none => .error (.fault .position)
  | superclass way => do Class.superclass m.heap (← way.ref m)

/-- A class or its metaclass. -/
inductive Holder where
  | cls (way : Way)
  | metaclass (way : Way)

namespace Holder

def way : Holder → Way
  | cls way => way
  | metaclass way => way

def ref (m : Machine) : Holder → Except Fatal Ref
  | cls way => way.ref m
  | metaclass way => do m.heap.classOf (← way.ref m)

end Holder

/-- Pins a method unless its code was refused. -/
def Machine.keepBuilt : Except Failure Ref → Action Unit
  | .ok method => pin method
  | .error _ => return

/-- What a program does. -/
inductive Command where
  /-- Defines a class. -/
  | define (name : String) (superclass : Option Way) (spec : InstanceSpec)
  /-- Builds a method and adds it to a class, unless its code is refused. -/
  | install (holder : Holder) (code : Assembler) (selector : String)
  /-- Builds a method and pins it, unless its code is refused. -/
  | compile (holder : Holder) (code : Assembler)
  /-- Adds what is pinned at a position to a class, as a method. -/
  | add (holder : Holder) (selector : String) (position : Nat)
  /-- Pins a class. -/
  | hold (way : Way)
  /-- Releases what was pinned last. -/
  | release
  | collect

namespace Command

open ObjectMachine.Action in
/-- Does something to the machine. -/
def run : Command → Action Unit
  | define name none spec => do
    let _ ← Machine.defineClass name (← getCore).nil spec
  | define name (some way) spec => do
    let _ ← Machine.defineClass name (← inspect way.ref) spec
  | install holder code selector => do
    let _ ← attempt (Machine.install code (← inspect holder.ref) selector)
  | compile holder code => do
    Machine.keepBuilt (← attempt (Machine.build code (← inspect holder.ref)))
  | add holder selector position => do
    Machine.installMethod (← inspect holder.ref) selector (← Machine.pinnedAt position)
  | hold way => do Machine.pin (← inspect way.ref)
  | release => do
    let _ ← Machine.unpin
  | collect => do
    let _ ← Machine.collectGarbage

/-- The code of a command stops the machine for good. -/
def Stops (cause : Fatal) : Command → Prop
  | install _ code _ => code.finish.1 = .error (.fatal cause)
  | compile _ code => code.finish.1 = .error (.fatal cause)
  | _ => False

/-- Does one thing after another. -/
def runAll : List Command → Action Unit
  | [] => return
  | command :: rest => do
    command.run
    runAll rest

end Command

namespace Directory

/-- The kernel classes. -/
def kernel : Directory where
  definitions := KernelClass.all.map fun k =>
    ⟨k.name, k.superclass?.map (·.index.val), k.spec⟩
  globals := KernelClass.all.reverse.map fun k => (k.name, k.index.val)
  pinned := []

/-- The class that a way leads to. -/
def find? (d : Directory) : Way → Option Nat
  | .kernel k => some k.index
  | .global name => d.globals.lookup name
  | .pinned position => d.pinned[position]?.join
  | .superclass way => d.find? way >>= fun i => d.definitions[i]? >>= Definition.superclass

/-- A superclass has to be one of the classes, and a specification may not have more fields than it
can say. -/
def admits (d : Directory) : Command → Bool
  | .define _ superclass spec =>
    superclass.all (fun way => (d.find? way).isSome) && decide (spec.fields ≤ 65535)
  | .install holder _ _ => (d.find? holder.way).isSome
  | .compile holder _ => (d.find? holder.way).isSome
  | .add holder _ position => (d.find? holder.way).isSome && decide (position < d.pinned.length)
  | .hold way => (d.find? way).isSome
  | .release => !d.pinned.isEmpty
  | .collect => true

/-- What is known of the classes after a command. -/
def after (d : Directory) : Command → Directory
  | .define name superclass spec =>
    { d with
      definitions := d.definitions ++ [⟨name, superclass.bind d.find?, spec⟩]
      globals := (name, d.definitions.length) :: d.globals }
  | .compile _ code =>
    match code.finish.1 with
    | .ok _ => { d with pinned := d.pinned ++ [none] }
    | .error _ => d
  | .hold way => { d with pinned := d.pinned ++ [d.find? way] }
  | .release => { d with pinned := d.pinned.dropLast }
  | _ => d

/-- The class that holds methods is a kernel class. -/
def IsKernel (d : Directory) (k : KernelClass) : Holder → Prop
  | .cls way => d.find? way = some k.index
  | .metaclass _ => False

/-- A command adds a method of a name to a kernel class. -/
def Adds (d : Directory) (k : KernelClass) (name : String) : Command → Prop
  | .install holder _ selector => d.IsKernel k holder ∧ selector = name
  | .add holder selector _ => d.IsKernel k holder ∧ selector = name
  | _ => False

def admitsAll (d : Directory) : List Command → Bool
  | [] => true
  | command :: rest => d.admits command && (d.after command).admitsAll rest

def afterAll (d : Directory) (commands : List Command) : Directory := commands.foldl after d

end Directory

namespace Machine

/-- What a program does with a fresh machine. -/
def develop (commands : List Command) : Action Unit := do
  bootstrap
  Command.runAll commands

/-! ## What is known of the machine -/

/-- The superclasses of a class, itself included, end with nil. -/
inductive Climbs (m : Machine) : Ref → List Ref → Prop
  | nil : Climbs m m.heap.nil []
  | cons {r superclass : Ref} {chain : List Ref} (hne : r ≠ m.heap.nil)
    (hsuperclass : Class.superclass m.heap r = .ok superclass) (hrest : Climbs m superclass chain) :
    Climbs m r (r :: chain)

/-- The way up from a class comes to an end, and so do searches for ancestors and for methods. -/
structure IsRooted (m : Machine) (cls : Ref) : Prop where
  climbs : ∃ chain, m.Climbs cls chain ∧ chain.Nodup ∧
    ∀ ancestor, Class.inheritsFrom m.heap cls ancestor = .ok (decide (ancestor ∈ chain))
  lookup : ∀ {name selector}, m.symbols.find? name = some selector →
    ∃ found, Class.lookupMethod? m.heap cls selector = .ok found

/-- A class and its metaclass are what was defined. -/
structure IsDefined (m : Machine) (refs : Nat → Option Ref) (definition : Definition)
    (cls metaclass : Ref) : Prop where
  classOf : m.heap.classOf cls = .ok metaclass
  metaclassOf : m.heap.classOf metaclass = .ok (m.core.cls .metaclass)
  thisClass : m.heap.fetchField metaclass Class.instanceField = .ok cls
  top : definition.superclass = none → Class.superclass m.heap cls = .ok m.core.nil ∧
    Class.superclass m.heap metaclass = .ok (m.core.cls .theClass)
  inherits : ∀ i, definition.superclass = some i → ∃ superclass inherited,
    refs i = some superclass ∧ Class.superclass m.heap cls = .ok superclass ∧
      m.heap.classOf superclass = .ok inherited ∧
      Class.superclass m.heap metaclass = .ok inherited
  name : ∃ symbol, m.symbols.find? definition.name = some symbol ∧
    m.heap.fetchField cls Class.nameField = .ok symbol
  spec : Class.instanceSpec? m.heap cls = .ok (some definition.spec)
  rooted : m.IsRooted cls
  metaRooted : m.IsRooted metaclass

/-- Every way leads to the class that it should lead to, and the classes that are in memory are what
was defined. -/
structure Reflects (m : Machine) (d : Directory) (refs : Nat → Option Ref) : Prop where
  ways : ∀ way i, d.find? way = some i → ∃ cls, refs i = some cls ∧ way.ref m = .ok cls
  classes : ∀ i cls, refs i = some cls → ∃ definition metaclass,
    d.definitions[i]? = some definition ∧ m.IsDefined refs definition cls metaclass
  apart : ∀ i j cls, refs i = some cls → refs j = some cls → i = j

/-! ## The way up -/

namespace Climbs

variable {m : Machine} {r : Ref} {chain : List Ref}

/-- A search for an ancestor comes to an end. -/
theorem inheritsWithin (h : m.Climbs r chain) (hpointers : ∀ r ∈ chain, r.isPointer = true)
    (ancestor : Ref) {fuel : Nat} (hfuel : chain.length < fuel) :
    Class.inheritsWithin m.heap ancestor r fuel = .ok (decide (ancestor ∈ chain)) := by
  induction h generalizing fuel with
  | nil =>
    cases fuel with
    | zero => cases hfuel
    | succ fuel =>
      unfold Class.inheritsWithin Class.isLink
      simp
  | @cons r superclass chain hne hsuperclass _ ih =>
    cases fuel with
    | zero => cases hfuel
    | succ fuel =>
      have hlink : Class.isLink m.heap r = true := by
        unfold Class.isLink
        rw [hpointers r (List.mem_cons_self ..), Bool.true_and]
        exact bne_iff_ne.mpr hne
      unfold Class.inheritsWithin
      rw [if_pos hlink]
      by_cases heq : r = ancestor
      · rw [if_pos heq, heq]
        simp
      · rw [if_neg heq, hsuperclass]
        have hrest := ih (fun r hr => hpointers r (List.mem_cons_of_mem _ hr))
          (Nat.lt_of_succ_lt_succ hfuel)
        show Class.inheritsWithin m.heap ancestor superclass fuel = _
        rw [hrest]
        simp [Ne.symm heq]

end Climbs

/-- A chain of superclasses of a graph is one of the machine. -/
theorem Realizes.climbs {m : Machine} {g : Graph} {p : Placement} {starts : List Nat} {v : Value}
    {names : List Nat} (hm : m.Realizes g p starts) (hnil : g.nil = .object 0)
    (h : g.Ascends v names) {r : Ref} (hr : p.Shows r v) :
    ∃ chain, m.Climbs r chain ∧ List.Forall₂ (fun r n => p.Shows r (.object n)) chain names := by
  have hshown := hm.nil
  rw [hnil] at hshown
  induction h generalizing r with
  | nil =>
    obtain rfl := hr.ref_eq hshown
    exact ⟨[], .nil, .nil⟩
  | cons hn hv _ ih =>
    obtain ⟨s, hs, hshows⟩ := (Reads.field hr Class.superclassField).ok hm hv
    obtain ⟨chain, hchain, hall⟩ := ih hshows
    refine ⟨r :: chain, .cons ?_ hs hchain, .cons hr hall⟩
    rintro rfl
    cases hr.value_eq hshown
    exact hn rfl

namespace Realizes

variable {m : Machine} {g : Graph} {p : Placement} {starts : List Nat} {chain : List Ref}
  {names : List Nat}

/-- Every reference of a chain leads to an object. -/
theorem exists_place (hall : List.Forall₂ (fun r n => p.Shows r (.object n)) chain names) {r : Ref}
    (hr : r ∈ chain) : ∃ n i, p.find? n = some i ∧ r = .ofWordIndex i := by
  obtain ⟨k, hk, rfl⟩ := List.getElem_of_mem hr
  obtain ⟨i, hi, heq⟩ := (List.forall₂_iff_get.mp hall).2 k hk (hall.length_eq ▸ hk)
  exact ⟨_, i, hi, heq⟩

/-- No reference is met twice where no name is. -/
theorem nodup_refs (hall : List.Forall₂ (fun r n => p.Shows r (.object n)) chain names)
    (hnodup : names.Nodup) : chain.Nodup := by
  have hunique : Relator.BiUnique fun (r : Ref) (n : Nat) => p.Shows r (.object n) :=
    ⟨fun _ _ _ hr hr' => hr.ref_eq hr', fun _ _ _ hr hr' => Value.object.inj (hr.value_eq hr')⟩
  exact (List.rel_nodup hunique hall).mpr hnodup

/-- There are not more references than words. -/
theorem length_refs_le (hm : m.Realizes g p starts)
    (hall : List.Forall₂ (fun r n => p.Shows r (.object n)) chain names) (hnodup : chain.Nodup) :
    chain.length ≤ m.heap.memory.size := by
  have hplace : ∀ r ∈ chain, ∃ i, i < m.heap.memory.size ∧ r = .ofWordIndex i ∧ r.wordIndex = i := by
    intro r hr
    obtain ⟨n, i, hi, rfl⟩ := exists_place hall hr
    have hl := hm.depicts.laidOut
    exact ⟨i, Nat.lt_of_lt_of_le (hl.lt_top (hm.depicts.placed hi)) hl.committed, rfl,
      Placement.wordIndex_place hi⟩
  have hwords : (chain.map Ref.wordIndex).Nodup := by
    refine hnodup.map_on fun r hr r' hr' heq => ?_
    obtain ⟨i, -, hi, hword⟩ := hplace r hr
    obtain ⟨i', -, hi', hword'⟩ := hplace r' hr'
    rw [hi, hi', ← hword, ← hword', heq]
  have hsub : chain.map Ref.wordIndex ⊆ List.range m.heap.memory.size := by
    intro i hi
    obtain ⟨r, hr, rfl⟩ := List.mem_map.mp hi
    obtain ⟨i, hlt, -, hword⟩ := hplace r hr
    exact List.mem_range.mpr (hword ▸ hlt)
  have hle := (List.subperm_of_subset hwords hsub).length_le
  rwa [List.length_map, List.length_range] at hle

/-- The way up from a class comes to an end. -/
theorem isRooted (hm : m.Realizes g p starts) {w : Graph.World} (hw : w.Describes g) {v : Value}
    (hchain : g.Ascends v names) (hclasses : ∀ c ∈ names, c ∈ w.classes) {r : Ref}
    (hr : p.Shows r v) : m.IsRooted r := by
  obtain ⟨chain, hclimbs, hall⟩ := hm.climbs hw.nil_eq hchain hr
  have hnodup := nodup_refs hall hchain.nodup
  have hlength := hm.length_refs_le hall hnodup
  have hpointers : ∀ r ∈ chain, r.isPointer = true := by
    intro r hr
    obtain ⟨n, i, hi, rfl⟩ := exists_place hall hr
    exact Placement.isPointer_place hi
  refine ⟨⟨chain, hclimbs, hnodup, fun ancestor =>
    hclimbs.inheritsWithin hpointers ancestor (Nat.lt_succ_of_le hlength)⟩, ?_⟩
  intro name selector hselector
  have hnamed := hm.roots.symbols.named? name
  rw [hselector] at hnamed
  cases hsymbol : Graph.named? g.symbols name with
  | none =>
    rw [hsymbol] at hnamed
    cases hnamed
  | some s =>
    rw [hsymbol] at hnamed
    cases hnamed with
    | some hs =>
      obtain ⟨found, hfound⟩ := hw.lookupMethod?_total hchain hclasses 
        ((hw.settled.symbols (Graph.mem_of_named? hsymbol)).isSelector hw.settled.kernel)
      obtain ⟨a, ha, -⟩ := (Reads.lookupMethod? hr hs).ok hm hfound
      exact ⟨a, ha⟩

end Realizes

end Machine

/-! ## Definitions and worlds -/

namespace Graph

/-- The class that was defined at a position. -/
def World.seat? (w : World) (i : Nat) : Option Nat := (w.roster.reverse[i]?).map Entry.cls

/-- A class of a world is what was defined. -/
structure Tells (w : World) (definition : Definition) (e : Entry) : Prop where
  name : e.name = definition.name
  spec : e.spec = definition.spec
  fields : definition.spec.fields ≤ 65535
  superclass : Option.Rel (fun i s => w.seat? i = some s) definition.superclass e.superclass

/-- What is known of the classes is true of a graph. -/
structure Charts (d : Directory) (w : World) (g : Graph) : Prop where
  describes : w.Describes g
  definitions : List.Forall₂ (Tells w) d.definitions w.roster.reverse
  globals : ∀ {name i}, d.globals.lookup name = some i →
    ∃ c, w.seat? i = some c ∧ w.bindings.lookup name = some (.object c)
  pinned : List.Forall₂ (fun entry v => ∀ i ∈ entry, ∃ c, w.seat? i = some c ∧ v = .object c)
    d.pinned g.pinned
  kernel : ∀ k : KernelClass, w.seat? k.index = some (classNode k)

/-- What a command does to a graph. -/
structure Develops (d : Directory) (command : Command) (w : World) (g : Graph) (w' : World) (g' : Graph) : Prop where
  charts : Charts (d.after command) w' g'
  leads : w.Leads g w' (g'.withPinned g.pinned)
  roster : w.roster <:+ w'.roster
  log : ∀ k name, ¬ d.Adds k name command →
    (w'.log (classNode k)).lookup name = (w.log (classNode k)).lookup name
  found : (∀ c ∈ w.classes, w'.log c = w.log c) ∨ ∀ cls selector method, ¬ g'.memo cls selector method

variable {d : Directory} {w w' : World} {g g' : Graph} {i c : Nat} {e : Entry}

theorem World.exists_of_seat? (h : w.seat? i = some c) :
    ∃ e ∈ w.roster, w.roster.reverse[i]? = some e ∧ e.cls = c := by
  obtain ⟨e, he, rfl⟩ := Option.map_eq_some_iff.mp h
  exact ⟨e, List.mem_reverse.mp (List.mem_of_getElem? he), he, rfl⟩

theorem World.mem_of_seat? (h : w.seat? i = some c) : c ∈ w.classes := by
  obtain ⟨e, he, -, rfl⟩ := exists_of_seat? h
  exact mem_classesOf.mpr ⟨e, he, .inl rfl⟩

/-- Classes keep their positions. -/
theorem World.seat?_of_suffix (hroster : w.roster <:+ w'.roster) (h : w.seat? i = some c) :
    w'.seat? i = some c := by
  obtain ⟨e, he, rfl⟩ := Option.map_eq_some_iff.mp h
  obtain ⟨newer, hnewer⟩ := hroster
  unfold seat?
  rw [← hnewer, List.reverse_append, List.getElem?_append_left, he]
  · rfl
  · exact (List.getElem?_eq_some_iff.mp he).1

/-- No class has two positions. -/
theorem World.Describes.seat?_unique (hw : w.Describes g) {j : Nat} (hi : w.seat? i = some c)
    (hj : w.seat? j = some c) : i = j := by
  obtain ⟨e, he, hget, rfl⟩ := World.exists_of_seat? hi
  obtain ⟨e', he', hget', heq⟩ := World.exists_of_seat? hj
  obtain rfl := hw.entry_unique he he' (.inl rfl) (.inl heq.symm)
  have hnodup : w.roster.reverse.Nodup := by
    have hclasses := hw.nodup
    unfold World.classes classesOf at hclasses
    refine List.nodup_reverse.mpr ((List.nodup_flatMap.mp hclasses).2.imp fun {e e'} h heq => ?_)
    exact h (List.mem_cons_self ..) (heq ▸ List.mem_cons_self ..)
  exact (List.getElem?_inj (List.getElem?_eq_some_iff.mp hget).1 hnodup).mp (hget.trans hget'.symm)

/-- Classes that were defined stay where they were. -/
theorem Tells.of_suffix {definition : Definition} (h : Tells w definition e)
    (hroster : w.roster <:+ w'.roster) : Tells w' definition e where
  name := h.name
  spec := h.spec
  fields := h.fields
  superclass := by
    have hsuper := h.superclass
    generalize definition.superclass = known at hsuper
    generalize e.superclass = actual at hsuper
    cases hsuper with
    | none => exact .none
    | some hseat => exact .some (World.seat?_of_suffix hroster hseat)

namespace Charts

/-- A class that was defined. -/
theorem exists_entry (h : Charts d w g) (hi : w.seat? i = some c) : ∃ definition e,
    d.definitions[i]? = some definition ∧ e ∈ w.roster ∧ e.cls = c ∧ Tells w definition e := by
  obtain ⟨e, he, hget, rfl⟩ := World.exists_of_seat? hi
  have hrel := forall₂_getElem? h.definitions i
  rw [hget] at hrel
  cases hdefinition : d.definitions[i]? with
  | none =>
    rw [hdefinition] at hrel
    cases hrel
  | some definition =>
    rw [hdefinition] at hrel
    cases hrel with
    | some htells => exact ⟨definition, e, rfl, he, rfl, htells⟩

/-- The superclass of a class that was defined. -/
theorem superclass_field (h : Charts d w g) {definition : Definition}
    (hdefinition : d.definitions[i]? = some definition) (hi : w.seat? i = some c) {j s : Nat}
    (hsuper : definition.superclass = some j) (hj : w.seat? j = some s) :
    g.field (.object c) Class.superclassField = some (.object s) := by
  obtain ⟨definition', e, hdefinition', he, rfl, htells⟩ := h.exists_entry hi
  obtain rfl := Option.some.inj (hdefinition.symm.trans hdefinition')
  have hrel := htells.superclass
  rw [hsuper] at hrel
  cases hsuperclass : e.superclass with
  | none =>
    rw [hsuperclass] at hrel
    cases hrel
  | some s' =>
    rw [hsuperclass] at hrel
    cases hrel with
    | some hs' =>
      obtain rfl := Option.some.inj (hj.symm.trans hs')
      obtain ⟨older, -, hentry⟩ := h.describes.linked.isEntry he
      rw [h.describes.superclass_field (mem_classesOf.mpr ⟨e, he, .inl rfl⟩),
        hentry.cls.superclass, hsuperclass]
      rfl

/-- A superclass was defined, too. -/
theorem exists_superclass (h : Charts d w g) {definition : Definition}
    (hdefinition : d.definitions[i]? = some definition) {j : Nat}
    (hsuper : definition.superclass = some j) : ∃ s, w.seat? j = some s := by
  have hrel := forall₂_getElem? h.definitions i
  rw [hdefinition] at hrel
  cases he : w.roster.reverse[i]? with
  | none =>
    rw [he] at hrel
    cases hrel
  | some e =>
    rw [he] at hrel
    cases hrel with
    | some htells =>
      have hsuperclass := htells.superclass
      rw [hsuper] at hsuperclass
      cases hs : e.superclass with
      | none =>
        rw [hs] at hsuperclass
        cases hsuperclass
      | some s =>
        rw [hs] at hsuperclass
        cases hsuperclass with
        | some hseat => exact ⟨s, hseat⟩

variable {m : Machine} {p : Placement} {starts : List Nat}

/-- A way leads to the class that it should lead to. -/
theorem way (h : Charts d w g) (hm : m.Realizes g p starts) {way : Way} (hi : d.find? way = some i) :
    ∃ c r, w.seat? i = some c ∧ way.ref m = .ok r ∧ p.Shows r (.object c) := by
  induction way generalizing i with
  | kernel k =>
    obtain rfl := Option.some.inj hi
    refine ⟨_, _, h.kernel k, rfl, ?_⟩
    rw [← h.describes.settled.kernel.cls]
    exact hm.roots.core.cls k
  | global name =>
    obtain ⟨c, hseat, hbinding⟩ := h.globals hi
    obtain ⟨n, hnamed, hvalue⟩ := h.describes.bound hbinding
    have hglobal := hm.roots.globals.named? name
    rw [hnamed] at hglobal
    obtain ⟨-, -, -, hfields⟩ := h.describes.association (mem_of_named? hnamed)
    cases hassociation : m.globals.find? name with
    | none =>
      rw [hassociation] at hglobal
      cases hglobal
    | some association =>
      rw [hassociation] at hglobal
      cases hglobal with
      | some hr =>
        have hfield : g.field (.object n) Association.valueField = some (.object c) := by
          rw [field_of_lt (by rw [hfields]; decide), hvalue]
        obtain ⟨r, hread, hshows⟩ := (Reads.field hr Association.valueField).ok hm hfield
        refine ⟨c, r, hseat, ?_, hshows⟩
        unfold Way.ref Machine.global?
        rw [hassociation]
        simp only [hread]
        rfl
  | pinned position =>
    have hi : d.pinned[position]?.join = some i := hi
    have hknown := forall₂_getElem? h.pinned position
    have hshown := forall₂_getElem? hm.roots.pinned position
    cases hentry : d.pinned[position]? with
    | none =>
      rw [hentry] at hi
      cases hi
    | some entry =>
      rw [hentry] at hi hknown
      obtain rfl : entry = some i := hi
      cases hv : g.pinned[position]? with
      | none =>
        rw [hv] at hknown
        cases hknown
      | some v =>
        rw [hv] at hknown hshown
        cases hknown with
        | some hknown =>
          obtain ⟨c, hseat, rfl⟩ := hknown i rfl
          cases hr : m.pinned[position]? with
          | none =>
            rw [Array.getElem?_toList, hr] at hshown
            cases hshown
          | some r =>
            rw [Array.getElem?_toList, hr] at hshown
            cases hshown with
            | some hshows =>
              refine ⟨c, r, hseat, ?_, hshows⟩
              unfold Way.ref
              rw [hr]
  | superclass way ih =>
    obtain ⟨j, hj, hdefined⟩ := Option.bind_eq_some_iff.mp hi
    obtain ⟨definition, hdefinition, hsuper⟩ := Option.bind_eq_some_iff.mp hdefined
    obtain ⟨c, r, hseat, hread, hr⟩ := ih hj
    obtain ⟨s, hs⟩ := h.exists_superclass hdefinition hsuper
    obtain ⟨r', hr', hshows⟩ := (Reads.field hr Class.superclassField).ok hm
      (h.superclass_field hdefinition hseat hsuper hs)
    refine ⟨s, r', hs, ?_, hshows⟩
    unfold Way.ref
    rw [hread]
    exact hr'

/-! ### Steps -/

theorem length_definitions (h : Charts d w g) : d.definitions.length = w.roster.length := by
  rw [h.definitions.length_eq, List.length_reverse]

/-- No class is added. -/
theorem leads (h : Charts d w g) (hl : w.Leads g w' g') (hroster : w'.roster = w.roster)
    (hbindings : w'.bindings = w.bindings) : Charts d w' g' := by
  have hseat : w'.seat? = w.seat? := by
    unfold World.seat?
    rw [hroster]
  refine ⟨hl.describes, ?_, fun hi => ?_, ?_, fun k => ?_⟩
  · rw [hroster]
    exact h.definitions.imp fun _ _ ht => ht.of_suffix (hroster ▸ List.suffix_refl _)
  · rw [hseat, hbindings]
    exact h.globals hi
  · rw [hseat, hl.pinned]
    exact h.pinned
  · rw [hseat]
    exact h.kernel k

/-- The temporaries are other ones. -/
theorem withPinned (h : Charts d w g) {pinned : List (Option Nat)} {values : List Value}
    (hpinned : List.Forall₂ (fun entry v => ∀ i ∈ entry, ∃ c, w.seat? i = some c ∧ v = .object c)
      pinned values) : Charts { d with pinned } w (g.withPinned values) where
  describes := h.describes.withPinned values
  definitions := h.definitions
  globals := h.globals
  pinned := hpinned
  kernel := h.kernel

/-- A class is added. -/
theorem defined (h : Charts d w g) {name : String} {known : Option Nat} {superclass : Option Nat}
    {spec : InstanceSpec} {m : Nat} {shelf metaShelf : Nat × Nat}
    (hsuper : Option.Rel (fun i s => w.seat? i = some s) known superclass)
    (hfields : spec.fields ≤ 65535)
    (hl : w.Leads g ((w.enroll ⟨c, m, superclass, name, spec⟩ shelf metaShelf).bind name (.object c)) g') :
    Charts { d with
      definitions := d.definitions ++ [⟨name, known, spec⟩]
      globals := (name, d.definitions.length) :: d.globals }
      ((w.enroll ⟨c, m, superclass, name, spec⟩ shelf metaShelf).bind name (.object c)) g' := by
  have hsuffix : w.roster <:+
      ((w.enroll ⟨c, m, superclass, name, spec⟩ shelf metaShelf).bind name (.object c)).roster :=
    List.suffix_cons _ _
  have hlast : ((w.enroll ⟨c, m, superclass, name, spec⟩ shelf metaShelf).bind name (.object c)).seat?
      d.definitions.length = some c := by
    rw [h.length_definitions]
    show ((((⟨c, m, superclass, name, spec⟩ : Entry) :: w.roster).reverse)[w.roster.length]?).map _ = _
    rw [List.reverse_cons, ← List.length_reverse, List.getElem?_concat_length]
    rfl
  refine ⟨hl.describes, ?_, fun {name' i} hi => ?_, ?_, fun k => World.seat?_of_suffix hsuffix (h.kernel k)⟩
  · show List.Forall₂ _ _ ((⟨c, m, superclass, name, spec⟩ : Entry) :: w.roster).reverse
    rw [List.reverse_cons]
    refine List.rel_append (h.definitions.imp fun _ _ ht => ht.of_suffix hsuffix)
      (.cons ⟨rfl, rfl, hfields, ?_⟩ .nil)
    cases hsuper with
    | none => exact .none
    | some hseat => exact .some (World.seat?_of_suffix hsuffix hseat)
  · show ∃ c', _ ∧ List.lookup name' ((name, .object c) :: w.bindings) = some (.object c')
    by_cases hname : name' = name
    · subst hname
      rw [List.lookup_cons_self] at hi
      cases hi
      exact ⟨c, hlast, List.lookup_cons_self⟩
    · have hne : (name' == name) = false := beq_eq_false_iff_ne.mpr hname
      rw [List.lookup_cons, hne] at hi
      obtain ⟨c', hseat, hbinding⟩ := h.globals hi
      refine ⟨c', World.seat?_of_suffix hsuffix hseat, ?_⟩
      rw [List.lookup_cons, hne]
      exact hbinding
  · show List.Forall₂ _ d.pinned g'.pinned
    rw [hl.pinned]
    exact h.pinned.imp fun _ _ hknown i hi => by
      obtain ⟨c', hseat, hv⟩ := hknown i hi
      exact ⟨c', World.seat?_of_suffix hsuffix hseat, hv⟩

/-- No method is added. -/
theorem develops {command : Command} (h : Charts d w g) (hcharts : Charts (d.after command) w' g')
    (hleads : w.Leads g w' (g'.withPinned g.pinned)) (hroster : w.roster <:+ w'.roster)
    (hlog : ∀ c ∈ w.classes, w'.log c = w.log c) : Develops d command w g w' g' :=
  ⟨hcharts, hleads, hroster, fun k _ _ => by rw [hlog _ (World.mem_of_seat? (h.kernel k))], .inl hlog⟩

/-- A method is added to a class. -/
theorem develops_file {command : Command} {selector : String} {method : Value}
    (h : Charts d w g) (hafter : d.after command = d) (hleads : w.Leads g w' g')
    (hroster : w'.roster = w.roster) (hbindings : w'.bindings = w.bindings)
    (hlog : w'.log = Function.update w.log c ((selector, method) :: w.log c))
    (hadds : ∀ k, c = classNode k → d.Adds k selector command)
    (hforgotten : ∀ cls selector method, ¬ g'.memo cls selector method) : Develops d command w g w' g' where
  charts := by
    rw [hafter]
    exact h.leads hleads hroster hbindings
  leads := hleads.withPinned g.pinned
  roster := hroster ▸ List.suffix_rfl
  log k name hnot := by
    rw [hlog, Function.update_apply]
    split
    · rename_i heq
      have hne : name ≠ selector := fun hname => hnot (hname ▸ hadds k heq.symm)
      rw [List.lookup_cons, beq_eq_false_iff_ne.mpr hne, heq]
    · rfl
  found := .inr hforgotten

end Charts

end Graph

/-! ## Programs -/

namespace Spec

/-- Pins a method unless its code was refused. -/
def keepBuilt : Except Failure Value → Spec Unit
  | .ok method => pin method
  | .error _ => return

theorem Modest.keepBuilt : ∀ built, (Spec.keepBuilt built).Modest
  | .ok method => .pin method
  | .error _ => .pure ()

end Spec

theorem Simulates.keepBuilt {p : Placement} {a : Except Failure Ref} {b : Except Failure Value}
    (hab : Depicted.shows p a b) : Simulates p p.Steady (Machine.keepBuilt a) (Spec.keepBuilt b) := by
  cases hab with
  | ok hr => exact (pin hr).steady
  | error failure => exact pure trivial (Placement.Steady.refl p)

/-- What is read from the machine, and nothing is wrong there. -/
theorem Action.inspect_of_ok {α : Type} {f : Machine → Except Fatal α} {m : Machine} {a : α}
    (hf : f m = .ok a) : Action.inspect f m = .ok a m := by
  unfold Action.inspect
  rw [hf]

/-- A holder of methods is a class or a metaclass. -/
theorem Graph.Charts.holder {d : Directory} {w : Graph.World} {g : Graph} {m : Machine} {p : Placement}
    {starts : List Nat} (h : Graph.Charts d w g) (hm : m.Realizes g p starts) {holder : Holder}
    (hholder : (d.find? holder.way).isSome = true) :
    ∃ c r, c ∈ w.classes ∧ holder.ref m = .ok r ∧ p.Shows r (.object c) ∧
      ∀ k, c = Graph.classNode k → d.IsKernel k holder := by
  obtain ⟨i, hi⟩ := Option.isSome_iff_exists.mp hholder
  obtain ⟨c, r, hseat, href, hr⟩ := h.way hm hi
  cases holder with
  | cls way =>
    refine ⟨c, r, Graph.World.mem_of_seat? hseat, href, hr, fun k hk => ?_⟩
    show d.find? way = some k.index.val
    rw [← h.describes.seat?_unique (hk ▸ hseat) (h.kernel k)]
    exact hi
  | metaclass way =>
    obtain ⟨e, he, -, rfl⟩ := Graph.World.exists_of_seat? hseat
    obtain ⟨older, -, hentry⟩ := h.describes.linked.isEntry he
    obtain ⟨r', hr', hshows⟩ := (Reads.classWord hr).ok hm
      (congrArg some hentry.cls.cls : g.classWord (.object e.cls) = some (.object e.metaclass))
    refine ⟨e.metaclass, r', Graph.mem_classesOf.mpr ⟨e, he, .inr rfl⟩, ?_, hshows, fun k hk => ?_⟩
    · have href : way.ref m = .ok r := href
      show (way.ref m >>= fun r => m.heap.classOf r) = .ok r'
      rw [href]
      exact hr'
    · have hlt := Graph.classNode_lt k
      have hle := h.describes.metaclasses e he
      omega

namespace Machine

variable {m : Machine} {d : Directory} {command : Command}

/-- A machine is a graph of which what is known of the classes is true. -/
def Charted (m : Machine) (d : Directory) : Prop :=
  ∃ g p starts w, m.Realizes g p starts ∧ Graph.Charts d w g

/-- What an action does to a graph is what a command does to it. -/
theorem of_ends {β : Type} [Depicted Unit β] {g : Graph} {p : Placement} {starts : List Nat} {w : Graph.World}
    {x : Action Unit} {y : Spec β} {S : Fatal → Prop} (hx : Simulates p p.Steady x y) (hmodest : y.Modest)
    (hm : m.Realizes g p starts)
    (hy : y.Ends g (fun _ g' => ∃ w', Graph.Develops d command w g w' g') (fun _ _ => False) S) :
    (x m).Concludes (fun _ m' => ∃ w' g' p' starts', m'.Realizes g' p' starts' ∧
      Graph.Develops d command w g w' g' ∧ g.LessStock g') (fun _ _ => False) S := by
  refine (hx.concludes hm (Spec.Finishes.of_modest hy hmodest).1).mono ?_ ?_
  · rintro - m' ⟨-, g', p', starts', ⟨⟨w', hdevelops⟩, hless⟩, -, -, hm'⟩
    exact ⟨w', g', p', starts', hm', hdevelops, hless⟩
  · rintro failure m' ⟨g', p', starts', ⟨hfalse, -⟩, -⟩
    exact hfalse

/-- A command does to a graph what it says. -/
theorem run_develops {g : Graph} {p : Placement} {starts : List Nat} {w : Graph.World}
    (hm : m.Realizes g p starts) (hcharts : Graph.Charts d w g) (hadmits : d.admits command = true) :
    (command.run m).Concludes (fun _ m' => ∃ w' g' p' starts', m'.Realizes g' p' starts' ∧
      Graph.Develops d command w g w' g' ∧ g.LessStock g') (fun _ _ => False)
      (fun cause => cause = .fault .overflow ∨ command.Stops cause) := by
  have hdescribes := hcharts.describes
  have hrefl := Graph.World.Leads.refl hdescribes
  cases command with
  | define name superclass spec =>
    have hfields : spec.fields ≤ 65535 := by
      simp only [Directory.admits, Bool.and_eq_true, decide_eq_true_eq] at hadmits
      exact hadmits.2
    have hdefine : ∀ {r : Ref} {s : Option Nat}, p.Shows r (Graph.superclassValue s) →
        Option.Rel (fun i s => w.seat? i = some s) (superclass.bind d.find?) s →
        ((Machine.defineClass name r spec >>= fun _ => Pure.pure ()) m).Concludes
          (fun _ m' => ∃ w' g' p' starts', m'.Realizes g' p' starts' ∧
            Graph.Develops d (.define name superclass spec) w g w' g' ∧ g.LessStock g')
          (fun _ _ => False) fun cause => cause = .fault .overflow ∨ False := by
      intro r s hr hrel
      refine of_ends (y := Spec.defineClass name (Graph.superclassValue s) spec >>= fun _ => Pure.pure ())
        ((Simulates.defineClass name hr spec).bind_steady fun p' _ _ _ _ =>
          Simulates.pure trivial (Placement.Steady.refl p'))
        ((Spec.Modest.defineClass ..).bind fun _ => .pure ()) hm ?_
      have hknown : ∀ c ∈ s, ∃ e ∈ w.roster, e.cls = c := by
        intro c hc
        generalize superclass.bind d.find? = known at hrel
        cases hrel with
        | none => cases hc
        | some hseat =>
          cases hc
          obtain ⟨e, he, -, heq⟩ := Graph.World.exists_of_seat? hseat
          exact ⟨e, he, heq⟩
      refine Spec.Ends.bind (Spec.Ends.defineClass hdescribes (.inl rfl) hknown spec) ?_
      rintro - g' ⟨c, metaclass, shelf, metaShelf, -, hleads⟩
      refine Spec.Ends.pure ⟨_, hcharts.develops (hcharts.defined hrel hfields hleads)
        (hleads.withPinned g.pinned) (List.suffix_cons ..) fun c' hc' => ?_⟩
      have hnodup : (c :: metaclass :: w.classes).Nodup := hleads.describes.nodup
      obtain ⟨hnot, hmetaNot, -⟩ := by simpa only [List.nodup_cons, List.mem_cons, not_or] using hnodup
      have hne : c' ≠ metaclass := fun heq => hmetaNot (heq ▸ hc')
      have hne' : c' ≠ c := fun heq => hnot.2 (heq ▸ hc')
      show Function.update (Function.update w.log c []) metaclass [] c' = w.log c'
      rw [Function.update_of_ne hne, Function.update_of_ne hne']
    cases superclass with
    | none =>
      refine @hdefine _ none ?_ .none
      have hnil := hm.roots.core.nil
      rwa [hdescribes.settled.kernel.coreNil] at hnil
    | some way =>
      simp only [Directory.admits, Option.all_some, Bool.and_eq_true] at hadmits
      obtain ⟨i, hi⟩ := Option.isSome_iff_exists.mp hadmits.1
      obtain ⟨c, r, hseat, href, hr⟩ := hcharts.way hm hi
      show Outcome.Concludes ((Action.inspect way.ref >>= fun r => _) m) _ _ _
      rw [Action.bind_of_ok (Action.inspect_of_ok href)]
      refine hdefine (s := some c) hr ?_
      show Option.Rel _ (d.find? way) _
      rw [hi]
      exact .some hseat
  | install holder code selector =>
    obtain ⟨c, r, hc, href, hr, hkernel⟩ := hcharts.holder hm hadmits
    show Outcome.Concludes ((Action.inspect holder.ref >>= fun r => _) m) _ _ _
    rw [Action.bind_of_ok (Action.inspect_of_ok href)]
    refine of_ends (y := Spec.attempt (Spec.install code (.object c) selector) >>= fun _ => Pure.pure ())
      (((Simulates.install code hr selector).attempt).bind_steady fun p' _ _ _ _ =>
        Simulates.pure trivial (Placement.Steady.refl p'))
      ((Spec.Modest.install ..).attempt.bind fun _ => .pure ()) hm ?_
    have hinstall := (Spec.Ends.install hdescribes hc (S := fun cause => cause = .fault .overflow ∨ _) (.inl rfl) code
      (fun _ hfatal => .inr hfatal) selector).forgets (Spec.Forgets.install code (.object c) selector)
    refine Spec.Ends.bind (Spec.Ends.attempt hinstall) fun answer g' hanswer => Spec.Ends.pure ?_
    cases answer with
    | ok _ =>
      obtain ⟨⟨w', hinstalled⟩, hforgotten⟩ := hanswer
      obtain ⟨draft, v, -, -, hlog⟩ := hinstalled.method
      exact ⟨w', hcharts.develops_file rfl hinstalled.leads hinstalled.roster hinstalled.bindings hlog
        (fun k hk => ⟨hkernel k hk, rfl⟩) hforgotten⟩
    | error failure =>
      obtain ⟨rfl, -⟩ := hanswer
      exact ⟨w, hcharts.develops hcharts hrefl List.suffix_rfl fun _ _ => rfl⟩
  | compile holder code =>
    obtain ⟨c, r, hc, href, hr, -⟩ := hcharts.holder hm hadmits
    show Outcome.Concludes ((Action.inspect holder.ref >>= fun r => _) m) _ _ _
    rw [Action.bind_of_ok (Action.inspect_of_ok href)]
    refine of_ends (y := Spec.attempt (Spec.build code (.object c)) >>= Spec.keepBuilt)
      (((Simulates.build code hr).attempt).bind_steady fun p' _ _ _ hab => Simulates.keepBuilt hab)
      ((Spec.Modest.build ..).attempt.bind Spec.Modest.keepBuilt) hm ?_
    refine Spec.Ends.bind (Spec.Ends.attempt (Spec.Ends.build hdescribes (.inl rfl) code
      (fun _ hfatal => .inr hfatal) (.object c))) fun answer g' hanswer => ?_
    cases answer with
    | ok v =>
      obtain ⟨draft, hdraft, hleads, -⟩ := hanswer
      have hafter : d.after (.compile holder code) = { d with pinned := d.pinned ++ [none] } := by
        simp only [Directory.after, hdraft]
      have hlater := hcharts.leads hleads rfl rfl
      refine Spec.Ends.modify_last ⟨w, hcharts.develops ?_ (hleads.withPinned g.pinned) List.suffix_rfl fun _ _ => rfl⟩
      rw [hafter]
      exact hlater.withPinned (List.rel_append hlater.pinned (.cons (fun i hi => by cases hi) .nil))
    | error failure =>
      obtain ⟨rfl, cause, hcause⟩ := hanswer
      have hafter : d.after (.compile holder code) = d := by
        simp only [Directory.after, hcause]
      refine Spec.Ends.pure ⟨w, hcharts.develops ?_ hrefl List.suffix_rfl fun _ _ => rfl⟩
      rw [hafter]
      exact hcharts
  | add holder selector position =>
    simp only [Directory.admits, Bool.and_eq_true, decide_eq_true_eq] at hadmits
    obtain ⟨c, r, hc, href, hr, hkernel⟩ := hcharts.holder hm hadmits.1
    show Outcome.Concludes ((Action.inspect holder.ref >>= fun r => _) m) _ _ _
    rw [Action.bind_of_ok (Action.inspect_of_ok href)]
    refine of_ends (y := Spec.pinnedAt position >>= Spec.installMethod (.object c) selector)
      ((Simulates.pinnedAt position).bind_still fun s v hs => Simulates.installMethod hr selector hs)
      ((Spec.Modest.read _).bind fun _ => .installMethod ..) hm ?_
    have hlt : position < g.pinned.length := hcharts.pinned.length_eq ▸ hadmits.2
    refine Spec.Ends.pinnedAt (List.getElem?_eq_getElem hlt) ?_
    refine ((Spec.Ends.installMethod hdescribes hc (.inl rfl) selector _).forgets
      (Spec.Forgets.installMethod _ selector _)).mono ?_ (fun _ _ h => h) fun _ h => h
    rintro - g' ⟨⟨dictionary, array, hleads⟩, hforgotten⟩
    exact ⟨_, hcharts.develops_file rfl hleads rfl rfl rfl (fun k hk => ⟨hkernel k hk, rfl⟩) hforgotten⟩
  | hold way =>
    obtain ⟨i, hi⟩ := Option.isSome_iff_exists.mp hadmits
    obtain ⟨c, r, hseat, href, hr⟩ := hcharts.way hm hi
    show Outcome.Concludes ((Action.inspect way.ref >>= fun r => _) m) _ _ _
    rw [Action.bind_of_ok (Action.inspect_of_ok href)]
    refine of_ends (Simulates.pin hr).steady (.pin _) hm (Spec.Ends.modify_last
      ⟨w, hcharts.develops ?_ hrefl List.suffix_rfl fun _ _ => rfl⟩)
    show Graph.Charts { d with pinned := d.pinned ++ [d.find? way] } w _
    rw [hi]
    refine hcharts.withPinned (List.rel_append hcharts.pinned (.cons (fun j hj => ?_) .nil))
    cases hj
    exact ⟨c, hseat, rfl⟩
  | release =>
    refine of_ends (y := Spec.unpin >>= fun _ => Pure.pure ())
      ((Simulates.unpin.steady).bind_steady fun p' _ _ _ _ =>
        Simulates.pure trivial (Placement.Steady.refl p')) (Spec.Modest.unpin.bind fun _ => .pure ()) hm ?_
    have hne : g.pinned ≠ [] := by
      intro hnil
      have hlength := hcharts.pinned.length_eq
      rw [hnil, List.length_nil, List.length_eq_zero_iff] at hlength
      simp [Directory.admits, hlength] at hadmits
    refine Spec.Ends.unpin (List.dropLast_append_getLast hne).symm (Spec.Ends.pure
      ⟨w, hcharts.develops ?_ hrefl List.suffix_rfl fun _ _ => rfl⟩)
    show Graph.Charts { d with pinned := d.pinned.dropLast } w _
    rw [List.dropLast_eq_take, List.dropLast_eq_take, hcharts.pinned.length_eq]
    exact hcharts.withPinned (List.forall₂_take _ hcharts.pinned)
  | collect =>
    refine of_ends (y := Spec.collectGarbage >>= fun _ => Pure.pure ())
      (Simulates.collectGarbage.bind_steady fun p' _ _ _ _ =>
        Simulates.pure trivial (Placement.Steady.refl p')) (Spec.Modest.collectGarbage.bind fun _ => .pure ()) hm ?_
    refine Spec.Ends.bind (Spec.Ends.collectGarbage hdescribes.settled.idle
      hdescribes.settled.kernel.rooted) ?_
    rintro _ _ rfl
    have hleads := hrefl.withPool ⟨[], []⟩
    exact Spec.Ends.pure ⟨w, hcharts.develops (hcharts.leads hleads rfl rfl) hleads List.suffix_rfl fun _ _ => rfl⟩

/-- A command does to the classes what it says. -/
theorem Charted.run (h : m.Charted d) (hadmits : d.admits command = true) :
    (command.run m).Concludes (fun _ m' => m'.Charted (d.after command)) (fun _ _ => False)
      (fun cause => cause = .fault .overflow ∨ command.Stops cause) := by
  obtain ⟨g, p, starts, w, hm, hcharts⟩ := h
  refine (run_develops hm hcharts hadmits).mono ?_ fun _ _ hfalse => hfalse
  rintro - m' ⟨w', g', p', starts', hm', hdevelops, -⟩
  exact ⟨g', p', starts', w', hm', hdevelops.charts⟩

end Machine

/-- More causes may be known. -/
theorem Outcome.Concludes.weaken {α : Type} {x : Outcome α} {Q : α → Machine → Prop}
    {E : Failure → Machine → Prop} {S S' : Fatal → Prop} (hx : x.Concludes Q E S)
    (hS : ∀ cause, S cause → S' cause) : x.Concludes Q E S' := by
  cases x with
  | ok a m => exact hx
  | failed failure m => exact hx
  | stopped cause => exact hx.imp_right (hS cause)
  | unfinished => trivial

theorem KernelClass.fields_le (k : KernelClass) : k.spec.fields ≤ 65535 := by
  cases k <;> decide

namespace Graph

variable {w : World} {g : Graph}

/-- Names that are looked up among those of a list. -/
theorem lookup_map {α β : Type} (name : α → String) (f : α → β) (xs : List α) (x : String) :
    (xs.map fun a => (name a, f a)).lookup x = (xs.find? fun a => x == name a).map f := by
  induction xs with
  | nil => rfl
  | cons a xs ih =>
    rw [List.map_cons, List.lookup_cons, List.find?_cons, ih]
    cases x == name a <;> rfl

/-- A fresh machine has the kernel classes. -/
theorem Equipped.charts {methods : List KernelMethod} (h : Equipped w g methods) :
    Charts Directory.kernel w g := by
  have hroster : List.Forall₂ IsKernelEntry KernelClass.all w.roster.reverse := by
    have hreverse := List.rel_reverse h.roster
    rwa [List.reverse_reverse] at hreverse
  have hseat : ∀ k : KernelClass, w.seat? k.index = some (classNode k) := by
    intro k
    have hrel := forall₂_getElem? hroster k.index
    rw [KernelClass.getElem_all] at hrel
    unfold World.seat?
    cases he : w.roster.reverse[k.index.val]? with
    | none =>
      rw [he] at hrel
      cases hrel
    | some e =>
      rw [he] at hrel
      cases hrel with
      | some hentry => exact congrArg some hentry.cls
  refine ⟨h.describes, ?_, fun {name i} hi => ?_, ?_, hseat⟩
  · refine List.forall₂_map_left_iff.mpr (hroster.imp fun k e hentry => ⟨hentry.name, hentry.spec, ?_, ?_⟩)
    · exact KernelClass.fields_le k
    · rw [hentry.superclass]
      show Option.Rel _ (k.superclass?.map _) _
      cases k.superclass? with
      | none => exact .none
      | some s => exact .some (hseat s)
  · unfold Directory.kernel at hi
    rw [lookup_map] at hi
    obtain ⟨k, hk, rfl⟩ := Option.map_eq_some_iff.mp hi
    refine ⟨_, hseat k, ?_⟩
    rw [h.bindings, lookup_map, hk]
    rfl
  · rw [h.pinned]
    exact .nil

/-- A class that is in memory is what was defined. -/
theorem Charts.isDefined {d : Directory} {m : Machine} {p : Placement} {starts : List Nat}
    (h : Charts d w g) (hm : m.Realizes g p starts) {refs : Nat → Option Ref}
    (hrefs : ∀ {i cls}, refs i = some cls ↔ ∃ c, w.seat? i = some c ∧ p.Shows cls (.object c))
    {e : Entry} (he : e ∈ w.roster) {definition : Definition}
    (htells : Tells w definition e) {cls metaclass : Ref} (hcls : p.Shows cls (.object e.cls))
    (hmetaclass : p.Shows metaclass (.object e.metaclass)) (hclassOf : m.heap.classOf cls = .ok metaclass) :
    m.IsDefined refs definition cls metaclass := by
  have hw := h.describes
  obtain ⟨older, hsuffix, hentry⟩ := hw.linked.isEntry he
  obtain ⟨top, htop, -, htopCls⟩ := World.exists_of_seat? (h.kernel .theClass)
  have hclsField : ∀ {index v}, index < Class.fieldCount → (g.nodes e.cls).field index = v →
      ∃ r, m.heap.fetchField cls index = .ok r ∧ p.Shows r v := by
    intro index v hlt hv
    refine (Reads.field hcls index).ok hm ?_
    rw [field_of_lt (hentry.cls.fields ▸ hlt), hv]
  obtain ⟨inherited, hinherits, hlinked⟩ := hentry.metaclass
  have hmetaField : ∀ {index v}, index < Class.fieldCount → (g.nodes e.metaclass).field index = v →
      ∃ r, m.heap.fetchField metaclass index = .ok r ∧ p.Shows r v := by
    intro index v hlt hv
    refine (Reads.field hmetaclass index).ok hm ?_
    rw [field_of_lt (hlinked.fields ▸ hlt), hv]
  obtain ⟨superclass, hsuperclass, hsuperShows⟩ := hclsField (by decide) hentry.cls.superclass
  obtain ⟨metaSuper, hmetaSuper, hmetaSuperShows⟩ := hmetaField (by decide) hlinked.superclass
  obtain ⟨this, hthis, hthisShows⟩ := hmetaField (by decide) hentry.sole
  obtain ⟨name, hname, hnameShows⟩ := @hclsField Class.nameField _ (by decide) rfl
  obtain ⟨spec, hspec, hspecShows⟩ := hclsField (by decide) hentry.spec
  obtain ⟨kind, hkind, hkindShows⟩ := (Reads.classWord hmetaclass).ok hm
    (congrArg some hlinked.cls : g.classWord (.object e.metaclass) = _)
  obtain ⟨chain, hchain, hclasses⟩ := hw.ascends_cls he
  obtain ⟨metaChain, hmetaChain, hmetaClasses⟩ := hw.ascends_metaclass he htop htopCls
  have hcore : ∀ k, p.Shows (m.core.cls k) (.object (classNode k)) := fun k =>
    hw.settled.kernel.cls k ▸ hm.roots.core.cls k
  have hsuper := htells.superclass
  refine
    { classOf := hclassOf
      metaclassOf := hkind.trans (congrArg _ (hkindShows.ref_eq (hcore .metaclass)))
      thisClass := hthis.trans (congrArg _ (hthisShows.ref_eq hcls))
      top := fun htop => ?top
      inherits := fun i hi => ?inherits
      name := ?name
      spec := ?spec
      rooted := hm.isRooted hw hchain hclasses hcls
      metaRooted := hm.isRooted hw hmetaChain hmetaClasses hmetaclass }
  case top =>
    rw [htop] at hsuper
    cases hs : e.superclass with
    | some s =>
      rw [hs] at hsuper
      cases hsuper
    | none =>
      have hnil := hm.roots.core.nil
      rw [hw.settled.kernel.coreNil] at hnil
      rw [hs] at hsuperShows
      unfold Entry.Inherits at hinherits
      rw [hs] at hinherits
      obtain rfl : inherited = _ := hinherits
      exact ⟨hsuperclass.trans (congrArg _ (hsuperShows.ref_eq hnil)),
        hmetaSuper.trans (congrArg _ (hmetaSuperShows.ref_eq (hcore .theClass)))⟩
  case inherits =>
    rw [hi] at hsuper
    cases hs : e.superclass with
    | none =>
      rw [hs] at hsuper
      cases hsuper
    | some s =>
      rw [hs] at hsuper hsuperShows
      cases hsuper with
      | some hseat =>
        unfold Entry.Inherits at hinherits
        rw [hs] at hinherits
        obtain ⟨e', he', rfl, rfl⟩ : ∃ e' ∈ older, e'.cls = s ∧ e'.metaclass = inherited := hinherits
        obtain ⟨older', -, hentry'⟩ := (hw.linked.of_suffix ((List.suffix_cons e older).trans hsuffix)).isEntry he'
        obtain ⟨r, hr, hshows⟩ := (Reads.classWord hsuperShows).ok hm
          (congrArg some hentry'.cls.cls : g.classWord (.object e'.cls) = _)
        exact ⟨superclass, metaSuper, hrefs.mpr ⟨_, hseat, hsuperShows⟩, hsuperclass,
          hr.trans (congrArg _ (hshows.ref_eq hmetaSuperShows)), hmetaSuper⟩
  case name =>
    have hnamed := hm.roots.symbols.named? e.name
    have hsymbol : named? g.symbols e.name = _ := hentry.name
    rw [hsymbol] at hnamed
    rw [← htells.name]
    cases hfound : m.symbols.find? e.name with
    | none =>
      rw [hfound] at hnamed
      cases hnamed
    | some symbol =>
      rw [hfound] at hnamed
      cases hnamed with
      | some hr => exact ⟨symbol, rfl, hname.trans (congrArg _ (hnameShows.ref_eq hr))⟩
  case spec =>
    obtain ⟨rfl, -⟩ : spec = e.spec.toRef ∧ _ := hspecShows
    unfold Class.instanceSpec?
    rw [hspec, htells.spec]
    exact congrArg Except.ok (InstanceSpec.ofRef?_toRef htells.fields)

end Graph

namespace Machine

variable {m : Machine} {d : Directory}

theorem IsBooted.follows (h : m.IsBooted) : m.Charted Directory.kernel := by
  obtain ⟨g, p, starts, w, hm, hbooted⟩ := h
  exact ⟨g, p, starts, w, hm, hbooted.charts⟩

/-- What a program does to the classes is what its commands say. -/
theorem Charted.runAll (commands : List Command) (h : m.Charted d)
    (hadmits : d.admitsAll commands = true) :
    (Command.runAll commands m).Concludes (fun _ m' => m'.Charted (d.afterAll commands))
      (fun _ _ => False)
      fun cause => cause = .fault .overflow ∨ ∃ command ∈ commands, command.Stops cause := by
  induction commands generalizing m d with
  | nil => exact h
  | cons command rest ih =>
    simp only [Directory.admitsAll, Bool.and_eq_true] at hadmits
    refine Outcome.Concludes.bind (Q := fun _ m' => m'.Charted (d.after command)) ?_ fun _ m' hm' => ?_
    · exact Outcome.Concludes.weaken (h.run hadmits.1) fun _ => Or.imp_right fun hstops => ⟨command, List.mem_cons_self .., hstops⟩
    · exact Outcome.Concludes.weaken (ih hm' hadmits.2) fun _ => Or.imp_right fun ⟨c, hc, hstops⟩ => ⟨c, List.mem_cons_of_mem _ hc, hstops⟩

/-- The classes that are in memory. -/
theorem Charted.reflects (h : m.Charted d) : ∃ refs, m.Reflects d refs := by
  obtain ⟨g, p, starts, w, hm, hcharts⟩ := h
  have hw := hcharts.describes
  obtain ⟨top, htop, -, htopCls⟩ := Graph.World.exists_of_seat? (hcharts.kernel .theClass)
  let refs : Nat → Option Ref := fun i => w.seat? i >>= fun c => (p.find? c).map .ofWordIndex
  have hrefs : ∀ {i cls}, refs i = some cls ↔ ∃ c, w.seat? i = some c ∧ p.Shows cls (.object c) := by
    intro i cls
    show (w.seat? i >>= fun c => (p.find? c).map .ofWordIndex) = some cls ↔ _
    simp only [Option.bind_eq_bind, Option.bind_eq_some_iff, Option.map_eq_some_iff]
    constructor
    · rintro ⟨c, hseat, index, hplace, rfl⟩
      exact ⟨c, hseat, index, hplace, rfl⟩
    · rintro ⟨c, hseat, index, hplace, rfl⟩
      exact ⟨c, hseat, index, hplace, rfl⟩
  refine ⟨refs, fun way i hi => ?_, fun i cls hi => ?_, fun i j cls hi hj => ?_⟩
  · obtain ⟨c, r, hseat, href, hr⟩ := hcharts.way hm hi
    exact ⟨r, hrefs.mpr ⟨c, hseat, hr⟩, href⟩
  · obtain ⟨c, hseat, hr⟩ := hrefs.mp hi
    obtain ⟨definition, e, hdefinition, he, rfl, htells⟩ := hcharts.exists_entry hseat
    obtain ⟨older, -, hentry⟩ := hw.linked.isEntry he
    obtain ⟨metaclass, hmeta, hmetaShows⟩ := (Reads.classWord hr).ok hm
      (congrArg some hentry.cls.cls : g.classWord (.object e.cls) = some (.object e.metaclass))
    exact ⟨definition, metaclass, hdefinition, hcharts.isDefined hm hrefs he htells hr hmetaShows hmeta⟩
  · obtain ⟨c, hseat, hr⟩ := hrefs.mp hi
    obtain ⟨c', hseat', hr'⟩ := hrefs.mp hj
    obtain rfl := Value.object.inj (hr.value_eq hr')
    exact hw.seat?_unique hseat hseat'

/-- Classes and metaclasses are what a program defined, whatever else it does: it can be stopped only
for want of memory, or by code that stops the assembler. -/
theorem develop_reflects {config : MachineConfig} (hok : ofConfig config = .ok m)
    (hbytes : config.heap.maxBytes < countLimit) {commands : List Command}
    (hadmits : Directory.kernel.admitsAll commands = true) :
    (develop commands m).Concludes
      (fun _ m' => ∃ refs, m'.Reflects (Directory.kernel.afterAll commands) refs) (fun _ _ => False)
      fun cause => cause = .fault .overflow ∨ ∃ command ∈ commands, command.Stops cause := by
  refine Outcome.Concludes.bind (Q := fun _ m' => m'.IsBooted)
    (Outcome.Concludes.weaken (bootstrap_concludes hok hbytes) fun _ => .inl) fun _ m₁ hbooted => ?_
  exact (hbooted.follows.runAll commands hadmits).mono (fun _ _ h => h.reflects) fun _ _ h => h

/-- A class with a subclass of the same name, and collections in between. -/
def twoShapes : List Command :=
  [.define "Shape" (some (.kernel .object)) ⟨.plain, 2⟩, .collect,
    .define "Shape" (some (.global "Shape")) ⟨.plain, 3⟩, .collect,
    .define "Apart" none ⟨.byteArray, 0⟩]

theorem twoShapes_reflects : ∃ m, ofConfig {} = .ok m ∧
    ({} : HeapConfig).maxBytes < countLimit ∧ Directory.kernel.admitsAll twoShapes = true ∧
    (develop twoShapes m).Concludes
      (fun _ m' => ∃ refs, m'.Reflects (Directory.kernel.afterAll twoShapes) refs) (fun _ _ => False)
      fun cause => cause = .fault .overflow ∨ ∃ command ∈ twoShapes, command.Stops cause := by
  obtain ⟨m, hok⟩ : ∃ m, ofConfig {} = .ok m := ⟨_, rfl⟩
  exact ⟨m, hok, by decide, by decide +kernel, develop_reflects hok (by decide) (by decide +kernel)⟩

end Machine

end ObjectMachine
