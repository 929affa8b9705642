import ObjectMachine.Kernel.Bootstrap
import ObjectMachine.Proofs.Machine.Coherence
import ObjectMachine.Proofs.Machine.Shortcuts

/-!
# Special sends

The kernel methods do by their primitives what the shortcuts of the special sends do. While they are
in place a special send and the send of its selector come to the same: the latter only notes down
something about itself, the selector, the number of arguments, the class and the method, and what it
looked up is in the cache.

This holds of the receivers that the shortcut was made for. There are no kernel methods for the
greater and the lesser of two numbers, so that these messages are understood by way of their opcodes
only; and identity, the class and the tests for nil are answered also for objects whose classes do not
inherit the methods of `Object` that answer so.

## Main results

* `Machine.KeepsKernel.lookup`: a class answers a kernel selector with the nearest kernel method.
* `Machine.sendSpecial_agrees`: a special send agrees with the send of its selector wherever the
  shortcut stands for the kernel method that the receiver inherits.
-/

namespace ObjectMachine

/-! ## The kernel methods in place -/

namespace Class

/-- The first of some classes among a class and its superclasses, of which at most `fuel` are looked
at. -/
def nearestWithin (h : Heap) (classes : List Ref) (cls : Ref) : Nat → Except Fatal (Option Ref)
  | 0 => .error (.fault .endless)
  | fuel + 1 =>
    if isLink h cls then
      if cls ∈ classes then .ok (some cls)
      else do nearestWithin h classes (← superclass h cls) fuel
    else .ok none

/-- The first of some classes among a class and its superclasses. -/
def nearest? (h : Heap) (classes : List Ref) (cls : Ref) : Except Fatal (Option Ref) :=
  nearestWithin h classes cls (h.memory.size + 1)

/-- A class is another one or inherits from it. -/
inductive Above (h : Heap) : Ref → Ref → Prop
  | refl (cls : Ref) : Above h cls cls
  | step {cls parent above : Ref} : superclass h cls = .ok parent → Above h parent above →
      Above h cls above

variable {h : Heap} {classes : List Ref} {cls owner selector method : Ref} {fuel fuel' : Nat}

theorem nearestWithin_mono {found : Option Ref} (hok : nearestWithin h classes cls fuel = .ok found)
    (hle : fuel ≤ fuel') : nearestWithin h classes cls fuel' = .ok found := by
  induction fuel generalizing cls fuel' with
  | zero => cases hok
  | succ fuel ih =>
    obtain ⟨fuel', rfl⟩ : ∃ k, fuel' = k + 1 := ⟨fuel' - 1, by omega⟩
    unfold nearestWithin at hok ⊢
    split at hok
    · split at hok
      · rw [if_pos ‹_›, if_pos ‹_›]
        exact hok
      · obtain ⟨superclass, hsuper, hok⟩ := bind_eq_ok.mp hok
        rw [if_pos ‹_›, if_neg ‹_›, hsuper]
        exact ih hok (by omega)
    · rw [if_neg ‹_›]
      exact hok

/-- A lookup finds the method of the nearest class that has one. -/
theorem lookupMethod?_of_nearest (hnearest : nearest? h classes cls = .ok (some owner))
    (hown : ownMethod? h owner selector = .ok (some method))
    (hnone : ∀ below, Above h cls below → nearest? h classes below = .ok (some owner) →
      below ∉ classes → ownMethod? h below selector = .ok none) :
    lookupMethod? h cls selector = .ok (some method) := by
  have hwithin : ∀ fuel cls, fuel ≤ h.memory.size + 1 →
      nearestWithin h classes cls fuel = .ok (some owner) →
      (∀ below, Above h cls below → nearest? h classes below = .ok (some owner) →
        below ∉ classes → ownMethod? h below selector = .ok none) →
      lookupFrom h selector cls fuel = .ok (some method) := by
    intro fuel
    induction fuel with
    | zero => intro cls _ hok; cases hok
    | succ fuel ih =>
      intro cls hle hok hnone
      have hbelow : nearest? h classes cls = .ok (some owner) := nearestWithin_mono hok hle
      unfold nearestWithin at hok
      unfold lookupFrom
      split at hok
      · rw [if_pos ‹_›]
        split at hok
        · cases hok
          rw [hown]
          rfl
        · obtain ⟨superclass, hsuper, hok⟩ := bind_eq_ok.mp hok
          rw [hnone cls (.refl cls) hbelow ‹_›]
          show (Class.superclass h cls >>= _) = _
          rw [hsuper]
          exact ih superclass (by omega) hok fun below habove => hnone below (.step hsuper habove)
      · cases hok
  exact hwithin _ cls (Nat.le_refl _) hnearest hnone

/-- The nearest of some classes to one of them is itself. -/
theorem nearest?_self (hlink : isLink h cls = true) (hmem : cls ∈ classes) :
    nearest? h classes cls = .ok (some cls) := by
  unfold nearest? nearestWithin
  rw [if_pos hlink, if_pos hmem]

end Class

/-- A compiled method with the header and the truth values of a kernel method. -/
structure KernelMethod.IsEmbodied (k : KernelMethod) (m : Machine) (method : Ref) : Prop where
  header : ∃ header, Method.header m.heap method = .ok header ∧ k.code.header = .ok header
  literalCount : Method.literalCount m.heap method = .ok k.code.allLiterals.length
  truths : ∀ index value, k.code.allLiterals[index]? = some (if value then .true else .false) →
    Method.literal m.heap method index = .ok (m.core.boolean value)

namespace Machine

variable {m m₁ : Machine} {cls receiver selector : Ref}

/-- The classes that have kernel methods of a name. -/
def kernelOwners (m : Machine) (name : String) : List Ref :=
  (KernelMethod.all.filter (·.selector == name)).filterMap fun k => (m.ownerClass k.owner).toOption

/-- No kernel method was replaced, and none is overridden in a class or above it. The cache agrees with
the classes. -/
structure KeepsKernel (m : Machine) (cls : Ref) : Prop where
  classes : ∀ k, Class.isLink m.heap (m.core.cls k) = true
  kept : ∀ k ∈ KernelMethod.all, ∀ owner selector, m.ownerClass k.owner = .ok owner →
    m.symbol? k.selector = some selector →
    ∃ method, Class.ownMethod? m.heap owner selector = .ok (some method) ∧ k.IsEmbodied m method
  notOverridden : ∀ name selector above owner, m.symbol? name = some selector →
    Class.Above m.heap cls above →
    Class.nearest? m.heap (m.kernelOwners name) above = .ok (some owner) →
    above ∉ m.kernelOwners name → Class.ownMethod? m.heap above selector = .ok none
  cache : ∀ cls selector method, m.cache.find? cls selector = some method →
    Class.lookupMethod? m.heap cls selector = .ok (some method)

theorem mem_kernelOwners {k : KernelMethod} {owner : Ref} (hk : k ∈ KernelMethod.all)
    (howner : m.ownerClass k.owner = .ok owner) : owner ∈ m.kernelOwners k.selector := by
  refine List.mem_filterMap.mpr ⟨k, List.mem_filter.mpr ⟨hk, beq_self_eq_true _⟩, ?_⟩
  rw [howner]
  rfl

/-- A class answers the selector of a kernel method with the nearest one. -/
theorem KeepsKernel.lookup (hm : m.KeepsKernel cls) {k : KernelMethod} {owner : Ref}
    (hk : k ∈ KernelMethod.all) (howner : m.ownerClass k.owner = .ok owner)
    (hselector : m.symbol? k.selector = some selector)
    (hnearest : Class.nearest? m.heap (m.kernelOwners k.selector) cls = .ok (some owner)) :
    ∃ method, Class.lookupMethod? m.heap cls selector = .ok (some method) ∧
      k.IsEmbodied m method := by
  obtain ⟨method, hown, hembodied⟩ := hm.kept k hk owner selector howner hselector
  refine ⟨method, Class.lookupMethod?_of_nearest hnearest hown ?_, hembodied⟩
  exact fun above habove => hm.notOverridden _ selector above owner hselector habove

end Machine

/-! ## What shortcuts stand for -/

namespace Shortcut

/-- The primitive that does what a shortcut does. -/
def primitive? : Shortcut → Option Primitive
  | .arithmetic op => some (.small op)
  | .comparison op => some (.smallCompare op)
  | .identical => some .identical
  | .classOf => some .classOf
  | .size => some .size
  | .elementAt => some .elementAt
  | .elementAtPut => some .elementAtPut
  | .blockValue _ => some .blockValue
  | .maximum | .minimum | .nilTest _ => none

/-- The arguments of the messages that a shortcut answers. -/
def argCount : Shortcut → Nat
  | .arithmetic _ | .comparison _ | .maximum | .minimum | .identical | .elementAt => 1
  | .classOf | .nilTest _ | .size => 0
  | .elementAtPut => 2
  | .blockValue argCount => argCount

theorem argCount_eq {index : Nat} {s : Shortcut} {special : SpecialSelector}
    (hs : ofIndex? index = some s) (hspecial : specialSelectors[index]? = some special) :
    special.argCount = s.argCount := by
  have htable : ∀ index < specialSelectors.size, ∀ s ∈ ofIndex? index,
      ∀ special ∈ specialSelectors[index]?, special.argCount = s.argCount := by decide
  exact htable index (Array.getElem?_eq_some_iff.mp hspecial).1 s hs special hspecial

/-- The class whose kernel method a shortcut stands for, by whether the receiver is nil. -/
def owner? (isNil : Bool) : Shortcut → Option KernelClass
  | .arithmetic _ | .comparison _ => some .smallInteger
  | .blockValue _ => some .blockContext
  | .identical | .classOf | .size | .elementAt | .elementAtPut => some .object
  | .nilTest _ => some (if isNil then .undefinedObject else .object)
  | .maximum | .minimum => none

end Shortcut

namespace KernelMethod

/-- Whether a method tries a primitive. -/
def tries (k : KernelMethod) (p : Primitive) : Bool :=
  match k.code.header with
  | .ok header => header.flag? = some .normal ∧ header.primitiveIndex ≠ 0 ∧
    Primitive.ofIndex? header.primitiveIndex = some p
  | .error _ => false

/-- Whether a method answers a truth value. -/
def answers (k : KernelMethod) (value : Bool) : Bool :=
  match k.code.header with
  | .ok header => header.flag? = some .returnLiteral ∧
    k.code.allLiterals = [if value then .true else .false]
  | .error _ => false

/-- Whether a method does what a shortcut does. -/
def does (k : KernelMethod) (isNil : Bool) (s : Shortcut) : Bool :=
  match s, s.primitive? with
  | .nilTest expected, _ => k.answers (isNil == expected)
  | _, some p => k.tries p
  | _, none => false

variable {index : Nat} {s : Shortcut} {special : SpecialSelector} {owner : KernelClass}
  {isNil : Bool}

theorem tries_of_does {k : KernelMethod} {p : Primitive} (hdoes : k.does isNil s = true)
    (hp : s.primitive? = some p) : k.tries p = true := by
  cases s <;> cases hp <;> exact hdoes

/-- Every shortcut that stands for a kernel method has one. -/
theorem exists_does (hs : Shortcut.ofIndex? index = some s)
    (hspecial : specialSelectors[index]? = some special) (howner : s.owner? isNil = some owner) :
    ∃ k ∈ all, k.selector = special.name ∧ k.owner = .cls owner ∧ k.does isNil s = true := by
  have htable : ∀ index < specialSelectors.size, ∀ isNil : Bool, ∀ s ∈ Shortcut.ofIndex? index,
      ∀ special ∈ specialSelectors[index]?, ∀ owner ∈ s.owner? isNil,
      ∃ k ∈ all, k.selector = special.name ∧ k.owner = .cls owner ∧ k.does isNil s = true := by
    decide +kernel
  exact htable index (Array.getElem?_eq_some_iff.mp hspecial).1 isNil s hs special hspecial owner
    howner

end KernelMethod

namespace Machine

variable {m m₁ : Machine} {cls receiver selector method : Ref} {s : Shortcut} {argCount index : Nat}

/-! ## Sends that find a method -/

/-- A machine in which a send is noted down, and which differs in nothing else. -/
def Resends (m m₁ : Machine) : Prop :=
  ∃ cache selector argCount lookupClass newMethod, m₁ = { m with
    cache
    registers := { m.registers with selector, argCount, lookupClass, newMethod } }

theorem Resends.refl (m : Machine) : m.Resends m :=
  ⟨_, _, _, _, _, rfl⟩

theorem Resends.core (hm : m.Resends m₁) : m₁.core = m.core := by
  obtain ⟨_, _, _, _, _, rfl⟩ := hm
  rfl

/-- What the shortcut does is the same with a send noted down. -/
theorem Resends.plan (hm : m.Resends m₁) (s : Shortcut) : m₁.plan s = m.plan s := by
  obtain ⟨_, _, _, _, _, rfl⟩ := hm
  cases s <;> rfl

/-- A lookup through a cache that agrees with the classes changes nothing else. -/
theorem lookup_of_found (hcache : ∀ found, m.cache.find? cls selector = some found →
      Class.lookupMethod? m.heap cls selector = .ok (some found))
    (hfound : Class.lookupMethod? m.heap cls selector = .ok (some method)) :
    ∃ cache, m.lookup cls selector = .ok (some method) { m with cache } := by
  rw [lookup_eq]
  cases hhit : m.cache.find? cls selector with
  | some found =>
    obtain rfl : found = method := by
      have hsame := (hcache found hhit).symm.trans hfound
      exact Option.some.inj (Except.ok.inj hsame)
    exact ⟨_, rfl⟩
  | none =>
    rw [hfound]
    exact ⟨_, rfl⟩

/-- A send whose method is found executes it. -/
theorem KeepsKernel.send (hm : m.KeepsKernel cls) (hreceiver : m.stackValue argCount = .ok receiver)
    (hcls : m.classOf receiver = .ok cls)
    (hfound : Class.lookupMethod? m.heap cls selector = .ok (some method)) :
    ∃ m₁, m.Resends m₁ ∧ m₁.registers.newMethod = method ∧ m₁.registers.argCount = argCount ∧
      m.send selector argCount = m₁.executeNewMethod := by
  let sent : Machine := { m with
    registers := { m.registers with selector, argCount, lookupClass := cls } }
  obtain ⟨cache, hlookup⟩ := lookup_of_found (m := sent) (hm.cache cls selector) hfound
  refine ⟨{ sent with cache, registers := { sent.registers with newMethod := method } },
    ⟨_, _, _, _, _, rfl⟩, rfl, rfl, ?_⟩
  have hmethod : sent.findMethod =
      .ok true { sent with cache, registers := { sent.registers with newMethod := method } } := by
    show (Machine.lookup cls selector >>= _) sent = _
    rw [Action.bind_of_ok hlookup]
    rfl
  have hfind : sent.findNewMethod =
      .ok () { sent with cache, registers := { sent.registers with newMethod := method } } := by
    show (findMethod >>= _) sent = _
    rw [Action.bind_of_ok hmethod]
    rfl
  unfold Machine.send peek
  rw [inspect_bind, hreceiver]
  dsimp only
  rw [inspect_bind, hcls]
  show (findNewMethod >>= fun _ => executeNewMethod) sent = _
  rw [Action.bind_of_ok hfind]

/-- A method that tries the primitive of a shortcut does what the shortcut does. -/
theorem executeNewMethod_of_tries {k : KernelMethod} {p : Primitive}
    (hk : k.IsEmbodied m m.registers.newMethod) (htries : k.tries p = true)
    (hrun : p.run m.registers.argCount m = follow (·.plan s) .done .failed m)
    (hplan : m.plan s ≠ .ok none) : m.executeNewMethod = follow (·.plan s) none none m := by
  obtain ⟨header, hheader, hcode⟩ := hk.header
  obtain ⟨hflag, hindex, hp⟩ : header.flag? = some .normal ∧ header.primitiveIndex ≠ 0 ∧
      Primitive.ofIndex? header.primitiveIndex = some p := by
    unfold KernelMethod.tries at htries
    rw [hcode] at htries
    exact of_decide_eq_true htries
  unfold executeNewMethod
  show (Action.read (Method.header · m.registers.newMethod) >>= _) m = _
  rw [Action.bind_of_ok (Action.read_of_ok hheader), hflag]
  dsimp only
  rw [if_neg hindex]
  unfold invoke
  rw [hp]
  show (p.run m.registers.argCount >>= _) m = _
  rw [Action.bind_congr_left hrun, follow_bind, follow_eq]
  cases hcase : m.plan s with
  | error cause => rfl
  | ok found =>
    cases found with
    | none => exact absurd hcase hplan
    | some plan => rfl

/-- A method that answers a truth value does what a test for nil does. -/
theorem executeNewMethod_of_answers {k : KernelMethod} {value : Bool}
    (hk : k.IsEmbodied m m.registers.newMethod) (hanswers : k.answers value = true)
    (hargs : m.registers.argCount = 0) :
    m.executeNewMethod = ((Plan.answer 1 (m.core.boolean value)).run >>= fun _ => pure none) m := by
  obtain ⟨header, hheader, hcode⟩ := hk.header
  obtain ⟨hflag, hliterals⟩ : header.flag? = some .returnLiteral ∧
      k.code.allLiterals = [if value then .true else .false] := by
    unfold KernelMethod.answers at hanswers
    rw [hcode] at hanswers
    exact of_decide_eq_true hanswers
  have hcount : Method.literalCount m.heap m.registers.newMethod = .ok 1 := by
    rw [hk.literalCount, hliterals]
    rfl
  have hliteral : Method.literal m.heap m.registers.newMethod 0 = .ok (m.core.boolean value) :=
    hk.truths 0 value (by rw [hliterals]; rfl)
  unfold executeNewMethod
  show (Action.read (Method.header · m.registers.newMethod) >>= _) m = _
  rw [Action.bind_of_ok (Action.read_of_ok hheader), hflag]
  show (Action.read (Method.literalCount · m.registers.newMethod) >>= _) m = _
  rw [Action.bind_of_ok (Action.read_of_ok hcount)]
  show (Action.read (Method.literal · m.registers.newMethod 0) >>= _) m = _
  rw [Action.bind_of_ok (Action.read_of_ok hliteral), hargs]
  rfl

/-! ## Receivers that shortcuts were made for -/

/-- A class inherits the kernel method of a name from a kernel class. -/
def Inherits (m : Machine) (name : String) (cls : Ref) (owner : KernelClass) : Prop :=
  Class.nearest? m.heap (m.kernelOwners name) cls = .ok (some (m.core.cls owner))

/-- What has to be true of a receiver for a shortcut that is taken to stand for the kernel method that
the receiver inherits. Small integers and blocks need nothing, and nothing helps where there is no
kernel method. -/
def Covers (m : Machine) (name : String) (receiver cls : Ref) : Shortcut → Prop
  | .arithmetic _ | .comparison _ | .blockValue _ => True
  | .maximum | .minimum => False
  | .identical | .classOf => m.Inherits name cls .object
  | .nilTest _ =>
    m.Inherits name cls (if receiver = m.core.nil then .undefinedObject else .object)
  | .size | .elementAt | .elementAtPut => m.Inherits name cls .object ∧ m.IsArray receiver

/-- The receiver and the arguments of a message are on the stack. -/
def HasOperands (m : Machine) (argCount : Nat) (receiver : Ref) : Prop :=
  m.stackValue argCount = .ok receiver ∧ ∀ depth < argCount, ∃ r, m.stackValue depth = .ok r

theorem HasOperands.argument (hm : m.HasOperands argCount receiver) {depth : Nat}
    (hdepth : depth < argCount) : ∃ r, m.stackValue depth = .ok r :=
  hm.2 depth hdepth

/-- Small integers are planned for only. -/
theorem smallPlan_receiver (f : Int → Int → Option Ref) (hm : m.HasOperands 1 receiver)
    (hplan : m.smallPlan f ≠ .ok none) : receiver.isSmallInteger = true := by
  obtain ⟨argument, hargument⟩ := hm.argument (Nat.zero_lt_one)
  unfold smallPlan at hplan
  rw [hm.1, hargument] at hplan
  by_contra hsmall
  rw [Bool.not_eq_true] at hsmall
  refine hplan ?_
  show (if (receiver.isSmallInteger && argument.isSmallInteger) = true then _ else _) = _
  rw [hsmall]
  rfl

theorem classOf_of_isPointer (hp : receiver.isPointer = true) :
    m.classOf receiver = m.heap.classOf receiver := by
  have himmediate := Ref.not_isImmediate_of_isPointer hp
  simp only [Ref.isImmediate, Bool.or_eq_false_iff] at himmediate
  have hnull : receiver.isNull = false := by
    simp only [Ref.isPointer, Bool.and_eq_true, bne_iff_ne] at hp
    exact beq_false_of_ne hp.2
  unfold Machine.classOf
  rw [himmediate.1, himmediate.2, Ref.not_isMarker_of_isPointer hp, hnull]
  rfl

/-- Blocks are planned for only. -/
theorem blockPlan_receiver (hm : m.HasOperands argCount receiver)
    (hcls : m.classOf receiver = .ok cls) (hplan : m.plan (.blockValue argCount) ≠ .ok none) :
    cls = m.core.cls .blockContext := by
  by_contra hne
  have hinstance : m.isInstance .blockContext receiver = .ok false := by
    unfold Machine.isInstance
    split
    · rename_i hp
      rw [classOf_of_isPointer hp] at hcls
      rw [hcls]
      exact congrArg Except.ok (decide_eq_false hne)
    · rfl
  refine hplan ?_
  show (m.stackValue argCount >>= _) = _
  rw [hm.1]
  show (m.isBlockOf argCount receiver >>= _) = _
  unfold isBlockOf
  rw [hinstance]
  rfl

/-- A receiver that a shortcut was made for inherits the kernel method. -/
theorem KeepsKernel.inherits (hm : m.KeepsKernel cls) {special : SpecialSelector}
    (hs : Shortcut.ofIndex? index = some s) (hspecial : specialSelectors[index]? = some special)
    (hoperands : m.HasOperands s.argCount receiver) (hcls : m.classOf receiver = .ok cls)
    (hplan : m.plan s ≠ .ok none) (hcovers : m.Covers special.name receiver cls s) :
    ∃ owner, s.owner? (decide (receiver = m.core.nil)) = some owner ∧
      m.Inherits special.name cls owner := by
  have hself : ∀ {owner}, s.owner? (decide (receiver = m.core.nil)) = some owner →
      cls = m.core.cls owner → m.Inherits special.name cls owner := by
    rintro owner howner rfl
    obtain ⟨k, hk, hname, hkowner, -⟩ := KernelMethod.exists_does hs hspecial howner
    rw [← hname]
    exact Class.nearest?_self (hm.classes owner) (mem_kernelOwners hk (by rw [hkowner]; rfl))
  have hsmall : receiver.isSmallInteger = true → cls = m.core.cls .smallInteger := by
    intro hsmall
    unfold Machine.classOf at hcls
    rw [if_pos hsmall] at hcls
    exact (Except.ok.inj hcls).symm
  cases s with
  | arithmetic op =>
    exact ⟨_, rfl, hself rfl (hsmall (smallPlan_receiver (fun a b => smallResult? op a b)
      hoperands hplan))⟩
  | comparison op =>
    exact ⟨_, rfl, hself rfl (hsmall (smallPlan_receiver
      (fun a b => some (m.core.boolean (op.onIntegers a b))) hoperands hplan))⟩
  | maximum => exact hcovers.elim
  | minimum => exact hcovers.elim
  | identical => exact ⟨_, rfl, hcovers⟩
  | classOf => exact ⟨_, rfl, hcovers⟩
  | nilTest expected =>
    refine ⟨_, rfl, ?_⟩
    simp only [decide_eq_true_eq]
    exact hcovers
  | size => exact ⟨_, rfl, hcovers.1⟩
  | elementAt => exact ⟨_, rfl, hcovers.1⟩
  | elementAtPut => exact ⟨_, rfl, hcovers.1⟩
  | blockValue argCount => exact ⟨_, rfl, hself rfl (blockPlan_receiver hoperands hcls hplan)⟩

/-- The primitive of a shortcut follows its plan. -/
theorem primitive_run_eq {p : Primitive} {name : String} (hp : s.primitive? = some p)
    (hoperands : m.HasOperands s.argCount receiver) (hcovers : m.Covers name receiver cls s) :
    p.run s.argCount m = follow (·.plan s) .done .failed m := by
  cases s with
  | arithmetic op =>
    cases hp
    exact congrFun (smallArithmetic_eq op) m
  | comparison op =>
    cases hp
    exact congrFun (smallComparison_eq op) m
  | maximum => cases hp
  | minimum => cases hp
  | identical =>
    cases hp
    exact congrFun identity_eq m
  | classOf =>
    cases hp
    exact congrFun receiverClass_eq m
  | nilTest expected => cases hp
  | size =>
    cases hp
    exact hcovers.2.indexableSize hoperands.1
  | elementAt =>
    cases hp
    obtain ⟨index, hindex⟩ := hoperands.argument (Nat.zero_lt_one)
    exact hcovers.2.elementAt hoperands.1 hindex
  | elementAtPut =>
    cases hp
    obtain ⟨index, hindex⟩ := hoperands.argument (show 1 < 2 by decide)
    obtain ⟨value, hvalue⟩ := hoperands.argument (show 0 < 2 by decide)
    exact hcovers.2.elementAtPut hoperands.1 hindex hvalue
  | blockValue argCount =>
    cases hp
    exact congrFun (blockValue_eq argCount) m

namespace Resends

variable {name : String} {k : KernelMethod}

/-- What is noted down about a send makes no difference to the rest. -/
theorem isEmbodied (hm : m.Resends m₁) (hk : k.IsEmbodied m method) : k.IsEmbodied m₁ method := by
  obtain ⟨_, _, _, _, _, rfl⟩ := hm
  exact ⟨hk.header, hk.literalCount, hk.truths⟩

theorem hasOperands (hm : m.Resends m₁) (hoperands : m.HasOperands argCount receiver) :
    m₁.HasOperands argCount receiver := by
  obtain ⟨_, _, _, _, _, rfl⟩ := hm
  exact hoperands

theorem covers (hm : m.Resends m₁) (hcovers : m.Covers name receiver cls s) :
    m₁.Covers name receiver cls s := by
  obtain ⟨_, _, _, _, _, rfl⟩ := hm
  cases s with
  | size => exact ⟨hcovers.1, hcovers.2.isInstance, hcovers.2.format⟩
  | elementAt => exact ⟨hcovers.1, hcovers.2.isInstance, hcovers.2.format⟩
  | elementAtPut => exact ⟨hcovers.1, hcovers.2.isInstance, hcovers.2.format⟩
  | _ => exact hcovers

end Resends

/-! ## Outcomes with a send noted down -/

/-- Outcomes that differ in what is noted down about a send, and in nothing else. -/
inductive Alike {α : Type} : Outcome α → Outcome α → Prop
  | ok (a : α) {m m₁ : Machine} : m.Resends m₁ → Alike (.ok a m) (.ok a m₁)
  | failed (failure : Failure) {m m₁ : Machine} : m.Resends m₁ →
      Alike (.failed failure m) (.failed failure m₁)
  | stopped (cause : Fatal) : Alike (.stopped cause) (.stopped cause)
  | unfinished : Alike .unfinished .unfinished

namespace Alike

variable {α β : Type} {x : Action α} {f : α → Action β}

theorem refl (o : Outcome α) : Alike o o := by
  cases o with
  | ok a m => exact .ok a (.refl m)
  | failed failure m => exact .failed failure (.refl m)
  | stopped cause => exact .stopped cause
  | unfinished => exact .unfinished

theorem bind (hx : Alike (x m) (x m₁)) (hf : ∀ a n n₁, n.Resends n₁ → Alike (f a n) (f a n₁)) :
    Alike ((x >>= f) m) ((x >>= f) m₁) := by
  show Alike (Action.bind x f m) (Action.bind x f m₁)
  unfold Action.bind
  generalize x m = o at hx
  generalize x m₁ = o₁ at hx
  cases hx with
  | ok a hm => exact hf a _ _ hm
  | failed failure hm => exact .failed failure hm
  | stopped cause => exact .stopped cause
  | unfinished => exact .unfinished

theorem write (f : Heap → Except Fatal Heap) (hm : m.Resends m₁) :
    Alike (Action.write f m) (Action.write f m₁) := by
  obtain ⟨cache, selector, argCount, lookupClass, newMethod, rfl⟩ := hm
  cases m
  unfold Action.write
  dsimp only
  split
  · exact .ok () ⟨_, _, _, _, _, rfl⟩
  · exact .stopped _

theorem replaceTop (count : Nat) (value : Ref) (hm : m.Resends m₁) :
    Alike (Machine.replaceTop count value m) (Machine.replaceTop count value m₁) := by
  refine bind ?_ fun _ n n₁ hn => ?_
  · obtain ⟨cache, selector, argCount, lookupClass, newMethod, rfl⟩ := hm
    show Alike ((if count ≤ m.registers.sp then _ else _ : Action Unit) m)
      ((if count ≤ m.registers.sp then _ else _ : Action Unit) _)
    split
    · exact .ok () ⟨_, _, _, _, _, rfl⟩
    · exact .stopped _
  · have hwrite := fun position => write (·.setSlot position value) hn
    obtain ⟨cache, selector, argCount, lookupClass, newMethod, rfl⟩ := hn
    show Alike ((if n.registers.sp < n.registers.stackLimit then _ else _ : Action Unit) n)
      ((if n.registers.sp < n.registers.stackLimit then _ else _ : Action Unit) _)
    split
    · refine bind (hwrite _) fun _ k k₁ hk => ?_
      obtain ⟨_, _, _, _, _, rfl⟩ := hk
      exact .ok () ⟨_, _, _, _, _, rfl⟩
    · exact .stopped _

/-- What is planned comes to the same, the activation of a block apart. -/
theorem run {p : Plan} (hp : ∀ argCount, p ≠ .activate argCount) (hm : m.Resends m₁) :
    Alike (p.run m) (p.run m₁) := by
  cases p with
  | answer count value => exact replaceTop count value hm
  | store array place value =>
    exact bind (write _ hm) fun _ _ _ hn => replaceTop 3 value hn
  | activate argCount => exact absurd rfl (hp argCount)

end Alike

/-! ## Agreement -/

/-- The outcome of a special send whose shortcut is tried. -/
theorem getCore_bind {α : Type} (k : CoreObjects → Action α) (m : Machine) :
    (Action.getCore >>= k) m = k m.core m := rfl

theorem sendSpecial_of_shortcut (hs : Shortcut.ofIndex? index = some s)
    (hselector : m.core.specialSelectors[index]? = some selector) :
    m.sendSpecial index = match m.plan s with
      | .ok (some p) => (p.run >>= fun _ => pure none) m
      | .ok none => m.send selector (specialArgCount index)
      | .error cause => .stopped cause := by
  unfold sendSpecial
  rw [hs]
  show (takeShortcut s >>= _) m = _
  rw [takeShortcut_eq, follow_bind]
  cases m.plan s with
  | error cause => rfl
  | ok found =>
    cases found with
    | some p => rfl
    | none => simp only [Bool.false_eq_true, if_false, getCore_bind, hselector]

theorem sendSpecial_of_none (hs : Shortcut.ofIndex? index = none)
    (hselector : m.core.specialSelectors[index]? = some selector) :
    m.sendSpecial index = m.send selector (specialArgCount index) := by
  unfold sendSpecial
  rw [hs]
  refine (Action.bind_of_ok (x := pure false) rfl).trans ?_
  simp only [Bool.false_eq_true, if_false, getCore_bind, hselector]

/-- Only blocks are activated, with as many arguments as there are. -/
theorem eq_argCount_of_activate {count : Nat} (hplan : m.plan s = .ok (some (.activate count))) :
    count = s.argCount := by
  have hsmall : ∀ f, m.smallPlan f ≠ .ok (some (.activate count)) := by
    intro f hok
    obtain ⟨receiver, -, hok⟩ := bind_eq_ok.mp hok
    obtain ⟨argument, -, hok⟩ := bind_eq_ok.mp hok
    split at hok
    · cases hf : f receiver.toInt argument.toInt <;> rw [hf] at hok <;> cases hok
    · cases hok
  cases s with
  | arithmetic op => exact absurd hplan (hsmall _)
  | comparison op =>
    exact absurd hplan (hsmall fun a b => some (m.core.boolean (op.onIntegers a b)))
  | maximum => exact absurd hplan (hsmall fun a b => some (.ofInt (max a b)))
  | minimum => exact absurd hplan (hsmall fun a b => some (.ofInt (min a b)))
  | identical =>
    obtain ⟨receiver, -, hok⟩ := bind_eq_ok.mp hplan
    obtain ⟨argument, -, hok⟩ := bind_eq_ok.mp hok
    cases hok
  | classOf =>
    obtain ⟨receiver, -, hok⟩ := bind_eq_ok.mp hplan
    obtain ⟨cls, -, hok⟩ := bind_eq_ok.mp hok
    cases hok
  | nilTest expected =>
    obtain ⟨receiver, -, hok⟩ := bind_eq_ok.mp hplan
    cases hok
  | size =>
    obtain ⟨receiver, -, hok⟩ := bind_eq_ok.mp hplan
    obtain ⟨isArray, -, hok⟩ := bind_eq_ok.mp hok
    split at hok
    · obtain ⟨len, -, hok⟩ := bind_eq_ok.mp hok
      cases hok
    · cases hok
  | elementAt =>
    obtain ⟨array, -, hok⟩ := bind_eq_ok.mp hplan
    obtain ⟨position, -, hok⟩ := bind_eq_ok.mp hok
    obtain ⟨place, -, hok⟩ := bind_eq_ok.mp hok
    split at hok
    · obtain ⟨value, -, hok⟩ := bind_eq_ok.mp hok
      cases hok
    · cases hok
  | elementAtPut =>
    obtain ⟨array, -, hok⟩ := bind_eq_ok.mp hplan
    obtain ⟨position, -, hok⟩ := bind_eq_ok.mp hok
    obtain ⟨value, -, hok⟩ := bind_eq_ok.mp hok
    obtain ⟨place, -, hok⟩ := bind_eq_ok.mp hok
    split at hok <;> cases hok
  | blockValue argCount =>
    obtain ⟨block, -, hok⟩ := bind_eq_ok.mp hplan
    obtain ⟨isBlock, -, hok⟩ := bind_eq_ok.mp hok
    split at hok
    · cases hok
      rfl
    · cases hok

/-- The send of the selector of a shortcut that is taken follows the same plan. -/
theorem KeepsKernel.send_follows (hm : m.KeepsKernel cls) {special : SpecialSelector}
    (hs : Shortcut.ofIndex? index = some s) (hspecial : specialSelectors[index]? = some special)
    (hname : m.symbol? special.name = some selector)
    (hoperands : m.HasOperands s.argCount receiver) (hcls : m.classOf receiver = .ok cls)
    (hplan : m.plan s ≠ .ok none) (hcovers : m.Covers special.name receiver cls s) :
    ∃ m₁, m.Resends m₁ ∧ m.send selector s.argCount = follow (·.plan s) none none m₁ := by
  obtain ⟨owner, howner, hinherits⟩ := hm.inherits hs hspecial hoperands hcls hplan hcovers
  obtain ⟨k, hk, hkname, hkowner, hdoes⟩ := KernelMethod.exists_does hs hspecial howner
  rw [← hkname] at hname hinherits
  obtain ⟨method, hfound, hembodied⟩ :=
    hm.lookup hk (by rw [hkowner]; rfl) hname hinherits
  obtain ⟨m₁, hresends, hmethod, hargs, hsend⟩ := hm.send hoperands.1 hcls hfound
  refine ⟨m₁, hresends, hsend.trans ?_⟩
  rw [← hmethod] at hembodied
  cases hp : s.primitive? with
  | some p =>
    refine executeNewMethod_of_tries (hresends.isEmbodied hembodied)
      (KernelMethod.tries_of_does hdoes hp) ?_ (hresends.plan s ▸ hplan)
    rw [hargs]
    exact primitive_run_eq hp (hresends.hasOperands hoperands) (hresends.covers hcovers)
  | none =>
    cases s with
    | nilTest expected =>
      have hplan₁ : m₁.plan (.nilTest expected) = .ok (some (.answer 1
          (m₁.core.boolean (decide (receiver = m₁.core.nil) == expected)))) := by
        show (m₁.stackValue (Shortcut.nilTest expected).argCount >>= _) = _
        rw [(hresends.hasOperands hoperands).1]
        rfl
      rw [← hresends.core] at hdoes
      rw [executeNewMethod_of_answers (hresends.isEmbodied hembodied) hdoes hargs, follow_eq, hplan₁]
    | maximum => exact hcovers.elim
    | minimum => exact hcovers.elim
    | _ => cases hp

/-- A special send and the send of its selector come to the same, up to what a send notes down about
itself, or both activate the same block, from machines that differ in no more than that. The kernel
methods are in place for the receiver, which is on the stack with the
arguments, and a shortcut that is taken stands for the kernel method that it inherits. -/
theorem sendSpecial_agrees {special : SpecialSelector} (hm : m.KeepsKernel cls)
    (hspecial : specialSelectors[index]? = some special)
    (hselector : m.core.specialSelectors[index]? = some selector)
    (hname : m.symbol? special.name = some selector)
    (hoperands : m.HasOperands special.argCount receiver) (hcls : m.classOf receiver = .ok cls)
    (hcovers : ∀ s, Shortcut.ofIndex? index = some s → m.plan s ≠ .ok none →
      m.Covers special.name receiver cls s) :
    Alike (m.sendSpecial index) (m.send selector special.argCount) ∨
      ∃ m₁, m.Resends m₁ ∧
        m.sendSpecial index = (activateBlock special.argCount >>= fun _ => pure none) m ∧
        m.send selector special.argCount =
          (activateBlock special.argCount >>= fun _ => pure none) m₁ := by
  have hargs : specialArgCount index = special.argCount := by
    unfold specialArgCount
    rw [hspecial]
    rfl
  cases hs : Shortcut.ofIndex? index with
  | none =>
    left
    rw [sendSpecial_of_none hs hselector, hargs]
    exact .refl _
  | some s =>
    rw [sendSpecial_of_shortcut hs hselector, hargs]
    have hcount := Shortcut.argCount_eq hs hspecial
    by_cases hplan : m.plan s = .ok none
    · left
      rw [hplan]
      exact .refl _
    · rw [hcount] at hoperands ⊢
      obtain ⟨m₁, hresends, hsend⟩ :=
        hm.send_follows hs hspecial hname hoperands hcls hplan (hcovers s hs hplan)
      rw [hsend, follow_eq, hresends.plan]
      cases hcase : m.plan s with
      | error cause => exact .inl (.stopped cause)
      | ok found =>
        cases found with
        | none => exact absurd hcase hplan
        | some p =>
          by_cases hp : ∃ count, p = .activate count
          · obtain ⟨count, rfl⟩ := hp
            obtain rfl := eq_argCount_of_activate hcase
            exact .inr ⟨m₁, hresends, rfl, rfl⟩
          · left
            refine (Alike.run (fun count heq => hp ⟨count, heq⟩) hresends).bind fun _ _ _ hn => ?_
            exact .ok none hn

/-- A machine about to send `6 bitAnd: 3`, in which the method for that is the only one. -/
def maskingSix : Machine :=
  let nil : UInt64 := (Ref.ofWordIndex 1).bits
  let cls : UInt64 := (Ref.ofWordIndex 37).bits
  let heap : Heap :=
    { memory := #[0,
        (Header.pack .plain 0 4).bits, cls,
        (Header.pack .plain 5 5).bits, cls, nil, (Ref.ofWordIndex 10).bits, nil, nil, nil,
        (Header.pack .array 2 6).bits, cls, (Ref.ofNat 1).bits, (Ref.ofWordIndex 16).bits, 1,
        (Ref.ofWordIndex 20).bits,
        (Header.pack .array 0 7).bits, cls, 1, (Ref.ofWordIndex 24).bits,
        (Header.pack .byteArray 0 8).bits, cls, 7, 0x3a646e41746962,
        (Header.pack .plain 3 9).bits, cls, (MethodHeader.pack .normal 1 1 3 14).toRef.bits,
        (Ref.ofWordIndex 29).bits, (Ref.ofWordIndex 33).bits,
        (Header.pack .array 0 10).bits, cls, 1, (Ref.ofWordIndex 20).bits,
        (Header.pack .byteArray 0 11).bits, cls, 1, 0,
        (Header.pack .plain 5 12).bits, cls, nil, nil, nil, nil, nil,
        (Header.pack .context 6 13).bits, cls, nil, (Ref.ofNat 0).bits, (Ref.ofNat 2).bits,
        (Ref.ofWordIndex 24).bits, nil, nil, 4, (Ref.ofNat 6).bits, (Ref.ofNat 3).bits, nil, nil]
      top := 57
      reservedWords := 64
      sinceCollection := 0
      config := {}
      hashState := 1
      nil := .ofWordIndex 1
      largeIntegers := .empty
      stats := {} }
  { ofHeap heap ⟨Array.replicate 4 MethodCache.noEntry, 0, 0⟩ with
    core := { CoreObjects.empty with
      nil := .ofWordIndex 1
      classes := (Vector.replicate _ (.ofWordIndex 37)).set KernelClass.smallInteger.index
        (.ofWordIndex 3)
      specialSelectors := CoreObjects.empty.specialSelectors.setIfInBounds 14 (.ofWordIndex 20) }
    symbols := ⟨#[("bitAnd:", .ofWordIndex 20)]⟩
    registers := { Registers.empty with
      activeContext := .ofWordIndex 44
      stackBase := 53
      sp := 2
      stackLimit := 4 } }

theorem maskingSix_selector {name : String} {selector : Ref}
    (hname : maskingSix.symbol? name = some selector) :
    name = "bitAnd:" ∧ selector = .ofWordIndex 20 := by
  unfold symbol? NameTable.find? at hname
  obtain ⟨entry, hentry, rfl⟩ := Option.map_eq_some_iff.mp hname
  have hmem := Array.mem_of_find?_eq_some hentry
  obtain rfl := Array.mem_singleton.mp hmem
  have hsame := Array.find?_some hentry
  exact ⟨(beq_iff_eq.mp hsame).symm, rfl⟩

theorem maskingSix_keepsKernel : maskingSix.KeepsKernel (.ofWordIndex 3) where
  classes k := by cases k <;> rfl
  kept k hk owner selector howner hselector := by
    obtain ⟨hname, rfl⟩ := maskingSix_selector hselector
    have hcode : ∀ k ∈ KernelMethod.all, k.selector = "bitAnd:" → k.owner = .cls .smallInteger ∧
        k.code.header.toOption = some (MethodHeader.pack .normal 1 1 3 14) ∧
        k.code.allLiterals = [.symbol "primitiveFailed"] := by decide +kernel
    obtain ⟨hkowner, hheader, hliterals⟩ := hcode k hk hname
    rw [hkowner] at howner
    cases howner
    refine ⟨.ofWordIndex 24, rfl, ⟨MethodHeader.pack .normal 1 1 3 14, rfl, ?_⟩, ?_, ?_⟩
    · cases hok : k.code.header with
      | ok header => rw [hok] at hheader; exact congrArg Except.ok (Option.some.inj hheader)
      | error e => rw [hok] at hheader; cases hheader
    · rw [hliterals]
      rfl
    · intro index value hliteral
      rw [hliterals] at hliteral
      cases index with
      | zero => cases value <;> cases hliteral
      | succ index => cases hliteral
  notOverridden name selector above owner hselector habove hnearest hnot := by
    obtain ⟨rfl, rfl⟩ := maskingSix_selector hselector
    have howners : Ref.ofWordIndex 3 ∈ maskingSix.kernelOwners "bitAnd:" := by decide +kernel
    cases habove with
    | refl => exact absurd howners hnot
    | step hsuper habove =>
      cases hsuper
      cases habove with
      | refl => cases hnearest
      | step hsuper => cases hsuper
  cache cls selector method hfound := by
    have hempty : maskingSix.cache.find? cls selector = none :=
      find?_flush maskingSix.cache cls selector
    rw [hempty] at hfound
    cases hfound

/-- The shortcut is taken, and agrees with the method. -/
theorem maskingSix_sendSpecial :
    maskingSix.plan (.arithmetic .bitAnd) = .ok (some (.answer 2 (.ofNat 2))) ∧
      (Alike (maskingSix.sendSpecial 14) (maskingSix.send (.ofWordIndex 20) 1) ∨
        ∃ m₁, maskingSix.Resends m₁ ∧
          maskingSix.sendSpecial 14 = (activateBlock 1 >>= fun _ => pure none) maskingSix ∧
          maskingSix.send (.ofWordIndex 20) 1 = (activateBlock 1 >>= fun _ => pure none) m₁) := by
  have hoperands : maskingSix.HasOperands 1 (.ofNat 6) := by
    refine ⟨rfl, fun depth hdepth => ⟨.ofNat 3, ?_⟩⟩
    obtain rfl := Nat.lt_one_iff.mp hdepth
    rfl
  refine ⟨by rfl, ?_⟩
  refine sendSpecial_agrees maskingSix_keepsKernel
    (show specialSelectors[14]? = some ⟨"bitAnd:", 1⟩ by decide) rfl (by decide) hoperands rfl ?_
  intro s hs _
  cases hs
  trivial

end Machine

end ObjectMachine
