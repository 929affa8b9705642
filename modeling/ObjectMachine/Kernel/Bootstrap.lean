import ObjectMachine.Kernel.Methods
import ObjectMachine.Machine.Build

/-!
# Bootstrap

A fresh machine gets nil, the kernel classes, the special selectors and the kernel methods. Nil comes
first, since every reference slot starts out as nil, and the classes are bare until all of them
exist, since each refers to others.
-/

namespace ObjectMachine

/-- Sizes and policy of a machine. -/
structure MachineConfig where
  heap : HeapConfig := {}
  /-- Entries of the method cache. -/
  cacheSize : Nat := MethodCache.defaultSize
  deriving Repr

namespace Machine

open ObjectMachine.Action

/-- A machine without objects, unless the configuration is refused. -/
def ofConfig (c : MachineConfig) : Except Failure Machine :=
  match Heap.ofConfig c.heap with
  | .error problem => .error (.config problem)
  | .ok heap =>
    match MethodCache.ofSize? c.cacheSize with
    | none => .error (.cacheSize c.cacheSize)
    | some cache => .ok (.ofHeap heap cache)

/-! ## Classes -/

/-- Changes the objects that the machine knows. -/
def modifyCore (f : CoreObjects → CoreObjects) : Action Unit :=
  modify fun m => { m with core := f m.core }

/-- Makes nil. -/
def createNil : Action Unit := do
  let nil ← allocate .null .plain 0 0
  write fun h => .ok (h.setNil nil)
  modifyCore fun c => { c with nil }

/-- Makes kernel classes without contents. -/
def createBareClasses : List KernelClass → Action Unit
  | [] => return
  | k :: rest => do
    let cls ← allocate .null .plain Class.fieldCount 0
    modifyCore (·.setClass k cls)
    createBareClasses rest

/-- Makes the truth values, and gives nil its class. -/
def createConstants : Action Unit := do
  let core ← getCore
  write (·.setClassOf core.nil (core.cls .undefinedObject))
  let trueObject ← allocate (core.cls .trueClass) .plain 0 0
  modifyCore fun c => { c with trueObject }
  let falseObject ← allocate ((← getCore).cls .falseClass) .plain 0 0
  modifyCore fun c => { c with falseObject }

/-- Fills in a kernel class, makes its metaclass, and binds it to the global of its name. -/
def createClass (k : KernelClass) : Action Unit := do
  pin (← intern k.name)
  pin (← newMethodDictionary MethodDictionary.minCapacity)
  pin (← newMethodDictionary MethodDictionary.minCapacity)
  let metaclass ← allocate ((← getCore).cls .metaclass) .plain Class.fieldCount 0
  let metaDictionary ← unpin
  let dictionary ← unpin
  let name ← unpin
  let core ← getCore
  let superclass := match k.superclass? with
    | some superclass => core.cls superclass
    | none => core.nil
  linkClass (core.cls k) metaclass superclass k.spec name dictionary metaDictionary
  setGlobal k.name (core.cls k)

/-- Fills in kernel classes in order. -/
def createClasses : List KernelClass → Action Unit
  | [] => return
  | k :: rest => do
    createClass k
    createClasses rest

/-! ## Selectors -/

/-- Interns special selectors from an index on. -/
def internSpecial (index : Nat) : List SpecialSelector → Action Unit
  | [] => return
  | special :: rest => do
    let r ← intern special.name
    modifyCore fun c => { c with specialSelectors := c.specialSelectors.setIfInBounds index r }
    internSpecial (index + 1) rest

/-- Interns the selectors that the machine sends by itself. -/
def internSelectors : Action Unit := do
  internSpecial 0 specialSelectors.toList
  let doesNotUnderstand ← intern "doesNotUnderstand:"
  modifyCore fun c => { c with doesNotUnderstand }
  let escapedBlock ← intern "escapedBlock:"
  modifyCore fun c => { c with escapedBlock }
  let mustBeBoolean ← intern "mustBeBoolean"
  modifyCore fun c => { c with mustBeBoolean }

/-! ## Methods -/

/-- The class that a kernel method belongs to. -/
def ownerClass (m : Machine) : Owner → Except Fatal Ref
  | .cls k => .ok (m.core.cls k)
  | .metaclass k => m.heap.classOf (m.core.cls k)

/-- Installs kernel methods in order. -/
def installKernel : List KernelMethod → Action Unit
  | [] => return
  | method :: rest => do
    let cls ← inspect (·.ownerClass method.owner)
    install method.code cls method.selector
    installKernel rest

/-- Makes everything that a fresh machine has. -/
def bootstrap : Action Unit := do
  createNil
  createBareClasses KernelClass.all
  createConstants
  createClasses KernelClass.all
  internSelectors
  within .installingKernel (installKernel KernelMethod.all)

end Machine

end ObjectMachine
