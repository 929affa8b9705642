import ObjectMachine.Machine.Names

/-!
# Classes of a machine

Every reference has a class. A class has a metaclass as its own class, and a metaclass is an
instance of the class of metaclasses. Classes are defined with their metaclasses, and methods are
added to their dictionaries, which grow before they are full.
-/

namespace ObjectMachine.Machine

open ObjectMachine.Action

/-! ## Reading -/

/-- The class of anything. -/
@[inline] def classOf (m : Machine) (r : Ref) : Except Fatal Ref :=
  if r.isSmallInteger then .ok (m.core.cls .smallInteger)
  else if r.isCharacter then .ok (m.core.cls .character)
  else if r.isMarker then .error (.markerAsObject r)
  else if r.isNull then .ok (m.core.cls .undefinedObject)
  else m.heap.classOf r

/-- Whether a reference designates a metaclass. -/
def isMetaclass (m : Machine) (r : Ref) : Except Fatal Bool :=
  m.isInstance .metaclass r

/-- Whether a reference designates a class or a metaclass. -/
def isClass (m : Machine) (r : Ref) : Except Fatal Bool := do
  if !r.isPointer || r = m.core.nil then return false
  let cls ← m.heap.classOf r
  if cls = m.core.cls .metaclass then return true
  m.isMetaclass cls

/-- The name of a class. A metaclass is named after its instance, and at most `fuel` of them are
looked at. -/
def classNameWithin (m : Machine) (cls : Ref) : Nat → Except Fatal String
  | 0 => .error (.fault .endless)
  | fuel + 1 => do
    if ← m.isMetaclass cls then
      let name ← m.classNameWithin (← m.heap.fetchField cls Class.instanceField) fuel
      return name ++ " class"
    else
      let name ← m.stringValue? (← m.heap.fetchField cls Class.nameField)
      return name.getD "<anonymous class>"

/-- The name of a class. There cannot be more metaclasses than words. -/
def className (m : Machine) (cls : Ref) : Except Fatal String :=
  m.classNameWithin cls (m.heap.memory.size + 1)

/-- The class bound to a global. -/
def classNamed? (m : Machine) (name : String) : Except Fatal (Option Ref) := do
  match ← m.global? name with
  | none => return none
  | some r => return if ← m.isClass r then some r else none

/-! ## Methods -/

/-- Puts entries into a method dictionary. -/
def insertAll (h : Heap) (dictionary : Ref) : List (Ref × Ref) → Except Fatal Heap
  | [] => .ok h
  | (selector, method) :: rest => do
    let h ← MethodDictionary.insert h dictionary selector method
    insertAll h dictionary rest

/-- Replaces the dictionary of the class pinned at a position by one of twice the capacity. -/
def growDictionary (position : Nat) : Action Unit := do
  let cls ← pinnedAt position
  let capacity ← read fun h => do MethodDictionary.capacity h (← Class.dictionary h cls)
  let grown ← newMethodDictionary (← checkedCount (capacity * 2))
  let cls ← pinnedAt position
  write fun h => do
    let entries ← MethodDictionary.entries h (← Class.dictionary h cls)
    let h ← insertAll h grown entries
    h.storeField cls Class.dictionaryField grown

/-- Adds a method to a class, in place of the one with the same selector. -/
def installMethod (cls : Ref) (selector : String) (method : Ref) : Action Unit := do
  let base ← pinnedCount
  pin cls
  pin method
  pin (← intern selector)
  let cls ← pinnedAt base
  let full ← read fun h => do MethodDictionary.isFull h (← Class.dictionary h cls)
  if full then growDictionary base
  let cls ← pinnedAt base
  let method ← pinnedAt (base + 1)
  let selector ← pinnedAt (base + 2)
  unpinTo base
  write fun h => do MethodDictionary.insert h (← Class.dictionary h cls) selector method
  flushCache

/-! ## Definition -/

/-- Fills the fields of a class or a metaclass. -/
def fillClass (h : Heap) (cls superclass dictionary : Ref) (spec : InstanceSpec)
    (name instance' : Ref) : Except Fatal Heap := do
  let h ← h.storeField cls Class.superclassField superclass
  let h ← h.storeField cls Class.dictionaryField dictionary
  let h ← h.storeField cls Class.specField spec.toRef
  let h ← h.storeField cls Class.nameField name
  h.storeField cls Class.instanceField instance'

/-- Fills in a class and its metaclass. The metaclass of a class without a superclass inherits from
the class of classes. -/
def linkClass (cls metaclass superclass : Ref) (spec : InstanceSpec)
    (name dictionary metaDictionary : Ref) : Action Unit := do
  let core ← getCore
  let metaSuperclass ←
    if superclass = core.nil then pure (core.cls .theClass) else read (·.classOf superclass)
  write fun h => do
    let h ← h.setClassOf cls metaclass
    let h ← fillClass h cls superclass dictionary spec name core.nil
    fillClass h metaclass metaSuperclass metaDictionary ⟨.plain, Class.fieldCount⟩ core.nil cls

/-- Makes a class and its metaclass, and binds the class to the global of its name. The answer is
the reference that the class had before the global was made. -/
def defineClass (name : String) (superclass : Ref) (spec : InstanceSpec) : Action Ref := do
  pin superclass
  pin (← intern name)
  pin (← newMethodDictionary MethodDictionary.minCapacity)
  pin (← newMethodDictionary MethodDictionary.minCapacity)
  let metaclass ← allocate ((← getCore).cls .metaclass) .plain Class.fieldCount 0
  pin metaclass
  let cls ← allocate metaclass .plain Class.fieldCount 0
  let metaclass ← unpin
  let metaDictionary ← unpin
  let dictionary ← unpin
  let symbol ← unpin
  let superclass ← unpin
  linkClass cls metaclass superclass spec symbol dictionary metaDictionary
  setGlobal name cls
  return cls

end ObjectMachine.Machine
