import ObjectMachine.Class.Kernel
import ObjectMachine.Context.Pool
import ObjectMachine.Instruction.SpecialSelector
import ObjectMachine.Method.Cache

/-!
# The machine

A machine owns memory and everything that memory is reached from: the objects it knows by itself,
the interned symbols, the global bindings, a stack of pinned temporaries, and the registers of the
activation in progress. All of these references are roots of a collection. `Machine.traverse` visits
them in a fixed order; listing the roots and replacing them are both defined by it.
-/

namespace ObjectMachine

/-! ## Names -/

/-- References by name, in the order in which the names were added. -/
structure NameTable where
  entries : Array (String × Ref)
  deriving Inhabited, Repr

namespace NameTable

def empty : NameTable :=
  ⟨#[]⟩

/-- The reference of a name. -/
def find? (t : NameTable) (name : String) : Option Ref :=
  (t.entries.find? (·.1 == name)).map (·.2)

/-- Adds a name that the table does not have. -/
def add (t : NameTable) (name : String) (r : Ref) : NameTable :=
  ⟨t.entries.push (name, r)⟩

/-- Visits the references in order. -/
def traverse {m : Type → Type} [Monad m] (f : Ref → m Ref) (t : NameTable) : m NameTable := do
  return ⟨← t.entries.mapM fun (name, r) => return (name, ← f r)⟩

end NameTable

/-! ## Known objects -/

/-- The objects that the machine refers to by itself, whatever programs do to the globals. -/
structure CoreObjects where
  nil : Ref
  trueObject : Ref
  falseObject : Ref
  classes : Vector Ref KernelClass.count
  doesNotUnderstand : Ref
  escapedBlock : Ref
  mustBeBoolean : Ref
  /-- The selectors of the special sends, in the order of their opcodes. -/
  specialSelectors : Array Ref
  deriving Inhabited

namespace CoreObjects

/-- Before any object exists. -/
def empty : CoreObjects where
  nil := .null
  trueObject := .null
  falseObject := .null
  classes := Vector.replicate _ .null
  doesNotUnderstand := .null
  escapedBlock := .null
  mustBeBoolean := .null
  specialSelectors := Array.replicate ObjectMachine.specialSelectors.size .null

/-- A kernel class. -/
@[inline] def cls (c : CoreObjects) (k : KernelClass) : Ref :=
  c.classes[k.index]

/-- Remembers a kernel class. -/
def setClass (c : CoreObjects) (k : KernelClass) (r : Ref) : CoreObjects :=
  { c with classes := c.classes.set k.index r }

/-- The object of a truth value. -/
@[inline] def boolean (c : CoreObjects) (value : Bool) : Ref :=
  if value then c.trueObject else c.falseObject

/-- Visits the references in order. -/
def traverse {m : Type → Type} [Monad m] (f : Ref → m Ref) (c : CoreObjects) : m CoreObjects := do
  return {
    nil := ← f c.nil
    trueObject := ← f c.trueObject
    falseObject := ← f c.falseObject
    classes := ← c.classes.mapM f
    doesNotUnderstand := ← f c.doesNotUnderstand
    escapedBlock := ← f c.escapedBlock
    mustBeBoolean := ← f c.mustBeBoolean
    specialSelectors := ← c.specialSelectors.mapM f }

end CoreObjects

/-! ## Registers -/

/-- The state of the activation in progress and of the send in progress. Positions in memory are kept
beside the references they were computed from; they have to be computed again when the active
context moves. -/
structure Registers where
  activeContext : Ref
  /-- The method context whose temporaries are in use: the active context, or its home. -/
  homeContext : Ref
  method : Ref
  receiver : Ref
  literals : Ref
  /-- The position of the next byte of the instructions. -/
  pc : Nat
  /-- The slots in use in the active context, temporaries included. -/
  sp : Nat
  stackBase : Nat
  stackLimit : Nat
  tempBase : Nat
  tempLimit : Nat
  /-- The byte offset of the instructions. -/
  codeBase : Nat
  codeLength : Nat
  /-- The selector being sent. -/
  selector : Ref
  argCount : Nat
  /-- The class that the lookup starts at. -/
  lookupClass : Ref
  /-- The method found. -/
  newMethod : Ref
  deriving Inhabited, Repr

namespace Registers

/-- Without an activation. -/
def empty : Registers where
  activeContext := .null
  homeContext := .null
  method := .null
  receiver := .null
  literals := .null
  pc := 0
  sp := 0
  stackBase := 0
  stackLimit := 0
  tempBase := 0
  tempLimit := 0
  codeBase := 0
  codeLength := 0
  selector := .null
  argCount := 0
  lookupClass := .null
  newMethod := .null

/-- Forgets the activation. The send in progress stays. -/
def clear (r : Registers) : Registers :=
  { r with
    activeContext := .null
    homeContext := .null
    method := .null
    receiver := .null
    literals := .null
    pc := 0
    sp := 0
    stackLimit := 0
    tempLimit := 0
    codeLength := 0 }

/-- Visits the references in order. -/
def traverse {m : Type → Type} [Monad m] (f : Ref → m Ref) (r : Registers) : m Registers := do
  return { r with
    activeContext := ← f r.activeContext
    homeContext := ← f r.homeContext
    method := ← f r.method
    receiver := ← f r.receiver
    literals := ← f r.literals
    selector := ← f r.selector
    lookupClass := ← f r.lookupClass
    newMethod := ← f r.newMethod }

end Registers

/-! ## Machines -/

/-- A virtual machine. -/
structure Machine where
  heap : Heap
  core : CoreObjects
  symbols : NameTable
  /-- Global bindings: associations by name. -/
  globals : NameTable
  /-- Temporaries kept alive, and up to date, across allocations. -/
  pinned : Array Ref
  registers : Registers
  cache : MethodCache
  contexts : ContextPool
  /-- The state of the generator of random numbers. -/
  random : UInt64
  deriving Inhabited

namespace Machine

/-- A machine without objects. -/
def ofHeap (heap : Heap) (cache : MethodCache) : Machine where
  heap := heap
  core := .empty
  symbols := .empty
  globals := .empty
  pinned := #[]
  registers := .empty
  cache := cache
  contexts := .empty
  random := 0x9E3779B97F4A7C15

/-- Visits the roots in order: registers, known objects, symbols, globals, pinned temporaries. -/
def traverse {m : Type → Type} [Monad m] (f : Ref → m Ref) (vm : Machine) : m Machine := do
  return { vm with
    registers := ← vm.registers.traverse f
    core := ← vm.core.traverse f
    symbols := ← vm.symbols.traverse f
    globals := ← vm.globals.traverse f
    pinned := ← vm.pinned.mapM f }

/-- The roots in order. -/
def roots (vm : Machine) : List Ref :=
  let visit (r : Ref) : StateM (List Ref) Ref := fun found => (r, r :: found)
  ((vm.traverse visit).run []).2.reverse

/-- The machine with other roots, given in the same order. -/
def withRoots (vm : Machine) (roots : List Ref) : Machine :=
  let next (r : Ref) : StateM (List Ref) Ref
    | [] => (r, [])
    | first :: rest => (first, rest)
  ((vm.traverse next).run roots).1

end Machine

end ObjectMachine
