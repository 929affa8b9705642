import ObjectMachine.Assembler.Draft
import ObjectMachine.Machine.Classes

/-!
# Building methods

A draft becomes a compiled method in memory: first its literals, then the array that holds them, then
its bytes, then the method itself.
-/

namespace ObjectMachine.Machine

open ObjectMachine.Action

/-- The object of a literal. The class that the method is made for is pinned at a position. -/
def materialize (position : Nat) : Literal → Action Ref
  | .nil => return (← getCore).nil
  | .true => return (← getCore).trueObject
  | .false => return (← getCore).falseObject
  | .integer value => newInteger value
  | .character value => return .ofChar value
  | .float value => newFloat value
  | .string text => newString text
  | .symbol name => intern name
  | .global name => globalAssociation name
  | .methodClass => do
    let nil := (← getCore).nil
    let association ← newAssociation nil nil
    let cls ← pinnedAt position
    write (·.storeField association Association.valueField cls)
    return association

/-- Makes the objects of literals and pins them in order. -/
def materializeAll (position : Nat) : List Literal → Action Unit
  | [] => return
  | literal :: rest => do
    pin (← materialize position literal)
    materializeAll position rest

/-- Stores references as the elements of an object from an index on. -/
def storeElements (h : Heap) (r : Ref) (index : Nat) : List Ref → Except Fatal Heap
  | [] => .ok h
  | value :: rest => do
    let h ← h.storeElement r index value
    storeElements h r (index + 1) rest

/-- Makes an array of literals for the method of a class. -/
def buildLiterals (literals : List Literal) (cls : Ref) : Action Ref := do
  let base ← pinnedCount
  pin cls
  materializeAll base literals
  let array ← newArray literals.length
  let values ← pinnedFrom (base + 1) literals.length
  write (storeElements · array 0 values)
  unpinTo base
  return array

/-- Makes a compiled method of a header, an array of literals and the bytes of its instructions. -/
def newMethod (header : MethodHeader) (literals : Ref) (bytes : List UInt8) : Action Ref := do
  pin literals
  pin (← newByteArray bytes)
  let method ← allocate ((← getCore).cls .compiledMethod) .plain Method.fieldCount 0
  let code ← unpin
  let literals ← unpin
  write fun h => do
    let h ← h.storeField method Method.headerField header.toRef
    let h ← h.storeField method Method.literalsField literals
    h.storeField method Method.codeField code
  return method

/-- Makes the compiled method of a draft. The class is recorded only in methods with sends to
super. -/
def buildDraft (draft : Draft) (cls : Ref) : Action Ref := do
  let literals ← buildLiterals draft.literals cls
  newMethod draft.header literals draft.bytes

/-- Makes the compiled method of an assembler. -/
def build (a : Assembler) (cls : Ref) : Action Ref :=
  match a.finish.1 with
  | .ok draft => buildDraft draft cls
  | .error (.failure failure) => fail failure
  | .error (.fatal cause) => stop cause

/-- Makes the compiled method of an assembler for a class. Answers the class as well, which may have
been moved. -/
def compileFor (a : Assembler) (cls : Ref) : Action (Except Failure Ref × Ref) := do
  pin cls
  let method ← attempt (build a cls)
  let cls ← unpin
  return (method, cls)

/-- Makes the compiled method of an assembler and adds it to a class. The answer is the reference that
the method had before it was added. -/
def buildInto (a : Assembler) (cls : Ref) (selector : String) : Action Ref := do
  let (method, cls) ← compileFor a cls
  match method with
  | .ok method =>
    installMethod cls selector method
    return method
  | .error failure =>
    let name ← inspect (·.className cls)
    fail (.during (.installing name selector) failure)

/-- Adds a method to a class. -/
def install (a : Assembler) (cls : Ref) (selector : String) : Action Unit := do
  let _ ← buildInto a cls selector

end ObjectMachine.Machine
