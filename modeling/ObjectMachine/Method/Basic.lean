import ObjectMachine.Heap.Access
import ObjectMachine.Method.Header

/-!
# Compiled methods

A compiled method has three fields: its packed header, the array of its literals, and the bytes of
its instructions. Associations bind globals, and the class of a method, to their values.
-/

namespace ObjectMachine

namespace Association

def keyField : Nat := 0
def valueField : Nat := 1
def fieldCount : Nat := 2

/-- Whether a reference is an object with as many fields as an association. -/
@[inline] def hasShape (h : Heap) (r : Ref) : Except Fatal Bool :=
  if r.isPointer then
    match h.fixedFields r with
    | .ok count => .ok (count == fieldCount)
    | .error e => .error e
  else .ok false

end Association

namespace Message

def selectorField : Nat := 0
def argumentsField : Nat := 1
def fieldCount : Nat := 2

end Message

namespace Method

def headerField : Nat := 0
def literalsField : Nat := 1
def codeField : Nat := 2
def fieldCount : Nat := 3

@[inline] def header (h : Heap) (method : Ref) : Except Fatal MethodHeader := do
  return MethodHeader.ofRef (← h.fetchField method headerField)

@[inline] def literals (h : Heap) (method : Ref) : Except Fatal Ref :=
  h.fetchField method literalsField

@[inline] def code (h : Heap) (method : Ref) : Except Fatal Ref :=
  h.fetchField method codeField

/-- The number of literals. -/
def literalCount (h : Heap) (method : Ref) : Except Fatal Nat := do
  h.length (← literals h method)

/-- A literal. -/
def literal (h : Heap) (method : Ref) (index : Nat) : Except Fatal Ref := do
  h.fetchElement (← literals h method) index

/-- The bytes of the instructions. -/
def codeBytes (h : Heap) (method : Ref) : Except Fatal (List UInt8) := do
  h.bytes (← code h method)

/-- The class that a method was made for: the value of the association in its last literal. Only
methods with sends to super carry one. -/
def methodClass? (h : Heap) (method : Ref) : Except Fatal (Option Ref) := do
  let count ← literalCount h method
  if count = 0 then return none
  let last ← literal h method (count - 1)
  if ← Association.hasShape h last then
    let cls ← h.fetchField last Association.valueField
    return if cls.isPointer then some cls else none
  else return none

end Method

end ObjectMachine
