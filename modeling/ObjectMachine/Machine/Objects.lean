import ObjectMachine.Machine.Collect
import ObjectMachine.Number.PowerOfTwo
import ObjectMachine.Text.Utf8

/-!
# Making objects

Arrays, texts, numbers, associations and method dictionaries. A number is a small integer whenever
it fits one.
-/

namespace ObjectMachine.Machine

open ObjectMachine.Action

/-- An array of nils. -/
def newArray (len : Nat) : Action Ref := do
  allocate ((← getCore).cls .array) .array 0 len

/-- A byte object of a class. -/
def newBytes (cls : Ref) (bytes : List UInt8) : Action Ref := do
  let r ← allocate cls .byteArray 0 bytes.length
  write (·.storeBytes r bytes)
  return r

def newByteArray (bytes : List UInt8) : Action Ref := do
  newBytes ((← getCore).cls .byteArray) bytes

def newString (text : String) : Action Ref := do
  newBytes ((← getCore).cls .string) (Text.utf8Bytes text)

def newFloat (value : Binary64) : Action Ref := do
  let r ← allocate ((← getCore).cls .float) .float 0 0
  write (·.setFloatValue r value)
  return r

/-- The small integer of a value if it fits one, and a large integer otherwise. -/
def newInteger (value : Int) : Action Ref := do
  match Ref.ofInt? value with
  | some r => return r
  | none =>
    let r ← allocate ((← getCore).cls .largeInteger) .largeInteger 0 0
    write (·.setLargeInteger r value)
    return r

def newAssociation (key value : Ref) : Action Ref := do
  pin key
  pin value
  let r ← allocate ((← getCore).cls .association) .plain Association.fieldCount 0
  let value ← unpin
  let key ← unpin
  write fun h => do
    let h ← h.storeField r Association.keyField key
    h.storeField r Association.valueField value
  return r

/-- An empty method dictionary. Its capacity has to be a power of two. -/
def newMethodDictionary (capacity : Nat) : Action Ref := do
  require (isPowerOfTwo capacity) .operand
  let methods ← newArray capacity
  pin methods
  let r ← allocate ((← getCore).cls .methodDictionary) .array MethodDictionary.fieldCount capacity
  let methods ← unpin
  write fun h => do
    let h ← h.storeField r MethodDictionary.tallyField .zero
    h.storeField r MethodDictionary.methodsField methods
  return r

end ObjectMachine.Machine
