import ObjectMachine.Primitive.Operand

/-!
# Primitives on indexable objects

Elements are indexed from one. Strings have characters as their elements, symbols cannot be changed,
and arrays of numbers take only numbers that fit. Contexts are left out: what their slots hold above
the stack pointer means nothing.
-/

namespace ObjectMachine

/-- Whether programs may index the objects of a format. -/
def Format.isOpen : Format → Bool
  | .array | .byteArray | .wordArray | .floatArray => true
  | .plain | .context | .float | .largeInteger => false

namespace Machine

open ObjectMachine.Action

/-- The format of an object that programs may index. -/
def openFormat? (m : Machine) (r : Ref) : Except Fatal (Option Format) := do
  if !r.isPointer then return none
  let format ← m.heap.format r
  return if format.isOpen then some format else none

/-- The format of an object that programs may index, and the place of an index in it. -/
def elementPlace? (m : Machine) (r index : Ref) : Except Fatal (Option (Format × Nat)) := do
  match ← m.openFormat? r with
  | none => return none
  | some format => return (index.indexInto? (← m.heap.length r)).map (format, ·)

/-- What a program sees of an element. -/
def readElement (r : Ref) (format : Format) (place : Nat) : Action (Option Ref) := do
  match format with
  | .array => return some (← read (·.fetchElement r place))
  | .byteArray =>
    let byte ← read (·.fetchByte r place)
    if ← inspect (·.isText r) then return some (.ofChar (Char.ofNat byte.toNat))
    else return some (.ofNat byte.toNat)
  | .wordArray => return some (.ofNat (← read (·.fetchWordElement r place)).toNat)
  | .floatArray =>
    let value ← read (·.fetchFloatElement r place)
    return some (← newFloat value)
  | _ => return none

def elementAt : Action Verdict := do
  let receiver ← peek 1
  let index ← peek 0
  match ← inspect (·.elementPlace? receiver index) with
  | some (format, place) => answer? 1 (← readElement receiver format place)
  | none => return .failed

/-- The number that a byte object takes a value for: the code of a character if it is a text, which
a symbol never takes, and a small integer otherwise. -/
def byteCode? (m : Machine) (r value : Ref) : Except Fatal (Option Int) := do
  if ← m.isSymbol r then return none
  if ← m.isText r then
    return if value.isCharacter then some value.charCode.toNat else none
  else return value.small?

/-- The number that an array of floating-point numbers takes a value for. -/
def floatCode? (m : Machine) (value : Ref) : Except Fatal (Option Binary64) := do
  match ← m.floatValue? value with
  | some x => return some x
  | none => return value.small?.map .ofInt

/-- Makes a value an element. Answers whether the object takes it. -/
def writeElement (r : Ref) (format : Format) (place : Nat) (value : Ref) : Action Bool := do
  match format with
  | .array =>
    write (·.storeElement r place value)
    return true
  | .byteArray =>
    match ← inspect (·.byteCode? r value) with
    | some code =>
      if 0 ≤ code ∧ code < 256 then
        write (·.storeByte r place code.toNat.toUInt8)
        return true
      else return false
    | none => return false
  | .wordArray =>
    match value.small? with
    | some code =>
      if 0 ≤ code ∧ code < 4294967296 then
        write (·.storeWordElement r place code.toNat.toUInt32)
        return true
      else return false
    | none => return false
  | .floatArray =>
    match ← inspect (·.floatCode? value) with
    | some x =>
      write (·.storeFloatElement r place x)
      return true
    | none => return false
  | _ => return false

def elementAtPut : Action Verdict := do
  let receiver ← peek 2
  let index ← peek 1
  match ← inspect (·.elementPlace? receiver index) with
  | some (format, place) =>
    let value ← peek 0
    if ← writeElement receiver format place value then answer 2 value else return .failed
  | none => return .failed

def indexableSize : Action Verdict := do
  let receiver ← peek 0
  match ← inspect (·.openFormat? receiver) with
  | some _ => answer 0 (.ofNat (← read (·.length receiver)))
  | none => return .failed

end Machine

end ObjectMachine
