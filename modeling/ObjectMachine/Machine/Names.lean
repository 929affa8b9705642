import ObjectMachine.Machine.Objects

/-!
# Symbols and globals

A symbol is interned: there is one object for each name. A global is reached through an association,
which is made, bound to nil, when the global is mentioned first.
-/

namespace ObjectMachine.Machine

open ObjectMachine.Action

/-! ## Symbols -/

/-- The symbol of a name, if it was ever interned. -/
def symbol? (m : Machine) (name : String) : Option Ref :=
  m.symbols.find? name

/-- The symbol of a name, made if there is none. -/
def intern (name : String) : Action Ref := do
  match ← ask fun m => m.symbol? name with
  | some r => return r
  | none =>
    let r ← newBytes ((← getCore).cls .symbol) (Text.utf8Bytes name)
    modify fun m => { m with symbols := m.symbols.add name r }
    return r

/-- Whether a reference designates an object of a kernel class, inherited instances apart. -/
@[inline] def isInstance (m : Machine) (k : KernelClass) (r : Ref) : Except Fatal Bool :=
  if r.isPointer then
    match m.heap.classOf r with
    | .ok cls => .ok (decide (cls = m.core.cls k))
    | .error e => .error e
  else .ok false

/-- Whether a reference designates a symbol. -/
def isSymbol (m : Machine) (r : Ref) : Except Fatal Bool :=
  m.isInstance .symbol r

/-- Whether a reference designates a string or a symbol. -/
def isText (m : Machine) (r : Ref) : Except Fatal Bool := do
  return (← m.isInstance .string r) || (← m.isInstance .symbol r)

/-- The text of a string or a symbol. -/
def stringValue? (m : Machine) (r : Ref) : Except Fatal (Option String) := do
  if ← m.isText r then return some (Text.utf8Text (← m.heap.bytes r)) else return none

/-! ## Globals -/

/-- The association of a global, made if there is none. -/
def globalAssociation (name : String) : Action Ref := do
  match ← ask fun m => m.globals.find? name with
  | some r => return r
  | none =>
    let key ← intern name
    let r ← newAssociation key (← getCore).nil
    modify fun m => { m with globals := m.globals.add name r }
    return r

/-- Gives a global a value. -/
def setGlobal (name : String) (value : Ref) : Action Unit := do
  pin value
  let association ← globalAssociation name
  let value ← unpin
  write (·.storeField association Association.valueField value)

/-- The value of a global, if it was ever mentioned. -/
def global? (m : Machine) (name : String) : Except Fatal (Option Ref) :=
  match m.globals.find? name with
  | some association => do return some (← m.heap.fetchField association Association.valueField)
  | none => .ok none

end ObjectMachine.Machine
