/-!
# Special selectors

The thirty-two messages that are sent by an opcode of their own, in the order of the opcodes.
-/

namespace ObjectMachine

/-- A message with an opcode of its own. -/
structure SpecialSelector where
  name : String
  argCount : Nat
  deriving DecidableEq, Repr

/-- The messages with an opcode of their own. -/
def specialSelectors : Array SpecialSelector := #[
  ⟨"+", 1⟩, ⟨"-", 1⟩, ⟨"<", 1⟩, ⟨">", 1⟩, ⟨"<=", 1⟩, ⟨">=", 1⟩, ⟨"=", 1⟩, ⟨"~=", 1⟩,
  ⟨"*", 1⟩, ⟨"/", 1⟩, ⟨"\\\\", 1⟩, ⟨"@", 1⟩, ⟨"bitShift:", 1⟩, ⟨"//", 1⟩, ⟨"bitAnd:", 1⟩,
  ⟨"bitOr:", 1⟩, ⟨"at:", 1⟩, ⟨"at:put:", 2⟩, ⟨"size", 0⟩, ⟨"value", 0⟩, ⟨"value:", 1⟩,
  ⟨"==", 1⟩, ⟨"class", 0⟩, ⟨"new", 0⟩, ⟨"new:", 1⟩, ⟨"isNil", 0⟩, ⟨"notNil", 0⟩,
  ⟨"value:value:", 2⟩, ⟨"bitXor:", 1⟩, ⟨"max:", 1⟩, ⟨"min:", 1⟩, ⟨"printString", 0⟩]

/-- The number of the special selector with a name and a number of arguments. -/
def specialIndex? (name : String) (argCount : Nat) : Option Nat :=
  specialSelectors.findIdx? fun s => s.name == name && s.argCount == argCount

/-- The arguments that a special selector takes. -/
def specialArgCount (index : Nat) : Nat :=
  (specialSelectors[index]?.map SpecialSelector.argCount).getD 0

end ObjectMachine
