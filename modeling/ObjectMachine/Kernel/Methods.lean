import ObjectMachine.Assembler.Basic
import ObjectMachine.Class.Kernel
import ObjectMachine.Machine.Selector

/-!
# Kernel methods

The methods that a fresh machine has: those that try a primitive first, those that are answered
without an activation, and the loops over integers.
-/

namespace ObjectMachine

/-- A class that kernel methods belong to. -/
inductive Owner where
  | cls (k : KernelClass)
  /-- The metaclass of a kernel class. -/
  | metaclass (k : KernelClass)
  deriving DecidableEq, Repr

/-- What a method does when its primitive fails. -/
inductive Fallback where
  /-- Sends the same message to super, where a more general primitive takes over. -/
  | super
  /-- Tells the receiver that a primitive failed. -/
  | primitiveFailed
  deriving DecidableEq, Repr

/-- A method of the kernel. -/
structure KernelMethod where
  owner : Owner
  selector : String
  code : Assembler

namespace KernelMethod

/-- A method that tries a primitive first. -/
def trying (owner : Owner) (fallback : Fallback) (selector : String) (index : Nat) :
    KernelMethod :=
  let argCount := selectorArgCount selector
  let resend : List Code := match fallback with
    | .super =>
      (List.range argCount).map (fun i => .push (.temporary i)) ++ [.superSend selector argCount]
    | .primitiveFailed => [.sendGeneral "primitiveFailed" 0]
  let code := (Assembler.ofArgCount argCount).withPrimitive index
  ⟨owner, selector, code.addAll (.constant .self :: resend ++ [.methodReturn .top])⟩

/-- Methods of a class that try primitives, with selectors and indices. -/
def tryingAll (k : KernelClass) (fallback : Fallback) (entries : List (String × Nat)) :
    List KernelMethod :=
  entries.map fun (selector, index) => trying (.cls k) fallback selector index

/-- The methods that try a primitive first. -/
def primitives : List KernelMethod :=
  tryingAll .object .primitiveFailed
    [("==", 110), ("=", 110), ("~=", 109), ("class", 111), ("identityHash", 75),
      ("instVarAt:", 73), ("instVarAt:put:", 74), ("at:", 60), ("at:put:", 61), ("size", 62),
      ("basicAt:", 60), ("basicAt:put:", 61), ("basicSize", 62)] ++
  tryingAll .behavior .primitiveFailed
    [("basicNew", 70), ("new", 70), ("basicNew:", 71), ("new:", 71)] ++
  tryingAll .character .primitiveFailed [("value", 90), ("asInteger", 90)] ++
  tryingAll .smallInteger .super
    [("+", 1), ("-", 2), ("<", 3), (">", 4), ("<=", 5), (">=", 6), ("=", 7), ("~=", 8), ("*", 9),
      ("/", 10), ("\\\\", 11), ("//", 12)] ++
  tryingAll .smallInteger .primitiveFailed
    [("quo:", 13), ("bitAnd:", 14), ("bitOr:", 15), ("bitXor:", 16), ("bitShift:", 17),
      ("asFloat", 18), ("asCharacter", 19), ("atRandom", 115)] ++
  tryingAll .integer .primitiveFailed
    [("+", 21), ("-", 22), ("<", 23), (">", 24), ("<=", 25), (">=", 26)] ++
  tryingAll .integer .super [("=", 27), ("~=", 28)] ++
  tryingAll .integer .primitiveFailed
    [("*", 29), ("//", 30), ("\\\\", 31), ("/", 32), ("printString", 33)] ++
  tryingAll .float .primitiveFailed
    [("+", 41), ("-", 42), ("<", 43), (">", 44), ("<=", 45), (">=", 46)] ++
  tryingAll .float .super [("=", 47), ("~=", 48)] ++
  tryingAll .float .primitiveFailed
    [("*", 49), ("/", 50), ("truncated", 51), ("printString", 52)] ++
  tryingAll .blockContext .primitiveFailed
    [("value", 81), ("value:", 81), ("value:value:", 81), ("value:value:value:", 81),
      ("valueWithArguments:", 82)] ++
  [trying (.metaclass .system) .primitiveFailed "exit:" 113,
    trying (.metaclass .system) .primitiveFailed "fullGC" 114]

/-- The methods that are answered without an activation. -/
def trivial : List KernelMethod :=
  let plain := Assembler.ofArgCount 0
  [⟨.cls .object, "yourself", plain.returningSelf⟩,
    ⟨.cls .object, "isNil", plain.returningLiteral .false⟩,
    ⟨.cls .object, "notNil", plain.returningLiteral .true⟩,
    ⟨.cls .undefinedObject, "isNil", plain.returningLiteral .true⟩,
    ⟨.cls .undefinedObject, "notNil", plain.returningLiteral .false⟩,
    ⟨.cls .trueClass, "not", plain.returningLiteral .false⟩,
    ⟨.cls .falseClass, "not", plain.returningLiteral .true⟩,
    ⟨.cls .association, "key", plain.returningField Association.keyField⟩,
    ⟨.cls .association, "value", plain.returningField Association.valueField⟩,
    ⟨.cls .message, "selector", plain.returningField Message.selectorField⟩,
    ⟨.cls .message, "arguments", plain.returningField Message.argumentsField⟩]

/-- `i := i + 1` for a temporary. -/
def increment (index : Nat) : List Code :=
  [.push (.temporary index), .integer 1, .send "+" 1, .popInto (.temporary index)]

/-- `to: stop do: aBlock`: evaluates a block with the integers from the receiver to another one. -/
def toDo : KernelMethod :=
  ⟨.cls .integer, "to:do:", ((Assembler.ofArgCount 2).withTemporaries 1).addAll
    [.constant .self, .popInto (.temporary 2),
      .whileTrue [.push (.temporary 2), .push (.temporary 0), .send "<=" 1]
        ([.push (.temporary 1), .push (.temporary 2), .send "value:" 1, .pop] ++ increment 2),
      .methodReturn .self]⟩

/-- `timesRepeat: aBlock`: evaluates a block as often as the receiver says. -/
def timesRepeat : KernelMethod :=
  ⟨.cls .integer, "timesRepeat:", ((Assembler.ofArgCount 1).withTemporaries 1).addAll
    [.integer 1, .popInto (.temporary 1),
      .whileTrue [.push (.temporary 1), .constant .self, .send "<=" 1]
        ([.push (.temporary 0), .send "value" 0, .pop] ++ increment 1),
      .methodReturn .self]⟩

/-- The kernel methods, in the order in which they are installed. -/
def all : List KernelMethod :=
  primitives ++ trivial ++ [toDo, timesRepeat]

end KernelMethod

end ObjectMachine
