import ObjectMachine.Instruction.Opcode
import ObjectMachine.Number.Binary64

/-!
# Code to assemble

What the body of a method does, before it becomes bytes: variables by their index or name, jumps to
labels, blocks and loops with their bodies inside. Labels are made when they are first mentioned, and
are numbered in that order.
-/

namespace ObjectMachine

/-- A constant among the literals of a method, before it exists in memory. -/
inductive Literal where
  | nil
  | true
  | false
  | integer (value : Int)
  | character (value : Char)
  | float (value : Binary64)
  | string (text : String)
  | symbol (name : String)
  /-- The association that binds a global. -/
  | global (name : String)
  /-- The association that binds the class that the method is made for. -/
  | methodClass
  deriving DecidableEq, Repr

/-- Whether two constants share one place among the literals. Numbers are compared by value, so the
two zeros share a place, and no two NaNs do. -/
def Literal.shares : Literal → Literal → Bool
  | .float x, .float y => x.equals y
  | a, b => decide (a = b)

/-- A position in the code that jumps lead to. -/
inductive Label where
  | named (name : String)
  /-- The label with a number. There may be none. -/
  | numbered (number : Nat)
  deriving DecidableEq, Repr

/-- A variable. -/
inductive Place where
  | temporary (index : Nat)
  | field (index : Nat)
  | global (name : String)
  deriving DecidableEq, Repr

/-- A piece of code. -/
inductive Code where
  | push (place : Place)
  | store (place : Place)
  | popInto (place : Place)
  | constant (value : Constant)
  | thisContext
  /-- Pushes an integer, by an instruction of its own if it has one. -/
  | integer (value : Int)
  | literal (value : Literal)
  | dup
  | pop
  | methodReturn (answer : Answer)
  /-- Ends a block and answers the top of the stack to whoever evaluates it. -/
  | blockReturn
  /-- Sends a message, by an instruction of its own if it has one. -/
  | send (selector : String) (argCount : Nat)
  /-- Sends a message by the general instruction. -/
  | sendGeneral (selector : String) (argCount : Nat)
  /-- Sends a message to self, with the lookup starting above the class of the method. -/
  | superSend (selector : String) (argCount : Nat)
  /-- Makes a label designate the next instruction. -/
  | bind (label : Label)
  | jump (branch : Branch) (label : Label)
  /-- A jump with an offset of one byte. -/
  | shortJump (branch : Branch) (label : Label)
  /-- A block. Its arguments are on its stack at first, the last one on top. -/
  | block (argCount : Nat) (body : List Code)
  /-- Evaluates `body` as long as `condition` leaves true. -/
  | whileTrue (condition body : List Code)
  /-- Evaluates one of two pieces of code, as the top of the stack decides. -/
  | ifTrueIfFalse (yes no : List Code)
  deriving Repr

end ObjectMachine
