/-!
# Opcodes

Every instruction is one opcode byte followed by zero, one or two operand bytes. An opcode says what
an instruction does; its operands say which variable, how far, or how many arguments.
-/

namespace ObjectMachine

/-- What a variable instruction refers to. -/
inductive Variable where
  /-- A field of the receiver. -/
  | receiver
  /-- A temporary of the home context. -/
  | temporary
  /-- A global, through the association in a literal. -/
  | literal
  deriving DecidableEq, Repr

/-- The values with an instruction of their own. -/
inductive Constant where
  | self
  | nil
  | true
  | false
  | minusOne
  | zero
  | one
  | two
  deriving DecidableEq, Repr

/-- What a method answers when it returns. -/
inductive Answer where
  | top
  | self
  | nil
  | true
  | false
  deriving DecidableEq, Repr

/-- When a jump is taken. -/
inductive Branch where
  | always
  | ifTrue
  | ifFalse
  deriving DecidableEq, Repr

/-- What an instruction does. -/
inductive Opcode where
  | push (place : Variable)
  | pushLiteral
  | store (place : Variable)
  | popInto (place : Variable)
  | constant (value : Constant)
  | thisContext
  | dup
  | pop
  | methodReturn (answer : Answer)
  | blockReturn
  | jump (branch : Branch)
  | longJump (branch : Branch)
  | send
  | superSend
  /-- Creates a block. A jump over the body of the block has to follow. -/
  | createBlock
  /-- Sends one of the special selectors. -/
  | special (index : UInt8)
  deriving DecidableEq, Repr

namespace Opcode

/-- The first of the opcodes that send a special selector. -/
def firstSpecial : UInt8 := 0x60

/-- The byte of an opcode. -/
def byte : Opcode → UInt8
  | .push .receiver => 0x00
  | .push .temporary => 0x01
  | .pushLiteral => 0x02
  | .push .literal => 0x03
  | .store .receiver => 0x04
  | .store .temporary => 0x05
  | .store .literal => 0x06
  | .popInto .receiver => 0x07
  | .popInto .temporary => 0x08
  | .popInto .literal => 0x09
  | .constant .self => 0x10
  | .constant .nil => 0x11
  | .constant .true => 0x12
  | .constant .false => 0x13
  | .thisContext => 0x14
  | .constant .minusOne => 0x15
  | .constant .zero => 0x16
  | .constant .one => 0x17
  | .constant .two => 0x18
  | .dup => 0x19
  | .pop => 0x1A
  | .methodReturn .top => 0x20
  | .methodReturn .self => 0x21
  | .methodReturn .nil => 0x22
  | .methodReturn .true => 0x23
  | .methodReturn .false => 0x24
  | .blockReturn => 0x25
  | .jump .always => 0x30
  | .jump .ifTrue => 0x31
  | .jump .ifFalse => 0x32
  | .longJump .always => 0x33
  | .longJump .ifTrue => 0x34
  | .longJump .ifFalse => 0x35
  | .send => 0x40
  | .superSend => 0x41
  | .createBlock => 0x48
  | .special index => firstSpecial + index

/-- The opcode of a byte, if it is one. -/
def ofByte? (b : UInt8) : Option Opcode :=
  match b with
  | 0x00 => some (.push .receiver)
  | 0x01 => some (.push .temporary)
  | 0x02 => some .pushLiteral
  | 0x03 => some (.push .literal)
  | 0x04 => some (.store .receiver)
  | 0x05 => some (.store .temporary)
  | 0x06 => some (.store .literal)
  | 0x07 => some (.popInto .receiver)
  | 0x08 => some (.popInto .temporary)
  | 0x09 => some (.popInto .literal)
  | 0x10 => some (.constant .self)
  | 0x11 => some (.constant .nil)
  | 0x12 => some (.constant .true)
  | 0x13 => some (.constant .false)
  | 0x14 => some .thisContext
  | 0x15 => some (.constant .minusOne)
  | 0x16 => some (.constant .zero)
  | 0x17 => some (.constant .one)
  | 0x18 => some (.constant .two)
  | 0x19 => some .dup
  | 0x1A => some .pop
  | 0x20 => some (.methodReturn .top)
  | 0x21 => some (.methodReturn .self)
  | 0x22 => some (.methodReturn .nil)
  | 0x23 => some (.methodReturn .true)
  | 0x24 => some (.methodReturn .false)
  | 0x25 => some .blockReturn
  | 0x30 => some (.jump .always)
  | 0x31 => some (.jump .ifTrue)
  | 0x32 => some (.jump .ifFalse)
  | 0x33 => some (.longJump .always)
  | 0x34 => some (.longJump .ifTrue)
  | 0x35 => some (.longJump .ifFalse)
  | 0x40 => some .send
  | 0x41 => some .superSend
  | 0x48 => some .createBlock
  | b => if firstSpecial ≤ b ∧ b < firstSpecial + 32 then some (.special (b - firstSpecial)) else none

/-- The number of operand bytes. -/
def operandBytes : Opcode → Nat
  | .push _ | .pushLiteral | .store _ | .popInto _ | .jump _ | .createBlock => 1
  | .longJump _ | .send | .superSend => 2
  | .constant _ | .thisContext | .dup | .pop | .methodReturn _ | .blockReturn | .special _ => 0

/-- The number of bytes of an instruction with this opcode. -/
def width (o : Opcode) : Nat :=
  o.operandBytes + 1

/-- The width announced by a byte, if it is an opcode. -/
def widthOfByte? (b : UInt8) : Option Nat :=
  (ofByte? b).map width

end Opcode

end ObjectMachine
