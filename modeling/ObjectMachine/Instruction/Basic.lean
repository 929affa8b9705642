import ObjectMachine.Fatal
import ObjectMachine.Instruction.Opcode

/-!
# Instructions

Instructions with their operands, and their bytes. Jump offsets count from the end of the jump;
long ones have their high byte first. `Instruction.encode` writes an instruction and
`Instruction.decode?` reads the one at a position.
-/

namespace ObjectMachine

/-- An instruction. -/
inductive Instruction where
  | push (place : Variable) (index : UInt8)
  | pushLiteral (index : UInt8)
  | store (place : Variable) (index : UInt8)
  | popInto (place : Variable) (index : UInt8)
  | constant (value : Constant)
  | thisContext
  | dup
  | pop
  | methodReturn (answer : Answer)
  | blockReturn
  | jump (branch : Branch) (offset : Int8)
  | longJump (branch : Branch) (offset : Int16)
  /-- Sends the selector at a literal index with a number of arguments. -/
  | send (selector argCount : UInt8)
  /-- The same, with the lookup starting above the class of the method. -/
  | superSend (selector argCount : UInt8)
  /-- Creates a block that takes a number of arguments. -/
  | createBlock (argCount : UInt8)
  /-- Sends one of the special selectors. -/
  | special (index : UInt8)
  deriving DecidableEq, Repr

namespace Instruction

/-- The opcode of an instruction. -/
def opcode : Instruction → Opcode
  | .push v _ => .push v
  | .pushLiteral _ => .pushLiteral
  | .store v _ => .store v
  | .popInto v _ => .popInto v
  | .constant c => .constant c
  | .thisContext => .thisContext
  | .dup => .dup
  | .pop => .pop
  | .methodReturn a => .methodReturn a
  | .blockReturn => .blockReturn
  | .jump b _ => .jump b
  | .longJump b _ => .longJump b
  | .send _ _ => .send
  | .superSend _ _ => .superSend
  | .createBlock _ => .createBlock
  | .special index => .special index

/-- The number of bytes of an instruction. -/
def width (i : Instruction) : Nat :=
  i.opcode.width

/-- The two bytes of a long offset, high byte first. -/
def longBytes (offset : Int16) : List UInt8 :=
  [(offset.toUInt16 >>> 8).toUInt8, offset.toUInt16.toUInt8]

/-- The long offset with two bytes. -/
def longOffset (high low : UInt8) : Int16 :=
  ((high.toUInt16 <<< 8) ||| low.toUInt16).toInt16

/-- The operand bytes of an instruction. -/
def operands : Instruction → List UInt8
  | .push _ index | .pushLiteral index | .store _ index | .popInto _ index | .createBlock index =>
    [index]
  | .jump _ offset => [offset.toUInt8]
  | .longJump _ offset => longBytes offset
  | .send selector argCount | .superSend selector argCount => [selector, argCount]
  | .constant _ | .thisContext | .dup | .pop | .methodReturn _ | .blockReturn | .special _ => []

/-- The bytes of an instruction. -/
def encode (i : Instruction) : List UInt8 :=
  i.opcode.byte :: i.operands

/-- The instruction with an opcode and the operand bytes at the beginning of a sequence. -/
def ofOperands? (o : Opcode) (bytes : List UInt8) : Option Instruction :=
  match o, bytes with
  | .push v, index :: _ => some (.push v index)
  | .pushLiteral, index :: _ => some (.pushLiteral index)
  | .store v, index :: _ => some (.store v index)
  | .popInto v, index :: _ => some (.popInto v index)
  | .constant c, _ => some (.constant c)
  | .thisContext, _ => some .thisContext
  | .dup, _ => some .dup
  | .pop, _ => some .pop
  | .methodReturn a, _ => some (.methodReturn a)
  | .blockReturn, _ => some .blockReturn
  | .jump b, offset :: _ => some (.jump b offset.toInt8)
  | .longJump b, high :: low :: _ => some (.longJump b (longOffset high low))
  | .send, selector :: argCount :: _ => some (.send selector argCount)
  | .superSend, selector :: argCount :: _ => some (.superSend selector argCount)
  | .createBlock, argCount :: _ => some (.createBlock argCount)
  | .special index, _ => some (.special index)
  | _, _ => none

/-- The instruction at the beginning of a sequence of bytes. -/
def read? : List UInt8 → Option Instruction
  | [] => none
  | b :: rest => (Opcode.ofByte? b).bind (ofOperands? · rest)

/-- The instruction at a position. There is none where a byte is no opcode or operands are
missing. -/
def decode? (bytes : List UInt8) (pc : Nat) : Option Instruction :=
  read? (bytes.drop pc)

/-- There is an instruction only at a position inside the bytes. -/
theorem lt_length_of_decode? {bytes : List UInt8} {pc : Nat} {i : Instruction}
    (h : decode? bytes pc = some i) : pc < bytes.length := by
  apply Nat.lt_of_not_le
  intro hle
  simp [decode?, List.drop_eq_nil_of_le hle, read?] at h

theorem width_pos (i : Instruction) : 0 < i.width :=
  Nat.succ_pos _

/-- The instructions from a position on, each with its own, until there is none. -/
def decodeFrom (bytes : List UInt8) (pc : Nat) : List (Nat × Instruction) :=
  match _h : decode? bytes pc with
  | none => []
  | some i => (pc, i) :: decodeFrom bytes (pc + i.width)
termination_by bytes.length - pc
decreasing_by
  have := lt_length_of_decode? ‹_›
  have := i.width_pos
  omega

/-- Where a sequence of instructions with positions ends. -/
def endOf : List (Nat × Instruction) → Nat
  | [] => 0
  | [(pc, i)] => pc + i.width
  | _ :: rest => endOf rest

/-- Whether the opcode byte exists: a special selector may be numbered too high for one. -/
def isEncodable : Instruction → Bool
  | .special index => index < 160
  | _ => true

/-- The bytes of a sequence of instructions. -/
def encodeAll (code : List Instruction) : Except Fatal (List UInt8) :=
  if code.all isEncodable then .ok (code.flatMap encode) else .error (.fault .overflow)

/-- How far an instruction jumps. -/
def jumpOffset? : Instruction → Option Int
  | .jump _ offset => some offset.toInt
  | .longJump _ offset => some offset.toInt
  | _ => none

end Instruction

end ObjectMachine
