import ObjectMachine.Instruction.Basic
import ObjectMachine.Instruction.SpecialSelector
import ObjectMachine.Text.Radix

/-!
# Instructions in text

The mnemonics of instructions, the spelling of an instruction with its operands, and the way back
from a mnemonic and operands to an instruction.
-/

namespace ObjectMachine

def Variable.mnemonic : Variable → String
  | .receiver => "RECEIVER_VARIABLE"
  | .temporary => "TEMPORARY"
  | .literal => "LITERAL_VARIABLE"

def Constant.mnemonic : Constant → String
  | .self => "SELF"
  | .nil => "NIL"
  | .true => "TRUE"
  | .false => "FALSE"
  | .minusOne => "MINUS_ONE"
  | .zero => "ZERO"
  | .one => "ONE"
  | .two => "TWO"

def Answer.mnemonic : Answer → String
  | .top => "TOP"
  | .self => "SELF"
  | .nil => "NIL"
  | .true => "TRUE"
  | .false => "FALSE"

def Branch.mnemonic : Branch → String
  | .always => ""
  | .ifTrue => "_IF_TRUE"
  | .ifFalse => "_IF_FALSE"

namespace Opcode

/-- The mnemonic of an opcode. -/
def mnemonic : Opcode → String
  | .push v => "PUSH_" ++ v.mnemonic
  | .pushLiteral => "PUSH_LITERAL_CONSTANT"
  | .store v => "STORE_" ++ v.mnemonic
  | .popInto v => "POP_INTO_" ++ v.mnemonic
  | .constant c => "PUSH_" ++ c.mnemonic
  | .thisContext => "PUSH_THIS_CONTEXT"
  | .dup => "DUP"
  | .pop => "POP"
  | .methodReturn a => "RETURN_" ++ a.mnemonic
  | .blockReturn => "BLOCK_RETURN"
  | .jump b => "JUMP" ++ b.mnemonic
  | .longJump b => "LONG_JUMP" ++ b.mnemonic
  | .send => "SEND"
  | .superSend => "SUPER_SEND"
  | .createBlock => "CREATE_BLOCK"
  | .special _ => "SEND_SPECIAL"

/-- The opcode with a mnemonic; all special sends share one. -/
def ofMnemonic? (name : String) : Option Opcode :=
  (List.range 256).findSome? fun n =>
    (ofByte? n.toUInt8).bind fun o => if o.mnemonic == name then some o else none

end Opcode

namespace Instruction

/-- The mnemonic of an instruction. -/
def mnemonic (i : Instruction) : String :=
  i.opcode.mnemonic

/-- The mnemonic, padded to the width of a column. -/
def paddedMnemonic (i : Instruction) : String :=
  Text.padRight 26 i.mnemonic

/-- A mnemonic in one word: capitals begin its parts, and the underlines are gone. -/
def oneWord (name : String) : String :=
  let step (state : Bool × List Char) (c : Char) : Bool × List Char :=
    if c = '_' then (true, state.2)
    else (false, (if state.1 then c else c.toLower) :: state.2)
  String.ofList (name.toList.foldl step (true, [])).2.reverse

/-- The operands of an instruction as numbers. -/
def operandValues : Instruction → List Int
  | .push _ n | .pushLiteral n | .store _ n | .popInto _ n | .createBlock n | .special n =>
    [n.toNat]
  | .jump _ offset => [offset.toInt]
  | .longJump _ offset => [offset.toInt]
  | .send selector argCount | .superSend selector argCount => [selector.toNat, argCount.toNat]
  | _ => []

/-- An instruction as a term: its name and its operands in brackets. -/
def term (i : Instruction) : String :=
  let name := oneWord i.mnemonic
  match i.operandValues with
  | [] => name
  | values => name ++ "(" ++ String.intercalate ", " (values.map Text.decimal) ++ ")"

/-- An instruction on one line: sends name their operands, special sends their selector, jumps their
offset. -/
def text (i : Instruction) : String :=
  match i with
  | .send selector argCount | .superSend selector argCount =>
    s!"{i.mnemonic} {selector.toNat} {argCount.toNat}"
  | .special index =>
    match specialSelectors[index.toNat]? with
    | some selector => s!"{i.mnemonic} #{selector.name}"
    | none => s!"{i.mnemonic} {index.toNat}"
  | _ =>
    match i.jumpOffset? with
    | some offset => i.mnemonic ++ " " ++ Text.signed offset
    | none => i.mnemonic

/-- The instruction with a mnemonic and operands. -/
def parse? (name : String) (operands : List Int) : Option Instruction := do
  let small (n : Int) : Option UInt8 := if 0 ≤ n ∧ n < 256 then some n.toNat.toUInt8 else none
  let opcode ← Opcode.ofMnemonic? name
  match opcode, operands with
  | .special _, [index] => return .special (← small index)
  | .jump b, [offset] => return .jump b (Int8.ofInt offset)
  | .longJump b, [offset] => return .longJump b (Int16.ofInt offset)
  | _, _ => ofOperands? opcode (← operands.mapM small)

end Instruction

end ObjectMachine
