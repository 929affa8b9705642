import ObjectMachine.Instruction.Mnemonic
import ObjectMachine.Machine.Describe
import ObjectMachine.Primitive.Basic
import ObjectMachine.Text.Blank

/-!
# Listings

A compiled method as text: a summary of its header, then a line for each instruction with its
position, its operands and what they refer to. The bodies of blocks are indented. A listing ends
where the bytes stop being instructions.
-/

namespace ObjectMachine.Listing

/-! ## Header -/

/-- What the summary says about how a method is executed. -/
def executionText (m : Machine) (method : Ref) (header : MethodHeader) : Except Fatal String := do
  let index := header.primitiveIndex
  match header.flag? with
  | some .normal =>
    if index = 0 then return ""
    let name := ((Primitive.ofIndex? index).map Primitive.name).getD "unknown"
    return s!", primitive {index} ({name})"
  | some .returnSelf => return ", answers self"
  | some .returnField => return s!", answers instance variable {index}"
  | some .returnLiteral => return ", answers " ++ (← m.describe (← Method.literal m.heap method 0))
  | none => return ", reserved flag"

/-- The summary of a method. -/
def summary (m : Machine) (method : Ref) : Except Fatal String := do
  let header ← Method.header m.heap method
  let counts := s!"; {header.argCount} args, {header.tempCount} temps, stack depth {header.stackDepth}"
  return counts ++ (← executionText m method header)

/-! ## Operands -/

/-- The description of a literal. -/
def literalText (m : Machine) (method : Ref) (index : Nat) : Except Fatal String := do
  if index < (← Method.literalCount m.heap method) then
    m.describe (← Method.literal m.heap method index)
  else return "invalid literal"

/-- The name of the global that a literal binds. The binding of a class has no name. -/
def bindingText (m : Machine) (method : Ref) (index : Nat) : Except Fatal String := do
  if index < (← Method.literalCount m.heap method) then
    let binding ← Method.literal m.heap method index
    if ← Association.hasShape m.heap binding then
      let key ← m.heap.fetchField binding Association.keyField
      return (← m.stringValue? key).getD "method class"
    else return "not a binding"
  else return "invalid literal"

/-- The operand of an instruction on a variable. -/
def variableText (m : Machine) (method : Ref) (place : Variable) (index : UInt8) :
    Except Fatal String := do
  match place with
  | .receiver | .temporary => return s!" {index.toNat}"
  | .literal => return s!" {index.toNat} (" ++ (← bindingText m method index.toNat) ++ ")"

/-- Where an instruction leads to, if it is a jump that ends at a position. -/
def jumpTarget? (i : Instruction) (endPosition : Nat) : Option Int :=
  i.jumpOffset?.map ((endPosition : Int) + ·)

/-- The offset and the target of a jump. -/
def jumpText (i : Instruction) (endPosition : Nat) : String :=
  match i.jumpOffset? with
  | some offset => " " ++ Text.signed offset ++ " (to " ++ Text.decimal (endPosition + offset) ++ ")"
  | none => ""

/-- The operands of an instruction that ends at a position. -/
def operandText (m : Machine) (method : Ref) (i : Instruction) (endPosition : Nat) :
    Except Fatal String := do
  match i with
  | .push place index | .store place index | .popInto place index =>
    variableText m method place index
  | .pushLiteral index =>
    return s!" {index.toNat} (" ++ (← literalText m method index.toNat) ++ ")"
  | .send index argCount | .superSend index argCount =>
    return " " ++ (← literalText m method index.toNat) ++ s!" {argCount.toNat}"
  | .special index =>
    return " #" ++ (specialSelectors[index.toNat]?.map SpecialSelector.name).getD "?"
  | .createBlock argCount => return s!" {argCount.toNat}"
  | _ => return jumpText i endPosition

/-! ## Lines -/

/-- Which blocks the next line is inside of. -/
structure Nesting where
  /-- Where the blocks end, the innermost first. -/
  ends : List Nat
  /-- Whether the jump over a block is still to come. -/
  pending : Bool

namespace Nesting

/-- Outside of blocks. -/
def outermost : Nesting :=
  ⟨[], false⟩

/-- Without the blocks that ended before a position. -/
def leaving (n : Nesting) (position : Nat) : Nesting :=
  { n with ends := n.ends.dropWhile (· ≤ position) }

/-- After an instruction that ends at a position. -/
def after (n : Nesting) (i : Instruction) (endPosition : Nat) : Nesting :=
  match i, jumpTarget? i endPosition with
  | .createBlock _, _ => { n with pending := true }
  | _, some target =>
    if n.pending && 0 < target then ⟨target.toNat :: n.ends, false⟩ else { n with pending := false }
  | _, none => n

/-- The beginning of a line at a position. -/
def margin (n : Nesting) (position : Nat) : String :=
  Text.padLeft ' ' 4 (Nat.repr position) ++ " " ++ String.join (n.ends.map fun _ => "  |") ++ " "

end Nesting

/-- The lines of instructions, and the nesting behind them. -/
def instructionLines (m : Machine) (method : Ref) (n : Nesting) :
    List (Nat × Instruction) → Except Fatal (List String × Nesting)
  | [] => .ok ([], n)
  | (position, i) :: rest => do
    let n := n.leaving position
    let endPosition := position + i.width
    let line := n.margin position ++ i.paddedMnemonic ++ (← operandText m method i endPosition)
    let (lines, n) ← instructionLines m method (n.after i endPosition) rest
    return (line :: lines, n)

/-- The line of a byte that begins no instruction. -/
def invalidLine (n : Nesting) (bytes : List UInt8) (position : Nat) : List String :=
  match bytes[position]? with
  | some b => [(n.leaving position).margin position ++ "<invalid " ++ Text.hexByte b ++ ">"]
  | none => []

/-- The lines of a method. A text inside a line may have lines of its own. -/
def lines (m : Machine) (method : Ref) : Except Fatal (List String) := do
  let head ← summary m method
  let bytes ← Method.codeBytes m.heap method
  let code := Instruction.decodeFrom bytes 0
  let (body, n) ← instructionLines m method .outermost code
  let all := head :: body ++ invalidLine n bytes (Instruction.endOf code)
  return (all.flatMap (·.splitOn "\n")).map Text.trimEnd

/-- A method as text. -/
def text (m : Machine) (method : Ref) : Except Fatal String := do
  return String.join ((← lines m method).map (· ++ "\n"))

end ObjectMachine.Listing
