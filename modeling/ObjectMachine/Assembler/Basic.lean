import ObjectMachine.Assembler.Code
import ObjectMachine.Assembler.Problem
import ObjectMachine.Instruction.Basic
import ObjectMachine.Instruction.SpecialSelector
import ObjectMachine.Method.Header

/-!
# The assembler

An assembler takes code piece by piece and keeps the bytes, literals and labels so far. Mistakes are
recorded, the first one only, and reported at the end.

The depth of the operand stack is followed in the order of emission. It grows with every push and
never falls below zero, so the greatest depth met is a bound for code in which both branches of a
decision leave the stack alike.
-/

namespace ObjectMachine

/-- A jump whose offset is filled in at the end. -/
structure Fixup where
  /-- The number of the label that it leads to. -/
  label : Nat
  /-- Where the jump ends. Offsets count from there. -/
  endPosition : Nat
  /-- Whether the offset has two bytes. -/
  isLong : Bool
  deriving DecidableEq, Repr

/-- A method in the making. -/
structure Assembler where
  argCount : Nat
  /-- The temporaries besides the arguments. -/
  extraTemps : Nat
  flag : MethodFlag
  primitive : Nat
  literals : Array Literal
  bytes : Array UInt8
  /-- The positions of the labels, as far as they are bound. -/
  labels : Array (Option Nat)
  /-- The numbers of the labels with names. -/
  labelNames : List (String × Nat)
  fixups : Array Fixup
  depth : Nat
  maxDepth : Nat
  usesSuper : Bool
  problem? : Option AssemblyProblem
  deriving Repr

namespace Assembler

/-- A method without code. -/
def ofArgCount (argCount : Nat) : Assembler where
  argCount := argCount
  extraTemps := 0
  flag := .normal
  primitive := 0
  literals := #[]
  bytes := #[]
  labels := #[]
  labelNames := []
  fixups := #[]
  depth := 0
  maxDepth := 0
  usesSuper := false
  problem? := none

/-! ## Bookkeeping -/

/-- Records a mistake, unless one is recorded already. -/
def report (a : Assembler) (problem : AssemblyProblem) : Assembler :=
  match a.problem? with
  | some _ => a
  | none => { a with problem? := some problem }

/-- Counts values pushed. -/
def grow (a : Assembler) (count : Nat) : Assembler :=
  { a with depth := a.depth + count, maxDepth := max a.maxDepth (a.depth + count) }

/-- Counts values popped. -/
def shrink (a : Assembler) (count : Nat) : Assembler :=
  { a with depth := a.depth - count }

/-- Appends an instruction. -/
def emit (a : Assembler) (i : Instruction) : Assembler :=
  { a with bytes := a.bytes ++ i.encode }

/-- The position of the next instruction. -/
def position (a : Assembler) : Nat :=
  a.bytes.size

/-- The operand byte of a number. One that does not fit is a mistake. -/
def operand (a : Assembler) (kind : OperandKind) (value : Nat) : UInt8 × Assembler :=
  if value < 256 then (value.toUInt8, a) else (0, a.report (.operandTooLarge kind value))

/-- The place of a constant among the literals, which is made if no literal shares one. -/
def literalPlace (a : Assembler) (value : Literal) : Nat × Assembler :=
  match a.literals.findIdx? (·.shares value) with
  | some index => (index, a)
  | none => (a.literals.size, { a with literals := a.literals.push value })

/-- The operand byte that designates a constant. -/
def literalOperand (a : Assembler) (value : Literal) : UInt8 × Assembler :=
  let (index, a) := a.literalPlace value
  a.operand .literal index

/-! ## Declarations -/

/-- Declares temporaries besides the arguments, which they follow. -/
def withTemporaries (a : Assembler) (count : Nat) : Assembler :=
  { a with extraTemps := count }

/-- Lets a primitive be tried first. -/
def withPrimitive (a : Assembler) (index : Nat) : Assembler :=
  { a with primitive := index }

/-- Lets the method answer its receiver without an activation. -/
def returningSelf (a : Assembler) : Assembler :=
  { a with flag := .returnSelf }

/-- Lets the method answer a field of its receiver without an activation. -/
def returningField (a : Assembler) (index : Nat) : Assembler :=
  { a with flag := .returnField, primitive := index }

/-- Lets the method answer its first literal without an activation, and adds a literal. -/
def returningLiteral (a : Assembler) (value : Literal) : Assembler :=
  ({ a with flag := .returnLiteral }.literalOperand value).2

/-! ## Variables and constants -/

/-- What a place is to an instruction: the kind of variable and its operand. -/
def placeOperand (a : Assembler) : Place → Variable × UInt8 × Assembler
  | .temporary index => (.temporary, a.operand .temporary index)
  | .field index => (.receiver, a.operand .field index)
  | .global name => (.literal, a.literalOperand (.global name))

def emitPush (a : Assembler) (place : Place) : Assembler :=
  let (kind, index, a) := a.placeOperand place
  (a.emit (.push kind index)).grow 1

def emitStore (a : Assembler) (place : Place) : Assembler :=
  let (kind, index, a) := a.placeOperand place
  a.emit (.store kind index)

def emitPopInto (a : Assembler) (place : Place) : Assembler :=
  let (kind, index, a) := a.placeOperand place
  (a.emit (.popInto kind index)).shrink 1

def emitConstant (a : Assembler) (value : Constant) : Assembler :=
  (a.emit (.constant value)).grow 1

def emitLiteral (a : Assembler) (value : Literal) : Assembler :=
  let (index, a) := a.literalOperand value
  (a.emit (.pushLiteral index)).grow 1

def emitInteger (a : Assembler) (value : Int) : Assembler :=
  if value = -1 then a.emitConstant .minusOne
  else if value = 0 then a.emitConstant .zero
  else if value = 1 then a.emitConstant .one
  else if value = 2 then a.emitConstant .two
  else a.emitLiteral (.integer value)

/-! ## Returns and sends -/

def emitReturn (a : Assembler) (answer : Answer) : Assembler :=
  let a := a.emit (.methodReturn answer)
  if answer = .top then a.shrink 1 else a

/-- A send by an instruction with a selector and an argument count. -/
def emitSendBy (a : Assembler) (make : UInt8 → UInt8 → Instruction) (selector : String)
    (argCount : Nat) : Assembler :=
  let (index, a) := a.literalOperand (.symbol selector)
  let (count, a) := a.operand .argCount argCount
  (a.emit (make index count)).shrink count.toNat

def emitSend (a : Assembler) (selector : String) (argCount : Nat) : Assembler :=
  match specialIndex? selector argCount with
  | some index => (a.emit (.special index.toUInt8)).shrink argCount
  | none => a.emitSendBy .send selector argCount

def emitSuperSend (a : Assembler) (selector : String) (argCount : Nat) : Assembler :=
  { a with usesSuper := true }.emitSendBy .superSend selector argCount

/-! ## Labels and jumps -/

/-- Makes a label and answers its number. -/
def newLabel (a : Assembler) : Nat × Assembler :=
  (a.labels.size, { a with labels := a.labels.push none })

/-- The number of a label. One with a new name is made. -/
def labelNumber (a : Assembler) : Label → Nat × Assembler
  | .numbered number => (number, a)
  | .named name =>
    match a.labelNames.lookup name with
    | some number => (number, a)
    | none =>
      let (number, a) := a.newLabel
      (number, { a with labelNames := (name, number) :: a.labelNames })

/-- Makes the label with a number designate the next instruction. -/
def bindNumber (a : Assembler) (number : Nat) : Assembler :=
  match a.labels[number]? with
  | some none => { a with labels := a.labels.setIfInBounds number (some a.position) }
  | some (some _) => a.report (.labelBoundTwice number)
  | none => a.report (.foreignLabel number)

/-- A jump to the label with a number. -/
def jumpToNumber (a : Assembler) (branch : Branch) (isLong : Bool) (number : Nat) : Assembler :=
  let a := if branch = .always then a else a.shrink 1
  let a := a.emit (if isLong then .longJump branch 0 else .jump branch 0)
  { a with fixups := a.fixups.push ⟨number, a.position, isLong⟩ }

def emitBind (a : Assembler) (label : Label) : Assembler :=
  let (number, a) := a.labelNumber label
  a.bindNumber number

def emitJump (a : Assembler) (branch : Branch) (isLong : Bool) (label : Label) : Assembler :=
  let (number, a) := a.labelNumber label
  a.jumpToNumber branch isLong number

/-! ## Code -/

/-- Opens a block: its creation and the jump over its body, whose label is answered. -/
def openBlock (a : Assembler) (argCount : Nat) : Nat × Assembler :=
  let (operand, a) := a.operand .blockArgCount argCount
  let (last, a) := (a.emit (.createBlock operand)).newLabel
  (last, a.jumpToNumber .always true last)

mutual

/-- Takes a piece of code. -/
def add (a : Assembler) : Code → Assembler
  | .push place => a.emitPush place
  | .store place => a.emitStore place
  | .popInto place => a.emitPopInto place
  | .constant value => a.emitConstant value
  | .thisContext => (a.emit .thisContext).grow 1
  | .integer value => a.emitInteger value
  | .literal value => a.emitLiteral value
  | .dup => (a.emit .dup).grow 1
  | .pop => (a.emit .pop).shrink 1
  | .methodReturn answer => a.emitReturn answer
  | .blockReturn => (a.emit .blockReturn).shrink 1
  | .send selector argCount => a.emitSend selector argCount
  | .sendGeneral selector argCount => a.emitSendBy .send selector argCount
  | .superSend selector argCount => a.emitSuperSend selector argCount
  | .bind label => a.emitBind label
  | .jump branch label => a.emitJump branch true label
  | .shortJump branch label => a.emitJump branch false label
  | .block argCount body =>
    let (last, a) := a.openBlock argCount
    let outer := a.depth
    let a := ({ a with depth := 0 }.grow argCount).addAll body
    { a.bindNumber last with depth := outer }.grow 1
  | .whileTrue condition body =>
    let (start, a) := a.newLabel
    let (done, a) := a.newLabel
    let a := (a.bindNumber start).addAll condition
    let a := (a.jumpToNumber .ifFalse true done).addAll body
    (a.jumpToNumber .always true start).bindNumber done
  | .ifTrueIfFalse yes no =>
    let (otherwise, a) := a.newLabel
    let (done, a) := a.newLabel
    let a := a.jumpToNumber .ifFalse true otherwise
    let before := a.depth
    let a := (a.addAll yes).jumpToNumber .always true done
    (({ a with depth := before }.bindNumber otherwise).addAll no).bindNumber done

/-- Takes pieces of code in order. -/
def addAll (a : Assembler) : List Code → Assembler
  | [] => a
  | piece :: rest => (a.add piece).addAll rest

end

end Assembler

end ObjectMachine
