import ObjectMachine.Primitive.Basic
import ObjectMachine.Primitive.Control
import ObjectMachine.Primitive.Indexable
import ObjectMachine.Primitive.Number
import ObjectMachine.Primitive.Object

/-!
# Invoking primitives

Every primitive takes a fixed number of arguments, block evaluation apart, and fails when it is sent
with another number.
-/

namespace ObjectMachine

/-- Does what a primitive stands for, with the receiver below a number of arguments on the stack. -/
def Primitive.run (p : Primitive) (argCount : Nat) : Action Verdict :=
  match p with
  | .small op => Machine.expecting 1 argCount (Machine.smallArithmetic op)
  | .smallCompare op => Machine.expecting 1 argCount (Machine.smallComparison op)
  | .smallAsFloat => Machine.expecting 0 argCount Machine.smallAsFloat
  | .smallAsCharacter => Machine.expecting 0 argCount Machine.smallAsCharacter
  | .smallAtRandom => Machine.expecting 0 argCount Machine.smallAtRandom
  | .integer op => Machine.expecting 1 argCount (Machine.integerArithmetic op)
  | .integerCompare op => Machine.expecting 1 argCount (Machine.integerComparison op)
  | .integerPrint => Machine.expecting 0 argCount Machine.integerPrint
  | .float op => Machine.expecting 1 argCount (Machine.floatArithmetic op)
  | .floatCompare op => Machine.expecting 1 argCount (Machine.floatComparison op)
  | .floatTruncated => Machine.expecting 0 argCount Machine.floatTruncated
  | .floatPrint => Machine.expecting 0 argCount Machine.floatPrint
  | .elementAt => Machine.expecting 1 argCount Machine.elementAt
  | .elementAtPut => Machine.expecting 2 argCount Machine.elementAtPut
  | .size => Machine.expecting 0 argCount Machine.indexableSize
  | .basicNew => Machine.expecting 0 argCount Machine.basicNew
  | .basicNewSized => Machine.expecting 1 argCount Machine.basicNewSized
  | .fieldAt => Machine.expecting 1 argCount Machine.fieldAt
  | .fieldAtPut => Machine.expecting 2 argCount Machine.fieldAtPut
  | .identityHash => Machine.expecting 0 argCount Machine.identityHash
  | .blockValue => Machine.blockValue argCount
  | .blockValueWithArguments => Machine.expecting 1 argCount Machine.blockValueWithArguments
  | .characterValue => Machine.expecting 0 argCount Machine.characterValue
  | .notIdentical => Machine.expecting 1 argCount (Machine.identity false)
  | .identical => Machine.expecting 1 argCount (Machine.identity true)
  | .classOf => Machine.expecting 0 argCount Machine.receiverClass
  | .exit => Machine.expecting 1 argCount Machine.exit
  | .fullCollection => Machine.expecting 0 argCount Machine.fullCollection

/-- Does what the primitive with an index stands for. An index without a primitive fails. -/
def Machine.invoke (index argCount : Nat) : Action Verdict :=
  match Primitive.ofIndex? index with
  | some p => p.run argCount
  | none => return .failed

end ObjectMachine
