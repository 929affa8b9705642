import ObjectMachine.Text.Radix

/-!
# Mistakes in assembly

What can be wrong with the description of a method: operands that do not fit a byte, labels that are
not bound exactly once, jumps that are too long, too many literals.
-/

namespace ObjectMachine

/-- What an operand byte counts. -/
inductive OperandKind where
  | literal
  | temporary
  | field
  | argCount
  | blockArgCount
  deriving DecidableEq, Repr

def OperandKind.name : OperandKind → String
  | .literal => "literal"
  | .temporary => "temporary"
  | .field => "instance variable"
  | .argCount => "argument count"
  | .blockArgCount => "block argument count"

/-- A mistake in the description of a method. -/
inductive AssemblyProblem where
  | operandTooLarge (kind : OperandKind) (value : Nat)
  | labelBoundTwice (label : Nat)
  | foreignLabel (label : Nat)
  | unboundLabel (position : Nat)
  | jumpTooFar (position : Nat) (offset : Int)
  | shortJumpTooFar (position : Nat) (offset : Int)
  | tooManyLiterals (count : Nat)
  deriving DecidableEq, Repr

/-- The report of a mistake. -/
def AssemblyProblem.message : AssemblyProblem → String
  | .operandTooLarge kind value => s!"{kind.name} {value} does not fit in an operand"
  | .labelBoundTwice label => s!"label {label} bound twice"
  | .foreignLabel label => s!"label {label} belongs to another builder"
  | .unboundLabel position => s!"jump at {position} to a label that was never bound"
  | .jumpTooFar position offset => s!"jump at {position} too far: {Text.decimal offset}"
  | .shortJumpTooFar position offset => s!"short jump at {position} too far: {Text.decimal offset}"
  | .tooManyLiterals count => s!"too many literals: {count}"

end ObjectMachine
