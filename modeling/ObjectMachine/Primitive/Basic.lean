import ObjectMachine.Number.Operation

/-!
# Primitives

The operations that methods may have the machine do for them, by the index under which a method
header names them. A primitive whose operands are not what it handles fails, and the instructions of
the method run instead.
-/

namespace ObjectMachine

/-- An operation that the machine does for a method. -/
inductive Primitive where
  /-- Arithmetic on small integers. -/
  | small (op : Arithmetic)
  | smallCompare (op : Comparison)
  | smallAsFloat
  | smallAsCharacter
  | smallAtRandom
  /-- Arithmetic on integers of any size, or on an integer and a floating-point number. -/
  | integer (op : Arithmetic)
  | integerCompare (op : Comparison)
  | integerPrint
  /-- Arithmetic on a floating-point number and any number. -/
  | float (op : Arithmetic)
  | floatCompare (op : Comparison)
  | floatTruncated
  | floatPrint
  | elementAt
  | elementAtPut
  | size
  | basicNew
  | basicNewSized
  | fieldAt
  | fieldAtPut
  | identityHash
  | blockValue
  | blockValueWithArguments
  | characterValue
  | notIdentical
  | identical
  | classOf
  /-- Ends the run. -/
  | exit
  /-- Runs a full collection. -/
  | fullCollection
  deriving DecidableEq, Repr

namespace Primitive

/-- The primitive with an index. -/
def ofIndex? : Nat → Option Primitive
  | 1 => some (.small .add)
  | 2 => some (.small .subtract)
  | 3 => some (.smallCompare .lessThan)
  | 4 => some (.smallCompare .greaterThan)
  | 5 => some (.smallCompare .lessOrEqual)
  | 6 => some (.smallCompare .greaterOrEqual)
  | 7 => some (.smallCompare .equal)
  | 8 => some (.smallCompare .notEqual)
  | 9 => some (.small .multiply)
  | 10 => some (.small .divide)
  | 11 => some (.small .modulo)
  | 12 => some (.small .floorDivide)
  | 13 => some (.small .truncatingDivide)
  | 14 => some (.small .bitAnd)
  | 15 => some (.small .bitOr)
  | 16 => some (.small .bitXor)
  | 17 => some (.small .bitShift)
  | 18 => some .smallAsFloat
  | 19 => some .smallAsCharacter
  | 21 => some (.integer .add)
  | 22 => some (.integer .subtract)
  | 23 => some (.integerCompare .lessThan)
  | 24 => some (.integerCompare .greaterThan)
  | 25 => some (.integerCompare .lessOrEqual)
  | 26 => some (.integerCompare .greaterOrEqual)
  | 27 => some (.integerCompare .equal)
  | 28 => some (.integerCompare .notEqual)
  | 29 => some (.integer .multiply)
  | 30 => some (.integer .floorDivide)
  | 31 => some (.integer .modulo)
  | 32 => some (.integer .divide)
  | 33 => some .integerPrint
  | 41 => some (.float .add)
  | 42 => some (.float .subtract)
  | 43 => some (.floatCompare .lessThan)
  | 44 => some (.floatCompare .greaterThan)
  | 45 => some (.floatCompare .lessOrEqual)
  | 46 => some (.floatCompare .greaterOrEqual)
  | 47 => some (.floatCompare .equal)
  | 48 => some (.floatCompare .notEqual)
  | 49 => some (.float .multiply)
  | 50 => some (.float .divide)
  | 51 => some .floatTruncated
  | 52 => some .floatPrint
  | 60 => some .elementAt
  | 61 => some .elementAtPut
  | 62 => some .size
  | 70 => some .basicNew
  | 71 => some .basicNewSized
  | 73 => some .fieldAt
  | 74 => some .fieldAtPut
  | 75 => some .identityHash
  | 81 => some .blockValue
  | 82 => some .blockValueWithArguments
  | 90 => some .characterValue
  | 109 => some .notIdentical
  | 110 => some .identical
  | 111 => some .classOf
  | 113 => some .exit
  | 114 => some .fullCollection
  | 115 => some .smallAtRandom
  | _ => none

/-- The class whose instances a primitive is for. -/
def owner : Primitive → String
  | .small _ | .smallCompare _ | .smallAsFloat | .smallAsCharacter | .smallAtRandom => "SmallInteger"
  | .integer _ | .integerCompare _ | .integerPrint => "Integer"
  | .float _ | .floatCompare _ | .floatTruncated | .floatPrint => "Float"
  | .elementAt | .elementAtPut | .size | .fieldAt | .fieldAtPut | .identityHash | .notIdentical
  | .identical | .classOf => "Object"
  | .basicNew | .basicNewSized => "Behavior"
  | .blockValue | .blockValueWithArguments => "BlockContext"
  | .characterValue => "Character"
  | .exit | .fullCollection => "System class"

/-- The selector that a primitive is mainly used under. -/
def selector : Primitive → String
  | .small op | .integer op | .float op => op.selector
  | .smallCompare op | .integerCompare op | .floatCompare op => op.selector
  | .smallAsFloat => "asFloat"
  | .smallAsCharacter => "asCharacter"
  | .smallAtRandom => "atRandom"
  | .integerPrint | .floatPrint => "printString"
  | .floatTruncated => "truncated"
  | .elementAt => "at:"
  | .elementAtPut => "at:put:"
  | .size => "size"
  | .basicNew => "basicNew"
  | .basicNewSized => "basicNew:"
  | .fieldAt => "instVarAt:"
  | .fieldAtPut => "instVarAt:put:"
  | .identityHash => "identityHash"
  | .blockValue => "value"
  | .blockValueWithArguments => "valueWithArguments:"
  | .characterValue => "value"
  | .notIdentical => "~="
  | .identical => "=="
  | .classOf => "class"
  | .exit => "exit:"
  | .fullCollection => "fullGC"

/-- The name that a primitive is listed under. -/
def name (p : Primitive) : String :=
  p.owner ++ ">>#" ++ p.selector

end Primitive

end ObjectMachine
