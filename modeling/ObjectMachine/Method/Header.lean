import ObjectMachine.Ref

/-!
# Method headers

Every compiled method keeps what its activation needs in one word.

```
 31  29 28     24 23      18 17         10 9               2 1  0
| flag | args    | temps    | stack depth  | primitive index  | 01 |
```

The low bits make the whole header a small integer, so that the collector never takes it for a
reference. The count of temporaries includes the arguments.
-/

namespace ObjectMachine

/-- How a method is executed. -/
inductive MethodFlag where
  /-- Run the primitive, if there is one, and then the instructions. -/
  | normal
  /-- Answer the receiver without an activation. -/
  | returnSelf
  /-- Answer a field of the receiver without an activation. The index of the primitive is the index
  of the field. -/
  | returnField
  /-- Answer the first literal without an activation. -/
  | returnLiteral
  deriving DecidableEq, Inhabited, Repr

namespace MethodFlag

/-- The number of a flag. -/
def code : MethodFlag → Nat
  | .normal => 0
  | .returnSelf => 1
  | .returnField => 2
  | .returnLiteral => 3

/-- The flag with a number. -/
def ofCode? : Nat → Option MethodFlag
  | 0 => some .normal
  | 1 => some .returnSelf
  | 2 => some .returnField
  | 3 => some .returnLiteral
  | _ => none

theorem ofCode?_code (f : MethodFlag) : ofCode? f.code = some f := by
  cases f <;> rfl

/-- Whether methods with a flag are answered without an activation. -/
def isTrivial : MethodFlag → Bool
  | .normal => false
  | _ => true

/-- The name of a flag. -/
def name : MethodFlag → String
  | .normal => "Normal"
  | .returnSelf => "ReturnSelf"
  | .returnField => "ReturnInstanceVariable"
  | .returnLiteral => "ReturnLiteral"

end MethodFlag

/-- A count that does not fit a method header. -/
inductive HeaderProblem where
  | tooManyArguments (count : Nat)
  | tooManyTemporaries (count : Nat)
  | uncoveredArguments (temporaries arguments : Nat)
  | stackTooDeep (depth : Nat)
  | primitiveOutOfRange (index : Nat)
  deriving DecidableEq, Repr

/-- The packed header of a method. -/
structure MethodHeader where
  bits : UInt32
  deriving DecidableEq, Inhabited, Repr

namespace MethodHeader

def maxArguments : Nat := 31
def maxTemporaries : Nat := 63
def maxStackDepth : Nat := 255
def maxPrimitive : Nat := 255

end MethodHeader

/-- The report of a count that does not fit. -/
def HeaderProblem.message : HeaderProblem → String
  | .tooManyArguments count =>
    s!"too many arguments: {count} (at most {MethodHeader.maxArguments})"
  | .tooManyTemporaries count =>
    s!"too many temporaries: {count} (at most {MethodHeader.maxTemporaries})"
  | .uncoveredArguments temporaries arguments =>
    s!"temporary count {temporaries} does not cover the {arguments} arguments"
  | .stackTooDeep depth => s!"stack too deep: {depth} (at most {MethodHeader.maxStackDepth})"
  | .primitiveOutOfRange index => s!"primitive index out of range: {index}"

namespace MethodHeader

/-- Packs counts that fit. -/
def pack (flag : MethodFlag) (arguments temporaries depth primitive : Nat) : MethodHeader :=
  ⟨(flag.code.toUInt32 <<< 29) ||| (arguments.toUInt32 <<< 24) ||| (temporaries.toUInt32 <<< 18) |||
    (depth.toUInt32 <<< 10) ||| (primitive.toUInt32 <<< 2) ||| 1⟩

/-- The header with a flag and counts, which are checked in the order of the fields. -/
def make (flag : MethodFlag) (arguments temporaries depth primitive : Nat) :
    Except HeaderProblem MethodHeader :=
  if maxArguments < arguments then .error (.tooManyArguments arguments)
  else if maxTemporaries < temporaries then .error (.tooManyTemporaries temporaries)
  else if temporaries < arguments then .error (.uncoveredArguments temporaries arguments)
  else if maxStackDepth < depth then .error (.stackTooDeep depth)
  else if maxPrimitive < primitive then .error (.primitiveOutOfRange primitive)
  else .ok (pack flag arguments temporaries depth primitive)

/-- Reads a header from the field of a method. -/
@[inline] def ofRef (r : Ref) : MethodHeader :=
  ⟨r.bits.toUInt32⟩

/-- The word that a method keeps its header in. -/
@[inline] def toRef (h : MethodHeader) : Ref :=
  ⟨h.bits.toUInt64⟩

/-- The flag, unless it is one of the reserved numbers. -/
@[inline] def flag? (h : MethodHeader) : Option MethodFlag :=
  MethodFlag.ofCode? (h.bits >>> 29).toNat

@[inline] def argCount (h : MethodHeader) : Nat :=
  ((h.bits >>> 24) &&& 0x1F).toNat

@[inline] def tempCount (h : MethodHeader) : Nat :=
  ((h.bits >>> 18) &&& 0x3F).toNat

@[inline] def stackDepth (h : MethodHeader) : Nat :=
  ((h.bits >>> 10) &&& 0xFF).toNat

@[inline] def primitiveIndex (h : MethodHeader) : Nat :=
  ((h.bits >>> 2) &&& 0xFF).toNat

/-- The slots that an activation needs: temporaries, then the operand stack. -/
@[inline] def frameSize (h : MethodHeader) : Nat :=
  h.tempCount + h.stackDepth

/-- The text of a header. -/
def text (h : MethodHeader) : String :=
  let flag := match h.flag? with
    | some flag => "Some(" ++ flag.name ++ ")"
    | none => "None"
  "MethodHeader \x7b flag: " ++ flag ++ ", args: " ++ Nat.repr h.argCount ++ ", temps: " ++
    Nat.repr h.tempCount ++ ", depth: " ++ Nat.repr h.stackDepth ++ ", primitive: " ++
    Nat.repr h.primitiveIndex ++ " \x7d"

end MethodHeader

end ObjectMachine
