import ObjectMachine.Primitive.Invoke
import ObjectMachine.Proofs.Machine.Outcomes

/-!
# What primitives compute

Nearly all primitives work in two stages: they compute a value, if their operands are what they
handle, and then replace the operands by it. The first stage does not touch the stack. Those that
change the flow are the exceptions: a block goes on in another context, and the end of a run takes
nothing off the stack.

## Main results

* `Primitive.run_eq`: a primitive that does not change the flow computes its result and answers it.
-/

namespace ObjectMachine

instance : LawfulMonad Action := .mk' Action
  (fun x => funext fun m => by
    show Action.bind x _ m = x m
    unfold Action.bind
    cases x m <;> rfl)
  (fun _ _ => rfl) Action.bind_assoc

namespace Primitive

open Machine ObjectMachine.Action

/-- Whether a primitive goes on with another activation, or with none. -/
def changesFlow : Primitive → Bool
  | .blockValue | .blockValueWithArguments | .exit => true
  | _ => false

/-- The number of arguments that a primitive takes, block evaluation apart. -/
def arity : Primitive → Nat
  | .smallAsFloat | .smallAsCharacter | .smallAtRandom | .integerPrint | .floatTruncated
  | .floatPrint | .size | .basicNew | .identityHash | .blockValue | .characterValue | .classOf
  | .fullCollection => 0
  | .elementAtPut | .fieldAtPut => 2
  | _ => 1

/-- The object of a number, if there is one. -/
def number? : Option Numeral → Action (Option Ref)
  | some value => some <$> newNumber value
  | none => return none

/-- The object of a truth value, if there is one. -/
def boolean? (value : Option Bool) : Action (Option Ref) :=
  return value.map (← getCore).boolean

/-- The value that a primitive computes from its operands. There is none if it fails, or if it does
not answer a value. -/
def result : Primitive → Action (Option Ref)
  | .small op => return (← smallOperands?).bind fun (a, b) => smallResult? op a b
  | .smallCompare op => do boolean? ((← smallOperands?).map fun (a, b) => op.onIntegers a b)
  | .smallAsFloat => do number? ((← peek 0).small?.map fun value => .float (.ofInt value))
  | .smallAsCharacter => return ((← peek 0).small?.bind characterOf?).map Ref.ofChar
  | .smallAtRandom => do
    match (← peek 0).small? with
    | some bound =>
      if 1 ≤ bound then
        let state ← modifyGet fun m =>
          let state := nextRandom m.random
          (state, { m with random := state })
        return some (.ofNat (state.toNat % bound.toNat + 1))
      else return none
    | none => return none
  | .integer op => do number? ((← integerOperands?).bind fun (a, b) => numberResult? op a b)
  | .integerCompare op => do
    boolean? ((← integerOperands?).map fun (a, b) => numberComparison op a b)
  | .integerPrint => do
    let receiver ← peek 0
    match ← inspect (·.integerValue? receiver) with
    | some value => some <$> newString (Text.decimal value)
    | none => return none
  | .float op => do
    number? ((← floatOperands?).bind fun (a, b) => (op.onFloats a b).map .float)
  | .floatCompare op => do boolean? ((← floatOperands?).map fun (a, b) => op.onFloats a b)
  | .floatTruncated => do
    let receiver ← peek 0
    number? (((← inspect (·.floatValue? receiver)).bind Binary64.truncate?).map .integer)
  | .floatPrint => do
    let receiver ← peek 0
    match ← inspect (·.floatValue? receiver) with
    | some value => some <$> newString value.text
    | none => return none
  | .elementAt => do
    let receiver ← peek 1
    let index ← peek 0
    match ← inspect (·.elementPlace? receiver index) with
    | some (format, place) => readElement receiver format place
    | none => return none
  | .elementAtPut => do
    let receiver ← peek 2
    let index ← peek 1
    match ← inspect (·.elementPlace? receiver index) with
    | some (format, place) =>
      let value ← peek 0
      return if ← writeElement receiver format place value then some value else none
    | none => return none
  | .size => do
    let receiver ← peek 0
    match ← inspect (·.openFormat? receiver) with
    | some _ => return some (.ofNat (← read (·.length receiver)))
    | none => return none
  | .basicNew => do
    let cls ← peek 0
    instantiate cls 0
  | .basicNewSized => do
    let cls ← peek 1
    match (← peek 0).small? with
    | some len => if 0 ≤ len then instantiate cls len.toNat else return none
    | none => return none
  | .fieldAt => do
    let receiver ← peek 1
    let index ← peek 0
    match ← inspect (·.fieldPlace? receiver index) with
    | some place => return some (← read (·.fetchField receiver place))
    | none => return none
  | .fieldAtPut => do
    let receiver ← peek 2
    let index ← peek 1
    match ← inspect (·.fieldPlace? receiver index) with
    | some place =>
      let value ← peek 0
      write (·.storeField receiver place value)
      return some value
    | none => return none
  | .identityHash => do
    let receiver ← peek 0
    inspect (·.identityHash? receiver)
  | .characterValue => do
    let receiver ← peek 0
    return if receiver.isCharacter then some (.ofNat receiver.charCode.toNat) else none
  | .notIdentical => do
    let receiver ← peek 1
    let argument ← peek 0
    boolean? (some (decide (receiver = argument) == false))
  | .identical => do
    let receiver ← peek 1
    let argument ← peek 0
    boolean? (some (decide (receiver = argument) == true))
  | .classOf => do
    let receiver ← peek 0
    return some (← inspect (·.classOf receiver))
  | .fullCollection => do
    let reclaimed ← collectGarbage
    return some ((Ref.ofInt? reclaimed).getD (.ofInt Ref.maxSmall))
  | .blockValue | .blockValueWithArguments | .exit => return none

theorem answerNumber?_eq (argCount : Nat) (value : Option Numeral) :
    answerNumber? argCount value = number? value >>= answer? argCount := by
  cases value <;> simp [answerNumber?, number?, answer?]

theorem answerBoolean?_eq (argCount : Nat) (value : Option Bool) :
    answerBoolean? argCount value = boolean? value >>= answer? argCount := by
  cases value with
  | none => rfl
  | some value => simp [answerBoolean?, answerBoolean, boolean?, answer?]

/-- A primitive that does not change the flow computes its result and answers it. -/
theorem run_eq (p : Primitive) (hp : p.changesFlow = false) (argCount : Nat) :
    p.run argCount = expecting p.arity argCount (p.result >>= answer? p.arity) := by
  cases p with
  | blockValue => cases hp
  | blockValueWithArguments => cases hp
  | exit => cases hp
  | small op =>
    apply congrArg (expecting _ argCount)
    simp only [smallArithmetic, result, bind_assoc, pure_bind]
    refine bind_congr fun operands => ?_
    cases operands <;> rfl
  | smallCompare op =>
    apply congrArg (expecting _ argCount)
    simp only [smallComparison, result, bind_assoc, answerBoolean?_eq, arity]
  | smallAsFloat =>
    apply congrArg (expecting _ argCount)
    simp only [Machine.smallAsFloat, result, bind_assoc, answerNumber?_eq, arity]
  | smallAsCharacter =>
    apply congrArg (expecting _ argCount)
    simp only [Machine.smallAsCharacter, result, bind_assoc, pure_bind, arity]
  | smallAtRandom =>
    apply congrArg (expecting _ argCount)
    simp only [Machine.smallAtRandom, result, bind_assoc, arity]
    refine bind_congr fun receiver => ?_
    cases receiver.small? with
    | none => rfl
    | some bound =>
      dsimp only
      split <;> simp [answer?]
  | integer op =>
    apply congrArg (expecting _ argCount)
    simp only [integerArithmetic, result, bind_assoc, answerNumber?_eq, arity]
  | integerCompare op =>
    apply congrArg (expecting _ argCount)
    simp only [integerComparison, result, bind_assoc, answerBoolean?_eq, arity]
  | integerPrint =>
    apply congrArg (expecting _ argCount)
    simp only [Machine.integerPrint, result, bind_assoc, arity]
    refine bind_congr fun receiver => bind_congr fun value => ?_
    cases value <;> simp [answer?]
  | float op =>
    apply congrArg (expecting _ argCount)
    simp only [floatArithmetic, result, bind_assoc, answerNumber?_eq, arity]
  | floatCompare op =>
    apply congrArg (expecting _ argCount)
    simp only [floatComparison, result, bind_assoc, answerBoolean?_eq, arity]
  | floatTruncated =>
    apply congrArg (expecting _ argCount)
    simp only [Machine.floatTruncated, result, bind_assoc, answerNumber?_eq, arity]
  | floatPrint =>
    apply congrArg (expecting _ argCount)
    simp only [Machine.floatPrint, result, bind_assoc, arity]
    refine bind_congr fun receiver => bind_congr fun value => ?_
    cases value <;> simp [answer?]
  | elementAt =>
    apply congrArg (expecting _ argCount)
    simp only [Machine.elementAt, result, bind_assoc, arity]
    refine bind_congr fun receiver => bind_congr fun index => bind_congr fun place => ?_
    cases place <;> rfl
  | elementAtPut =>
    apply congrArg (expecting _ argCount)
    simp only [Machine.elementAtPut, result, bind_assoc, arity]
    refine bind_congr fun receiver => bind_congr fun index => bind_congr fun place => ?_
    cases place with
    | none => rfl
    | some place =>
      simp only [bind_assoc, pure_bind]
      refine bind_congr fun value => bind_congr fun written => ?_
      cases written <;> rfl
  | size =>
    apply congrArg (expecting _ argCount)
    simp only [indexableSize, result, bind_assoc, arity]
    refine bind_congr fun receiver => bind_congr fun format => ?_
    cases format <;> simp [answer?]
  | basicNew =>
    apply congrArg (expecting _ argCount)
    simp only [Machine.basicNew, result, bind_assoc, arity]
  | basicNewSized =>
    apply congrArg (expecting _ argCount)
    simp only [Machine.basicNewSized, result, bind_assoc, arity]
    refine bind_congr fun receiver => bind_congr fun index => ?_
    cases index.small? with
    | none => rfl
    | some len =>
      dsimp only
      split <;> rfl
  | fieldAt =>
    apply congrArg (expecting _ argCount)
    simp only [Machine.fieldAt, result, bind_assoc, arity]
    refine bind_congr fun receiver => bind_congr fun index => bind_congr fun place => ?_
    cases place <;> simp [answer?]
  | fieldAtPut =>
    apply congrArg (expecting _ argCount)
    simp only [Machine.fieldAtPut, result, bind_assoc, arity]
    refine bind_congr fun receiver => bind_congr fun index => bind_congr fun place => ?_
    cases place <;> simp [answer?]
  | identityHash =>
    apply congrArg (expecting _ argCount)
    simp only [Machine.identityHash, result, bind_assoc, arity]
  | characterValue =>
    apply congrArg (expecting _ argCount)
    simp only [Machine.characterValue, result, bind_assoc, pure_bind, arity]
    refine bind_congr fun receiver => ?_
    split <;> rfl
  | notIdentical =>
    apply congrArg (expecting _ argCount)
    simp only [identity, result, bind_assoc, arity, ← answerBoolean?_eq, answerBoolean?]
  | identical =>
    apply congrArg (expecting _ argCount)
    simp only [identity, result, bind_assoc, arity, ← answerBoolean?_eq, answerBoolean?]
  | classOf =>
    apply congrArg (expecting _ argCount)
    simp only [receiverClass, result, bind_assoc, pure_bind, arity, answer?]
  | fullCollection =>
    apply congrArg (expecting _ argCount)
    simp only [Machine.fullCollection, result, bind_assoc, pure_bind, arity, answer?]

end Primitive

end ObjectMachine
