import ObjectMachine.Assembler.Basic
import ObjectMachine.Machine.Failure

/-!
# Drafts of methods

What an assembler comes to: the header, the literals and the bytes of a method. The jumps get their
offsets here, and what was recorded as a mistake is reported.
-/

namespace ObjectMachine

/-- A method that is complete but not in memory yet. -/
structure Draft where
  header : MethodHeader
  literals : List Literal
  bytes : List UInt8
  deriving Repr

namespace Assembler

/-- Room for the two values that an escaped block leaves on the stack of its caller. -/
def spareSlots : Nat := 2

/-- The number of literals that operands can designate. -/
def maxLiterals : Nat := 256

/-- The header of the method. -/
def header (a : Assembler) : Except HeaderProblem MethodHeader :=
  MethodHeader.make a.flag a.argCount (a.argCount + a.extraTemps) (a.maxDepth + spareSlots)
    a.primitive

/-- Writes bytes over those that begin at a position. -/
def overwrite (bytes : Array UInt8) (position : Nat) : List UInt8 → Array UInt8
  | [] => bytes
  | b :: rest => overwrite (bytes.setIfInBounds position b) (position + 1) rest

/-- Writes the offset of a jump that leads to a position. -/
def patch (bytes : Array UInt8) (fixup : Fixup) (target : Nat) :
    Except AssemblyProblem (Array UInt8) :=
  let offset : Int := (target : Int) - fixup.endPosition
  if fixup.isLong then
    if -32768 ≤ offset ∧ offset ≤ 32767 then
      .ok (overwrite bytes (fixup.endPosition - 2) (Instruction.longBytes (Int16.ofInt offset)))
    else .error (.jumpTooFar fixup.endPosition offset)
  else
    if -128 ≤ offset ∧ offset ≤ 127 then
      .ok (overwrite bytes (fixup.endPosition - 1) [(Int8.ofInt offset).toUInt8])
    else .error (.shortJumpTooFar fixup.endPosition offset)

/-- Why there is no draft: the code is wrong, a jump leads to a label that was never made, or a
count does not fit a word. -/
inductive Refusal where
  | failure (cause : Failure)
  | fatal (cause : Fatal)

/-- Writes the offsets of jumps in order. -/
def resolve (labels : Array (Option Nat)) (bytes : Array UInt8) :
    List Fixup → Except Refusal (Array UInt8)
  | [] => .ok bytes
  | fixup :: rest =>
    match labels[fixup.label]? with
    | none => .error (.fatal (.fault .position))
    | some none => .error (.failure (.assembly (.unboundLabel fixup.endPosition)))
    | some (some target) =>
      match patch bytes fixup target with
      | .ok bytes => resolve labels bytes rest
      | .error problem => .error (.failure (.assembly problem))

/-- The literals of the method. The binding of its class comes last, if the method needs it. -/
def allLiterals (a : Assembler) : List Literal :=
  a.literals.toList ++ if a.usesSuper then [.methodClass] else []

/-- Whether the counts of the header fit a word. -/
def countsFit (a : Assembler) : Bool :=
  a.maxDepth + spareSlots < countLimit && a.argCount + a.extraTemps < countLimit

/-- The draft of a method in whose code no mistake was recorded. -/
def draft (a : Assembler) : Except Refusal Draft := do
  let bytes ← resolve a.labels a.bytes a.fixups.toList
  if !a.countsFit then throw (.fatal (.fault .overflow))
  match a.header with
  | .error problem => throw (.failure (.header problem))
  | .ok header =>
    let literals := a.allLiterals
    if maxLiterals < literals.length then
      throw (.failure (.assembly (.tooManyLiterals literals.length)))
    return ⟨header, literals, bytes.toList⟩

/-- The draft of the method, and the assembler afterwards. A recorded mistake is reported once: the
assembler forgets it. Depths that no word can count are fatal before all else. -/
def finish (a : Assembler) : Except Refusal Draft × Assembler :=
  if countLimit ≤ a.maxDepth then (.error (.fatal (.fault .overflow)), a)
  else match a.problem? with
    | some problem =>
      (.error (.failure (.during .assembling (.assembly problem))), { a with problem? := none })
    | none => (a.draft, a)

end Assembler

end ObjectMachine
