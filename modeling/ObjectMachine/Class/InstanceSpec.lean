import ObjectMachine.Object.Format

/-!
# Instance specifications

What the instances of a class look like: a format and a number of fixed fields. A class keeps its
specification in a small integer, with the fields in the low sixteen bits and the format above them.
-/

namespace ObjectMachine

/-- The shape of the instances of a class. -/
structure InstanceSpec where
  format : Format
  fields : Nat
  deriving DecidableEq, Repr

namespace InstanceSpec

/-- The small integer of a specification. -/
def toRef (spec : InstanceSpec) : Ref :=
  Ref.ofPayload ((spec.format.code.toUInt64 <<< 16) ||| spec.fields.toUInt64)

/-- The specification that a field holds, if it holds one. The format is read from the eight bits
above the fields. -/
def ofRef? (r : Ref) : Option InstanceSpec :=
  if r.isSmallInteger then
    let payload := (r.bits.toInt64 >>> 2).toUInt64
    match Format.ofCode? ((payload >>> 16) &&& 0xFF).toNat with
    | some format => some ⟨format, (payload &&& 0xFFFF).toNat⟩
    | none => none
  else none

end InstanceSpec

end ObjectMachine
