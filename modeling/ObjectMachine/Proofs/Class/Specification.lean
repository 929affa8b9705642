import ObjectMachine.Class.InstanceSpec
import ObjectMachine.Proofs.Heap.Bits

/-!
# Specifications in a class field

A specification takes twenty-one bits of a small integer: the tag, sixteen bits of fields and three
of format. It is written with all other bits clear, and read from the tag and the twenty-four bits
above it. So every specification is read back, and a field that holds no specification is refused
only as far as these bits tell: whatever stands above them is not looked at.

## Main results

* `InstanceSpec.toNat_toRef`: the word of a specification, as a number.
* `InstanceSpec.ofRef?_eq_some_iff`: a word is read as a specification if and only if its low
  twenty-six bits are those of the specification.
* `InstanceSpec.ofRef?_lowBits`: specifications are read back, and what is read is what the field
  holds if and only if the field has no other bits.
-/

namespace ObjectMachine

theorem Format.ofCode?_eq_some_iff {code : Nat} {f : Format} :
    ofCode? code = some f ↔ code = f.code := by
  constructor
  · intro h
    unfold ofCode? at h
    split at h <;> cases h <;> rfl
  · rintro rfl
    exact ofCode?_code f

namespace Ref

theorem isSmallInteger_iff (r : Ref) : r.isSmallInteger = true ↔ r.bits.toNat % 4 = 1 := by
  rw [isSmallInteger, beq_iff_eq, ← UInt64.toNat_inj, UInt64.toNat_and,
    show tagMask.toNat = 2 ^ 2 - 1 from rfl, Nat.and_two_pow_sub_one_eq_mod]
  rfl

/-- A range of bits of the integer in a word, below its sign, is the range of the word above the
tag. -/
theorem payload_range (r : Ref) {s n : Nat} (hfit : s + n ≤ 62) :
    (r.bits.toInt64 >>> 2).toUInt64.toNat / 2 ^ s % 2 ^ n = r.bits.toNat / 2 ^ (s + 2) % 2 ^ n := by
  apply Nat.eq_of_testBit_eq
  intro l
  rw [Nat.testBit_mod_two_pow, Nat.testBit_mod_two_pow, Nat.testBit_div_two_pow,
    Nat.testBit_div_two_pow]
  by_cases hl : l < n
  · have hshift : ((2 : Int64).toBitVec.smod 64).toNat = 2 := by decide
    have hbit : (r.bits.toInt64 >>> 2).toUInt64.toNat.testBit (l + s) =
        (r.bits.toBitVec.sshiftRight ((2 : Int64).toBitVec.smod 64).toNat).getLsbD (l + s) := rfl
    rw [hbit, hshift, BitVec.getLsbD_sshiftRight, if_pos (by omega),
      decide_eq_false (show ¬ 64 ≤ l + s by omega)]
    simp only [hl, decide_true, Bool.true_and, Bool.not_false]
    rw [show l + (s + 2) = 2 + (l + s) by omega]
    rfl
  · rw [decide_eq_false hl, Bool.false_and, Bool.false_and]

end Ref

namespace InstanceSpec

/-- The word of a specification: the format, the fields and the tag, one after the other. -/
theorem toNat_toRef {spec : InstanceSpec} (hfields : spec.fields ≤ Header.maxFields) :
    spec.toRef.bits.toNat = 2 ^ 18 * spec.format.code + 4 * spec.fields + 1 := by
  have hcode := Header.code_lt spec.format
  simp only [Header.maxFields] at hfields
  have hformat : (spec.format.code.toUInt64 <<< 16).toNat = 2 ^ 16 * spec.format.code := by
    rw [UInt64.toNat_shiftLeft, Nat.toUInt64_eq, UInt64.toNat_ofNat',
      show (16 : UInt64).toNat % 64 = 16 from rfl, Nat.shiftLeft_eq, Nat.mod_eq_of_lt (by omega)]
    omega
  have hpayload : ((spec.format.code.toUInt64 <<< 16) ||| spec.fields.toUInt64).toNat =
      2 ^ 16 * spec.format.code + spec.fields := by
    rw [UInt64.toNat_or, hformat, Nat.toUInt64_eq, UInt64.toNat_ofNat',
      Nat.mod_eq_of_lt (show spec.fields < 2 ^ 64 by omega), ← Nat.two_pow_add_eq_or_of_lt (by omega)]
  have hshifted : (((spec.format.code.toUInt64 <<< 16) ||| spec.fields.toUInt64) <<< 2).toNat =
      2 ^ 2 * (2 ^ 16 * spec.format.code + spec.fields) := by
    rw [UInt64.toNat_shiftLeft, hpayload, show (2 : UInt64).toNat % 64 = 2 from rfl,
      Nat.shiftLeft_eq]
    omega
  rw [toRef, Ref.ofPayload, UInt64.toNat_or, hshifted, show (1 : UInt64).toNat = 1 from rfl,
    ← Nat.two_pow_add_eq_or_of_lt (by decide)]
  omega

/-- What a word is read as, by the bits that are looked at. -/
theorem ofRef?_eq (r : Ref) :
    ofRef? r = if r.bits.toNat % 4 = 1 then
      (Format.ofCode? (r.bits.toNat / 2 ^ 18 % 2 ^ 8)).map fun format =>
        ⟨format, r.bits.toNat / 2 ^ 2 % 2 ^ 16⟩
      else none := by
  have hformat : (((r.bits.toInt64 >>> 2).toUInt64 >>> 16) &&& 0xFF).toNat =
      r.bits.toNat / 2 ^ 18 % 2 ^ 8 := by
    rw [UInt64.toNat_and, UInt64.toNat_shiftRight, show (16 : UInt64).toNat % 64 = 16 from rfl,
      show (0xFF : UInt64).toNat = 2 ^ 8 - 1 from rfl, Nat.and_two_pow_sub_one_eq_mod,
      Nat.shiftRight_eq_div_pow, r.payload_range (by decide)]
  have hfields : ((r.bits.toInt64 >>> 2).toUInt64 &&& 0xFFFF).toNat =
      r.bits.toNat / 2 ^ 2 % 2 ^ 16 := by
    have hrange := r.payload_range (s := 0) (n := 16) (by decide)
    rw [pow_zero, Nat.div_one] at hrange
    rw [UInt64.toNat_and, show (0xFFFF : UInt64).toNat = 2 ^ 16 - 1 from rfl,
      Nat.and_two_pow_sub_one_eq_mod, hrange]
  unfold ofRef?
  simp only [r.isSmallInteger_iff, hformat, hfields]
  cases Format.ofCode? (r.bits.toNat / 2 ^ 18 % 2 ^ 8) <;> rfl

/-- A word is read as a specification if its tag and the twenty-four bits above it are those of the
specification. -/
theorem ofRef?_eq_some_iff {r : Ref} {spec : InstanceSpec} :
    ofRef? r = some spec ↔
      spec.fields ≤ Header.maxFields ∧ r.bits.toNat % 2 ^ 26 = spec.toRef.bits.toNat := by
  have hcode := Header.code_lt spec.format
  rw [ofRef?_eq]
  constructor
  · intro h
    split at h
    · rename_i htag
      obtain ⟨format, hformat, rfl⟩ := Option.map_eq_some_iff.mp h
      rw [Format.ofCode?_eq_some_iff] at hformat
      have hfields : r.bits.toNat / 2 ^ 2 % 2 ^ 16 ≤ Header.maxFields :=
        Nat.le_of_lt_succ (Nat.mod_lt _ (by decide))
      refine ⟨hfields, ?_⟩
      rw [toNat_toRef hfields]
      dsimp only
      omega
    · cases h
  · rintro ⟨hfields, hbits⟩
    rw [toNat_toRef hfields] at hbits
    simp only [Header.maxFields] at hfields
    have hformat : r.bits.toNat / 2 ^ 18 % 2 ^ 8 = spec.format.code := by omega
    have hcount : r.bits.toNat / 2 ^ 2 % 2 ^ 16 = spec.fields := by omega
    rw [if_pos (by omega), hformat, hcount, Format.ofCode?_code]
    rfl

/-- Every specification is read back from its field. A field is read as a specification if and only
if its low twenty-six bits are those of the specification; so what is read is what the field holds
if and only if the field has no other bits set. -/
theorem ofRef?_lowBits (spec : InstanceSpec) (r : Ref) :
    (spec.fields ≤ Header.maxFields → ofRef? spec.toRef = some spec) ∧
      (ofRef? r = some spec ↔
        spec.fields ≤ Header.maxFields ∧ r.bits.toNat % 2 ^ 26 = spec.toRef.bits.toNat) ∧
      (ofRef? r = some spec → (spec.toRef = r ↔ r.bits.toNat < 2 ^ 26)) := by
  refine ⟨?_, ofRef?_eq_some_iff, ?_⟩
  · intro hfields
    refine ofRef?_eq_some_iff.mpr ⟨hfields, ?_⟩
    have hcode := Header.code_lt spec.format
    have hword := toNat_toRef hfields
    simp only [Header.maxFields] at hfields
    omega
  · intro h
    obtain ⟨-, hbits⟩ := ofRef?_eq_some_iff.mp h
    constructor
    · rintro rfl
      omega
    · intro hlow
      rw [Nat.mod_eq_of_lt hlow] at hbits
      exact congrArg Ref.mk (UInt64.toNat_inj.mp hbits.symm)

/-- The integer `2 ^ 24` is no specification and is read as that of an object without fields. -/
example : ofRef? (.ofInt 16777216) = some ⟨.plain, 0⟩ ∧ toRef ⟨.plain, 0⟩ = .ofInt 0 := by decide

end InstanceSpec

end ObjectMachine
