import Mathlib
import ObjectMachine.Number.Binary64

/-!
# Equal numbers

Numbers are compared by value, though they are kept as bits. Numbers with the same bits are equal unless
they are NaNs, and no others are, apart from the two zeros.

## Main results

* `Binary64.equals_iff`: which numbers are equal.
-/

namespace ObjectMachine

namespace Binary64

open Float.Model

variable {x y : Binary64}

/-! ## Parts of bits -/

/-- The bits as a vector that has a sign, an exponent and a fraction. -/
abbrev word (x : Binary64) : BitVec Format.binary64.numBits := x.bits.toBitVec

theorem exponentField_eq (x : Binary64) :
    x.exponentField = (UnpackedFloat.unpackExponent x.word).toNat := by
  show (x.bits.toBitVec >>> 52 &&& 2047#64).toNat =
    ((x.bits.toBitVec.extractLsb 62 52).cast _).toNat
  rw [BitVec.toNat_cast, BitVec.extractLsb_toNat, BitVec.toNat_and]
  exact Nat.and_two_pow_sub_one_eq_mod _ 11

theorem fractionField_eq (x : Binary64) :
    x.fractionField = (UnpackedFloat.unpackMantissa x.word).toNat := by
  show (x.bits.toBitVec &&& 4503599627370495#64).toNat = ((x.bits.toBitVec.extractLsb 51 0).cast _).toNat
  rw [BitVec.toNat_cast, BitVec.extractLsb_toNat, BitVec.toNat_and, Nat.shiftRight_zero]
  exact Nat.and_two_pow_sub_one_eq_mod _ 52

theorem toBitVec_ofBitVec (b : BitVec 1) : (UnpackedFloat.Sign.ofBitVec b).toBitVec = b := by
  revert b
  decide

/-- The parts that bits are made of. -/
theorem packComponents_word (x : Binary64) : UnpackedFloat.packComponents Format.binary64
    (.ofBitVec (UnpackedFloat.unpackSign x.word)) (UnpackedFloat.unpackExponent x.word)
      (UnpackedFloat.unpackMantissa x.word) = x.word := by
  unfold UnpackedFloat.packComponents
  rw [toBitVec_ofBitVec]
  ext i hi
  simp only [UnpackedFloat.unpackSign, UnpackedFloat.unpackExponent, UnpackedFloat.unpackMantissa,
    BitVec.extractLsb]
  grind

/-- Bits are known by their sign, their exponent and their fraction. -/
theorem packComponents_eq {e : BitVec 11} {m : BitVec 52} (he : UnpackedFloat.unpackExponent x.word = e)
    (hm : UnpackedFloat.unpackMantissa x.word = m) : UnpackedFloat.packComponents Format.binary64
      (.ofBitVec (UnpackedFloat.unpackSign x.word)) e m = x.word := by
  rw [← he, ← hm]
  exact packComponents_word x

/-! ## Numbers by their parts -/

/-- A number as a sign, a significand and an exponent. -/
def unpacked (x : Binary64) : UnpackedFloat := UnpackedFloat.unpack Format.binary64 x.word

/-- What a number is, by its exponent and its fraction. -/
inductive IsUnpacked (x : Binary64) : UnpackedFloat → Prop
  | infinity (he : UnpackedFloat.unpackExponent x.word = -1#_)
      (hm : UnpackedFloat.unpackMantissa x.word = 0#_) :
      IsUnpacked x (.infinity (.ofBitVec (UnpackedFloat.unpackSign x.word)))
  | notANumber (he : UnpackedFloat.unpackExponent x.word = -1#_)
      (hm : UnpackedFloat.unpackMantissa x.word ≠ 0#_) : IsUnpacked x .notANumber
  | zero (he : UnpackedFloat.unpackExponent x.word = 0#_)
      (hm : UnpackedFloat.unpackMantissa x.word = 0#_) :
      IsUnpacked x (.zero (.ofBitVec (UnpackedFloat.unpackSign x.word)))
  | subnormal (he : UnpackedFloat.unpackExponent x.word = 0#_)
      (hm : UnpackedFloat.unpackMantissa x.word ≠ 0#_)
      (hpos : 0 < (UnpackedFloat.unpackMantissa x.word).toNat) :
      IsUnpacked x (.finite (.ofBitVec (UnpackedFloat.unpackSign x.word))
        (UnpackedFloat.unpackMantissa x.word).toNat (-1074) hpos)
  | normal (hfinite : UnpackedFloat.unpackExponent x.word ≠ -1#_)
      (he : UnpackedFloat.unpackExponent x.word ≠ 0#_)
      (hpos : 0 < 2 ^ 52 + (UnpackedFloat.unpackMantissa x.word).toNat) :
      IsUnpacked x (.finite (.ofBitVec (UnpackedFloat.unpackSign x.word))
        (2 ^ 52 + (UnpackedFloat.unpackMantissa x.word).toNat)
        ((UnpackedFloat.unpackExponent x.word).toNat - 1075) hpos)

/-- The significand of a number has one bit more than its fraction, unless the number is very small. -/
theorem toNat_one_append (m : BitVec 52) : (1#1 ++ m).toNat = 2 ^ 52 + m.toNat := by
  rw [BitVec.toNat_append, ← Nat.shiftLeft_add_eq_or_of_lt m.isLt, Nat.shiftLeft_eq]
  rfl

theorem isUnpacked (x : Binary64) : x.IsUnpacked x.unpacked := by
  unfold unpacked
  rw [UnpackedFloat.unpack]
  split
  · split
    · exact .infinity ‹_› ‹_›
    · exact .notANumber ‹_› ‹_›
  · split
    · rename_i hexponent
      split
      · exact .zero hexponent ‹_›
      · have hvalue : ((UnpackedFloat.unpackExponent x.word).toNat : Int) -
            (Format.binary64.exponentBias + Format.binary64.mantissaBitsWithoutImplicit) + 1 = -1074 := by
          rw [hexponent]
          rfl
        simp only [hvalue]
        exact .subnormal hexponent ‹_› _
    · simp only [toNat_one_append]
      exact .normal ‹_› ‹_› _

theorem isNaN_iff : x.isNaN = true ↔ UnpackedFloat.unpackExponent x.word = -1#_ ∧
    UnpackedFloat.unpackMantissa x.word ≠ 0#_ := by
  unfold isNaN
  rw [Bool.and_eq_true, beq_iff_eq, bne_iff_ne, exponentField_eq, fractionField_eq]
  exact and_congr (BitVec.toNat_inj (y := -1#11)) (not_congr (BitVec.toNat_inj (y := 0#52)))

theorem isZero_iff : x.isZero = true ↔ UnpackedFloat.unpackExponent x.word = 0#_ ∧
    UnpackedFloat.unpackMantissa x.word = 0#_ := by
  unfold isZero
  rw [Bool.and_eq_true, beq_iff_eq, beq_iff_eq, exponentField_eq, fractionField_eq]
  exact and_congr (BitVec.toNat_inj (y := 0#11)) (BitVec.toNat_inj (y := 0#52))

theorem unpacked_eq_notANumber : x.unpacked = .notANumber ↔ x.isNaN = true := by
  have hx := x.isUnpacked
  rw [isNaN_iff]
  generalize x.unpacked = u at hx
  cases hx <;> simp_all

theorem unpacked_eq_zero : (∃ s, x.unpacked = .zero s) ↔ x.isZero = true := by
  have hx := x.isUnpacked
  rw [isZero_iff]
  generalize x.unpacked = u at hx
  cases hx <;> simp_all

/-- A number that is not a NaN has no other bits than those of its parts. -/
theorem pack_unpacked (h : x.isNaN = false) : UnpackedFloat.pack Format.binary64 x.unpacked = x.word := by
  have hm : (UnpackedFloat.unpackMantissa x.word).toNat < 2 ^ 52 :=
    (UnpackedFloat.unpackMantissa x.word).isLt
  have hbits : Format.binary64.mantissaBits = 53 := rfl
  have hx := x.isUnpacked
  generalize x.unpacked = u at hx
  cases hx with
  | infinity he hm => exact packComponents_eq he hm
  | notANumber he hm =>
    rw [isNaN_iff.mpr ⟨he, hm⟩] at h
    cases h
  | zero he hm => exact packComponents_eq he hm
  | subnormal he hne hpos =>
    -- The exponent is the least one, and there is no leading bit.
    have hlog : ¬ (UnpackedFloat.unpackMantissa x.word).toNat.log2 + 1 = Format.binary64.mantissaBits := by
      have hlt := Nat.log2_lt hpos.ne' |>.mpr hm
      omega
    rw [UnpackedFloat.pack, if_neg (by decide), if_neg hlog]
    refine packComponents_eq he ?_
    rw [BitVec.ofNat_toNat, BitVec.setWidth_eq]
  | normal hfinite he hpos =>
    have hexponent : (UnpackedFloat.unpackExponent x.word).toNat ≠ 2047 := fun heq =>
      hfinite (BitVec.toNat_inj.mp heq)
    have hlt : (UnpackedFloat.unpackExponent x.word).toNat < 2048 :=
      (UnpackedFloat.unpackExponent x.word).isLt
    -- The exponent is kept with a bias, and the leading bit is not kept.
    have hbiased : (((UnpackedFloat.unpackExponent x.word).toNat : Int) - 1075 +
        (Format.binary64.exponentBias : Nat) + (Format.binary64.mantissaBitsWithoutImplicit : Nat)).toNat =
          (UnpackedFloat.unpackExponent x.word).toNat := by
      show (_ + (1023 : Int) + 52).toNat = _
      omega
    have hlog : (2 ^ 52 + (UnpackedFloat.unpackMantissa x.word).toNat).log2 + 1 =
        Format.binary64.mantissaBits := by
      have hlog : (2 ^ 52 + (UnpackedFloat.unpackMantissa x.word).toNat).log2 = 52 :=
        (Nat.log2_eq_iff hpos.ne').mpr (by omega)
      rw [hbits, hlog]
    rw [UnpackedFloat.pack]
    simp only [hbiased]
    rw [if_neg (by show ¬ 2048 ≤ _; omega), if_pos hlog]
    refine packComponents_eq ?_ ?_
    · rw [BitVec.ofNat_toNat, BitVec.setWidth_eq]
    · rw [← BitVec.toNat_inj, BitVec.toNat_ofNat]
      show _ = (2 ^ 52 + _) % 2 ^ 52
      rw [Nat.add_mod_left, Nat.mod_eq_of_lt hm]

/-! ## Comparing -/

/-- Numbers that are equal have the same parts, unless they are zeros. -/
theorem compare_eq_iff (u v : UnpackedFloat) : u.compare v = some .eq ↔
    u = v ∧ u ≠ .notANumber ∨ (∃ s, u = .zero s) ∧ ∃ s, v = .zero s := by
  have hsame : ∀ {m₁ m₂ : Nat} {e₁ e₂ : Int}, ((compare e₁ e₂).then (compare m₁ m₂)) = .eq ↔
      e₁ = e₂ ∧ m₁ = m₂ := by
    intro m₁ m₂ e₁ e₂
    rw [Ordering.then_eq_eq, Int.compare_eq_eq, Nat.compare_eq_eq]
  cases u with
  | infinity s => cases s <;> rcases v with (_ | _) | _ | _ | ⟨(_ | _), _⟩ <;>
      simp [UnpackedFloat.compare, compare]
  | notANumber => simp [UnpackedFloat.compare]
  | zero s => rcases v with (_ | _) | _ | _ | ⟨(_ | _), _⟩ <;> simp [UnpackedFloat.compare]
  | finite s m e hpos =>
    cases s <;> rcases v with (_ | _) | _ | _ | ⟨(_ | _), _⟩ <;>
      simp [UnpackedFloat.compare, hsame, and_comm]

/-- A number is read from its bits as it is. -/
theorem unpack_toModel (x : Binary64) : x.toFloat.toModel.unpack = x.unpacked := by
  show UnpackedFloat.unpack Format.binary64 (UnpackedFloat.pack Format.binary64 x.unpacked) = x.unpacked
  cases h : x.isNaN with
  | true =>
    rw [unpacked_eq_notANumber.mpr h]
    rfl
  | false =>
    rw [pack_unpacked h]
    rfl

/-- Numbers are equal if they have the same bits, unless they are NaNs, or if both are zeros. -/
theorem equals_iff : x.equals y = true ↔ x = y ∧ x.isNaN = false ∨ x.isZero = true ∧ y.isZero = true := by
  have hequals : x.equals y = true ↔ x.unpacked.compare y.unpacked = some .eq := by
    rw [← unpack_toModel, ← unpack_toModel]
    exact beq_iff_eq (a := x.toFloat.toModel.unpack.compare y.toFloat.toModel.unpack)
  rw [hequals, compare_eq_iff, unpacked_eq_zero, unpacked_eq_zero, Ne, unpacked_eq_notANumber,
    Bool.not_eq_true]
  refine or_congr_left ⟨fun ⟨heq, hx⟩ => ⟨?_, hx⟩, fun ⟨heq, hx⟩ => ⟨heq ▸ rfl, hx⟩⟩
  have hy : y.isNaN = false := by
    rw [← Bool.not_eq_true, ← unpacked_eq_notANumber, ← heq, unpacked_eq_notANumber, Bool.not_eq_true, hx]
  have hword : x.word = y.word := by rw [← pack_unpacked hx, heq, pack_unpacked hy]
  obtain ⟨x⟩ := x
  obtain ⟨y⟩ := y
  exact congrArg _ (UInt64.toBitVec_inj.mp hword)

end Binary64

end ObjectMachine
