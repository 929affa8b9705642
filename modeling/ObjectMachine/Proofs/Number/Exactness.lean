import Mathlib
import ObjectMachine.Number.Operation
import ObjectMachine.Ref

/-!
# Exact arithmetic

What operations on integers should result in, as a matter of arithmetic, and that they do. Small integers
lose nothing in the words of a machine.

## Main results

* `Arithmetic.onIntegers_eq_some_iff`, `Arithmetic.onSmall_eq_some_iff`: an operation has the result that it
  should have, and none only if there is none.
* `Ref.toInt_ofInt`: a word holds a small integer as it is.
-/

namespace ObjectMachine

/-! ## Words -/

namespace Ref

variable {value a b : Int}

theorem isSmall_iff : isSmall value = true ↔ minSmall ≤ value ∧ value ≤ maxSmall := by
  unfold isSmall
  rw [Bool.and_eq_true_iff, decide_eq_true_iff, decide_eq_true_iff]

/-- Small integers are those of 62 bits. -/
theorem isSmall_iff_pow : isSmall value = true ↔ -2 ^ 61 ≤ value ∧ value < 2 ^ 61 := by
  rw [isSmall_iff]
  unfold minSmall maxSmall
  omega

theorem ofInt?_of_isSmall (h : isSmall value = true) : ofInt? value = some (ofInt value) := if_pos h

theorem ofInt?_of_not (h : isSmall value = false) : ofInt? value = none :=
  if_neg (Bool.eq_false_iff.mp h)

/-- A word holds a small integer as it is. -/
theorem toInt_ofInt (h : isSmall value = true) : (ofInt value).toInt = value := by
  obtain ⟨hmin, hmax⟩ := isSmall_iff_pow.mp h
  have hbits : (ofInt value).bits.toInt64.toBitVec = BitVec.ofInt 64 (value * 4 + 1) := by
    show (BitVec.ofInt 64 value <<< 2) ||| 1#64 = _
    have hor : (BitVec.ofInt 64 value <<< 2) ||| 1#64 = (BitVec.ofInt 64 value <<< 2) + 1#64 := by
      rw [BitVec.add_eq_or_of_and_eq_zero]
      ext i hi
      rcases Nat.eq_zero_or_pos i with rfl | hpos
      · simp
      · simp [hpos.ne']
    rw [hor, BitVec.ofInt_add, BitVec.ofInt_mul, BitVec.shiftLeft_eq_mul_twoPow]
    rfl
  show ((ofInt value).bits.toInt64.toBitVec.sshiftRight ((2 : Int64).toBitVec.smod 64).toNat).toInt = _
  rw [show ((2 : Int64).toBitVec.smod 64).toNat = 2 by decide, BitVec.toInt_sshiftRight,
    Int.shiftRight_eq_div_pow, hbits, BitVec.toInt_ofInt, Int.bmod_eq_of_le (by omega) (by omega)]
  omega

/-- Whatever a word holds is small. -/
theorem isSmall_toInt (r : Ref) : isSmall r.toInt = true := by
  have hlt := BitVec.toInt_lt (x := r.bits.toInt64.toBitVec)
  have hle := BitVec.le_toInt (x := r.bits.toInt64.toBitVec)
  have hword : r.toInt = r.bits.toInt64.toBitVec.toInt / 2 ^ 2 := by
    show (r.bits.toInt64.toBitVec.sshiftRight ((2 : Int64).toBitVec.smod 64).toNat).toInt = _
    rw [show ((2 : Int64).toBitVec.smod 64).toNat = 2 by decide, BitVec.toInt_sshiftRight,
      Int.shiftRight_eq_div_pow]
    rfl
  rw [isSmall_iff_pow, hword]
  omega

end Ref

/-! ## Bits -/

/-- The bits of a word are those of the integer that it was made of. -/
theorem getElem_ofInt {w i : Nat} (value : Int) (hi : i < w) : (BitVec.ofInt w value)[i] = value.testBit i := by
  have hnat : ∀ n : Nat, (BitVec.ofNat w n)[i] = n.testBit i := fun n => by
    rw [BitVec.getElem_eq_testBit_toNat, BitVec.toNat_ofNat, Nat.testBit_mod_two_pow, decide_eq_true hi,
      Bool.true_and]
  cases value with
  | ofNat n =>
    rw [Int.ofNat_eq_natCast, BitVec.ofInt_natCast]
    exact hnat n
  | negSucc n =>
    rw [BitVec.ofInt_negSucc_eq_not_ofNat, BitVec.getElem_not, hnat]
    rfl

/-- Bit operations on small integers result in small integers. -/
theorem Ref.isSmall_bitwise {a b : Int} (op : Bool → Bool → Bool) (ha : isSmall a = true)
    (hb : isSmall b = true) : isSmall (Int.bitwise op a b) = true := by
  have hbound : ∀ (f : Bool → Bool → Bool) {m n : Nat}, m < 2 ^ 61 → n < 2 ^ 61 →
      isSmall (Int.natBitwise f m n) = true := by
    intro f m n hm hn
    rw [isSmall_iff_pow]
    unfold Int.natBitwise
    cases f false false with
    | false =>
      have hlt := Nat.bitwise_lt_two_pow (f := f) hm hn
      show _ ≤ ((_ : Nat) : Int) ∧ ((_ : Nat) : Int) < _
      omega
    | true =>
      have hlt := Nat.bitwise_lt_two_pow (f := fun x y => !f x y) hm hn
      show _ ≤ Int.negSucc _ ∧ Int.negSucc _ < _
      omega
  have hnat : ∀ m : Nat, isSmall (Int.ofNat m) = true → m < 2 ^ 61 := fun m h => by
    rw [isSmall_iff_pow, Int.ofNat_eq_natCast] at h
    omega
  have hneg : ∀ m : Nat, isSmall (Int.negSucc m) = true → m < 2 ^ 61 := fun m h => by
    rw [isSmall_iff_pow] at h
    omega
  cases a with
  | ofNat m =>
    cases b with
    | ofNat n => exact hbound op (hnat m ha) (hnat n hb)
    | negSucc n => exact hbound (fun x y => op x (!y)) (hnat m ha) (hneg n hb)
  | negSucc m =>
    cases b with
    | ofNat n => exact hbound (fun x y => op (!x) y) (hneg m ha) (hnat n hb)
    | negSucc n => exact hbound (fun x y => op (!x) (!y)) (hneg m ha) (hneg n hb)

/-- Bit operations on words are bit operations on the small integers that they hold. -/
theorem onBits_eq {f : Int64 → Int64 → Int64} (op : Bool → Bool → Bool)
    (hf : ∀ x y i (hi : i < 64), (f x y).toBitVec[i] = op x.toBitVec[i] y.toBitVec[i]) {a b : Int}
    (ha : Ref.isSmall a = true) (hb : Ref.isSmall b = true) : onBits f a b = Int.bitwise op a b := by
  have hbits : (f (.ofInt a) (.ofInt b)).toBitVec = BitVec.ofInt 64 (Int.bitwise op a b) := by
    ext i hi
    rw [hf _ _ i hi, getElem_ofInt _ hi, Int.testBit_bitwise]
    exact congrArg₂ op (getElem_ofInt a hi) (getElem_ofInt b hi)
  have hsmall := Ref.isSmall_iff_pow.mp (Ref.isSmall_bitwise op ha hb)
  show (f (.ofInt a) (.ofInt b)).toBitVec.toInt = _
  rw [hbits, BitVec.toInt_ofInt, Int.bmod_eq_of_le (by omega) (by omega)]

/-! ## Quotients -/

/-- The quotient that is rounded down. -/
theorem floor_div_eq (a b : Int) : ⌊(a : ℚ) / b⌋ = a.fdiv b := by
  obtain ⟨n, rfl | rfl⟩ := b.eq_nat_or_neg
  · rw [Int.fdiv_eq_ediv_of_nonneg _ (Int.natCast_nonneg n)]
    exact Rat.floor_intCast_div_natCast a n
  · calc ⌊(a : ℚ) / (-n : Int)⌋
      _ = ⌊((-a : Int) : ℚ) / n⌋ := by
        rw [Int.cast_neg, Int.cast_neg, neg_div, div_neg]
        rfl
      _ = -a / n := Rat.floor_intCast_div_natCast (-a) n
      _ = a.fdiv (-n) := by
        rw [← Int.fdiv_eq_ediv_of_nonneg _ (Int.natCast_nonneg n), ← Int.neg_fdiv_neg, neg_neg]

/-- A remainder has the sign of the divisor. -/
theorem fmod_sign (a : Int) {b : Int} (hb : b ≠ 0) :
    0 ≤ a.fmod b ∧ a.fmod b < b ∨ b < a.fmod b ∧ a.fmod b ≤ 0 := by
  rcases lt_or_gt_of_ne hb with hneg | hpos
  · have hle := Int.fmod_nonneg_of_pos (-a) (Int.neg_pos_of_neg hneg)
    have hlt := Int.fmod_lt_of_pos (-a) (Int.neg_pos_of_neg hneg)
    rw [Int.neg_fmod_neg] at hle hlt
    exact .inr ⟨by omega, by omega⟩
  · exact .inl ⟨Int.fmod_nonneg_of_pos a hpos, Int.fmod_lt_of_pos a hpos⟩

/-- A quotient rounded toward zero. -/
def truncated (x : ℚ) : Int :=
  if 0 ≤ x then ⌊x⌋ else ⌈x⌉

theorem truncated_neg (x : ℚ) : truncated (-x) = -truncated x := by
  unfold truncated
  rcases lt_trichotomy x 0 with hneg | rfl | hpos
  · rw [if_pos (by linarith), if_neg (by linarith), Int.floor_neg]
  · simp
  · rw [if_neg (by linarith), if_pos hpos.le, Int.ceil_neg]

theorem truncated_div_eq (a b : Int) : truncated ((a : ℚ) / b) = a.tdiv b := by
  have hnat : ∀ m n : Nat, truncated ((m : ℚ) / n) = (m : Int).tdiv n := by
    intro m n
    unfold truncated
    rw [if_pos (by positivity), Int.tdiv_eq_ediv_of_nonneg (Int.natCast_nonneg m)]
    exact Rat.floor_intCast_div_natCast m n
  obtain ⟨m, rfl | rfl⟩ := a.eq_nat_or_neg <;> obtain ⟨n, rfl | rfl⟩ := b.eq_nat_or_neg
  · exact hnat m n
  · rw [Int.cast_neg, div_neg, truncated_neg, Int.tdiv_neg]
    exact congrArg _ (hnat m n)
  · rw [Int.cast_neg, neg_div, truncated_neg, Int.neg_tdiv]
    exact congrArg _ (hnat m n)
  · rw [Int.cast_neg, Int.cast_neg, neg_div_neg_eq, Int.neg_tdiv_neg]
    exact hnat m n

/-- A remainder is negative if the dividend is. -/
theorem tmod_neg_iff {a b : Int} (hne : a.tmod b ≠ 0) : a.tmod b < 0 ↔ a < 0 := by
  have hsign := Int.sign_tmod a b
  rw [if_neg fun hdvd => hne (Int.dvd_iff_tmod_eq_zero.mp hdvd)] at hsign
  rw [← Int.sign_eq_neg_one_iff_neg, hsign, Int.sign_eq_neg_one_iff_neg]

/-- The corrected remainder is the one that goes with rounding down. -/
theorem flooredModulo_eq (a b : Int) : flooredModulo a b = if b = 0 then none else some (a.fmod b) := by
  have hsign := @tmod_neg_iff a b
  unfold flooredModulo
  simp only [Int.fmod_eq_tmod, Int.dvd_iff_tmod_eq_zero]
  rcases lt_trichotomy b 0 with h | h | h
  · grind
  · grind
  · grind

/-- The corrected quotient is rounded down, whichever sign is looked at. -/
theorem flooredQuotient_eq {signed a b : Int} (hsigned : a.tmod b ≠ 0 → (signed < 0 ↔ a < 0)) :
    flooredQuotient signed a b = if b = 0 then none else some (a.fdiv b) := by
  unfold flooredQuotient
  simp only [Int.fdiv_eq_tdiv, Int.dvd_iff_tmod_eq_zero]
  rcases lt_trichotomy b 0 with h | h | h
  · rw [Int.sign_eq_neg_one_of_neg h]
    grind
  · grind
  · rw [Int.sign_eq_one_of_pos h]
    grind

/-! ## Operations -/

/-- What an operation on integers should result in. -/
def Arithmetic.IsResult (op : Arithmetic) (a b c : Int) : Prop :=
  match op with
  | .add => c = a + b
  | .subtract => c = a - b
  | .multiply => c = a * b
  | .divide => b ≠ 0 ∧ c * b = a
  | .modulo => b ≠ 0 ∧ a = ⌊(a : ℚ) / b⌋ * b + c ∧ (0 ≤ c ∧ c < b ∨ b < c ∧ c ≤ 0)
  | .floorDivide => b ≠ 0 ∧ c = ⌊(a : ℚ) / b⌋
  | .truncatingDivide => b ≠ 0 ∧ c = truncated ((a : ℚ) / b)
  | .bitAnd => c = Int.land a b
  | .bitOr => c = Int.lor a b
  | .bitXor => c = Int.xor a b
  | .bitShift => c = ⌊(a : ℚ) * 2 ^ b⌋

/-- Whether a comparison of integers holds. -/
def Comparison.Holds (op : Comparison) (a b : Int) : Prop :=
  match op with
  | .lessThan => a < b
  | .greaterThan => b < a
  | .lessOrEqual => a ≤ b
  | .greaterOrEqual => b ≤ a
  | .equal => a = b
  | .notEqual => a ≠ b

/-- Whether an operation is one on integers of any size. The others are for small integers only. -/
def Arithmetic.isWide : Arithmetic → Bool
  | .add | .subtract | .multiply | .divide | .modulo | .floorDivide => true
  | .truncatingDivide | .bitAnd | .bitOr | .bitXor | .bitShift => false

section Division

variable {a b c : Int}

theorem exactQuotient_eq_some_iff : exactQuotient a b = some c ↔ Arithmetic.divide.IsResult a b c := by
  simp only [exactQuotient, Arithmetic.IsResult, Option.ite_none_right_eq_some, Option.some.injEq, and_assoc]
  refine and_congr_right fun hb => ⟨?_, ?_⟩
  · rintro ⟨hmod, rfl⟩
    exact Int.tdiv_mul_cancel_of_tmod_eq_zero hmod
  · rintro rfl
    exact ⟨Int.mul_tmod_left c b, Int.mul_tdiv_cancel c hb⟩

theorem flooredModulo_eq_some_iff : flooredModulo a b = some c ↔ Arithmetic.modulo.IsResult a b c := by
  simp only [flooredModulo_eq, Arithmetic.IsResult, Option.ite_none_left_eq_some, Option.some.injEq, floor_div_eq]
  refine and_congr_right fun hb => ⟨?_, fun h => ?_⟩
  · rintro rfl
    exact ⟨(Int.fdiv_mul_add_fmod a b).symm, fmod_sign a hb⟩
  · rw [Int.fmod_def, mul_comm]
    omega

theorem flooredQuotient_eq_some_iff {signed : Int} (hsigned : a.tmod b ≠ 0 → (signed < 0 ↔ a < 0)) :
    flooredQuotient signed a b = some c ↔ Arithmetic.floorDivide.IsResult a b c := by
  simp only [flooredQuotient_eq hsigned, Arithmetic.IsResult, Option.ite_none_left_eq_some, Option.some.injEq,
    floor_div_eq]
  exact and_congr_right fun _ => eq_comm

end Division

/-- An operation on integers of any size has the result that it should have. -/
theorem Arithmetic.onIntegers_eq_some_iff {op : Arithmetic} (hop : op.isWide = true) {a b c : Int} :
    op.onIntegers a b = some c ↔ op.IsResult a b c := by
  cases op with
  | add | subtract | multiply => simp [onIntegers, IsResult, eq_comm]
  | divide => exact exactQuotient_eq_some_iff
  | modulo => exact flooredModulo_eq_some_iff
  | floorDivide => exact flooredQuotient_eq_some_iff tmod_neg_iff
  | _ => cases hop

/-- A small integer that is shifted to the right by 61 places or more leaves its sign. -/
theorem div_pow_of_isSmall {a : Int} (ha : Ref.isSmall a = true) {n : Nat} (hn : 61 ≤ n) :
    a / 2 ^ n = if a < 0 then -1 else 0 := by
  rw [Ref.isSmall_iff_pow] at ha
  have hpow : (2 : Int) ^ 61 ≤ 2 ^ n := pow_le_pow_right₀ (by decide) hn
  split
  · exact Int.ediv_eq_neg_one_of_neg_of_le (by omega) (by omega)
  · exact Int.ediv_eq_zero_of_lt (by omega) (by omega)

/-- A word is shifted to the left and back again, and nothing is lost. -/
theorem shiftLeft_eq_iff {a c : Int} {n : Nat} (ha : Ref.isSmall a = true) (hc : Ref.isSmall c = true) (hn : n < 63) :
    (let word := BitVec.ofInt 64 a <<< n
      if word.sshiftRight n = .ofInt 64 a then some word.toInt else none) = some c ↔ c = a * 2 ^ n := by
  rw [Ref.isSmall_iff_pow] at ha hc
  have hword : (BitVec.ofInt 64 a <<< n).toInt = (a * 2 ^ n).bmod (2 ^ 64) := by
    have htwo : BitVec.twoPow 64 n = BitVec.ofInt 64 (2 ^ n) := by
      apply BitVec.eq_of_toNat_eq
      rw [BitVec.toNat_twoPow, show (2 : Int) ^ n = ((2 ^ n : Nat) : Int) by norm_cast, BitVec.ofInt_natCast,
        BitVec.toNat_ofNat]
    rw [BitVec.shiftLeft_eq_mul_twoPow, htwo, ← BitVec.ofInt_mul, BitVec.toInt_ofInt]
  have hback : (BitVec.ofInt 64 a <<< n).sshiftRight n = .ofInt 64 a ↔
      (a * 2 ^ n).bmod (2 ^ 64) / 2 ^ n = a := by
    have hself : a.bmod (2 ^ 64) = a := Int.bmod_eq_of_le (by omega) (by omega)
    rw [← BitVec.toInt_inj, BitVec.toInt_sshiftRight, hword, Int.shiftRight_eq_div_pow, BitVec.toInt_ofInt, hself]
    norm_cast
  -- A word that is a multiple of the power is the product.
  have hdvd : (2 : Int) ^ n ∣ (a * 2 ^ n).bmod (2 ^ 64) := by
    have hpow : (2 : Int) ^ n ∣ ((2 ^ 64 : Nat) : Int) := by
      exact_mod_cast pow_dvd_pow 2 (by omega)
    rw [Int.bmod_eq_self_sub_mul_bdiv]
    exact dvd_sub (dvd_mul_left ..) (dvd_mul_of_dvd_left hpow _)
  dsimp only
  rw [Option.ite_none_right_eq_some, Option.some.injEq, hback, hword]
  constructor
  · rintro ⟨hback, rfl⟩
    rw [← Int.ediv_mul_cancel hdvd, hback]
  · rintro rfl
    rw [Int.bmod_eq_of_le (by omega) (by omega)]
    exact ⟨Int.mul_ediv_cancel _ (by positivity), rfl⟩

/-- A small integer that is shifted has the result that it should have, if that is small. -/
theorem shifted_eq_some_iff {a b c : Int} (ha : Ref.isSmall a = true) (hc : Ref.isSmall c = true) :
    shifted a b = some c ↔ c = ⌊(a : ℚ) * 2 ^ b⌋ := by
  unfold shifted
  obtain ⟨n, rfl | rfl⟩ := b.eq_nat_or_neg
  · have hexact : ⌊(a : ℚ) * 2 ^ (n : Int)⌋ = a * 2 ^ n := by
      rw [zpow_natCast]
      exact_mod_cast Int.floor_intCast (a * 2 ^ n)
    rw [hexact, if_pos (Int.natCast_nonneg n)]
    split
    · rename_i hlarge
      have hpow : (2 : Int) ^ 63 ≤ 2 ^ n := pow_le_pow_right₀ (by decide) (by omega)
      split
      · rename_i hzero
        rw [hzero, zero_mul, Option.some.injEq, eq_comm]
      · rename_i hne
        refine ⟨nofun, fun heq => ?_⟩
        -- What was shifted by so many places is not small.
        rw [Ref.isSmall_iff_pow] at hc
        rcases lt_or_gt_of_ne hne with hneg | hpos
        · have hle : a * 2 ^ n ≤ -1 * 2 ^ n := mul_le_mul_of_nonneg_right (by omega) (by positivity)
          omega
        · have hle : 1 * 2 ^ n ≤ a * 2 ^ n := mul_le_mul_of_nonneg_right hpos (by positivity)
          omega
    · rw [Int.toNat_natCast]
      exact shiftLeft_eq_iff ha hc (by omega)
  · have hexact : ⌊(a : ℚ) * 2 ^ (-n : Int)⌋ = a / 2 ^ n := by
      rw [zpow_neg, zpow_natCast, ← div_eq_mul_inv]
      exact_mod_cast Rat.floor_intCast_div_natCast a (2 ^ n)
    rw [hexact]
    rcases Nat.eq_zero_or_pos n with rfl | hpos
    · simpa using shiftLeft_eq_iff ha hc (by decide : 0 < 63)
    · rw [if_neg (by omega), Option.some.injEq, Int.natAbs_neg, Int.natAbs_natCast, eq_comm,
        Int.shiftRight_eq_div_pow, Nat.cast_pow, Nat.cast_ofNat]
      rcases Nat.le_total n 63 with hle | hge
      · rw [min_eq_left hle]
      · rw [min_eq_right hge, div_pow_of_isSmall ha (by decide), div_pow_of_isSmall ha (by omega)]

theorem checked_eq_some_iff {value c : Int} (hc : Ref.isSmall c = true) : checked value = some c ↔ c = value := by
  rw [Ref.isSmall_iff_pow] at hc
  unfold checked
  grind

/-- An operation on small integers has the result that it should have, as far as that is small. -/
theorem Arithmetic.onSmall_eq_some_iff (op : Arithmetic) {a b c : Int} (ha : Ref.isSmall a = true)
    (hb : Ref.isSmall b = true) (hc : Ref.isSmall c = true) : op.onSmall a b = some c ↔ op.IsResult a b c := by
  cases op with
  | add | subtract | multiply => exact checked_eq_some_iff hc
  | divide => exact exactQuotient_eq_some_iff
  | modulo => exact flooredModulo_eq_some_iff
  | floorDivide => exact flooredQuotient_eq_some_iff fun _ => Iff.rfl
  | truncatingDivide =>
    simp only [onSmall, IsResult, Option.ite_none_left_eq_some, Option.some.injEq, truncated_div_eq]
    exact and_congr_right fun _ => eq_comm
  | bitAnd =>
    simp only [onSmall, IsResult, Option.some.injEq]
    rw [onBits_eq and (fun x y i hi => BitVec.getElem_and hi) ha hb, Int.bitwise_and, eq_comm]
  | bitOr =>
    simp only [onSmall, IsResult, Option.some.injEq]
    rw [onBits_eq or (fun x y i hi => BitVec.getElem_or hi) ha hb, Int.bitwise_or, eq_comm]
  | bitXor =>
    simp only [onSmall, IsResult, Option.some.injEq]
    rw [onBits_eq xor (fun x y i hi => BitVec.getElem_xor hi) ha hb, Int.bitwise_xor, eq_comm]
  | bitShift => exact shifted_eq_some_iff ha hc

/-! ## Messages -/

/-- An operation or a comparison, as a message to an integer. -/
inductive Operator where
  | arithmetic (op : Arithmetic)
  | comparison (op : Comparison)
  deriving DecidableEq, Repr

/-- What a message is answered with. -/
inductive Reply where
  | integer (value : Int)
  | truth (value : Bool)
  deriving DecidableEq, Repr

namespace Arithmetic

variable {op : Arithmetic} {a b : Int}

end Arithmetic

namespace Operator

variable {o : Operator} {a b : Int} {reply : Reply}

def selector : Operator → String
  | .arithmetic op => op.selector
  | .comparison op => op.selector

/-- Whether a message is answered by integers of any size. -/
def isWide : Operator → Bool
  | .arithmetic op => op.isWide
  | .comparison _ => true

/-- What integers of any size answer. -/
def reply? (o : Operator) (a b : Int) : Option Reply :=
  match o with
  | .arithmetic op => (op.onIntegers a b).map .integer
  | .comparison op => some (.truth (op.onIntegers a b))

/-- What small integers answer by themselves. -/
def smallReply? (o : Operator) (a b : Int) : Option Reply :=
  if Ref.isSmall a = true ∧ Ref.isSmall b = true then
    match o with
    | .arithmetic op => ((op.onSmall a b).filter Ref.isSmall).map .integer
    | .comparison op => some (.truth (op.onIntegers a b))
  else none

/-- What a message to a small integer, or one that integers of any size answer, is answered with. -/
def answer? (o : Operator) (a b : Int) : Option Reply :=
  if o.isWide then o.reply? a b else o.smallReply? a b

theorem smallReply?_eq_none (o : Operator) (h : ¬ (Ref.isSmall a = true ∧ Ref.isSmall b = true)) :
    o.smallReply? a b = none :=
  if_neg h

/-- What small integers answer by themselves is what integers of any size answer. -/
theorem reply?_of_smallReply? (ho : o.isWide = true) (h : o.smallReply? a b = some reply) :
    o.reply? a b = some reply := by
  obtain ⟨⟨ha, hb⟩, h⟩ := Option.ite_none_right_eq_some.mp h
  cases o with
  | arithmetic op =>
    obtain ⟨value, hvalue, rfl⟩ := Option.map_eq_some_iff.mp h
    obtain ⟨hvalue, hsmall⟩ := Option.filter_eq_some_iff.mp hvalue
    have hresult := (op.onSmall_eq_some_iff ha hb hsmall).mp hvalue
    exact Option.map_eq_some_iff.mpr ⟨value, (Arithmetic.onIntegers_eq_some_iff ho).mpr hresult, rfl⟩
  | comparison op => exact h

theorem answer?_of_smallReply? (h : o.smallReply? a b = some reply) : o.answer? a b = some reply := by
  unfold answer?
  split
  · exact reply?_of_smallReply? ‹_› h
  · exact h

end Operator

end ObjectMachine
