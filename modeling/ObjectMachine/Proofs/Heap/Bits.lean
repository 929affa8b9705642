import Mathlib
import ObjectMachine.Object.Header

/-!
# The bits of references and headers

A reference to an object is the position of its first word, three bits up; below `2 ^ 61` nothing is
lost on the way there and back. A header packs its fields into disjoint ranges of one word, so the
mark and the captured bit can be set and cleared without any other field noticing.

## Main results

* `Word.getLsbD_splice`: the bits of a word in which a range of bits was replaced.
* `Ref.wordIndex_ofWordIndex`, `Ref.isPointer_ofWordIndex`: references and positions agree.
* `Header.SameShape`: two headers of objects laid out alike; marking and capturing stay inside this
  relation.
* `Header.unmarked_marked`: unmarking undoes marking.
* `Header.formatCode_pack`, `Header.fixedFields_pack`: a packed header reads back.
-/

namespace ObjectMachine

/-! ## Words -/

namespace Word

/-- Bits set outside a mask do not show through it. -/
theorem or_and_of_disjoint {x b m : UInt64} (hb : b &&& m = 0) : (x ||| b) &&& m = x &&& m := by
  have hdist : (x ||| b) &&& m = (x &&& m) ||| (b &&& m) := by
    apply UInt64.toBitVec_inj.mp
    simp only [UInt64.toBitVec_and, UInt64.toBitVec_or]
    exact BitVec.and_or_distrib_right
  rw [hdist, hb, UInt64.or_zero]

/-- Bits cleared outside a mask do not show through it. -/
theorem and_and_of_subset {x b m : UInt64} (hb : b &&& m = m) : (x &&& b) &&& m = x &&& m := by
  rw [UInt64.and_assoc, hb]

/-- The same, for a mask laid over the word after a shift. -/
theorem or_shift_and {x b s m : UInt64} (hb : b >>> s &&& m = 0) :
    (x ||| b) >>> s &&& m = x >>> s &&& m := by
  rw [UInt64.shiftRight_or]
  exact or_and_of_disjoint hb

theorem and_shift_and {x b s m : UInt64} (hb : b >>> s &&& m = m) :
    (x &&& b) >>> s &&& m = x >>> s &&& m := by
  rw [UInt64.shiftRight_and]
  exact and_and_of_subset hb

/-- Clearing bits that are clear changes nothing. -/
theorem and_not_of_clear {x b : UInt64} (hb : x &&& b = 0) : x &&& ~~~b = x := by
  apply UInt64.toBitVec_inj.mp
  have hbits : x.toBitVec &&& b.toBitVec = 0 := by
    rw [← UInt64.toBitVec_and, hb]
    rfl
  simp only [UInt64.toBitVec_and, UInt64.toBitVec_not]
  ext i hi
  have hbit : (x.toBitVec &&& b.toBitVec)[i] = false := by simp [hbits]
  simp only [BitVec.getElem_and, BitVec.getElem_not] at hbit ⊢
  cases hx : x.toBitVec[i] <;> simp_all

/-! ### Ranges of bits -/

/-- Amounts below sixty-four shift a word by as much. -/
theorem toNat_shift {s : Nat} (hs : s < 64) : s.toUInt64.toNat % 64 = s := by
  rw [Nat.toUInt64_eq, UInt64.toNat_ofNat', Nat.mod_mod_of_dvd _ (by decide), Nat.mod_eq_of_lt hs]

theorem getLsbD_shiftRight (w : UInt64) {s : Nat} (hs : s < 64) (l : Nat) :
    (w >>> s.toUInt64).toBitVec.getLsbD l = w.toBitVec.getLsbD (s + l) := by
  rw [UInt64.toBitVec_shiftRight]
  show (w.toBitVec >>> (s.toUInt64.toNat % 64)).getLsbD l = _
  rw [BitVec.getLsbD_ushiftRight, toNat_shift hs]

theorem getLsbD_shiftLeft (w : UInt64) {s t : Nat} (hs : s < 64) (ht : t < 64) :
    (w <<< s.toUInt64).toBitVec.getLsbD t = (decide (s ≤ t) && w.toBitVec.getLsbD (t - s)) := by
  rw [UInt64.toBitVec_shiftLeft]
  show (w.toBitVec <<< (s.toUInt64.toNat % 64)).getLsbD t = _
  rw [toNat_shift hs, BitVec.getLsbD_shiftLeft]
  by_cases h : s ≤ t
  · simp [ht, h, Nat.not_lt.mpr h]
  · simp [ht, h, Nat.lt_of_not_le h]

/-- A word in which `n` bits from one on were replaced by a value of `n` bits. -/
theorem getLsbD_splice {w mask value : UInt64} {s n t : Nat} (hs : s < 64)
    (hmask : ∀ l < 64, mask.toBitVec.getLsbD l = decide (l < n))
    (hvalue : ∀ l, n ≤ l → value.toBitVec.getLsbD l = false) (ht : t < 64) :
    ((w &&& ~~~(mask <<< s.toUInt64)) ||| (value <<< s.toUInt64)).toBitVec.getLsbD t =
      if s ≤ t ∧ t < s + n then value.toBitVec.getLsbD (t - s) else w.toBitVec.getLsbD t := by
  rw [UInt64.toBitVec_or, BitVec.getLsbD_or, UInt64.toBitVec_and, BitVec.getLsbD_and,
    UInt64.toBitVec_not, BitVec.getLsbD_not, getLsbD_shiftLeft _ hs ht, getLsbD_shiftLeft _ hs ht,
    hmask _ (Nat.lt_of_le_of_lt (Nat.sub_le t s) ht), decide_eq_true ht]
  by_cases hlow : s ≤ t
  · by_cases hhigh : t < s + n
    · rw [if_pos ⟨hlow, hhigh⟩, decide_eq_true hlow, decide_eq_true (show t - s < n by omega)]
      simp
    · rw [if_neg fun h => hhigh h.2, hvalue _ (by omega),
        decide_eq_false (show ¬ t - s < n by omega)]
      simp
  · rw [if_neg fun h => hlow h.1, decide_eq_false hlow]
    simp

/-- The bits of a mask with the lowest bits set. -/
theorem getLsbD_mask {mask : UInt64} {n : Nat} (hmask : mask.toNat = 2 ^ n - 1) (l : Nat) :
    mask.toBitVec.getLsbD l = decide (l < n) := by
  show mask.toNat.testBit l = _
  rw [hmask, Nat.testBit_two_pow_sub_one]

end Word

/-! ## References -/

namespace Ref

/-- The number of words that references can tell apart: `2 ^ 61`. -/
def addressLimit : Nat := 2305843009213693952

theorem bits_ofWordIndex {i : Nat} (hi : i < addressLimit) :
    (ofWordIndex i).bits.toNat = 8 * i := by
  have hi' : i < 2305843009213693952 := hi
  simp only [ofWordIndex, Nat.toUInt64_eq]
  rw [UInt64.toNat_shiftLeft, UInt64.toNat_ofNat', show (3 : UInt64).toNat % 64 = 3 from rfl,
    Nat.shiftLeft_eq, Nat.mod_eq_of_lt (by omega)]
  omega

/-- Positions survive the way into a reference and back. -/
theorem wordIndex_ofWordIndex {i : Nat} (hi : i < addressLimit) : (ofWordIndex i).wordIndex = i := by
  rw [wordIndex, UInt64.toNat_shiftRight, bits_ofWordIndex hi,
    show (3 : UInt64).toNat % 64 = 3 from rfl, Nat.shiftRight_eq_div_pow]
  omega

theorem ofWordIndex_inj {i j : Nat} (hi : i < addressLimit) (hj : j < addressLimit)
    (h : ofWordIndex i = ofWordIndex j) : i = j := by
  rw [← wordIndex_ofWordIndex hi, ← wordIndex_ofWordIndex hj, h]

/-- Every position but the first makes a reference to an object. -/
theorem isPointer_ofWordIndex {i : Nat} (hpos : 0 < i) (hi : i < addressLimit) :
    (ofWordIndex i).isPointer = true := by
  have hbits := bits_ofWordIndex hi
  have htag : (ofWordIndex i).bits &&& tagMask = 0 := by
    apply UInt64.toNat_inj.mp
    rw [UInt64.toNat_and, hbits, show tagMask.toNat = 2 ^ 2 - 1 from rfl, Nat.and_two_pow_sub_one_eq_mod]
    simp only [UInt64.toNat_zero]
    omega
  have hne : (ofWordIndex i).bits ≠ 0 := by
    intro h0
    rw [h0] at hbits
    simp only [UInt64.toNat_zero] at hbits
    omega
  simp [isPointer, htag, hne]

theorem not_isSmallInteger_of_isPointer {r : Ref} (h : r.isPointer = true) :
    r.isSmallInteger = false := by
  simp only [isPointer, Bool.and_eq_true, beq_iff_eq] at h
  simp [isSmallInteger, h.1]

theorem not_isMarker_of_isPointer {r : Ref} (h : r.isPointer = true) : r.isMarker = false := by
  simp only [isPointer, Bool.and_eq_true, beq_iff_eq] at h
  simp [isMarker, h.1]

theorem not_isImmediate_of_isPointer {r : Ref} (h : r.isPointer = true) :
    r.isImmediate = false := by
  simp only [isPointer, Bool.and_eq_true, beq_iff_eq] at h
  simp [isImmediate, isSmallInteger, isCharacter, h.1]

theorem not_isMarker_of_isImmediate {r : Ref} (h : r.isImmediate = true) :
    r.isMarker = false := by
  simp only [isImmediate, isSmallInteger, isCharacter, Bool.or_eq_true, beq_iff_eq] at h
  rcases h with htag | htag
  · simp [isMarker, htag]
  · simp [isMarker, htag]

/-- A count that fits a reference reads back. -/
theorem toNat_bits_ofNat {n : Nat} (hn : n < addressLimit) : (ofNat n).bits.toNat = 4 * n + 1 := by
  have hn' : n < 2305843009213693952 := hn
  have hshift : (n.toUInt64 <<< 2).toNat = n <<< 2 := by
    rw [Nat.toUInt64_eq, UInt64.toNat_shiftLeft, UInt64.toNat_ofNat',
      show (2 : UInt64).toNat % 64 = 2 from rfl, Nat.shiftLeft_eq, Nat.shiftLeft_eq,
      Nat.mod_eq_of_lt (by omega)]
    omega
  show ((n.toUInt64 <<< 2) ||| 1).toNat = _
  rw [UInt64.toNat_or, hshift, show (1 : UInt64).toNat = 1 from rfl,
    ← Nat.shiftLeft_add_eq_or_of_lt (by decide), Nat.shiftLeft_eq]
  omega

theorem isSmallInteger_ofNat {n : Nat} (hn : n < addressLimit) :
    (ofNat n).isSmallInteger = true := by
  have htag : (ofNat n).bits &&& tagMask = 1 := by
    apply UInt64.toNat_inj.mp
    rw [UInt64.toNat_and, toNat_bits_ofNat hn, show tagMask.toNat = 2 ^ 2 - 1 from rfl,
      Nat.and_two_pow_sub_one_eq_mod, show (1 : UInt64).toNat = 1 from rfl]
    omega
  simp [isSmallInteger, htag]

theorem toCount_ofNat {n : Nat} (hn : n < addressLimit) : (ofNat n).toCount = n := by
  have hbits := toNat_bits_ofNat hn
  have hn' : n < 2305843009213693952 := hn
  -- The sign bit is clear, so that the arithmetic shift is a logical one.
  have hmsb : (ofNat n).bits.toBitVec.msb = false := by
    rw [BitVec.msb_eq_false_iff_two_mul_lt]
    show 2 * (ofNat n).bits.toNat < _
    omega
  show ((ofNat n).bits.toBitVec.sshiftRight ((2 : Int64).toBitVec.smod 64).toNat).toNat = n
  rw [show ((2 : Int64).toBitVec.smod 64).toNat = 2 by decide,
    BitVec.sshiftRight_eq_of_msb_false hmsb, BitVec.toNat_ushiftRight]
  show (ofNat n).bits.toNat >>> 2 = n
  rw [hbits, Nat.shiftRight_eq_div_pow]
  omega

@[simp] theorem isPointer_null : null.isPointer = false := rfl

end Ref

/-! ## Headers -/

namespace Header

/-- Two headers of objects that are laid out alike. They may differ in all that does not matter for
the layout. -/
structure SameShape (a b : Header) : Prop where
  valid : a.isValid = b.isValid
  formatCode : a.formatCode = b.formatCode
  fixedFields : a.fixedFields = b.fixedFields

theorem SameShape.refl (h : Header) : SameShape h h :=
  ⟨rfl, rfl, rfl⟩

theorem SameShape.trans {a b c : Header} (hab : SameShape a b) (hbc : SameShape b c) :
    SameShape a c :=
  ⟨hab.valid.trans hbc.valid, hab.formatCode.trans hbc.formatCode,
    hab.fixedFields.trans hbc.fixedFields⟩

theorem SameShape.symm {a b : Header} (h : SameShape a b) : SameShape b a :=
  ⟨h.valid.symm, h.formatCode.symm, h.fixedFields.symm⟩

/-- Setting bits outside the tag, the format and the fields keeps the shape. -/
theorem sameShape_or (h : Header) {b : UInt64} (hvalid : b &&& 3 = 0)
    (hformat : b >>> 4 &&& 0x1F = 0) (hfields : b >>> 32 &&& 0xFFFF = 0) :
    SameShape ⟨h.bits ||| b⟩ h where
  valid := by
    simp only [isValid]
    rw [Word.or_and_of_disjoint hvalid]
  formatCode := by
    simp only [formatCode]
    rw [Word.or_shift_and hformat]
  fixedFields := by
    simp only [fixedFields]
    rw [Word.or_shift_and hfields]

/-- So does clearing them. -/
theorem sameShape_and (h : Header) {b : UInt64} (hvalid : b &&& 3 = 3)
    (hformat : b >>> 4 &&& 0x1F = 0x1F) (hfields : b >>> 32 &&& 0xFFFF = 0xFFFF) :
    SameShape ⟨h.bits &&& b⟩ h where
  valid := by
    simp only [isValid]
    rw [Word.and_and_of_subset hvalid]
  formatCode := by
    simp only [formatCode]
    rw [Word.and_shift_and hformat]
  fixedFields := by
    simp only [fixedFields]
    rw [Word.and_shift_and hfields]

theorem sameShape_marked (h : Header) : SameShape h.marked h :=
  h.sameShape_or (by decide) (by decide) (by decide)

theorem sameShape_captured (h : Header) : SameShape h.captured h :=
  h.sameShape_or (by decide) (by decide) (by decide)

theorem sameShape_uncaptured (h : Header) : SameShape h.uncaptured h :=
  h.sameShape_and (by decide) (by decide) (by decide)

theorem isMarked_captured (h : Header) : h.captured.isMarked = h.isMarked := by
  simp only [isMarked, captured]
  rw [Word.or_and_of_disjoint (by decide)]

theorem isMarked_uncaptured (h : Header) : h.uncaptured.isMarked = h.isMarked := by
  simp only [isMarked, uncaptured]
  rw [Word.and_and_of_subset (by decide)]

theorem unmarked_of_not_isMarked {h : Header} (hm : h.isMarked = false) : h.unmarked = h := by
  have hclear : h.bits &&& markBit = 0 := by simpa [isMarked] using hm
  cases h
  simp only [unmarked, Header.mk.injEq]
  exact Word.and_not_of_clear hclear

/-- Unmarking undoes marking. -/
theorem unmarked_marked {h : Header} (hm : h.isMarked = false) : h.marked.unmarked = h := by
  have hbits : (h.bits ||| markBit) &&& ~~~markBit = h.bits &&& ~~~markBit :=
    Word.or_and_of_disjoint (by decide)
  have hunmarked : h.marked.unmarked = h.unmarked := by
    simp only [unmarked, marked, hbits]
  rw [hunmarked, unmarked_of_not_isMarked hm]

/-! ### Packing -/

theorem code_lt (f : Format) : f.code < 8 := by
  cases f <;> decide

/-- The fields of a packed header follow one another without overlap. -/
theorem toNat_pack (format : Format) {fields : Nat} (hash : UInt32) (hfields : fields ≤ maxFields) :
    (pack format fields hash).bits.toNat =
      2 ^ 32 * fields + (2 ^ 9 * (hash.toNat % 2 ^ 22) + (2 ^ 4 * format.code + 3)) := by
  have hcode := code_lt format
  simp only [maxFields] at hfields
  have hhash : hash.toNat % 2 ^ 22 < 2 ^ 22 := Nat.mod_lt _ (by decide)
  have hcodeBits : (format.code.toUInt64 <<< 4).toNat = 2 ^ 4 * format.code := by
    rw [UInt64.toNat_shiftLeft, Nat.toUInt64_eq, UInt64.toNat_ofNat',
      show (4 : UInt64).toNat % 64 = 4 from rfl, Nat.shiftLeft_eq, Nat.mod_eq_of_lt (by omega)]
    omega
  have hhashBits : ((hash.toUInt64 &&& 0x3FFFFF) <<< 9).toNat = 2 ^ 9 * (hash.toNat % 2 ^ 22) := by
    rw [UInt64.toNat_shiftLeft, UInt64.toNat_and, UInt32.toNat_toUInt64,
      show (9 : UInt64).toNat % 64 = 9 from rfl, show (0x3FFFFF : UInt64).toNat = 2 ^ 22 - 1 from rfl,
      Nat.and_two_pow_sub_one_eq_mod, Nat.shiftLeft_eq]
    omega
  have hfieldBits : ((fields.toUInt64 &&& 0xFFFF) <<< 32).toNat = 2 ^ 32 * fields := by
    rw [UInt64.toNat_shiftLeft, UInt64.toNat_and, Nat.toUInt64_eq, UInt64.toNat_ofNat',
      show (32 : UInt64).toNat % 64 = 32 from rfl, show (0xFFFF : UInt64).toNat = 2 ^ 16 - 1 from rfl,
      Nat.and_two_pow_sub_one_eq_mod, Nat.shiftLeft_eq]
    omega
  simp only [pack, UInt64.toNat_or, hcodeBits, hhashBits, hfieldBits]
  rw [show (3 : UInt64).toNat = 3 from rfl, Nat.or_comm 3, ← Nat.two_pow_add_eq_or_of_lt (by decide),
    Nat.or_comm (_ + 3), ← Nat.two_pow_add_eq_or_of_lt (by omega), Nat.or_comm _ (2 ^ 32 * fields),
    ← Nat.two_pow_add_eq_or_of_lt (by omega)]

variable {format : Format} {fields : Nat} (hash : UInt32)

theorem isValid_pack (hfields : fields ≤ maxFields) : (pack format fields hash).isValid = true := by
  have hbits := toNat_pack format hash hfields
  simp only [isValid, beq_iff_eq, ← UInt64.toNat_inj, UInt64.toNat_and]
  rw [show (3 : UInt64).toNat = 2 ^ 2 - 1 from rfl, Nat.and_two_pow_sub_one_eq_mod]
  omega

theorem formatCode_pack (hfields : fields ≤ maxFields) :
    (pack format fields hash).formatCode = format.code := by
  have hbits := toNat_pack format hash hfields
  have hcode := code_lt format
  simp only [formatCode, UInt64.toNat_and, UInt64.toNat_shiftRight]
  rw [show (4 : UInt64).toNat % 64 = 4 from rfl, show (0x1F : UInt64).toNat = 2 ^ 5 - 1 from rfl,
    Nat.and_two_pow_sub_one_eq_mod, Nat.shiftRight_eq_div_pow]
  omega

theorem fixedFields_pack (hfields : fields ≤ maxFields) :
    (pack format fields hash).fixedFields = fields := by
  have hbits := toNat_pack format hash hfields
  have hcode := code_lt format
  simp only [maxFields] at hfields
  simp only [fixedFields, UInt64.toNat_and, UInt64.toNat_shiftRight]
  rw [show (32 : UInt64).toNat % 64 = 32 from rfl,
    show (0xFFFF : UInt64).toNat = 2 ^ 16 - 1 from rfl, Nat.and_two_pow_sub_one_eq_mod,
    Nat.shiftRight_eq_div_pow]
  omega

theorem isMarked_pack (hfields : fields ≤ maxFields) :
    (pack format fields hash).isMarked = false := by
  have hbits := toNat_pack format hash hfields
  have hclear : (pack format fields hash).bits &&& markBit = 0 := by
    have hbit : (pack format fields hash).bits.toNat.testBit 2 = false := by
      rw [Nat.testBit_eq_decide_div_mod_eq]
      exact decide_eq_false (by omega)
    apply UInt64.toNat_inj.mp
    rw [UInt64.toNat_and, show markBit.toNat = 2 ^ 2 from rfl]
    refine Nat.eq_of_testBit_eq fun i => ?_
    rw [Nat.testBit_and, Nat.testBit_two_pow]
    by_cases hi : 2 = i
    · simp [← hi, hbit]
    · simp [hi]
  simp [isMarked, hclear]

end Header

end ObjectMachine
