import ObjectMachine.Collection.BitVector
import ObjectMachine.Proofs.Heap.Bits

/-!
# Selection in bit vectors

A bit vector is the set of its set bits. Its two questions about positions are rank and select: how
many bits are set before a position in its block, and where the `n`-th set bit from a position on
is. Both are stated by one count, `BitVector.rank`, of the set bits between two positions.

Both are answered a block at a time: bits that do not count are masked out, whole blocks are skipped
by the number of their bits, and the bit looked for is brought to the bottom of its block by
clearing those below it. What is left of a block at each of these points is a word that `IsRest`.

## Main results

* `BitVector.get_set`: setting a bit adds its position to the set and nothing else.
* `BitVector.dropLowest_spec`: clearing the lowest bits of a block brings up the next one.
* `BitVector.ordinalInBlock_eq`: the ordinal of a position is the rank from the beginning of its
  block.
* `BitVector.nthSetFrom_eq_some_iff`: selection finds the bit with a given rank.
* `BitVector.rank_eq_countP`: the rank in a vector whose bits are the members of a list.
* `BitVector.setAll_selects`: rank and select in every vector made by setting bits.
-/

namespace ObjectMachine.BitVector

/-! ## Single bits -/

theorem testBit_eq {block : UInt64} {bit : Nat} (hbit : bit < 64) :
    testBit block bit = block.toNat.testBit bit := by
  have hshift : (block >>> bit.toUInt64).toNat = block.toNat >>> bit := by
    rw [UInt64.toNat_shiftRight, Word.toNat_shift hbit]
  rw [Nat.testBit_eq_decide_div_mod_eq, ← Nat.shiftRight_eq_div_pow, ← hshift, ← Nat.and_one_is_mod]
  unfold testBit
  rw [Bool.eq_iff_iff, beq_iff_eq, decide_eq_true_eq, ← UInt64.toNat_inj, UInt64.toNat_and]
  rfl

/-- Setting a bit of a block sets that bit only. -/
theorem testBit_or_shift {block : UInt64} {bit other : Nat} (hbit : bit < 64) (hother : other < 64) :
    testBit (block ||| (1 <<< bit.toUInt64)) other = (testBit block other || decide (bit = other)) := by
  have hone : ((1 : UInt64) <<< bit.toUInt64).toNat = 2 ^ bit := by
    have hpow : 2 ^ bit < 2 ^ 64 := Nat.pow_lt_pow_right (by decide) hbit
    rw [UInt64.toNat_shiftLeft, Word.toNat_shift hbit, Nat.shiftLeft_eq]
    simpa using Nat.mod_eq_of_lt hpow
  rw [testBit_eq hother, testBit_eq hother, UInt64.toNat_or, Nat.testBit_or, hone, Nat.testBit_two_pow]

theorem testBit_and {a b : UInt64} {bit : Nat} (hbit : bit < 64) :
    testBit (a &&& b) bit = (testBit a bit && testBit b bit) := by
  rw [testBit_eq hbit, testBit_eq hbit, testBit_eq hbit, UInt64.toNat_and, Nat.testBit_and]

/-! ## Masks -/

/-- The mask that a selection begins with has the bits from a number on. -/
theorem testBit_maskFrom {first bit : Nat} (hfirst : first < 64) (hbit : bit < 64) :
    testBit (~~~0 <<< first.toUInt64) bit = decide (first ≤ bit) := by
  have hones : (~~~(0 : UInt64)).toBitVec.getLsbD (bit - first) = true := by
    rw [UInt64.toBitVec_not, BitVec.getLsbD_not]
    simpa using Nat.lt_of_le_of_lt (Nat.sub_le bit first) hbit
  rw [testBit_eq hbit]
  show (~~~(0 : UInt64) <<< first.toUInt64).toBitVec.getLsbD bit = _
  rw [Word.getLsbD_shiftLeft _ hfirst hbit, hones, Bool.and_true]

/-- The mask of an ordinal has the bits below a number. -/
theorem testBit_maskBelow {last bit : Nat} (hlast : last < 64) (hbit : bit < 64) :
    testBit ((1 <<< last.toUInt64) - 1) bit = decide (bit < last) := by
  have hpow : 2 ^ last < 2 ^ 64 := Nat.pow_lt_pow_right (by decide) hlast
  have hone : ((1 : UInt64) <<< last.toUInt64).toNat = 2 ^ last := by
    rw [UInt64.toNat_shiftLeft, Word.toNat_shift hlast, Nat.shiftLeft_eq]
    simpa using Nat.mod_eq_of_lt hpow
  have hle : (1 : UInt64) ≤ 1 <<< last.toUInt64 := by
    rw [UInt64.le_iff_toNat_le, hone]
    exact Nat.one_le_two_pow
  rw [testBit_eq hbit, UInt64.toNat_sub_of_le _ _ hle, hone, UInt64.toNat_one,
    Nat.testBit_two_pow_sub_one]

/-! ## Counting in a block -/

/-- Blocks with the same bits below a number count the same there. -/
theorem countBelow_congr {w w' : UInt64} {n : Nat} (h : ∀ bit < n, testBit w' bit = testBit w bit) :
    countBelow w' n = countBelow w n := by
  induction n with
  | zero => rfl
  | succ n ih =>
    rw [countBelow, countBelow, ih fun bit hbit => h bit (Nat.lt_succ_of_lt hbit),
      h n (Nat.lt_succ_self n)]

theorem countBelow_eq_zero {w : UInt64} {n : Nat} (h : ∀ bit < n, testBit w bit = false) :
    countBelow w n = 0 := by
  induction n with
  | zero => rfl
  | succ n ih =>
    rw [countBelow, ih fun bit hbit => h bit (Nat.lt_succ_of_lt hbit), h n (Nat.lt_succ_self n)]
    rfl

/-- A block without the bits from a number on counts what the block counts below it. -/
theorem countOnes_and_maskBelow (w : UInt64) {last : Nat} (hlast : last < 64) :
    countOnes (w &&& ((1 <<< last.toUInt64) - 1)) = countBelow w last := by
  have hcount : ∀ n, last ≤ n → n ≤ 64 →
      countBelow (w &&& ((1 <<< last.toUInt64) - 1)) n = countBelow w last := by
    intro n hle
    induction n, hle using Nat.le_induction with
    | base =>
      intro _
      apply countBelow_congr
      intro bit hbit
      rw [testBit_and (by omega), testBit_maskBelow hlast (by omega), decide_eq_true hbit,
        Bool.and_true]
    | succ n hle ih =>
      intro hn
      rw [countBelow, ih (by omega), testBit_and (by omega), testBit_maskBelow hlast (by omega),
        decide_eq_false (Nat.not_lt.mpr hle), Bool.and_false]
      rfl
  exact hcount 64 (Nat.le_of_lt hlast) (Nat.le_refl _)

/-! ## The lowest bit of a block -/

section Lowest

variable {w : UInt64} {bit n : Nat}

private theorem lowestFrom_spec (w : UInt64) (first count : Nat) :
    (∀ bit, first ≤ bit → bit < lowestFrom w first count → testBit w bit = false) ∧
      (testBit w (lowestFrom w first count) = true ∨ lowestFrom w first count = first + count) := by
  induction count generalizing first with
  | zero =>
    refine ⟨?_, .inr rfl⟩
    intro bit hle hlt
    exact absurd hlt (Nat.not_lt.mpr hle)
  | succ count ih =>
    unfold lowestFrom
    split
    · rename_i hset
      refine ⟨?_, .inl hset⟩
      intro bit hle hlt
      exact absurd hlt (Nat.not_lt.mpr hle)
    · rename_i hclear
      obtain ⟨hbelow, hfound⟩ := ih (first + 1)
      refine ⟨?_, ?_⟩
      · intro bit hle hlt
        rcases Nat.lt_or_eq_of_le hle with hlt' | rfl
        · exact hbelow bit hlt' hlt
        · exact Bool.eq_false_iff.mpr hclear
      · rw [Nat.add_right_comm] at hfound
        exact hfound

/-- The bits below the lowest one are clear. -/
theorem testBit_of_lt_lowestBit (h : bit < lowestBit w) : testBit w bit = false :=
  (lowestFrom_spec w 0 64).1 bit (Nat.zero_le bit) h

/-- A block with a bit set has a lowest one. -/
theorem lowestBit_spec (hn : n ≤ 64) (h : 0 < countBelow w n) :
    lowestBit w < n ∧ testBit w (lowestBit w) = true := by
  have hlt : lowestBit w < n := by
    by_contra hle
    have hzero : countBelow w n = 0 :=
      countBelow_eq_zero fun bit hbit => testBit_of_lt_lowestBit (by omega)
    omega
  refine ⟨hlt, ?_⟩
  rcases (lowestFrom_spec w 0 64).2 with hset | hnone
  · exact hset
  · have hlowest : lowestBit w = 0 + 64 := hnone
    omega

/-- A number whose lowest set bit is `k` is odd above it. -/
private theorem exists_odd_mul {x k : Nat} (hk : x.testBit k = true)
    (hlow : ∀ l < k, x.testBit l = false) : ∃ q, x = 2 ^ (k + 1) * q + 2 ^ k := by
  have hmod : x % 2 ^ k = 0 := by
    apply Nat.eq_of_testBit_eq
    intro l
    rw [Nat.testBit_mod_two_pow, Nat.zero_testBit]
    by_cases hl : l < k
    · simp [hlow l hl]
    · simp [hl]
  have hodd : x / 2 ^ k % 2 = 1 := by
    rw [Nat.testBit_eq_decide_div_mod_eq] at hk
    exact of_decide_eq_true hk
  have hx : x = 2 ^ k * (x / 2 ^ k) := (Nat.mul_div_cancel' (Nat.dvd_of_mod_eq_zero hmod)).symm
  have hq : x / 2 ^ k = 2 * (x / 2 ^ k / 2) + 1 := by omega
  refine ⟨x / 2 ^ k / 2, ?_⟩
  calc x = 2 ^ k * (2 * (x / 2 ^ k / 2) + 1) := by rw [← hq, ← hx]
    _ = 2 ^ (k + 1) * (x / 2 ^ k / 2) + 2 ^ k := by rw [pow_succ]; ring

/-- What a word has in common with the word before it is the word without its lowest bit. -/
theorem testBit_and_pred (h : 0 < countOnes w) (hbit : bit < 64) :
    testBit (w &&& (w - 1)) bit = (testBit w bit && decide (bit ≠ lowestBit w)) := by
  obtain ⟨hlt, hset⟩ := lowestBit_spec (Nat.le_refl 64) h
  obtain ⟨q, hq⟩ : ∃ q, w.toNat = 2 ^ (lowestBit w + 1) * q + 2 ^ lowestBit w := by
    refine exists_odd_mul (by rwa [← testBit_eq hlt]) fun l hl => ?_
    rw [← testBit_eq (Nat.lt_trans hl hlt)]
    exact testBit_of_lt_lowestBit hl
  generalize lowestBit w = k at hq
  have hpos : 0 < 2 ^ k := Nat.two_pow_pos k
  have hpow : 2 ^ k < 2 ^ (k + 1) := Nat.pow_lt_pow_right (by decide) (Nat.lt_succ_self k)
  have hone : (1 : UInt64) ≤ w := by
    rw [UInt64.le_iff_toNat_le, UInt64.toNat_one]
    omega
  -- Taking one away turns the lowest bit into ones below it and leaves the bits above it.
  have hpred : (w - 1).toNat = 2 ^ (k + 1) * q + (2 ^ k - 1) := by
    rw [UInt64.toNat_sub_of_le _ _ hone, UInt64.toNat_one]
    omega
  rw [testBit_and hbit, testBit_eq hbit, testBit_eq hbit, hpred, hq,
    Nat.testBit_two_pow_mul_add _ hpow, Nat.testBit_two_pow_mul_add _ (by omega)]
  by_cases hlow : bit < k + 1
  · rw [if_pos hlow, if_pos hlow, Nat.testBit_two_pow, Nat.testBit_two_pow_sub_one]
    by_cases hk : k = bit
    · simp [hk]
    · simp [hk]
  · rw [if_neg hlow, if_neg hlow]
    simp [show bit ≠ k by omega]

/-- Behind the lowest bit a block counts one more than without it. -/
theorem countBelow_and_pred (h : 0 < countOnes w) (hlow : lowestBit w < n) (hn : n ≤ 64) :
    countBelow w n = countBelow (w &&& (w - 1)) n + 1 := by
  have hset := (lowestBit_spec (Nat.le_refl 64) h).2
  induction n, hlow using Nat.le_induction with
  | base =>
    have hbelow : countBelow (w &&& (w - 1)) (lowestBit w) = countBelow w (lowestBit w) := by
      apply countBelow_congr
      intro bit hbit
      rw [testBit_and_pred h (by omega), decide_eq_true (Nat.ne_of_lt hbit), Bool.and_true]
    rw [countBelow, countBelow, hbelow, testBit_and_pred h hn, hset]
    simp
  | succ n hlow ih =>
    have hne : n ≠ lowestBit w := by omega
    rw [countBelow, countBelow, ih (by omega), testBit_and_pred h hn, decide_eq_true hne,
      Bool.and_true, Nat.add_right_comm]

/-- Dropping the `n` lowest bits of a block brings the bit to the bottom that `n` others are
below of. -/
theorem dropLowest_spec (h : n < countOnes w) :
    lowestBit (dropLowest w n) < 64 ∧ testBit w (lowestBit (dropLowest w n)) = true ∧
      countBelow w (lowestBit (dropLowest w n)) = n := by
  induction n generalizing w with
  | zero =>
    obtain ⟨hlt, hset⟩ := lowestBit_spec (Nat.le_refl 64) h
    exact ⟨hlt, hset, countBelow_eq_zero fun bit hbit => testBit_of_lt_lowestBit hbit⟩
  | succ n ih =>
    have hpos : 0 < countOnes w := Nat.zero_lt_of_lt h
    have hall : countOnes w = countOnes (w &&& (w - 1)) + 1 :=
      countBelow_and_pred hpos (lowestBit_spec (Nat.le_refl 64) hpos).1 (Nat.le_refl 64)
    obtain ⟨hlt, hset, hcount⟩ := ih (w := w &&& (w - 1)) (by omega)
    simp only [dropLowest]
    generalize lowestBit (dropLowest (w &&& (w - 1)) n) = bit at hlt hset hcount
    rw [testBit_and_pred hpos hlt, Bool.and_eq_true, decide_eq_true_eq] at hset
    have hlow : lowestBit w < bit := by
      by_contra hle
      have hclear : testBit w bit = false := testBit_of_lt_lowestBit (by omega)
      rw [hclear] at hset
      exact absurd hset.1 Bool.false_ne_true
    exact ⟨hlt, hset.1, by rw [countBelow_and_pred hpos hlow (Nat.le_of_lt hlt), hcount]⟩

end Lowest

/-! ## Bits of a vector -/

variable {v v' : BitVector} {i j : Nat}

@[simp] theorem get_empty (len i : Nat) : (empty len).get i = false := by
  unfold get empty
  split
  · simp only [Array.getElem_replicate]
    rw [testBit_eq (Nat.mod_lt _ (by decide))]
    simp
  · rfl

/-- A bit that is set has its room. -/
theorem lt_capacity_of_get (h : v.get i = true) : i < v.capacity := by
  unfold get at h
  split at h
  · unfold capacity
    omega
  · cases h

theorem capacity_empty (len : Nat) : len ≤ (empty len).capacity := by
  simp only [capacity, empty, Array.size_replicate]
  omega

/-- A bit can be set wherever there is room for it. -/
theorem exists_set (hi : i < v.capacity) : ∃ v', v.set i = .ok v' := by
  have hblock : i / 64 < v.blocks.size := by
    unfold capacity at hi
    omega
  simp [set, hblock]

theorem capacity_set (h : v.set i = .ok v') : v'.capacity = v.capacity := by
  unfold set at h
  split at h
  · cases h
    simp [capacity]
  · cases h

/-- Setting a bit adds its position to those that are set. -/
theorem get_set (h : v.set i = .ok v') : v'.get j = (v.get j || decide (i = j)) := by
  unfold set at h
  split at h
  · rename_i hi
    cases h
    unfold get
    simp only [Array.size_set]
    split
    · rename_i hj
      have hmi : i % 64 < 64 := Nat.mod_lt _ (by decide)
      have hmj : j % 64 < 64 := Nat.mod_lt _ (by decide)
      by_cases hblock : i / 64 = j / 64
      · simp only [hblock, Array.getElem_set_self]
        rw [testBit_or_shift hmi hmj]
        congr 2
        simp only [eq_iff_iff]
        omega
      · have hne : i ≠ j := fun heq => hblock (by rw [heq])
        simp only [Array.getElem_set, hblock, if_false]
        simp [hne]
    · rename_i hj
      have hne : i ≠ j := by
        intro heq
        subst heq
        exact hj hi
      simp [hne]
  · cases h

/-! ## Rank -/

/-- The number of bits set from a position on and before another one. -/
def rank (v : BitVector) (start last : Nat) : Nat :=
  (List.range' start (last - start)).countP v.get

theorem rank_self (v : BitVector) (i : Nat) : v.rank i i = 0 := by
  simp [rank]

/-- The first position counts if its bit is set. -/
theorem rank_eq_add (h : i < j) :
    v.rank i j = (if v.get i then 1 else 0) + v.rank (i + 1) j := by
  have hlen : j - i = (j - (i + 1)) + 1 := by omega
  rw [rank, hlen, List.range'_succ, List.countP_cons, Nat.add_comm]
  rfl

theorem rank_succ (h : i ≤ j) : v.rank i (j + 1) = v.rank i j + (if v.get j then 1 else 0) := by
  have hlen : j + 1 - i = (j - i) + 1 := by omega
  rw [rank, hlen, List.range'_concat, List.countP_append, List.countP_singleton, Nat.one_mul,
    Nat.add_sub_cancel' h]
  rfl

/-- The rank in a vector whose bits are the members of a list. -/
theorem rank_eq_countP {xs : List Nat} (hnodup : xs.Nodup)
    (hget : ∀ p, v.get p = true ↔ p ∈ xs) (start last : Nat) :
    v.rank start last = xs.countP fun p => decide (start ≤ p ∧ p < last) := by
  rw [rank, List.countP_eq_length_filter, List.countP_eq_length_filter]
  apply List.Perm.length_eq
  rw [List.perm_ext_iff_of_nodup ((List.nodup_range').filter _) (hnodup.filter _)]
  intro p
  simp only [List.mem_filter, List.mem_range'_1, hget, decide_eq_true_eq]
  constructor
  · rintro ⟨hp, hmem⟩
    exact ⟨hmem, by omega⟩
  · rintro ⟨hmem, hp⟩
    exact ⟨by omega, hmem⟩

theorem rank_eq_zero (h : j ≤ i) : v.rank i j = 0 := by
  rw [rank, Nat.sub_eq_zero_of_le h]
  rfl

/-- The bits between two positions are those up to one between them and those from there on. -/
theorem rank_add {k : Nat} (hij : i ≤ j) (hjk : j ≤ k) : v.rank i k = v.rank i j + v.rank j k := by
  induction k, hjk using Nat.le_induction with
  | base => rw [rank_self, Nat.add_zero]
  | succ k hjk ih => rw [rank_succ (Nat.le_trans hij hjk), rank_succ hjk, ih, Nat.add_assoc]

/-- Where a bit is set, more bits are behind it than before it. -/
theorem rank_lt_rank (hi : v.get i = true) (hij : i < j) {start : Nat} (hstart : start ≤ i) :
    v.rank start i < v.rank start j := by
  rw [rank_add hstart (Nat.le_of_lt hij), rank_eq_add hij, if_pos hi]
  omega

/-- At most one bit has a rank. -/
theorem eq_of_rank_eq {start : Nat} (hi : start ≤ i) (hgi : v.get i = true) (hj : start ≤ j)
    (hgj : v.get j = true) (h : v.rank start i = v.rank start j) : i = j := by
  rcases Nat.lt_trichotomy i j with hlt | heq | hlt
  · exact absurd h (Nat.ne_of_lt (rank_lt_rank hgi hlt hi))
  · exact heq
  · exact absurd h.symm (Nat.ne_of_lt (rank_lt_rank hgj hlt hj))

/-- A word that has the bits of a block from a position on. -/
def IsRest (v : BitVector) (start block : Nat) (word : UInt64) : Prop :=
  ∀ bit < 64, testBit word bit = (decide (start ≤ 64 * block + bit) && v.get (64 * block + bit))

/-- Counting in what is left of a block is counting in the vector. -/
theorem IsRest.countBelow_eq {start block n : Nat} {word : UInt64}
    (h : v.IsRest start block word) (hstart : 64 * block ≤ start) (hn : n ≤ 64) :
    countBelow word n = v.rank start (64 * block + n) := by
  induction n with
  | zero => rw [rank_eq_zero (by omega)]; rfl
  | succ n ih =>
    rw [countBelow, ih (by omega), h n (by omega)]
    by_cases hle : start ≤ 64 * block + n
    · rw [decide_eq_true hle, Bool.true_and, ← Nat.add_assoc, rank_succ hle]
    · rw [decide_eq_false hle, rank_eq_zero (by omega), rank_eq_zero (by omega)]
      rfl

theorem isRest_block {block : Nat} (h : block < v.blocks.size) :
    v.IsRest (64 * block) block v.blocks[block] := by
  intro bit hbit
  have hdiv : (64 * block + bit) / 64 = block := by omega
  have hmod : (64 * block + bit) % 64 = bit := by omega
  simp [get, hdiv, hmod, h]

/-- The word that a selection begins with is what its first block has from the start on. -/
theorem isRest_start {start : Nat} (h : start / 64 < v.blocks.size) :
    v.IsRest start (start / 64) (v.blocks[start / 64] &&& (~~~0 <<< (start % 64).toUInt64)) := by
  intro bit hbit
  have hblock := isRest_block h bit hbit
  have hiff : start % 64 ≤ bit ↔ start ≤ 64 * (start / 64) + bit := by omega
  rw [decide_eq_true (Nat.le_add_right _ _), Bool.true_and] at hblock
  rw [testBit_and hbit, testBit_maskFrom (Nat.mod_lt _ (by decide)) hbit, hblock, Bool.and_comm]
  simp only [hiff]

/-- The ordinal of a position in its block is its rank from the beginning of the block. -/
theorem ordinalInBlock_eq (hi : i < v.capacity) :
    v.ordinalInBlock i = .ok (v.rank (64 * (i / 64)) i) := by
  have hblock : i / 64 < v.blocks.size := by
    unfold capacity at hi
    omega
  have hlast : i % 64 < 64 := Nat.mod_lt _ (by decide)
  unfold ordinalInBlock
  rw [dif_pos hblock, countOnes_and_maskBelow _ hlast,
    (isRest_block hblock).countBelow_eq (Nat.le_refl _) (Nat.le_of_lt hlast), Nat.div_add_mod]

/-! ## Selection -/

/-- A selection that goes on with what is left of a block finds the bit that is set and has the rank
asked for. -/
theorem selectFrom_eq_some_iff {start block : Nat} {word : UInt64} (h : v.IsRest start block word)
    (hlo : 64 * block ≤ start) (hhi : start < 64 * (block + 1)) (n i : Nat) :
    v.selectFrom block word n = some i ↔ start ≤ i ∧ v.get i = true ∧ v.rank start i = n := by
  have hones : countOnes word = v.rank start (64 * (block + 1)) :=
    h.countBelow_eq hlo (Nat.le_refl 64)
  fun_induction selectFrom v block word n generalizing start with
  | case1 block word n hlt =>
    obtain ⟨hbit, hset, hcount⟩ := dropLowest_spec hlt
    rw [h.countBelow_eq hlo (Nat.le_of_lt hbit)] at hcount
    rw [h _ hbit, Bool.and_eq_true, decide_eq_true_eq] at hset
    rw [Option.some.injEq]
    constructor
    · rintro rfl
      exact ⟨hset.1, hset.2, hcount⟩
    · rintro ⟨hle, hget, hrank⟩
      exact eq_of_rank_eq hset.1 hset.2 hle hget (hcount.trans hrank.symm)
  | case2 block word n hge hnext ih =>
    have hrest := isRest_block hnext
    refine (ih hrest (Nat.le_refl _) (by omega)
      (hrest.countBelow_eq (Nat.le_refl _) (Nat.le_refl 64))).trans ?_
    constructor
    · rintro ⟨hle, hget, hrank⟩
      refine ⟨by omega, hget, ?_⟩
      rw [rank_add (Nat.le_of_lt hhi) hle, hrank]
      omega
    · rintro ⟨hle, hget, hrank⟩
      -- The bits of this block are too few for the rank asked for.
      have hbeyond : 64 * (block + 1) ≤ i := by
        by_contra hlt
        have hmore := rank_lt_rank hget (Nat.lt_of_not_le hlt) hle
        omega
      refine ⟨hbeyond, hget, ?_⟩
      rw [rank_add (Nat.le_of_lt hhi) hbeyond] at hrank
      omega
  | case3 block word n hge hlast =>
    constructor
    · intro hnone
      cases hnone
    · rintro ⟨hle, hget, hrank⟩
      have hroom := lt_capacity_of_get hget
      unfold capacity at hroom
      have hmore := rank_lt_rank hget (j := 64 * (block + 1)) (by omega) hle
      omega

/-- Selection finds the bit that is set and has the rank asked for. -/
theorem nthSetFrom_eq_some_iff (v : BitVector) (start n i : Nat) :
    v.nthSetFrom start n = some i ↔ start ≤ i ∧ v.get i = true ∧ v.rank start i = n := by
  unfold nthSetFrom
  split
  · rename_i hblock
    exact selectFrom_eq_some_iff (isRest_start hblock) (by omega) (by omega) n i
  · rename_i hblock
    constructor
    · intro hnone
      cases hnone
    · rintro ⟨hle, hget, -⟩
      have hroom := lt_capacity_of_get hget
      unfold capacity at hroom
      omega

/-- Every rank below the number of bits set between two positions is the rank of one of them. -/
theorem exists_rank_eq {start last n : Nat} (h : n < v.rank start last) :
    ∃ i, start ≤ i ∧ v.get i = true ∧ v.rank start i = n := by
  induction last with
  | zero =>
    rw [rank_eq_zero (Nat.zero_le _)] at h
    omega
  | succ last ih =>
    by_cases hlast : n < v.rank start last
    · exact ih hlast
    · have hle : start ≤ last := by
        by_contra hlt
        rw [rank_eq_zero (by omega)] at h
        omega
      rw [rank_succ hle] at h
      by_cases hget : v.get last = true
      · rw [if_pos hget] at h
        exact ⟨last, hle, hget, by omega⟩
      · rw [if_neg hget] at h
        omega

/-- Selection finds nothing if there are not enough bits. -/
theorem nthSetFrom_eq_none_iff (v : BitVector) (start n : Nat) :
    v.nthSetFrom start n = none ↔ ∀ last, v.rank start last ≤ n := by
  constructor
  · intro hnone last
    by_contra hmore
    obtain ⟨i, hi⟩ := exists_rank_eq (Nat.lt_of_not_le hmore)
    rw [(nthSetFrom_eq_some_iff v start n i).mpr hi] at hnone
    cases hnone
  · intro hfew
    rw [Option.eq_none_iff_forall_ne_some]
    intro i hsome
    obtain ⟨hle, hget, hrank⟩ := (nthSetFrom_eq_some_iff v start n i).mp hsome
    have hmore := hfew (i + 1)
    rw [rank_succ hle, hget, if_pos rfl, hrank] at hmore
    omega

/-! ## Vectors made by setting bits -/

/-- Bits for which there is room can be set one after the other, and then they are set and no
others. -/
theorem exists_setAll (v : BitVector) {positions : List Nat}
    (hroom : ∀ p ∈ positions, p < v.capacity) :
    ∃ v', positions.foldlM set v = .ok v' ∧ v'.capacity = v.capacity ∧
      ∀ i, v'.get i = true ↔ v.get i = true ∨ i ∈ positions := by
  induction positions generalizing v with
  | nil => exact ⟨v, rfl, rfl, fun i => by simp⟩
  | cons p positions ih =>
    obtain ⟨v₁, hset⟩ := exists_set (hroom p List.mem_cons_self)
    have hcap := capacity_set hset
    obtain ⟨v', hall, hcap', hget⟩ := ih v₁ fun q hq => by
      rw [hcap]
      exact hroom q (List.mem_cons_of_mem p hq)
    refine ⟨v', ?_, hcap'.trans hcap, fun i => ?_⟩
    · rw [List.foldlM_cons, hset]
      exact hall
    · rw [hget, get_set hset, Bool.or_eq_true, decide_eq_true_eq, List.mem_cons, or_assoc]
      simp only [eq_comm]

/-- In a vector made by setting bits, from any start on, selection finds the bit that is set and has
exactly the number of set bits before it that was asked for, and nothing if there are no more bits
than that; the ordinal of a position counts the bits set before it in its block; so that a bit is
found again by its ordinal from the beginning of its block. -/
theorem setAll_selects (len : Nat) (positions : List Nat)
    (hroom : ∀ p ∈ positions, p < (empty len).capacity) :
    ∃ v, positions.foldlM set (empty len) = .ok v ∧
      (∀ i, v.get i = true ↔ i ∈ positions) ∧
      (∀ start n i, v.nthSetFrom start n = some i ↔
        start ≤ i ∧ v.get i = true ∧ v.rank start i = n) ∧
      (∀ start n, v.nthSetFrom start n = none ↔ ∀ last, v.rank start last ≤ n) ∧
      (∀ i, v.ordinalInBlock i =
        if i < v.capacity then .ok (v.rank (64 * (i / 64)) i) else .error (.fault .position)) ∧
      ∀ i, v.get i = true → ∃ ordinal, v.ordinalInBlock i = .ok ordinal ∧
        v.nthSetFrom (64 * (i / 64)) ordinal = some i := by
  obtain ⟨v, hset, -, hget⟩ := exists_setAll (empty len) hroom
  refine ⟨v, hset, ?_, nthSetFrom_eq_some_iff v, nthSetFrom_eq_none_iff v, ?_, ?_⟩
  · intro i
    rw [hget, get_empty]
    simp
  · intro i
    split
    · exact ordinalInBlock_eq ‹_›
    · rename_i hout
      unfold capacity at hout
      unfold ordinalInBlock
      rw [dif_neg (by omega)]
  · intro i hi
    refine ⟨_, ordinalInBlock_eq (lt_capacity_of_get hi), ?_⟩
    rw [nthSetFrom_eq_some_iff]
    exact ⟨Nat.mul_div_le i 64, hi, rfl⟩

/-- Five bits over five blocks, one of which is empty: the last one is found across it, and there is
none behind it. -/
theorem fiveBits_selects :
    (∀ p ∈ [5, 60, 64, 190, 256], p < (empty 300).capacity) ∧
      ∃ v, [5, 60, 64, 190, 256].foldlM set (empty 300) = .ok v ∧
        v.nthSetFrom 60 3 = some 256 ∧ v.nthSetFrom 60 4 = none ∧ v.ordinalInBlock 60 = .ok 1 := by
  have hroom : ∀ p ∈ [5, 60, 64, 190, 256], p < (empty 300).capacity := by decide
  obtain ⟨v, hset, hget, hsome, hnone, hordinal, -⟩ :=
    setAll_selects 300 [5, 60, 64, 190, 256] hroom
  have hrank := rank_eq_countP (v := v) (by decide) hget
  have hcap : 60 < v.capacity := lt_capacity_of_get ((hget 60).mpr (by decide))
  refine ⟨hroom, v, hset, ?_, ?_, ?_⟩
  · rw [hsome, hrank, hget]
    decide
  · rw [hnone]
    intro last
    rw [hrank]
    have hfirst : decide (60 ≤ 5 ∧ 5 < last) = false := by simp
    rw [List.countP_cons, hfirst]
    exact List.countP_le_length
  · rw [hordinal, if_pos hcap, hrank]
    decide

end ObjectMachine.BitVector
