import ObjectMachine.Proofs.Heap.View

/-!
# Values packed into words

Elements of an object lie one, two or eight to a word, from the low end upwards. A `Packing` is how
values of one kind are read from a word and written to it; what makes it one is that writing a value
replaces that value and no other in the word. Packed from a position on, the values of memory are
then told apart by their numbers alone, wherever the borders between the words lie.

## Main results

* `Heap.byteOfWord_setByteOfWord`, `Heap.halfOfWord_setHalfOfWord`: writing a part of a word replaces
  that part and no other.
* `Packing.references`, `Packing.floats`, `Packing.halves`, `Packing.bytes`: the four packings.
* `Heap.packed_putPacked`: writing one packed value to memory changes that value only.
-/

namespace ObjectMachine

/-! ## Bytes and halves of a word -/

namespace Heap

theorem getLsbD_byteOfWord (w : UInt64) {k l : Nat} (hk : k < 8) (hl : l < 8) :
    (byteOfWord w k).toBitVec.getLsbD l = w.toBitVec.getLsbD (k * 8 + l) := by
  rw [byteOfWord, UInt64.toBitVec_toUInt8, BitVec.getLsbD_setWidth, decide_eq_true hl,
    Bool.true_and, Word.getLsbD_shiftRight w (by omega)]

theorem getLsbD_setByteOfWord (w : UInt64) (b : UInt8) {k t : Nat} (hk : k < 8) (ht : t < 64) :
    (setByteOfWord w k b).toBitVec.getLsbD t =
      if k * 8 ≤ t ∧ t < k * 8 + 8 then b.toBitVec.getLsbD (t - k * 8) else w.toBitVec.getLsbD t := by
  rw [setByteOfWord, Word.getLsbD_splice (by omega) (fun l _ => Word.getLsbD_mask (n := 8) rfl l) ?_ ht]
  · split
    · rw [UInt8.toBitVec_toUInt64, BitVec.getLsbD_setWidth, decide_eq_true (by omega), Bool.true_and]
    · rfl
  · intro l hl
    rw [UInt8.toBitVec_toUInt64, BitVec.getLsbD_setWidth, BitVec.getLsbD_of_ge _ _ hl, Bool.and_false]

/-- Writing a byte of a word replaces that byte and no other. -/
theorem byteOfWord_setByteOfWord (w : UInt64) (b : UInt8) {i j : Nat} (hi : i < 8) (hj : j < 8) :
    byteOfWord (setByteOfWord w i b) j = if j = i then b else byteOfWord w j := by
  apply UInt8.toBitVec_inj.mp
  apply BitVec.eq_of_getLsbD_eq
  intro l hl
  rw [getLsbD_byteOfWord _ hj hl, getLsbD_setByteOfWord _ _ hi (by omega)]
  by_cases hji : j = i
  · subst hji
    rw [if_pos rfl, if_pos (by omega), Nat.add_sub_cancel_left]
  · rw [if_neg hji, if_neg (by omega), getLsbD_byteOfWord _ hj hl]

/-- The lower and the upper half of a word. -/
def halfOfWord (word : UInt64) (n : Nat) : UInt32 :=
  (word >>> (n * 32).toUInt64).toUInt32

/-- A word with one of its halves replaced. -/
def setHalfOfWord (word : UInt64) (n : Nat) (value : UInt32) : UInt64 :=
  (word &&& ~~~((0xFFFFFFFF : UInt64) <<< (n * 32).toUInt64)) |||
    (value.toUInt64 <<< (n * 32).toUInt64)

/-- Writing a half of a word replaces that half and not the other. -/
theorem halfOfWord_setHalfOfWord (w : UInt64) (x : UInt32) {i j : Nat} (hi : i < 2) (hj : j < 2) :
    halfOfWord (setHalfOfWord w i x) j = if j = i then x else halfOfWord w j := by
  have hread : ∀ (w : UInt64) {l : Nat}, l < 32 →
      (halfOfWord w j).toBitVec.getLsbD l = w.toBitVec.getLsbD (j * 32 + l) := by
    intro w l hl
    rw [halfOfWord, UInt64.toBitVec_toUInt32, BitVec.getLsbD_setWidth, decide_eq_true hl,
      Bool.true_and, Word.getLsbD_shiftRight w (by omega)]
  have hwide : ∀ l, x.toUInt64.toBitVec.getLsbD l = (decide (l < 64) && x.toBitVec.getLsbD l) := by
    intro l
    rw [UInt32.toBitVec_toUInt64, BitVec.getLsbD_setWidth]
  apply UInt32.toBitVec_inj.mp
  apply BitVec.eq_of_getLsbD_eq
  intro l hl
  rw [hread _ hl, setHalfOfWord,
    Word.getLsbD_splice (by omega) (fun l _ => Word.getLsbD_mask (n := 32) rfl l) ?_ (by omega)]
  · by_cases hji : j = i
    · subst hji
      rw [if_pos rfl, if_pos (by omega), Nat.add_sub_cancel_left, hwide, decide_eq_true (by omega),
        Bool.true_and]
    · rw [if_neg hji, if_neg (by omega), hread _ hl]
  · intro l hl
    rw [hwide, BitVec.getLsbD_of_ge _ _ hl, Bool.and_false]

end Heap

/-! ## Packings -/

/-- A way to keep values of one kind in words, the same number in each. -/
structure Packing (α : Type) where
  /-- The number of values in a word. -/
  count : Nat
  read : UInt64 → Nat → α
  write : UInt64 → Nat → α → UInt64
  count_pos : 0 < count
  /-- Writing a value replaces that value and no other. -/
  read_write : ∀ w k l value, k < count → l < count →
    read (write w k value) l = if l = k then value else read w l

namespace Packing

/-- References, one to a word. -/
def references : Packing Ref where
  count := 1
  read w _ := ⟨w⟩
  write _ _ r := r.bits
  count_pos := by decide
  read_write _ k l r hk hl := by rw [if_pos (by omega)]

/-- Floating-point numbers, one to a word. -/
def floats : Packing Binary64 where
  count := 1
  read w _ := ⟨w⟩
  write _ _ x := x.bits
  count_pos := by decide
  read_write _ k l x hk hl := by rw [if_pos (by omega)]

/-- 32-bit words, two to a word. -/
def halves : Packing UInt32 where
  count := 2
  read := Heap.halfOfWord
  write := Heap.setHalfOfWord
  count_pos := by decide
  read_write w _ _ x hk hl := Heap.halfOfWord_setHalfOfWord w x hk hl

/-- Bytes, eight to a word. -/
def bytes : Packing UInt8 where
  count := 8
  read := Heap.byteOfWord
  write := Heap.setByteOfWord
  count_pos := by decide
  read_write w _ _ b hk hl := Heap.byteOfWord_setByteOfWord w b hk hl

end Packing

/-! ## Packed values of memory -/

namespace Heap

variable {α : Type} {p : Packing α} {h : Heap} {base k : Nat}

/-- The value with a number among those packed from a position on. -/
def packed (h : Heap) (p : Packing α) (base k : Nat) : α :=
  p.read (h.cell (base + k / p.count)) (k % p.count)

/-- Memory with one of the packed values replaced. -/
def putPacked (h : Heap) (p : Packing α) (base k : Nat) (value : α) : Heap :=
  h.poke (base + k / p.count) (p.write (h.cell (base + k / p.count)) (k % p.count) value)

/-- Writing one packed value changes that value only. -/
theorem packed_putPacked (hin : base + k / p.count < h.memory.size) (value : α) (l : Nat) :
    (h.putPacked p base k value).packed p base l = if l = k then value else h.packed p base l := by
  have hk : k % p.count < p.count := Nat.mod_lt _ p.count_pos
  have hl : l % p.count < p.count := Nat.mod_lt _ p.count_pos
  unfold packed putPacked
  by_cases hword : l / p.count = k / p.count
  · rw [hword, cell_poke_self hin, p.read_write _ _ _ _ hk hl]
    by_cases hlk : l = k
    · rw [if_pos hlk, if_pos (by rw [hlk])]
    · have hne : l % p.count ≠ k % p.count := by
        intro hmod
        rw [← Nat.div_add_mod l p.count, hword, hmod, Nat.div_add_mod] at hlk
        exact hlk rfl
      rw [if_neg hlk, if_neg hne]
  · have hne : l ≠ k := fun heq => hword (by rw [heq])
    rw [if_neg hne, cell_poke_ne (by omega)]

/-- The bytes of memory by their offsets are the packed ones. -/
theorem byteAtOffset_packed (hin : base + k / 8 < h.memory.size) :
    h.byteAtOffset (base * 8 + k) = .ok (h.packed .bytes base k) := by
  have hdiv : (base * 8 + k) / 8 = base + k / 8 := by omega
  have hmod : (base * 8 + k) % 8 = k % 8 := by omega
  unfold byteAtOffset
  rw [hdiv, hmod, word_eq hin]
  rfl

theorem setByteAtOffset_packed (hin : base + k / 8 < h.memory.size) (value : UInt8) :
    h.setByteAtOffset (base * 8 + k) value = .ok (h.putPacked .bytes base k value) := by
  have hdiv : (base * 8 + k) / 8 = base + k / 8 := by omega
  have hmod : (base * 8 + k) % 8 = k % 8 := by omega
  unfold setByteAtOffset
  rw [hdiv, hmod, word_eq hin]
  exact setWord_eq hin _

end Heap

end ObjectMachine
