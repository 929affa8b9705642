import ObjectMachine.Fatal

/-!
# Bit vectors

One bit for each word of memory, packed into blocks of sixty-four. A collection keeps two of them:
where the survivors were, and where they went. Three questions are asked: whether a bit is set, how
many bits are set before it in its block, and where the `n`-th set bit from a position on is.
-/

namespace ObjectMachine

/-- Bits in a block. -/
def blockWords : Nat := 64

/-- A vector of bits. -/
structure BitVector where
  blocks : Array UInt64
  deriving Inhabited, Repr

namespace BitVector

/-- Room for `len` bits, none of them set. -/
def empty (len : Nat) : BitVector :=
  ⟨Array.replicate ((len + 63) / 64) 0⟩

/-- The number of bits there is room for. -/
def capacity (v : BitVector) : Nat :=
  64 * v.blocks.size

/-- Whether a bit of a block is set. -/
@[inline] def testBit (block : UInt64) (bit : Nat) : Bool :=
  (block >>> bit.toUInt64) &&& 1 == 1

/-- The number of bits set among the first `count` bits of a block. -/
def countBelow (block : UInt64) : Nat → Nat
  | 0 => 0
  | count + 1 => countBelow block count + (if testBit block count then 1 else 0)

/-- The number of bits set in a block. -/
def countOnes (block : UInt64) : Nat :=
  countBelow block 64

/-- The first of `count` bits of a block from `bit` on that is set, and the bit after them if none
is. -/
def lowestFrom (block : UInt64) (bit : Nat) : Nat → Nat
  | 0 => bit
  | count + 1 => if testBit block bit then bit else lowestFrom block (bit + 1) count

/-- The number of the lowest bit that is set in a block, and 64 if none is. -/
def lowestBit (block : UInt64) : Nat :=
  lowestFrom block 0 64

/-- A block without its `n` lowest set bits. -/
def dropLowest (block : UInt64) : Nat → UInt64
  | 0 => block
  | n + 1 => dropLowest (block &&& (block - 1)) n

/-- Whether a bit is set. A bit that there is no room for is not. -/
@[inline] def get (v : BitVector) (index : Nat) : Bool :=
  if h : index / 64 < v.blocks.size then testBit v.blocks[index / 64] (index % 64) else false

/-- Sets a bit. -/
def set (v : BitVector) (index : Nat) : Except Fatal BitVector :=
  if h : index / 64 < v.blocks.size then
    .ok ⟨v.blocks.set (index / 64) (v.blocks[index / 64] ||| (1 <<< (index % 64).toUInt64))⟩
  else .error (.fault .position)

/-- The number of bits set before a position in its block. -/
def ordinalInBlock (v : BitVector) (index : Nat) : Except Fatal Nat :=
  if h : index / 64 < v.blocks.size then
    .ok (countOnes (v.blocks[index / 64] &&& ((1 <<< (index % 64).toUInt64) - 1)))
  else .error (.fault .position)

/-- The position of the `n`-th set bit, counted from zero, among those of `word` and of the blocks
after `block`. `word` is what counts of `block` itself. -/
def selectFrom (v : BitVector) (block : Nat) (word : UInt64) (n : Nat) : Option Nat :=
  if n < countOnes word then some (64 * block + lowestBit (dropLowest word n))
  else if h : block + 1 < v.blocks.size then
    v.selectFrom (block + 1) v.blocks[block + 1] (n - countOnes word)
  else none
termination_by v.blocks.size - block

/-- The position of the `n`-th set bit at or after `start`, counted from zero. -/
def nthSetFrom (v : BitVector) (start n : Nat) : Option Nat :=
  if h : start / 64 < v.blocks.size then
    v.selectFrom (start / 64) (v.blocks[start / 64] &&& (~~~0 <<< (start % 64).toUInt64)) n
  else none

/-- The number of bits set. -/
def count (v : BitVector) : Nat :=
  v.blocks.foldl (fun total block => total + countOnes block) 0

end BitVector

end ObjectMachine
