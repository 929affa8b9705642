import ObjectMachine.Collection.BitVector

/-!
# Relocation

Where the survivors of a compaction went. One bit vector has a bit at the old beginning of every
survivor, another at its new beginning, and a table gives for every block of old positions the new
beginning of the first survivor in it. Compaction keeps the order of the survivors, so the `k`-th
survivor of an old block is the `k`-th set bit from that beginning on.
-/

namespace ObjectMachine

/-- The way from old to new positions. -/
structure Relocation where
  old : BitVector
  new : BitVector
  /-- The new beginning of the first survivor of each block of old positions. -/
  firstOfBlock : Array (Option Nat)
  deriving Inhabited

namespace Relocation

/-- No survivors among `top` words. -/
def empty (top : Nat) : Relocation where
  old := .empty top
  new := .empty top
  firstOfBlock := Array.replicate ((top + 63) / 64) none

/-- Records a survivor that went from one position to another. -/
def record (t : Relocation) (source target : Nat) : Except Fatal Relocation := do
  match t with
  | ⟨old, new, firstOfBlock⟩ =>
    let old ← old.set source
    let new ← new.set target
    let block := source / 64
    if h : block < firstOfBlock.size then
      if firstOfBlock[block].isSome then return ⟨old, new, firstOfBlock⟩
      else return ⟨old, new, firstOfBlock.set block (some target)⟩
    else throw (.fault .position)

/-- The new reference of a survivor. -/
def forward (t : Relocation) (r : Ref) : Except Fatal Ref :=
  let index := r.wordIndex
  if t.old.get index then
    match t.old.ordinalInBlock index with
    | .error e => .error e
    | .ok ordinal =>
      match t.firstOfBlock[index / 64]? with
      | none => .error (.fault .position)
      | some none => .error (.inconsistentRelocation r)
      | some (some start) =>
        match t.new.nthSetFrom start ordinal with
        | some target => .ok (.ofWordIndex target)
        | none => .error (.inconsistentRelocation r)
  else .error (.notASurvivor r)

/-- The new form of any reference: only those to objects change. -/
@[inline] def relocate (t : Relocation) (r : Ref) : Except Fatal Ref :=
  if r.isPointer then t.forward r else .ok r

end Relocation

end ObjectMachine
