import ObjectMachine.Collection.BitVector
import ObjectMachine.Heap.Access
import ObjectMachine.Heap.Layout

/-!
# Verification

Whether memory is well formed: unmarked headers follow one another exactly up to the first free
word, and every class and every reference slot points at the beginning of an object. The first
damage found is reported.
-/

namespace ObjectMachine

/-- What is wrong with memory. -/
inductive HeapDamage where
  | noHeader (word : Nat) (bits : UInt64)
  | stillMarked (word : Nat)
  | overrun (last top : Nat)
  | invalidClass (object cls : Ref)
  | dangling (object value : Ref) (slot : Nat)
  deriving DecidableEq, Repr

/-- The report of damage. -/
def HeapDamage.message : HeapDamage → String
  | .noHeader word bits => s!"word {word} should hold a header but holds {Text.hex bits.toNat}"
  | .stillMarked word => s!"object at word {word} is still marked"
  | .overrun last top => s!"last object overruns the allocation pointer ({last} > {top})"
  | .invalidClass object cls =>
    s!"object {object.text} has an invalid class reference {cls.text}"
  | .dangling object value slot =>
    s!"object {object.text} holds a dangling reference {value.text} at word {slot}"

namespace Heap

/-- Sets a bit at the beginning of every object from a position on. -/
def startsFrom (h : Heap) (index : Nat) (starts : BitVector) :
    Except Fatal (Except HeapDamage BitVector) :=
  if _hi : index < h.top then
    match h.word index with
    | .error e => .error e
    | .ok bits =>
      let header : Header := ⟨bits⟩
      if !header.isValid then .ok (.error (.noHeader index bits))
      else if header.isMarked then .ok (.error (.stillMarked index))
      else match starts.set index with
        | .error e => .error e
        | .ok starts =>
          match _hs : h.sizeAt index header with
          | .error e => .error e
          | .ok size =>
            match checkedCount (index + size) with
            | .error e => .error e
            | .ok _ => h.startsFrom (index + size) starts
  else if index = h.top then .ok (.ok starts)
  else .ok (.error (.overrun index h.top))
termination_by h.top - index
decreasing_by
  have := two_le_of_sizeAt ‹_›
  omega

/-- Whether a reference is immediate, null or the beginning of an object. -/
def pointsAtObject (h : Heap) (starts : BitVector) (r : Ref) : Bool :=
  !r.isPointer || (decide (r.wordIndex < h.top) && starts.get r.wordIndex)

/-- The first reference slot among some that dangles. -/
def danglingSlot? (h : Heap) (starts : BitVector) : List Nat → Except Fatal (Option (Nat × Ref))
  | [] => .ok none
  | position :: rest => do
    let value ← h.slot position
    if value.isMarker || !h.pointsAtObject starts value then return some (position, value)
    else h.danglingSlot? starts rest

/-- The first damage in the references of an object. -/
def objectDamage? (h : Heap) (starts : BitVector) (object : Ref) :
    Except Fatal (Option HeapDamage) := do
  let cls ← h.classOf object
  if !cls.isPointer || !h.pointsAtObject starts cls then return some (.invalidClass object cls)
  let slots ← h.referenceSlots object
  match ← h.danglingSlot? starts slots.positions with
  | some (position, value) => return some (.dangling object value position)
  | none => return none

/-- The first damage in the references of some objects. -/
def referenceDamage? (h : Heap) (starts : BitVector) :
    List Ref → Except Fatal (Option HeapDamage)
  | [] => .ok none
  | object :: rest => do
    match ← h.objectDamage? starts object with
    | some damage => return some damage
    | none => h.referenceDamage? starts rest

/-- The first damage found, if there is any. -/
def damage? (h : Heap) : Except Fatal (Option HeapDamage) := do
  match ← h.startsFrom firstWord (BitVector.empty h.top) with
  | .error damage => return some damage
  | .ok starts => h.referenceDamage? starts (← h.objects)

end Heap

end ObjectMachine
