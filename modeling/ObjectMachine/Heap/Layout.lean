import ObjectMachine.Heap.Basic

/-!
# Objects in memory

An object is recognised by its header, and its size follows from the header and the element count.
Walking from one object to the next enumerates all of them in the order of their addresses. The
reference slots of an object are its fixed fields and, in the formats with references as elements,
its elements; of a context only those below the stack pointer count.
-/

namespace ObjectMachine

/-- The positions of the reference slots of an object, its class apart. -/
structure ReferenceSlots where
  fixedStart : Nat
  fixedEnd : Nat
  tailStart : Nat
  tailEnd : Nat
  deriving DecidableEq, Repr

namespace ReferenceSlots

/-- The number of slots. -/
def count (s : ReferenceSlots) : Nat :=
  (s.fixedEnd - s.fixedStart) + (s.tailEnd - s.tailStart)

/-- The positions in increasing order. -/
def positions (s : ReferenceSlots) : List Nat :=
  List.range' s.fixedStart (s.fixedEnd - s.fixedStart) ++
    List.range' s.tailStart (s.tailEnd - s.tailStart)

end ReferenceSlots

namespace Heap

/-- The header at a position, which has to be in use and to hold one. -/
@[inline] def headerAt (h : Heap) (index : Nat) : Except Fatal Header :=
  if index < firstWord || h.top ≤ index then .error (.outsideHeap index h.top)
  else match h.word index with
    | .ok bits => if (⟨bits⟩ : Header).isValid then .ok ⟨bits⟩ else .error (.notAHeader index bits)
    | .error e => .error e

/-- The number of elements that an object declares. -/
@[inline] def lengthAt (h : Heap) (index : Nat) (header : Header) (format : Format) :
    Except Fatal Nat :=
  if format.isIndexable then
    match h.word (index + headerWords + header.fixedFields) with
    | .ok count => .ok count.toNat
    | .error e => .error e
  else .ok 0

/-- The words of the object that begins at a position. -/
@[inline] def sizeAt (h : Heap) (index : Nat) (header : Header) : Except Fatal Nat :=
  match header.format with
  | .error e => .error e
  | .ok format =>
    match h.lengthAt index header format with
    | .error e => .error e
    | .ok len => format.checkedSize header.fixedFields len

/-- Every object takes at least two words. -/
theorem two_le_of_sizeAt {h : Heap} {index : Nat} {header : Header} {size : Nat}
    (hs : h.sizeAt index header = .ok size) : 2 ≤ size := by
  unfold sizeAt at hs
  split at hs
  · simp at hs
  · split at hs
    · simp at hs
    · unfold Format.checkedSize checkedCount at hs
      split at hs
      · split at hs
        · simp only [Except.ok.injEq] at hs
          exact hs ▸ Format.two_le_sizeInWords ..
        · simp at hs
      · simp at hs

/-- The live elements of an object with references as elements: all of them, or those below the
stack pointer of a context. -/
@[inline] def liveCount (h : Heap) (fields : Nat) (format : Format) (len : Nat) :
    Except Fatal Nat :=
  match format with
  | .context =>
    match h.slot (fields + contextStackPointer) with
    | .error e => .error e
    | .ok sp => .ok (if sp.isSmallInteger then min sp.toInt.toNat len else 0)
  | _ => .ok len

/-- The reference slots of the object that begins at a position. -/
@[inline] def referenceSlotsAt (h : Heap) (index : Nat) (header : Header) :
    Except Fatal ReferenceSlots :=
  let fixed := header.fixedFields
  let fields := index + headerWords
  match header.format with
  | .error e => .error e
  | .ok format =>
    if format.hasReferenceTail then
      match h.word (fields + fixed) with
      | .error e => .error e
      | .ok len =>
        match h.liveCount fields format len.toNat with
        | .error e => .error e
        | .ok live =>
          let start := fields + fixed + 1
          match checkedCount (start + live) with
          | .error e => .error e
          | .ok last => .ok ⟨fields, fields + fixed, start, last⟩
    else if format = .plain then .ok ⟨fields, fields + fixed, 0, 0⟩
    else .ok ⟨fields, fields, 0, 0⟩

/-- The words of an object. -/
def sizeInWords (h : Heap) (r : Ref) : Except Fatal Nat := do
  h.sizeAt r.wordIndex (← h.headerAt r.wordIndex)

/-- The reference slots of an object. -/
def referenceSlots (h : Heap) (r : Ref) : Except Fatal ReferenceSlots := do
  h.referenceSlotsAt r.wordIndex (← h.headerAt r.wordIndex)

/-- The positions of the objects from a position on, put in front of which are those found
already, last first. -/
def objectsFrom (h : Heap) (index : Nat) (found : List Nat) : Except Fatal (List Nat) :=
  if _hi : index < h.top then
    match h.headerAt index with
    | .error e => .error e
    | .ok header =>
      match _hs : h.sizeAt index header with
      | .error e => .error e
      | .ok size =>
        match checkedCount (index + size) with
        | .error e => .error e
        | .ok _ => h.objectsFrom (index + size) (index :: found)
  else .ok found.reverse
termination_by h.top - index
decreasing_by
  have := two_le_of_sizeAt ‹_›
  omega

/-- All objects in the order of their addresses. -/
def objects (h : Heap) : Except Fatal (List Ref) := do
  return (← h.objectsFrom firstWord []).map Ref.ofWordIndex

end Heap

end ObjectMachine
