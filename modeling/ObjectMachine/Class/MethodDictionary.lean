import ObjectMachine.Heap.Access

/-!
# Method dictionaries

A method dictionary is an array of selectors with two fixed fields: the number of entries, and an
array of the methods at the same indices. A selector is looked for from the index given by its
identity hash upwards, around the end, until it or a free slot is met; nil marks a free slot. The
capacity is a power of two.
-/

namespace ObjectMachine.MethodDictionary

def tallyField : Nat := 0
def methodsField : Nat := 1
def fieldCount : Nat := 2

/-- The capacity of the dictionary of a new class. -/
def minCapacity : Nat := 8

/-- The number of slots. -/
@[inline] def capacity (h : Heap) (dictionary : Ref) : Except Fatal Nat :=
  h.length dictionary

/-- The number of entries. -/
def tally (h : Heap) (dictionary : Ref) : Except Fatal Nat := do
  return (← h.fetchField dictionary tallyField).toCount

/-- Whether one more entry would fill more than three quarters. -/
def isFull (h : Heap) (dictionary : Ref) : Except Fatal Bool := do
  let needed ← checkedCount (((← tally h dictionary) + 1) * 4)
  let available ← checkedCount ((← capacity h dictionary) * 3)
  return decide (available < needed)

/-- Probes `fuel` slots from an index on. -/
def probeFrom (h : Heap) (dictionary selector : Ref) (capacity index : Nat) :
    Nat → Except Fatal (Option Nat)
  | 0 => .ok none
  | fuel + 1 =>
    match h.fetchElement dictionary index with
    | .error e => .error e
    | .ok key =>
      if key = selector ∨ key = h.nil then .ok (some index)
      else probeFrom h dictionary selector capacity ((index + 1) &&& (capacity - 1)) fuel

/-- The slot that holds a selector, or the free one where it would go. -/
def probe (h : Heap) (dictionary selector : Ref) : Except Fatal (Option Nat) := do
  let capacity ← capacity h dictionary
  require (capacity != 0) .overflow
  let start := (← h.identityHash selector) &&& (capacity - 1)
  probeFrom h dictionary selector capacity start capacity

/-- The method of a selector. -/
def lookup? (h : Heap) (dictionary selector : Ref) : Except Fatal (Option Ref) := do
  match ← probe h dictionary selector with
  | none => return none
  | some index =>
    if (← h.fetchElement dictionary index) = selector then
      return some (← h.fetchElement (← h.fetchField dictionary methodsField) index)
    else return none

/-- Puts a selector into a free slot and counts it. -/
def claim (h : Heap) (dictionary selector : Ref) (index : Nat) : Except Fatal Heap := do
  let h ← h.storeElement dictionary index selector
  h.storeField dictionary tallyField (.ofNat ((← tally h dictionary) + 1))

/-- Adds an entry or replaces the one with the same selector. There has to be a free slot. -/
def insert (h : Heap) (dictionary selector method : Ref) : Except Fatal Heap := do
  match ← probe h dictionary selector with
  | none => throw (.dictionaryFull dictionary)
  | some index =>
    let present := decide ((← h.fetchElement dictionary index) = selector)
    let h ← if present then pure h else claim h dictionary selector index
    h.storeElement (← h.fetchField dictionary methodsField) index method

/-- The entries at some indices. -/
def entriesAt (h : Heap) (dictionary methods : Ref) : List Nat → Except Fatal (List (Ref × Ref))
  | [] => .ok []
  | index :: rest => do
    let key ← h.fetchElement dictionary index
    if key = h.nil then entriesAt h dictionary methods rest
    else
      let method ← h.fetchElement methods index
      return (key, method) :: (← entriesAt h dictionary methods rest)

/-- All entries in the order of their slots. -/
def entries (h : Heap) (dictionary : Ref) : Except Fatal (List (Ref × Ref)) := do
  let methods ← h.fetchField dictionary methodsField
  entriesAt h dictionary methods (List.range (← capacity h dictionary))

end ObjectMachine.MethodDictionary
