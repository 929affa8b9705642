import ObjectMachine.Ref

/-!
# Fatal stops

What ends the machine for good. A fatal stop is not an answer of the program that runs on the
machine: memory is exhausted or damaged, or an operation was used outside its conditions. Nothing
can be observed of the machine after it.
-/

namespace ObjectMachine

/-- A condition of an operation that did not hold. -/
inductive Fault where
  /-- A position outside a table or outside memory. -/
  | position
  /-- A result that does not fit a 64-bit word. -/
  | overflow
  /-- An operand that the operation is not defined for. -/
  | operand
  /-- A chain of references without an end. -/
  | endless
  deriving DecidableEq, Repr

/-- Why the machine stopped for good. -/
inductive Fatal where
  /-- The largest size that memory may grow to cannot hold an object. -/
  | reservationExhausted (requested used reserved : Nat)
  /-- The work list of a collection is full. -/
  | markStackOverflow (limit : Nat)
  /-- A context has no slot left for a value. -/
  | operandStackOverflow (context : Ref) (slots : Nat)
  /-- A collection met a reference to something that is no surviving object. -/
  | notASurvivor (target : Ref)
  /-- The tables that lead from old to new addresses contradict each other. -/
  | inconsistentRelocation (target : Ref)
  /-- A reference leads outside the words in use. -/
  | outsideHeap (word top : Nat)
  /-- An object should begin at a word that holds no header. -/
  | notAHeader (word : Nat) (bits : UInt64)
  /-- A header names a format that does not exist. -/
  | unknownFormat (bits : UInt64) (format : Nat)
  /-- The value of a large integer was released although it holds none. -/
  | releasedTwice (slot : Nat)
  /-- More temporaries were unpinned than were pinned. -/
  | unpinnedTooMany
  /-- A method dictionary has no slot for another selector. -/
  | dictionaryFull (dictionary : Ref)
  /-- A marker stands where an object is expected. -/
  | markerAsObject (marker : Ref)
  /-- Any other condition that did not hold. -/
  | fault (cause : Fault)
  deriving DecidableEq, Repr

/-- The report of a fatal stop. Broken conditions have none. -/
def Fatal.message? : Fatal → Option String
  | .reservationExhausted requested used reserved =>
    some s!"heap reservation exhausted: {requested} bytes requested with {used} of {reserved} bytes in use"
  | .markStackOverflow limit => some s!"mark stack overflow ({limit} entries)"
  | .operandStackOverflow context slots =>
    some s!"operand stack overflow in {context.text} ({slots} slots)"
  | .notASurvivor target =>
    some s!"remap found a reference to {target.text}, which is not a surviving object"
  | .inconsistentRelocation target =>
    some s!"relocation tables are inconsistent for {target.text}"
  | .outsideHeap word top =>
    some s!"reference to word {word} is outside the allocated heap (top: {top})"
  | .notAHeader word bits =>
    some s!"word {word} should be an object header but holds {Text.hex bits.toNat}"
  | .unknownFormat bits format =>
    some s!"corrupt object header {Text.hex bits.toNat}: unknown format {format}"
  | .releasedTwice slot => some s!"large integer slot {slot} released twice"
  | .unpinnedTooMany => some "remappable stack underflow"
  | .dictionaryFull dictionary =>
    some s!"method dictionary {dictionary.text} has no free slot left"
  | .markerAsObject marker => some s!"marker {marker.text} used as an object"
  | .fault _ => none

/-- The least number that does not fit a word: `2 ^ 64`. -/
@[inline] def countLimit : Nat := 18446744073709551616

/-- A count that has to fit a word. -/
@[inline] def checkedCount (count : Nat) : Except Fatal Nat :=
  if count < countLimit then .ok count else .error (.fault .overflow)

/-- Goes on only if a condition holds. -/
@[inline] def require (condition : Bool) (cause : Fault) : Except Fatal Unit :=
  if condition then .ok () else .error (.fault cause)

/-- The reference with a byte offset, which has to be that of a word. -/
def Ref.ofOffset (offset : UInt64) : Except Fatal Ref :=
  match Ref.ofOffset? offset with
  | some r => .ok r
  | none => .error (.fault .operand)

end ObjectMachine
