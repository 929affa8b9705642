import ObjectMachine.Fatal

/-!
# Object formats

How the words of an object are laid out. Every object begins with a header and its class. Plain
objects go on with reference fields; numbers with one word of payload; the indexable formats with
their fixed fields, an element count, and the elements themselves.
-/

namespace ObjectMachine

/-- Words taken by the header and the class. -/
def headerWords : Nat := 2

/-- Bytes in a word. -/
def wordBytes : Nat := 8

/-- The number of fixed fields of a context. -/
def contextFields : Nat := 6

/-- The fixed field that holds the stack pointer of a context. Only the elements below it are live:
the rest is scratch space that is neither traced nor relocated. -/
def contextStackPointer : Nat := 2

/-- The layout of an object's payload. -/
inductive Format where
  /-- Fixed reference fields only. -/
  | plain
  /-- Indexable references. -/
  | array
  /-- Indexable bytes and one trailing null byte. Strings and symbols have this format too. -/
  | byteArray
  /-- Indexable 32-bit words. -/
  | wordArray
  /-- Indexable floating-point numbers. -/
  | floatArray
  /-- One floating-point number. -/
  | float
  /-- One slot of the table of large integers. -/
  | largeInteger
  /-- The activation of a method or a block. Its elements are an operand stack. -/
  | context
  deriving DecidableEq, Inhabited, Repr

namespace Format

/-- The formats in the order of their numbers. -/
def all : List Format :=
  [.plain, .array, .byteArray, .wordArray, .floatArray, .float, .largeInteger, .context]

/-- The number of a format in headers and instance specifications. -/
def code : Format → Nat
  | .plain => 0
  | .array => 1
  | .byteArray => 2
  | .wordArray => 3
  | .floatArray => 4
  | .float => 5
  | .largeInteger => 6
  | .context => 7

/-- The format with a number. -/
def ofCode? : Nat → Option Format
  | 0 => some .plain
  | 1 => some .array
  | 2 => some .byteArray
  | 3 => some .wordArray
  | 4 => some .floatArray
  | 5 => some .float
  | 6 => some .largeInteger
  | 7 => some .context
  | _ => none

theorem ofCode?_code (f : Format) : ofCode? f.code = some f := by
  cases f <;> rfl

/-- The name of a format. -/
def name : Format → String
  | .plain => "Plain"
  | .array => "Array"
  | .byteArray => "ByteArray"
  | .wordArray => "WordArray"
  | .floatArray => "FloatArray"
  | .float => "Float"
  | .largeInteger => "LargeInteger"
  | .context => "Context"

/-- Whether objects of a format have an element count and elements. -/
def isIndexable : Format → Bool
  | .array | .byteArray | .wordArray | .floatArray | .context => true
  | .plain | .float | .largeInteger => false

/-- Whether the elements are references. -/
def hasReferenceTail : Format → Bool
  | .array | .context => true
  | _ => false

/-- Whether objects of a format may have fixed fields. -/
def allowsFields : Format → Bool
  | .plain | .array | .context => true
  | _ => false

/-- Words taken by `len` elements. -/
def tailWords (f : Format) (len : Nat) : Nat :=
  match f with
  | .plain | .float | .largeInteger => 0
  | .array | .context | .floatArray => len
  | .byteArray => (len + 1 + 7) / 8
  | .wordArray => (len + 1) / 2

/-- Words taken by an object, header and class included. -/
def sizeInWords (f : Format) (fields len : Nat) : Nat :=
  match f with
  | .plain => headerWords + fields
  | .float | .largeInteger => headerWords + 1
  | _ => headerWords + (fields + 1 + f.tailWords len)

/-- An object has at least its header and its class. -/
theorem two_le_sizeInWords (f : Format) (fields len : Nat) : 2 ≤ f.sizeInWords fields len := by
  cases f <;> simp only [sizeInWords, headerWords] <;> omega

/-- Whether the words of `len` elements can be counted in a word. A byte array counts its trailing
null byte first. -/
def tailFits (f : Format) (len : Nat) : Bool :=
  match f with
  | .byteArray => len + 1 < countLimit
  | _ => true

/-- The words of `len` elements, in a word. -/
def checkedTailWords (f : Format) (len : Nat) : Except Fatal Nat :=
  if f.tailFits len then .ok (f.tailWords len) else .error (.fault .overflow)

/-- The words of an object, in a word. -/
@[inline] def checkedSize (f : Format) (fields len : Nat) : Except Fatal Nat :=
  if f.tailFits len then checkedCount (f.sizeInWords fields len) else .error (.fault .overflow)

end Format

end ObjectMachine
