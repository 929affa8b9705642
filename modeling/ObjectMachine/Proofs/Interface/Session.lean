import ObjectMachine.Heap.Access
import ObjectMachine.Proofs.Collection.Accounting

/-!
# Sessions with the heap

A session is a heap that someone works with through its interface, and what has to be remembered
about that work: the elements written since the last collection. A context may raise its stack
pointer over such elements only, because a collection leaves alone what is above it.

`Session.Allows` says what an operation may be given: objects that exist, values that are immediate,
null or such objects, positions inside the object, and objects of the right format.
-/

namespace ObjectMachine

/-- The operations of the interface that change a heap. -/
inductive HeapOperation where
  | allocate (roots : List Ref) (cls : Ref) (format : Format) (fields len : Nat)
  | tryAllocate (cls : Ref) (format : Format) (fields len : Nat)
  | storeField (object : Ref) (index : Nat) (value : Ref)
  | storeElement (object : Ref) (index : Nat) (value : Ref)
  | setClassOf (object cls : Ref)
  | setCaptured (object : Ref) (captured : Bool)
  | storeByte (object : Ref) (index : Nat) (value : UInt8)
  | storeBytes (object : Ref) (values : List UInt8)
  | storeWord (object : Ref) (index : Nat) (value : UInt32)
  | storeFloat (object : Ref) (index : Nat) (value : Binary64)
  | setFloatValue (object : Ref) (value : Binary64)
  | setLargeInteger (object : Ref) (value : Int)
  | setNil (nil : Ref)
  | collect (roots : List Ref)

/-- The limits that an operation may meet: the work list of a collection is full, an object has more
words or more fields than can be counted, or memory may not grow so far. -/
def HeapOperation.Meets : HeapOperation → Fatal → Prop
  | .collect _, e => ∃ limit, e = .markStackOverflow limit
  | .tryAllocate _ _ fields _, e =>
    e = .fault .overflow ∨ e = .fault .operand ∧ Header.maxFields < fields
  | .allocate _ _ _ fields _, e =>
    (e = .fault .overflow ∨ e = .fault .operand ∧ Header.maxFields < fields) ∨
      (∃ limit, e = .markStackOverflow limit) ∨
      ∃ requested used reserved, e = .reservationExhausted requested used reserved
  | _, _ => False

/-- The elements of a context that a stack pointer makes live. -/
def stackDepth (sp : Ref) (len : Nat) : Nat :=
  if sp.isSmallInteger then min sp.toInt.toNat len else 0

/-- Fields that an object of a format may have. -/
structure Format.Admits (format : Format) (fields : Nat) : Prop where
  allowed : fields = 0 ∨ format.allowsFields = true
  context : format = .context → fields = contextFields

/-- A heap in use, and the elements of its objects written since the last collection. -/
structure Session where
  heap : Heap
  written : List (Ref × Nat)

namespace Session

/-- The elements of a fresh object, which an allocation writes. -/
def freshElements (r : Ref) (format : Format) (len : Nat) : List (Ref × Nat) :=
  if format.hasReferenceTail then (List.range len).map (r, ·) else []

/-- Goes on with another heap. -/
def withHeap (s : Session) (h : Except Fatal Heap) : Except Fatal Session :=
  return ⟨← h, s.written⟩

/-- Performs an operation. -/
def run (s : Session) : HeapOperation → Except Fatal Session
  | .allocate roots cls format fields len => do
    let (r, _, h) ← s.heap.allocate roots cls format fields len
    let kept := if h.stats.collections = s.heap.stats.collections then s.written else []
    return ⟨h, freshElements r format len ++ kept⟩
  | .tryAllocate cls format fields len => do
    match ← s.heap.tryAllocate cls format fields len with
    | (some r, h) => return ⟨h, freshElements r format len ++ s.written⟩
    | (none, h) => return ⟨h, s.written⟩
  | .storeField object index value => s.withHeap (s.heap.storeField object index value)
  | .storeElement object index value => do
    return ⟨← s.heap.storeElement object index value, (object, index) :: s.written⟩
  | .setClassOf object cls => s.withHeap (s.heap.setClassOf object cls)
  | .setCaptured object captured => s.withHeap (s.heap.setCaptured object captured)
  | .storeByte object index value => s.withHeap (s.heap.storeByte object index value)
  | .storeBytes object values => s.withHeap (s.heap.storeBytes object values)
  | .storeWord object index value => s.withHeap (s.heap.storeWordElement object index value)
  | .storeFloat object index value => s.withHeap (s.heap.storeFloatElement object index value)
  | .setFloatValue object value => s.withHeap (s.heap.setFloatValue object value)
  | .setLargeInteger object value => s.withHeap (s.heap.setLargeInteger object value)
  | .setNil nil => .ok ⟨s.heap.setNil nil, s.written⟩
  | .collect roots => return ⟨(← s.heap.collect roots).heap, []⟩

/-! ## What an operation may be given -/

/-- A value that may be stored: immediate, null or an object that exists. -/
def Storable (s : Session) (r : Ref) : Prop :=
  r.isImmediate = true ∨ r = .null ∨ s.heap.Holds r

/-- An object that exists and has a format. -/
def HasFormat (s : Session) (object : Ref) (format : Format) : Prop :=
  s.heap.Holds object ∧ s.heap.format object = .ok format

/-- An object that exists and has an element with this index. -/
def HasElement (s : Session) (object : Ref) (index : Nat) : Prop :=
  ∃ len, s.heap.length object = .ok len ∧ index < len

/-- A stack pointer is raised only over elements written since the last collection. -/
def RaisesOverWritten (s : Session) (object value : Ref) : Prop :=
  ∀ sp len, s.heap.fetchField object contextStackPointer = .ok sp → s.heap.length object = .ok len →
    ∀ k, stackDepth sp len ≤ k → k < stackDepth value len → (object, k) ∈ s.written

/-- What an operation may be given. -/
def Allows (s : Session) : HeapOperation → Prop
  | .allocate roots cls format fields _ =>
    (∀ r ∈ roots, s.Storable r) ∧ s.heap.Holds cls ∧ format.Admits fields
  | .tryAllocate cls format fields _ => s.heap.Holds cls ∧ format.Admits fields
  | .storeField object index value =>
    s.heap.Holds object ∧ (∃ fields, s.heap.fixedFields object = .ok fields ∧ index < fields) ∧
      s.Storable value ∧
      (s.heap.format object = .ok .context → index = contextStackPointer →
        s.RaisesOverWritten object value)
  | .storeElement object index value =>
    (s.HasFormat object .array ∨ s.HasFormat object .context) ∧ s.HasElement object index ∧
      s.Storable value
  | .setClassOf object cls => s.heap.Holds object ∧ s.heap.Holds cls
  | .setCaptured object _ => s.heap.Holds object
  | .storeByte object index _ => s.HasFormat object .byteArray ∧ s.HasElement object index
  | .storeBytes object values =>
    s.HasFormat object .byteArray ∧ ∃ len, s.heap.length object = .ok len ∧ values.length ≤ len
  | .storeWord object index _ => s.HasFormat object .wordArray ∧ s.HasElement object index
  | .storeFloat object index _ => s.HasFormat object .floatArray ∧ s.HasElement object index
  | .setFloatValue object _ => s.HasFormat object .float
  | .setLargeInteger object _ => s.HasFormat object .largeInteger
  | .setNil nil => s.heap.Holds nil
  | .collect roots => ∀ r ∈ roots, s.Storable r

/-- The sessions that begin with one object, its own class, and go on with operations that are
allowed. The size of memory is counted in a word. -/
inductive Reached : Session → Prop
  | start {config : HeapConfig} {h h₁ h₂ : Heap} {format : Format} {fields len : Nat} {r : Ref} :
      Heap.ofConfig config = .ok h → config.maxBytes < countLimit → format.Admits fields →
      h.tryAllocate .null format fields len = .ok (some r, h₁) → h₁.setClassOf r r = .ok h₂ →
      Reached ⟨h₂, freshElements r format len⟩
  | step {s s' : Session} {op : HeapOperation} :
      Reached s → s.Allows op → s.run op = .ok s' → Reached s'

end Session

end ObjectMachine
