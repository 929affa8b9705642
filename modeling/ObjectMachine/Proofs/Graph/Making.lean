import ObjectMachine.Proofs.Graph.Allocating

/-!
# Making objects

Arrays, texts, numbers, associations, method dictionaries, symbols and globals, as computations on
graphs.

## Main results

* `Simulates.newInteger`, `Simulates.newMethodDictionary` and so on: what is made.
* `Simulates.intern`, `Simulates.setGlobal`: symbols and globals.
-/

namespace ObjectMachine

/-! ## Objects -/

namespace Spec

def getCore : Spec Graph.Core := ask (·.core)

/-- An array of nils. -/
def newArray (len : Nat) : Spec Value := do
  allocate ((← getCore).cls .array) .array 0 len

/-- A byte object of a class. -/
def newBytes (cls : Value) (bytes : List UInt8) : Spec Value := do
  let v ← allocate cls .byteArray 0 bytes.length
  write (·.storeBytes v bytes)
  return v

def newByteArray (bytes : List UInt8) : Spec Value := do
  newBytes ((← getCore).cls .byteArray) bytes

def newString (text : String) : Spec Value := do
  newBytes ((← getCore).cls .string) (Text.utf8Bytes text)

def newFloat (value : Binary64) : Spec Value := do
  let v ← allocate ((← getCore).cls .float) .float 0 0
  write (·.setFloatValue v value)
  return v

/-- The small integer of a value if it fits one, and a large integer otherwise. -/
def newInteger (value : Int) : Spec Value := do
  match Ref.ofInt? value with
  | some r => return .immediate r
  | none =>
    let v ← allocate ((← getCore).cls .largeInteger) .largeInteger 0 0
    write (·.setLargeInteger v value)
    return v

def newAssociation (key value : Value) : Spec Value := do
  pin key
  pin value
  let v ← allocate ((← getCore).cls .association) .plain Association.fieldCount 0
  let value ← unpin
  let key ← unpin
  write fun g => do
    let g ← g.storeField v Association.keyField key
    g.storeField v Association.valueField value
  return v

/-- An empty method dictionary. -/
def newMethodDictionary (capacity : Nat) : Spec Value := do
  guard fun _ => isPowerOfTwo capacity = true
  let methods ← newArray capacity
  pin methods
  let v ← allocate ((← getCore).cls .methodDictionary) .array MethodDictionary.fieldCount capacity
  let methods ← unpin
  write fun g => do
    let g ← g.storeField v MethodDictionary.tallyField (.immediate .zero)
    g.storeField v MethodDictionary.methodsField methods
  return v

end Spec

namespace Simulates

variable {p : Placement} {r cls key value : Ref} {v clsValue keyValue valueValue : Value}

theorem getCore : Simulates p (· = p) Action.getCore Spec.getCore :=
  ask fun _ _ _ hm => hm.roots.core

/-- What is done with the known objects. -/
theorem bind_core {α β : Type} [Depicted α β] {f : CoreObjects → Action α} {h : Graph.Core → Spec β}
    (hf : ∀ core c, p.ShowsCore core c → Simulates p p.Steady (f core) (h c)) :
    Simulates p p.Steady (Action.getCore >>= f) (Spec.getCore >>= h) :=
  getCore.bind_still hf

theorem newArray (len : Nat) :
    Simulates p p.Steady (Machine.newArray len) (Spec.newArray len) :=
  bind_core fun _ _ hcore => allocate (hcore.cls .array)

theorem newBytes (hr : p.Shows cls clsValue) (bytes : List UInt8) :
    Simulates p p.Steady (Machine.newBytes cls bytes) (Spec.newBytes clsValue bytes) := by
  refine (allocate hr).bind_steady fun p' _ r v hr => ?_
  refine (write (Writes.storeBytes hr bytes)).bind_still fun _ _ _ => ?_
  exact pure hr (.refl p')

theorem newByteArray (bytes : List UInt8) :
    Simulates p p.Steady (Machine.newByteArray bytes) (Spec.newByteArray bytes) :=
  bind_core fun _ _ hcore => newBytes (hcore.cls .byteArray) bytes

theorem newString (text : String) :
    Simulates p p.Steady (Machine.newString text) (Spec.newString text) :=
  bind_core fun _ _ hcore => newBytes (hcore.cls .string) _

theorem newFloat (value : Binary64) :
    Simulates p p.Steady (Machine.newFloat value) (Spec.newFloat value) := by
  refine bind_core fun _ _ hcore => ?_
  refine (allocate (hcore.cls .float)).bind_steady fun p' _ r v hr => ?_
  refine (write (Writes.setFloatValue hr value)).bind_still fun _ _ _ => ?_
  exact pure hr (.refl p')

theorem newInteger (value : Int) :
    Simulates p p.Steady (Machine.newInteger value) (Spec.newInteger value) := by
  unfold Machine.newInteger Spec.newInteger
  cases hsmall : Ref.ofInt? value with
  | some r =>
    refine pure (Placement.shows_immediate ?_) (.refl p)
    unfold Ref.ofInt? at hsmall
    split at hsmall <;> cases hsmall
    exact Ref.not_isPointer_of_isSmallInteger (Ref.isSmallInteger_ofPayload _)
  | none =>
    refine bind_core fun _ _ hcore => ?_
    refine (allocate (hcore.cls .largeInteger)).bind_steady fun p' _ r v hr => ?_
    refine (write (Writes.setLargeInteger hr value)).bind_still fun _ _ _ => ?_
    exact pure hr (.refl p')

theorem newAssociation (hkey : p.Shows key keyValue) (hvalue : p.Shows value valueValue) :
    Simulates p p.Steady (Machine.newAssociation key value)
      (Spec.newAssociation keyValue valueValue) := by
  refine (pin hkey).bind_still fun _ _ _ => ?_
  refine (pin hvalue).bind_still fun _ _ _ => ?_
  refine bind_core fun _ _ hcore => ?_
  refine (allocate (hcore.cls .association)).bind_steady fun p' _ r v hr => ?_
  refine unpin.bind_still fun value valueValue hvalue => ?_
  refine unpin.bind_still fun key keyValue hkey => ?_
  refine (write ((Writes.storeField hr hkey).bind (Writes.storeField hr hvalue))).bind_still
    fun _ _ _ => ?_
  exact pure hr (.refl p')

theorem newMethodDictionary (capacity : Nat) :
    Simulates p p.Steady (Machine.newMethodDictionary capacity)
      (Spec.newMethodDictionary capacity) := by
  refine require fun hpower => ?_
  unfold Machine.newMethodDictionary
  have hrequire : ObjectMachine.require (isPowerOfTwo capacity) .operand = .ok () := if_pos hpower
  rw [hrequire]
  refine (newArray capacity).bind_steady fun p₁ _ methods methodsValue hmethods => ?_
  refine (pin hmethods).bind_still fun _ _ _ => ?_
  refine bind_core fun _ _ hcore => ?_
  refine (allocate (hcore.cls .methodDictionary)).bind_steady fun p₂ _ r v hr => ?_
  refine unpin.bind_still fun methods methodsValue hmethods => ?_
  refine (write ((Writes.storeField hr (p₂.shows_ofNat 0)).bind (Writes.storeField hr
    hmethods))).bind_still fun _ _ _ => ?_
  exact pure hr (.refl p₂)

end Simulates

/-! ## Symbols and globals -/

namespace Graph

/-- The value of a name. -/
def named? (names : List (String × Value)) (name : String) : Option Value :=
  (names.find? (·.1 == name)).map (·.2)

/-- The symbol of a name, if it was ever interned. -/
def symbol? (g : Graph) (name : String) : Option Value := named? g.symbols name

end Graph

namespace Spec

/-- The symbol of a name, made if there is none. -/
def intern (name : String) : Spec Value := do
  match ← ask fun g => g.symbol? name with
  | some v => return v
  | none =>
    let v ← newBytes ((← getCore).cls .symbol) (Text.utf8Bytes name)
    modify fun g => { g with symbols := g.symbols ++ [(name, v)] }
    return v

/-- The association of a global, made if there is none. -/
def globalAssociation (name : String) : Spec Value := do
  match ← ask fun g => Graph.named? g.globals name with
  | some v => return v
  | none =>
    let key ← intern name
    let v ← newAssociation key (← getCore).nil
    modify fun g => { g with globals := g.globals ++ [(name, v)] }
    return v

/-- Gives a global a value. -/
def setGlobal (name : String) (value : Value) : Spec Unit := do
  pin value
  let association ← globalAssociation name
  let value ← unpin
  write (·.storeField association Association.valueField value)

end Spec

namespace Placement.ShowsNames

variable {p : Placement} {t : NameTable} {names : List (String × Value)} {name : String} {r : Ref}
  {v : Value}

theorem named? (ht : p.ShowsNames t names) (name : String) :
    Option.Rel p.Shows (t.find? name) (Graph.named? names name) := by
  unfold ShowsNames at ht
  unfold NameTable.find? Graph.named?
  rw [← Array.find?_toList]
  generalize t.entries.toList = entries at ht
  induction ht with
  | nil => exact .none
  | cons hhead _ ih =>
    rw [List.find?_cons, List.find?_cons, hhead.1]
    split
    · exact .some hhead.2
    · exact ih

theorem add (ht : p.ShowsNames t names) (hr : p.Shows r v) :
    p.ShowsNames (t.add name r) (names ++ [(name, v)]) := by
  unfold ShowsNames NameTable.add
  rw [Array.toList_push]
  exact List.rel_append ht (.cons ⟨rfl, hr⟩ .nil)

end Placement.ShowsNames

namespace Simulates

variable {p : Placement} {r : Ref} {v : Value}

theorem intern (name : String) :
    Simulates p p.Steady (Machine.intern name) (Spec.intern name) := by
  refine (ask fun m g starts hm => hm.roots.symbols.named? name).bind_still fun found found' hfound => ?_
  cases hfound with
  | some hr => exact pure hr (.refl p)
  | none =>
    refine bind_core fun _ _ hcore => ?_
    refine (newBytes (hcore.cls .symbol) _).bind_steady fun p' _ r v hr => ?_
    refine (modify fun m g starts hm => ?_).bind_still fun _ _ _ => pure hr (.refl p')
    exact { hm with
      roots := { hm.roots with symbols := hm.roots.symbols.add hr }
      positions := fun c hc => (hm.positions c hc).congr (fun _ => .refl _) rfl }

theorem globalAssociation (name : String) :
    Simulates p p.Steady (Machine.globalAssociation name) (Spec.globalAssociation name) := by
  refine (ask fun m g starts hm => hm.roots.globals.named? name).bind_still fun found found' hfound => ?_
  cases hfound with
  | some hr => exact pure hr (.refl p)
  | none =>
    refine (intern name).bind_steady fun p₁ _ key keyValue hkey => ?_
    refine bind_core fun _ _ hcore => ?_
    refine (newAssociation hkey hcore.nil).bind_steady fun p₂ _ r v hr => ?_
    refine (modify fun m g starts hm => ?_).bind_still fun _ _ _ => pure hr (.refl p₂)
    exact { hm with
      roots := { hm.roots with globals := hm.roots.globals.add hr }
      positions := fun c hc => (hm.positions c hc).congr (fun _ => .refl _) rfl }

theorem setGlobal (name : String) (hr : p.Shows r v) :
    Simulates p p.Steady (Machine.setGlobal name r) (Spec.setGlobal name v) := by
  refine (pin hr).bind_still fun _ _ _ => ?_
  refine (globalAssociation name).bind_steady fun p' _ association associationValue ha => ?_
  refine unpin.bind_still fun value w hw => ?_
  exact (write (Writes.storeField ha hw)).steady

end Simulates

end ObjectMachine
