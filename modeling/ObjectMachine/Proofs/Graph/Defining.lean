import ObjectMachine.Kernel.Bootstrap
import ObjectMachine.Proofs.Graph.Classes
import ObjectMachine.Proofs.Machine.Bootstrapped

/-!
# Defining classes and methods

Classes, methods and everything that a fresh machine has, as computations on graphs.

## Main results

* `Simulates.installMethod`, `Simulates.defineClass`, `Simulates.install`: definitions.
* `Simulates.bootstrap`: what a fresh machine gets.
-/

namespace ObjectMachine

/-! ## Failures as answers -/

/-- An answer stands for an answer, and a failure for itself. -/
inductive Except.Shown {α β : Type} [Depicted α β] (p : Placement) :
    Except Failure α → Except Failure β → Prop
  | ok {a : α} {b : β} (h : Depicted.shows p a b) : Except.Shown p (.ok a) (.ok b)
  | error (failure : Failure) : Except.Shown p (.error failure) (.error failure)

instance {α β : Type} [Depicted α β] : Depicted (Except Failure α) (Except Failure β) :=
  ⟨Except.Shown⟩

namespace Simulates

variable {α β : Type} [Depicted α β] {p : Placement} {x : Action α} {y : Spec β}

theorem attempt (hx : Simulates p p.Steady x y) :
    Simulates p p.Steady (Action.attempt x) (Spec.attempt y) := by
  intro m g starts hm hright
  have hfits := hx m g starts hm fun hwrong => hright ⟨_, hwrong, rfl⟩
  unfold Action.attempt
  cases hxm : x m with
  | ok a m' =>
    rw [hxm] at hfits
    obtain ⟨b, g', p', starts', hr, hsteady, hab, hm'⟩ := hfits
    exact ⟨.ok b, g', p', starts', ⟨_, hr, rfl⟩, hsteady, .ok hab, hm'⟩
  | failed e m' =>
    rw [hxm] at hfits
    obtain ⟨g', p', starts', hr, hsteady, hm'⟩ := hfits
    exact ⟨.error e, g', p', starts', ⟨_, hr, rfl⟩, hsteady, .error e, hm'⟩
  | stopped cause =>
    rw [hxm] at hfits
    exact hfits.imp_right fun hr => ⟨_, hr, rfl⟩
  | unfinished =>
    rw [hxm] at hfits
    exact ⟨_, hfits, rfl⟩

theorem within {activity : Activity} (hx : Simulates p p.Steady x y) :
    Simulates p p.Steady (Action.within activity x) (Spec.within activity y) := by
  intro m g starts hm hright
  have hfits := hx m g starts hm fun hwrong => hright ⟨_, hwrong, rfl⟩
  unfold Action.within
  cases hxm : x m with
  | ok a m' =>
    rw [hxm] at hfits
    obtain ⟨b, g', p', starts', hr, hrest⟩ := hfits
    exact ⟨b, g', p', starts', ⟨_, hr, rfl⟩, hrest⟩
  | failed e m' =>
    rw [hxm] at hfits
    obtain ⟨g', p', starts', hr, hrest⟩ := hfits
    exact ⟨g', p', starts', ⟨_, hr, rfl⟩, hrest⟩
  | stopped cause =>
    rw [hxm] at hfits
    exact hfits.imp_right fun hr => ⟨_, hr, rfl⟩
  | unfinished =>
    rw [hxm] at hfits
    exact ⟨_, hfits, rfl⟩

theorem resume {a : Except Failure α} {b : Except Failure β} (hab : Depicted.shows p a b) :
    Simulates p p.Steady (Action.resume a) (Spec.resume b) := by
  cases hab with
  | ok hab => exact pure hab (.refl p)
  | error failure => exact fail rfl

end Simulates

/-! ## Methods of classes -/

namespace Graph

variable (g : Graph)

/-- The capacity of the dictionary of a class, doubled. -/
def doubledCapacity (cls : Value) : Option Nat := do
  let dictionary ← g.field cls Class.dictionaryField
  let o ← g.nodeOf dictionary .array
  return o.len * 2

/-- Whether one more method would fill the dictionary of a class too much. -/
def isClassFull (cls : Value) : Option Bool :=
  g.field cls Class.dictionaryField >>= fun dictionary => g.isFull dictionary

/-- Replaces the dictionary of a class by one with the same entries. -/
def moveEntries (cls grown : Value) : Option Graph := do
  let dictionary ← g.field cls Class.dictionaryField
  let entries ← g.entries dictionary
  let g ← g.insertAll grown entries
  g.storeField cls Class.dictionaryField grown

/-- Adds a method to a class, in place of the one with the same selector. -/
def insertMethod (cls selector method : Value) : Option Graph :=
  g.field cls Class.dictionaryField >>= fun dictionary => g.insert dictionary selector method

end Graph

namespace Spec

/-- Replaces the dictionary of the class pinned at a position by one of twice the capacity. -/
def growDictionary (position : Nat) : Spec Unit := do
  let cls ← pinnedAt position
  let capacity ← read (·.doubledCapacity cls)
  let grown ← newMethodDictionary capacity
  let cls ← pinnedAt position
  write (·.moveEntries cls grown)

/-- Forgets the methods found so far. -/
def flushCache : Spec Unit := modify fun g => { g with memo := fun _ _ _ => False }

/-- Adds a method to a class, in place of the one with the same selector. -/
def installMethod (cls : Value) (selector : String) (method : Value) : Spec Unit := do
  let base ← pinnedCount
  pin cls
  pin method
  pin (← intern selector)
  let cls ← pinnedAt base
  let full ← read (·.isClassFull cls)
  (if full then growDictionary base else pure ())
  let cls ← pinnedAt base
  let method ← pinnedAt (base + 1)
  let selector ← pinnedAt (base + 2)
  unpinTo base
  write (·.insertMethod cls selector method)
  flushCache

end Spec

theorem Writes.insertMethod {p : Placement} {r selector method : Ref} {v selectorValue methodValue : Value}
    (hr : p.Shows r v) (hs : p.Shows selector selectorValue) (hm : p.Shows method methodValue) :
    Writes p (fun h => Class.dictionary h r >>= fun d => MethodDictionary.insert h d selector method)
      (·.insertMethod v selectorValue methodValue) :=
  read (f := fun h => Class.dictionary h r) (Reads.field hr Class.dictionaryField)
    fun _ _ hd => insert hd hs hm

theorem Writes.moveEntries {p : Placement} {r grown : Ref} {v grownValue : Value} (hr : p.Shows r v)
    (hg : p.Shows grown grownValue) :
    Writes p (fun h => Class.dictionary h r >>= fun d => MethodDictionary.entries h d >>= fun entries =>
        Machine.insertAll h grown entries >>= fun h => h.storeField r Class.dictionaryField grown)
      (·.moveEntries v grownValue) := by
  refine read (f := fun h => Class.dictionary h r) (Reads.field hr Class.dictionaryField)
    fun d dictionary hd => ?_
  refine read (f := fun h => MethodDictionary.entries h d) (Reads.entries hd) fun entries values hall => ?_
  exact (insertAll hg hall).bind (storeField hr hg)

namespace Simulates

variable {p : Placement} {r s : Ref} {v w : Value}

theorem doubledCapacity (hr : p.Shows r v) :
    Simulates p (· = p)
      (Action.read (fun h => Class.dictionary h r >>= fun d => MethodDictionary.capacity h d) >>=
        fun capacity => (liftM (checkedCount (capacity * 2)) : Action Nat))
      (Spec.read (·.doubledCapacity v)) := by
  intro m g starts hm hright
  cases hdouble : g.doubledCapacity v with
  | none =>
    rw [Spec.read_of_none hdouble] at hright
    exact absurd rfl hright
  | some doubled =>
    obtain ⟨dictionary, hdictionary, hrest⟩ := Option.bind_eq_some_iff.mp hdouble
    obtain ⟨o, ho, hdoubled⟩ := Option.bind_eq_some_iff.mp hrest
    cases hdoubled
    obtain ⟨d, hd, hshows⟩ := (Reads.field hr Class.dictionaryField).ok hm hdictionary
    obtain ⟨n, i, rfl, rfl, hformat, hi, rfl⟩ := Machine.Holds.object hshows ho
    obtain ⟨_, hlength, rfl⟩ := (Reads.length hshows).ok hm rfl
    have hle := hm.len_le hi (by rw [hformat]; rfl)
    have hread : (fun h : Heap => Class.dictionary h r >>= fun d => MethodDictionary.capacity h d) m.heap =
        .ok (g.nodes n).len := by
      show (m.heap.fetchField r Class.dictionaryField >>= fun d => m.heap.length d) = _
      rw [hd]
      exact hlength
    have hcount : checkedCount ((g.nodes n).len * 2) = .ok ((g.nodes n).len * 2) := by
      refine if_pos ?_
      simp only [Ref.addressLimit, countLimit] at *
      omega
    rw [Action.bind_of_ok (Action.read_of_ok hread), hcount, Spec.read_of_some hdouble]
    exact ⟨_, g, p, starts, rfl, rfl, rfl, hm⟩

theorem growDictionary (position : Nat) :
    Simulates p p.Steady (Machine.growDictionary position) (Spec.growDictionary position) := by
  refine (pinnedAt position).bind_still fun r v hr => ?_
  rw [← Action.bind_assoc]
  refine (doubledCapacity hr).bind_still fun capacity _ hcapacity => ?_
  cases hcapacity
  refine (newMethodDictionary capacity).bind_steady fun p₁ _ grown grownValue hgrown => ?_
  refine (pinnedAt position).bind_still fun r v hr => ?_
  exact (write (Writes.moveEntries hr hgrown)).steady

theorem flushCache : Simulates p (· = p) Machine.flushCache Spec.flushCache := by
  refine modify fun m g starts hm => ?_
  exact { hm with
    roots := { hm.roots with }
    cache := fun entry hmem hnot => by
      rw [MethodCache.mem_flush hmem] at hnot
      cases hnot
    positions := fun c hc => (hm.positions c hc).congr (fun _ => .refl _) rfl }

theorem installMethod (hr : p.Shows r v) (selector : String) (hs : p.Shows s w) :
    Simulates p p.Steady (Machine.installMethod r selector s) (Spec.installMethod v selector w) := by
  refine pinnedCount.bind_still fun base _ hbase => ?_
  cases hbase
  refine (pin hr).bind_still fun _ _ _ => ?_
  refine (pin hs).bind_still fun _ _ _ => ?_
  refine (intern selector).bind_steady fun p₁ _ symbol symbolValue hsymbol => ?_
  refine (pin hsymbol).bind_still fun _ _ _ => ?_
  refine (pinnedAt base).bind_still fun r v hr => ?_
  refine (read (f := fun h => Class.dictionary h r >>= fun d => MethodDictionary.isFull h d)
    (Reads.bind (Reads.field hr Class.dictionaryField) fun _ _ hd => Reads.isFull hd)).bind_still
    fun full _ hfull => ?_
  cases hfull
  have hrest : ∀ p₂ : Placement, Simulates p₂ p₂.Steady
      (do
        let cls ← Machine.pinnedAt base
        let method ← Machine.pinnedAt (base + 1)
        let selector ← Machine.pinnedAt (base + 2)
        Machine.unpinTo base
        Action.write fun h => do MethodDictionary.insert h (← Class.dictionary h cls) selector method
        Machine.flushCache)
      (do
        let cls ← Spec.pinnedAt base
        let method ← Spec.pinnedAt (base + 1)
        let selector ← Spec.pinnedAt (base + 2)
        Spec.unpinTo base
        Spec.write (·.insertMethod cls selector method)
        Spec.flushCache) := by
    intro p₂
    refine (pinnedAt base).bind_still fun r v hr => ?_
    refine (pinnedAt (base + 1)).bind_still fun method methodValue hmethod => ?_
    refine (pinnedAt (base + 2)).bind_still fun symbol symbolValue hsymbol => ?_
    refine (unpinTo base).bind_still fun _ _ _ => ?_
    refine (write (Writes.insertMethod hr hsymbol hmethod)).bind_still fun _ _ _ => ?_
    exact flushCache.steady
  cases full with
  | true => exact (growDictionary base).bind_steady fun p₂ _ _ _ _ => hrest p₂
  | false =>
    show Simulates p₁ p₁.Steady _ (Pure.pure () >>= fun _ => _)
    rw [Spec.pure_bind]
    exact hrest p₁

end Simulates

/-! ## Classes -/

/-- Fills the fields of a class or a metaclass. -/
def Graph.fillClass (g : Graph) (cls superclass dictionary : Value) (spec : InstanceSpec)
    (name instance' : Value) : Option Graph := do
  let g ← g.storeField cls Class.superclassField superclass
  let g ← g.storeField cls Class.dictionaryField dictionary
  let g ← g.storeField cls Class.specField (.immediate spec.toRef)
  let g ← g.storeField cls Class.nameField name
  g.storeField cls Class.instanceField instance'

namespace Spec

/-- The class that the metaclass of a class inherits from. -/
def metaSuperclass (core : Graph.Core) (superclass : Value) : Spec Value :=
  if superclass = core.nil then pure (core.cls .theClass) else read (·.classWord superclass)

/-- Fills in a class and its metaclass. -/
def linkClass (cls metaclass superclass : Value) (spec : InstanceSpec)
    (name dictionary metaDictionary : Value) : Spec Unit := do
  let core ← getCore
  let inherited ← metaSuperclass core superclass
  write fun g => do
    let g ← g.storeClass cls metaclass
    let g ← g.fillClass cls superclass dictionary spec name core.nil
    g.fillClass metaclass inherited metaDictionary ⟨.plain, Class.fieldCount⟩ core.nil cls

/-- Makes a class and its metaclass, and binds the class to the global of its name. -/
def defineClass (name : String) (superclass : Value) (spec : InstanceSpec) : Spec Unit := do
  pin superclass
  pin (← intern name)
  pin (← newMethodDictionary MethodDictionary.minCapacity)
  pin (← newMethodDictionary MethodDictionary.minCapacity)
  let metaclass ← allocate ((← getCore).cls .metaclass) .plain Class.fieldCount 0
  pin metaclass
  let cls ← allocate metaclass .plain Class.fieldCount 0
  let metaclass ← unpin
  let metaDictionary ← unpin
  let dictionary ← unpin
  let symbol ← unpin
  let superclass ← unpin
  linkClass cls metaclass superclass spec symbol dictionary metaDictionary
  setGlobal name cls
  return

end Spec

theorem Writes.fillClass {p : Placement} {cls superclass dictionary name other : Ref}
    {v superclassValue dictionaryValue nameValue otherValue : Value} (hc : p.Shows cls v)
    (hs : p.Shows superclass superclassValue) (hd : p.Shows dictionary dictionaryValue)
    (spec : InstanceSpec) (hn : p.Shows name nameValue) (ho : p.Shows other otherValue) :
    Writes p (Machine.fillClass · cls superclass dictionary spec name other)
      (·.fillClass v superclassValue dictionaryValue spec nameValue otherValue) :=
  (storeField hc hs).bind <| (storeField hc hd).bind <| (storeField hc (p.shows_small _)).bind <|
    (storeField hc hn).bind <| storeField hc ho

/-- The answer of a definition does not matter. -/
instance : Depicted Ref Unit := ⟨fun _ _ _ => True⟩

namespace Simulates

variable {p : Placement} {r s : Ref} {v w : Value}

theorem linkClass {cls metaclass superclass name dictionary metaDictionary : Ref}
    {clsValue metaclassValue superclassValue nameValue dictionaryValue metaDictionaryValue : Value}
    (hc : p.Shows cls clsValue) (hm : p.Shows metaclass metaclassValue)
    (hs : p.Shows superclass superclassValue) (spec : InstanceSpec) (hn : p.Shows name nameValue)
    (hd : p.Shows dictionary dictionaryValue) (hmd : p.Shows metaDictionary metaDictionaryValue) :
    Simulates p (· = p)
      (Machine.linkClass cls metaclass superclass spec name dictionary metaDictionary)
      (Spec.linkClass clsValue metaclassValue superclassValue spec nameValue dictionaryValue
        metaDictionaryValue) := by
  refine getCore.bind_still fun core c hcore => ?_
  have hrest : ∀ inherited inheritedValue, p.Shows inherited inheritedValue →
      Simulates p (· = p) (Action.write fun h => h.setClassOf cls metaclass >>= fun h =>
          Machine.fillClass h cls superclass dictionary spec name core.nil >>= fun h =>
          Machine.fillClass h metaclass inherited metaDictionary ⟨.plain, Class.fieldCount⟩ core.nil cls)
        (Spec.write fun g => g.storeClass clsValue metaclassValue >>= fun g =>
          g.fillClass clsValue superclassValue dictionaryValue spec nameValue c.nil >>= fun g =>
          g.fillClass metaclassValue inheritedValue metaDictionaryValue ⟨.plain, Class.fieldCount⟩
            c.nil clsValue) :=
    fun inherited inheritedValue hi => write ((Writes.storeClass hc hm).bind <|
      (Writes.fillClass hc hs hd spec hn hcore.nil).bind <|
      Writes.fillClass hm hi hmd _ hcore.nil hc)
  unfold Spec.metaSuperclass
  by_cases hnil : superclass = core.nil
  · rw [if_pos hnil, if_pos ((hs.eq_iff hcore.nil).mp hnil)]
    rw [Spec.pure_bind]
    exact hrest _ _ (hcore.cls .theClass)
  · rw [if_neg hnil, if_neg fun h => hnil ((hs.eq_iff hcore.nil).mpr h)]
    exact (read (Reads.classWord hs)).bind_still hrest

theorem defineClass (name : String) (hr : p.Shows r v) (spec : InstanceSpec) :
    Simulates p p.Steady (Machine.defineClass name r spec) (Spec.defineClass name v spec) := by
  refine (pin hr).bind_still fun _ _ _ => ?_
  refine (intern name).bind_steady fun p₁ _ symbol symbolValue hsymbol => ?_
  refine (pin hsymbol).bind_still fun _ _ _ => ?_
  refine (newMethodDictionary _).bind_steady fun p₂ _ d dValue hd => ?_
  refine (pin hd).bind_still fun _ _ _ => ?_
  refine (newMethodDictionary _).bind_steady fun p₃ _ d dValue hd => ?_
  refine (pin hd).bind_still fun _ _ _ => ?_
  refine bind_core fun core c hcore => ?_
  refine (allocate (hcore.cls .metaclass)).bind_steady fun p₄ _ metaclass metaclassValue hmeta => ?_
  refine (pin hmeta).bind_still fun _ _ _ => ?_
  refine (allocate hmeta).bind_steady fun p₅ _ cls clsValue hcls => ?_
  refine unpin.bind_still fun metaclass metaclassValue hmeta => ?_
  refine unpin.bind_still fun metaDictionary metaDictionaryValue hmd => ?_
  refine unpin.bind_still fun dictionary dictionaryValue hd => ?_
  refine unpin.bind_still fun symbol symbolValue hsymbol => ?_
  refine unpin.bind_still fun superclass superclassValue hs => ?_
  refine (linkClass hcls hmeta hs spec hsymbol hd hmd).bind_still fun _ _ _ => ?_
  exact (setGlobal name hcls).bind_steady fun p₆ _ _ _ _ => pure trivial (.refl p₆)

end Simulates

/-! ## Methods -/

/-- Stores values as the elements of an object from an index on. -/
def Graph.storeElements (g : Graph) (v : Value) (index : Nat) : List Value → Option Graph
  | [] => some g
  | value :: rest => do
    let g ← g.storeElement v index value
    storeElements g v (index + 1) rest

namespace Spec

/-- The object of a literal. The class that the method is made for is pinned at a position. -/
def materialize (position : Nat) : Literal → Spec Value
  | .nil => return (← getCore).nil
  | .true => return (← getCore).trueObject
  | .false => return (← getCore).falseObject
  | .integer value => newInteger value
  | .character value => return .immediate (.ofChar value)
  | .float value => newFloat value
  | .string text => newString text
  | .symbol name => intern name
  | .global name => globalAssociation name
  | .methodClass => do
    let nil := (← getCore).nil
    let association ← newAssociation nil nil
    let cls ← pinnedAt position
    write (·.storeField association Association.valueField cls)
    return association

/-- Makes the objects of literals and pins them in order. -/
def materializeAll (position : Nat) : List Literal → Spec Unit
  | [] => return
  | literal :: rest => do
    pin (← materialize position literal)
    materializeAll position rest

/-- Makes an array of literals for the method of a class. -/
def buildLiterals (literals : List Literal) (cls : Value) : Spec Value := do
  let base ← pinnedCount
  pin cls
  materializeAll base literals
  let array ← newArray literals.length
  let values ← pinnedFrom (base + 1) literals.length
  write (·.storeElements array 0 values)
  unpinTo base
  return array

/-- Makes a compiled method of a header, an array of literals and the bytes of its instructions. -/
def newMethod (header : MethodHeader) (literals : Value) (bytes : List UInt8) : Spec Value := do
  pin literals
  pin (← newByteArray bytes)
  let method ← allocate ((← getCore).cls .compiledMethod) .plain Method.fieldCount 0
  let code ← unpin
  let literals ← unpin
  write fun g => do
    let g ← g.storeField method Method.headerField (.immediate header.toRef)
    let g ← g.storeField method Method.literalsField literals
    g.storeField method Method.codeField code
  return method

/-- Makes the compiled method of a draft. -/
def buildDraft (draft : Draft) (cls : Value) : Spec Value := do
  let literals ← buildLiterals draft.literals cls
  newMethod draft.header literals draft.bytes

/-- Makes the compiled method of an assembler. -/
def build (a : Assembler) (cls : Value) : Spec Value :=
  match a.finish.1 with
  | .ok draft => buildDraft draft cls
  | .error (.failure failure) => fail (· = failure)
  | .error (.fatal cause) => stop (· = cause)

/-- Makes the compiled method of an assembler and adds it to a class. -/
def install (a : Assembler) (cls : Value) (selector : String) : Spec Unit := do
  pin cls
  let method ← attempt (build a cls)
  let cls ← unpin
  match method with
  | .ok method => installMethod cls selector method
  | .error failure =>
    let name ← read (·.className cls)
    fail (· = .during (.installing name selector) failure)

end Spec

theorem Writes.storeElements {p : Placement} {r : Ref} {v : Value} {refs : List Ref} {values : List Value}
    (hr : p.Shows r v) (index : Nat) (hall : List.Forall₂ p.Shows refs values) :
    Writes p (Machine.storeElements · r index refs) (·.storeElements v index values) := by
  induction hall generalizing index with
  | nil => exact pure
  | cons hhead _ ih => exact (storeElement hr hhead).bind (ih (index + 1))

namespace Machine

/-- What becomes of a method that was compiled for a class. -/
def installCompiled (cls : Ref) (selector : String) : Except Failure Ref → Action Unit
  | .ok method => installMethod cls selector method
  | .error failure => do
    let name ← Action.inspect (·.className cls)
    Action.fail (.during (.installing name selector) failure)

end Machine

namespace Simulates

variable {p : Placement} {r s : Ref} {v w : Value}

theorem materialize (position : Nat) (literal : Literal) :
    Simulates p p.Steady (Machine.materialize position literal)
      (Spec.materialize position literal) := by
  cases literal with
  | nil => exact bind_core fun _ _ hcore => pure hcore.nil (.refl p)
  | «true» => exact bind_core fun _ _ hcore => pure hcore.trueObject (.refl p)
  | «false» => exact bind_core fun _ _ hcore => pure hcore.falseObject (.refl p)
  | integer value => exact newInteger value
  | character value => exact pure (Placement.shows_immediate (Ref.not_isPointer_ofChar value)) (.refl p)
  | float value => exact newFloat value
  | string text => exact newString text
  | symbol name => exact intern name
  | «global» name => exact globalAssociation name
  | methodClass =>
    refine bind_core fun _ _ hcore => ?_
    refine (newAssociation hcore.nil hcore.nil).bind_steady fun p' _ a aValue ha => ?_
    refine (pinnedAt position).bind_still fun cls clsValue hcls => ?_
    refine (write (Writes.storeField ha hcls)).bind_still fun _ _ _ => ?_
    exact pure ha (.refl p')

theorem materializeAll (position : Nat) (literals : List Literal) :
    Simulates p p.Steady (Machine.materializeAll position literals)
      (Spec.materializeAll position literals) := by
  induction literals generalizing p with
  | nil => exact pure trivial (.refl p)
  | cons literal rest ih =>
    refine (materialize position literal).bind_steady fun p' _ a aValue ha => ?_
    exact (pin ha).bind_still fun _ _ _ => ih

theorem buildLiterals (literals : List Literal) (hr : p.Shows r v) :
    Simulates p p.Steady (Machine.buildLiterals literals r) (Spec.buildLiterals literals v) := by
  refine pinnedCount.bind_still fun base _ hbase => ?_
  cases hbase
  refine (pin hr).bind_still fun _ _ _ => ?_
  refine (materializeAll base literals).bind_steady fun p₁ _ _ _ _ => ?_
  refine (newArray literals.length).bind_steady fun p₂ _ array arrayValue ha => ?_
  refine (pinnedFrom (base + 1) literals.length).bind_still fun refs values hall => ?_
  refine (write (Writes.storeElements ha 0 hall)).bind_still fun _ _ _ => ?_
  refine (unpinTo base).bind_still fun _ _ _ => ?_
  exact pure ha (.refl p₂)

theorem newMethod {header : MethodHeader} (hheader : header.toRef.isSmallInteger = true)
    (hr : p.Shows r v) (bytes : List UInt8) :
    Simulates p p.Steady (Machine.newMethod header r bytes) (Spec.newMethod header v bytes) := by
  refine (pin hr).bind_still fun _ _ _ => ?_
  refine (newByteArray bytes).bind_steady fun p₁ _ code codeValue hcode => ?_
  refine (pin hcode).bind_still fun _ _ _ => ?_
  refine bind_core fun _ _ hcore => ?_
  refine (allocate (hcore.cls .compiledMethod)).bind_steady fun p₂ _ method methodValue hmethod => ?_
  refine unpin.bind_still fun code codeValue hcode => ?_
  refine unpin.bind_still fun literals literalsValue hliterals => ?_
  refine (write ((Writes.storeField hmethod
    (Placement.shows_immediate (Ref.not_isPointer_of_isSmallInteger hheader))).bind
    ((Writes.storeField hmethod hliterals).bind
    (Writes.storeField hmethod hcode)))).bind_still fun _ _ _ => ?_
  exact pure hmethod (.refl p₂)

theorem buildDraft {draft : Draft} (hheader : draft.header.toRef.isSmallInteger = true)
    (hr : p.Shows r v) :
    Simulates p p.Steady (Machine.buildDraft draft r) (Spec.buildDraft draft v) :=
  (buildLiterals draft.literals hr).bind_steady fun _ _ _ _ hl => newMethod hheader hl draft.bytes

theorem build (a : Assembler) (hr : p.Shows r v) :
    Simulates p p.Steady (Machine.build a r) (Spec.build a v) := by
  unfold Machine.build Spec.build
  cases hdraft : a.finish.1 with
  | ok draft => exact buildDraft (MethodHeader.isSmallInteger_of_finish hdraft) hr
  | error refusal =>
    cases refusal with
    | failure failure => exact fail rfl
    | fatal cause => exact stop rfl

theorem install (a : Assembler) (hr : p.Shows r v) (selector : String) :
    Simulates p p.Steady (Machine.install a r selector) (Spec.install a v selector) := by
  have hparts : Machine.install a r selector = (do
      Machine.pin r
      let method ← Action.attempt (Machine.build a r)
      let cls ← Machine.unpin
      Machine.installCompiled cls selector method) := by
    unfold Machine.install Machine.buildInto Machine.compileFor
    simp only [Action.bind_assoc]
    refine congrArg _ (funext fun _ => congrArg _ (funext fun method => congrArg _ (funext fun cls => ?_)))
    cases method with
    | ok method =>
      show (Machine.installMethod cls selector method >>= fun _ => Pure.pure method) >>= (fun _ =>
        Pure.pure ()) = Machine.installMethod cls selector method
      rw [Action.bind_assoc]
      exact Action.bind_unit _
    | error failure =>
      show (Action.inspect (·.className cls) >>= fun name => Action.fail _) >>= (fun _ =>
        Pure.pure ()) = Action.inspect (·.className cls) >>= fun name => Action.fail _
      rw [Action.bind_assoc]
      rfl
  rw [hparts]
  refine (pin hr).bind_still fun _ _ _ => ?_
  refine (attempt (build a hr)).bind_steady fun p₁ _ method methodValue hmethod => ?_
  refine unpin.bind_still fun cls clsValue hcls => ?_
  cases hmethod with
  | ok hmethod => exact installMethod hcls selector hmethod
  | error failure =>
    refine (inspect (Reads.className hcls)).bind_still fun name _ hname => ?_
    cases hname
    exact fail rfl

end Simulates

/-! ## Bootstrap -/

theorem forall₂_set {α β : Type} {R : α → β → Prop} {xs : List α} {ys : List β} {x : α} {y : β}
    (h : List.Forall₂ R xs ys) (hxy : R x y) (index : Nat) :
    List.Forall₂ R (xs.set index x) (ys.set index y) := by
  induction h generalizing index with
  | nil => exact .nil
  | cons hhead htail ih =>
    cases index with
    | zero => exact .cons hxy htail
    | succ index => exact .cons hhead (ih index)

/-- The known objects with another kernel class. -/
def Graph.Core.setClass (c : Graph.Core) (k : KernelClass) (v : Value) : Graph.Core :=
  { c with cls := Function.update c.cls k v }

namespace Spec

/-- Changes the objects that the machine knows. -/
def modifyCore (f : Graph.Core → Graph.Core) : Spec Unit :=
  modify fun g => { g with core := f g.core }

/-- Makes nil. -/
def createNil : Spec Unit := do
  let nil ← allocate (.immediate .null) .plain 0 0
  write fun g => some { g with nil }
  modifyCore fun c => { c with nil }

/-- Makes kernel classes without contents. -/
def createBareClasses : List KernelClass → Spec Unit
  | [] => return
  | k :: rest => do
    let cls ← allocate (.immediate .null) .plain Class.fieldCount 0
    modifyCore (·.setClass k cls)
    createBareClasses rest

/-- Makes the truth values, and gives nil its class. -/
def createConstants : Spec Unit := do
  let core ← getCore
  write (·.storeClass core.nil (core.cls .undefinedObject))
  let trueObject ← allocate (core.cls .trueClass) .plain 0 0
  modifyCore fun c => { c with trueObject }
  let falseObject ← allocate ((← getCore).cls .falseClass) .plain 0 0
  modifyCore fun c => { c with falseObject }

/-- Fills in a kernel class, makes its metaclass, and binds it to the global of its name. -/
def createClass (k : KernelClass) : Spec Unit := do
  pin (← intern k.name)
  pin (← newMethodDictionary MethodDictionary.minCapacity)
  pin (← newMethodDictionary MethodDictionary.minCapacity)
  let metaclass ← allocate ((← getCore).cls .metaclass) .plain Class.fieldCount 0
  let metaDictionary ← unpin
  let dictionary ← unpin
  let name ← unpin
  let core ← getCore
  let superclass := match k.superclass? with
    | some superclass => core.cls superclass
    | none => core.nil
  linkClass (core.cls k) metaclass superclass k.spec name dictionary metaDictionary
  setGlobal k.name (core.cls k)

/-- Fills in kernel classes in order. -/
def createClasses : List KernelClass → Spec Unit
  | [] => return
  | k :: rest => do
    createClass k
    createClasses rest

/-- Interns special selectors from an index on. -/
def internSpecial (index : Nat) : List SpecialSelector → Spec Unit
  | [] => return
  | special :: rest => do
    let v ← intern special.name
    modifyCore fun c => { c with special := c.special.set index v }
    internSpecial (index + 1) rest

/-- Interns the selectors that the machine sends by itself. -/
def internSelectors : Spec Unit := do
  internSpecial 0 specialSelectors.toList
  let doesNotUnderstand ← intern "doesNotUnderstand:"
  modifyCore fun c => { c with doesNotUnderstand }
  let escapedBlock ← intern "escapedBlock:"
  modifyCore fun c => { c with escapedBlock }
  let mustBeBoolean ← intern "mustBeBoolean"
  modifyCore fun c => { c with mustBeBoolean }

/-- The class that a kernel method belongs to. -/
def ownerClass : Owner → Spec Value
  | .cls k => ask fun g => g.core.cls k
  | .metaclass k => read fun g => g.classWord (g.core.cls k)

/-- Installs kernel methods in order. -/
def installKernel : List KernelMethod → Spec Unit
  | [] => return
  | method :: rest => do
    let cls ← ownerClass method.owner
    install method.code cls method.selector
    installKernel rest

/-- Makes everything that a fresh machine has. -/
def bootstrap : Spec Unit := do
  createNil
  createBareClasses KernelClass.all
  createConstants
  createClasses KernelClass.all
  internSelectors
  within .installingKernel (installKernel KernelMethod.all)

end Spec

namespace Placement.ShowsCore

variable {p : Placement} {core : CoreObjects} {c : Graph.Core}

theorem setClass (hcore : p.ShowsCore core c) (k : KernelClass) {r : Ref} {v : Value}
    (hr : p.Shows r v) : p.ShowsCore (core.setClass k r) (c.setClass k v) :=
  { hcore with
    cls := fun k' => by
      show p.Shows ((core.classes.set k.index r)[k'.index]) (Function.update c.cls k v k')
      by_cases hk : k' = k
      · subst hk
        rw [Function.update_self]
        simpa using hr
      · have hne : k.index.val ≠ k'.index.val := fun h => hk (by
          cases k <;> cases k' <;> first | rfl | cases h)
        rw [Function.update_of_ne hk]
        have hset : (core.classes.set k.index r)[k'.index] = core.classes[k'.index] := by
          simp [hne]
        rw [hset]
        exact hcore.cls k' }

end Placement.ShowsCore

namespace Simulates

variable {p : Placement} {r s : Ref} {v w : Value}

theorem modifyCore {f : CoreObjects → CoreObjects} {h : Graph.Core → Graph.Core}
    (hf : ∀ core c, p.ShowsCore core c → p.ShowsCore (f core) (h c)) :
    Simulates p (· = p) (Machine.modifyCore f) (Spec.modifyCore h) := by
  refine modify fun m g starts hm => ?_
  exact { hm with
    roots := { hm.roots with core := hf _ _ hm.roots.core }
    positions := fun c hc => (hm.positions c hc).congr (fun _ => .refl _) rfl }

theorem createNil : Simulates p p.Steady Machine.createNil Spec.createNil := by
  refine (allocate p.shows_null).bind_steady fun p' _ r v hr => ?_
  refine (write (Writes.setNil hr)).bind_still fun _ _ _ => ?_
  exact (modifyCore fun core c hcore => by exact { hcore with nil := hr }).steady

theorem createBareClasses (classes : List KernelClass) :
    Simulates p p.Steady (Machine.createBareClasses classes) (Spec.createBareClasses classes) := by
  induction classes generalizing p with
  | nil => exact pure trivial (.refl p)
  | cons k rest ih =>
    refine (allocate p.shows_null).bind_steady fun p' _ r v hr => ?_
    exact (modifyCore fun core c hcore => hcore.setClass k hr).bind_still fun _ _ _ => ih

theorem createConstants : Simulates p p.Steady Machine.createConstants Spec.createConstants := by
  refine bind_core fun core c hcore => ?_
  refine (write (Writes.storeClass hcore.nil (hcore.cls .undefinedObject))).bind_still fun _ _ _ => ?_
  refine (allocate (hcore.cls .trueClass)).bind_steady fun p₁ _ r v hr => ?_
  refine (modifyCore fun core c hcore => by exact { hcore with trueObject := hr }).bind_still fun _ _ _ => ?_
  refine bind_core fun core c hcore => ?_
  refine (allocate (hcore.cls .falseClass)).bind_steady fun p₁ _ r v hr => ?_
  exact (modifyCore fun core c hcore => by exact { hcore with falseObject := hr }).steady

theorem createClass (k : KernelClass) :
    Simulates p p.Steady (Machine.createClass k) (Spec.createClass k) := by
  refine (intern k.name).bind_steady fun p₁ _ symbol symbolValue hsymbol => ?_
  refine (pin hsymbol).bind_still fun _ _ _ => ?_
  refine (newMethodDictionary _).bind_steady fun p₂ _ d dValue hd => ?_
  refine (pin hd).bind_still fun _ _ _ => ?_
  refine (newMethodDictionary _).bind_steady fun p₃ _ d dValue hd => ?_
  refine (pin hd).bind_still fun _ _ _ => ?_
  refine bind_core fun core c hcore => ?_
  refine (allocate (hcore.cls .metaclass)).bind_steady fun p₄ _ metaclass metaclassValue hmeta => ?_
  refine unpin.bind_still fun metaDictionary metaDictionaryValue hmd => ?_
  refine unpin.bind_still fun dictionary dictionaryValue hd => ?_
  refine unpin.bind_still fun symbol symbolValue hsymbol => ?_
  refine bind_core fun core c hcore => ?_
  have hsuper : p₄.Shows
      (match k.superclass? with | some superclass => core.cls superclass | none => core.nil)
      (match k.superclass? with | some superclass => c.cls superclass | none => c.nil) := by
    cases k.superclass? with
    | some superclass => exact hcore.cls superclass
    | none => exact hcore.nil
  refine (linkClass (hcore.cls k) hmeta hsuper k.spec hsymbol hd hmd).bind_still fun _ _ _ => ?_
  exact setGlobal k.name (hcore.cls k)

theorem createClasses (classes : List KernelClass) :
    Simulates p p.Steady (Machine.createClasses classes) (Spec.createClasses classes) := by
  induction classes generalizing p with
  | nil => exact pure trivial (.refl p)
  | cons k rest ih => exact (createClass k).bind_steady fun p' _ _ _ _ => ih

theorem internSpecial (index : Nat) (selectors : List SpecialSelector) :
    Simulates p p.Steady (Machine.internSpecial index selectors)
      (Spec.internSpecial index selectors) := by
  induction selectors generalizing p index with
  | nil => exact pure trivial (.refl p)
  | cons special rest ih =>
    refine (intern special.name).bind_steady fun p' _ r v hr => ?_
    refine (modifyCore fun core c hcore => ?_).bind_still fun _ _ _ => ih (index + 1)
    refine { hcore with special := ?_ }
    show List.Forall₂ p'.Shows (core.specialSelectors.setIfInBounds index r).toList _
    rw [Array.toList_setIfInBounds]
    exact forall₂_set hcore.special hr index

theorem internSelectors : Simulates p p.Steady Machine.internSelectors Spec.internSelectors := by
  refine (internSpecial 0 _).bind_steady fun p₁ _ _ _ _ => ?_
  refine (intern _).bind_steady fun p₂ _ r v hr => ?_
  refine (modifyCore fun core c hcore => by exact { hcore with doesNotUnderstand := hr }).bind_still
    fun _ _ _ => ?_
  refine (intern _).bind_steady fun p₃ _ r v hr => ?_
  refine (modifyCore fun core c hcore => by exact { hcore with escapedBlock := hr }).bind_still fun _ _ _ => ?_
  refine (intern _).bind_steady fun p₄ _ r v hr => ?_
  exact (modifyCore fun core c hcore => by exact { hcore with mustBeBoolean := hr }).steady

theorem ownerClass (owner : Owner) :
    Simulates p (· = p) (Action.inspect (·.ownerClass owner)) (Spec.ownerClass owner) := by
  cases owner with
  | cls k => exact ask fun m g starts hm => hm.roots.core.cls k
  | metaclass k =>
    refine inspect (.intro fun m g starts hm b hb => ?_)
    exact (Reads.classWord (hm.roots.core.cls k)).ok hm hb

theorem installKernel (methods : List KernelMethod) :
    Simulates p p.Steady (Machine.installKernel methods) (Spec.installKernel methods) := by
  induction methods generalizing p with
  | nil => exact pure trivial (.refl p)
  | cons method rest ih =>
    refine (ownerClass method.owner).bind_still fun cls clsValue hcls => ?_
    exact (install method.code hcls method.selector).bind_steady fun p' _ _ _ _ => ih

theorem bootstrap : Simulates p p.Steady Machine.bootstrap Spec.bootstrap := by
  refine createNil.bind_steady fun p₁ _ _ _ _ => ?_
  refine (createBareClasses _).bind_steady fun p₂ _ _ _ _ => ?_
  refine createConstants.bind_steady fun p₃ _ _ _ _ => ?_
  refine (createClasses _).bind_steady fun p₄ _ _ _ _ => ?_
  refine internSelectors.bind_steady fun p₅ _ _ _ _ => ?_
  exact (installKernel _).within

end Simulates

end ObjectMachine
