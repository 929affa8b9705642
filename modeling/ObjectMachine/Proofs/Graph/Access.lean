import ObjectMachine.Proofs.Graph.Simulation

/-!
# Reading and writing graphs

Reading and writing an object by name, as far as the object has what is read or written. Each reader
and each store of memory does the same to the object at the place of the name.

## Main results

* `Reads.field`, `Reads.element`, `Reads.bytes` and so on: the readers of memory.
* `Writes.storeField`, `Writes.storeElement` and so on: the stores.
-/

namespace ObjectMachine

instance : Depicted Format Format := ⟨fun _ a b => a = b⟩
instance : Depicted Binary64 Binary64 := ⟨fun _ a b => a = b⟩
instance : Depicted UInt32 UInt32 := ⟨fun _ a b => a = b⟩
instance : Depicted (List UInt8) (List UInt8) := ⟨fun _ a b => a = b⟩
instance : Depicted MethodHeader MethodHeader := ⟨fun _ a b => a = b⟩
instance : Depicted InstanceSpec InstanceSpec := ⟨fun _ a b => a = b⟩

/-! ## Reading -/

/-- A byte among the words of an object. -/
def Node.byte (o : Node) (index : Nat) : UInt8 := Heap.byteOfWord (o.raw (index / 8)) (index % 8)

namespace Graph

variable (g : Graph)

def format (v : Value) : Option Format := (g.node? v).map Node.format

def fixedFields (v : Value) : Option Nat := (g.node? v).map Node.fields

def length (v : Value) : Option Nat := (g.node? v).map Node.len

def hash (v : Value) : Option Nat := (g.node? v).map Node.hash

def isCaptured (v : Value) : Option Bool := (g.node? v).map Node.captured

/-- The class word of an object. -/
def classWord (v : Value) : Option Value := (g.node? v).map Node.cls

/-- A fixed field. -/
def field (v : Value) (index : Nat) : Option Value := do
  let o ← g.node? v
  if index < o.fields then some (o.field index) else none

/-- Whether a value is an object with a fixed field of this index. -/
def hasField (v : Value) (index : Nat) : Bool :=
  match g.node? v with
  | some o => decide (index < o.fields)
  | none => false

/-- An element that is a reference. -/
def element (v : Value) (index : Nat) : Option Value :=
  match v with
  | .immediate _ => none
  | .object n =>
    if (g.nodes n).format.hasReferenceTail = true ∧ index < g.known n then
      some ((g.nodes n).element index)
    else none

/-- The object of a value, if it has a format. -/
def nodeOf (v : Value) (format : Format) : Option Node := do
  let o ← g.node? v
  if o.format = format then some o else none

/-- A byte element. -/
def byte (v : Value) (index : Nat) : Option UInt8 := do
  let o ← g.nodeOf v .byteArray
  if index < o.len then some (o.byte index) else none

/-- All byte elements. -/
def bytes (v : Value) : Option (List UInt8) := do
  let o ← g.nodeOf v .byteArray
  return (List.range o.len).map o.byte

/-- A 32-bit element. -/
def word (v : Value) (index : Nat) : Option UInt32 := do
  let o ← g.nodeOf v .wordArray
  if index < o.len then some (o.raw (index / 2) >>> (index % 2 * 32).toUInt64).toUInt32 else none

/-- A floating-point element. -/
def floatElement (v : Value) (index : Nat) : Option Binary64 := do
  let o ← g.nodeOf v .floatArray
  if index < o.len then some ⟨o.raw index⟩ else none

/-- The value of a floating-point number. -/
def floatValue (v : Value) : Option Binary64 := do
  let o ← g.nodeOf v .float
  return ⟨o.raw 0⟩

/-- The value of a large integer, if it was ever given one. -/
def largeInteger (v : Value) : Option (Option Int) := do
  let o ← g.nodeOf v .largeInteger
  return o.large?

@[simp] theorem node?_object (n : Nat) : g.node? (.object n) = some (g.nodes n) := rfl
@[simp] theorem node?_immediate (r : Ref) : g.node? (.immediate r) = none := rfl

variable {g} {v w : Value} {index : Nat}

/-- What can be read is an object. -/
theorem of_node? {o : Node} (ho : g.node? v = some o) : ∃ n, v = .object n ∧ o = g.nodes n := by
  cases v with
  | immediate r => cases ho
  | object n => exact ⟨n, rfl, (Option.some.inj ho).symm⟩

theorem of_field (hw : g.field v index = some w) :
    ∃ n, v = .object n ∧ index < (g.nodes n).fields ∧ w = (g.nodes n).field index := by
  obtain ⟨o, ho, hw⟩ := Option.bind_eq_some_iff.mp hw
  obtain ⟨n, rfl, rfl⟩ := of_node? ho
  split at hw
  · rename_i hlt
    exact ⟨n, rfl, hlt, (Option.some.inj hw).symm⟩
  · cases hw

theorem of_field_object {n : Nat} (hw : g.field (.object n) index = some w) :
    index < (g.nodes n).fields ∧ w = (g.nodes n).field index := by
  obtain ⟨n', hn', hindex, rfl⟩ := of_field hw
  cases hn'
  exact ⟨hindex, rfl⟩

theorem of_element (hw : g.element v index = some w) :
    ∃ n, v = .object n ∧ (g.nodes n).format.hasReferenceTail = true ∧ index < g.known n ∧
      w = (g.nodes n).element index := by
  cases v with
  | immediate r => cases hw
  | object n =>
    unfold element at hw
    dsimp only at hw
    split at hw
    · rename_i hboth
      exact ⟨n, rfl, hboth.1, hboth.2, (Option.some.inj hw).symm⟩
    · cases hw

theorem of_nodeOf {o : Node} {format : Format} (ho : g.nodeOf v format = some o) :
    ∃ n, v = .object n ∧ o = g.nodes n ∧ (g.nodes n).format = format := by
  obtain ⟨o', ho', heq⟩ := Option.bind_eq_some_iff.mp ho
  obtain ⟨n, rfl, rfl⟩ := of_node? ho'
  split at heq
  · rename_i hformat
    exact ⟨n, rfl, (Option.some.inj heq).symm, hformat⟩
  · cases heq

end Graph

/-! ### Memory -/

namespace Node

variable {o : Node} {k : Nat}

theorem rawAt_eq (hf : o.format = .byteArray) : o.rawAt = headerWords + o.fields + 1 := by
  unfold rawAt
  rw [hf, if_neg (by simp)]

/-- A byte of a byte object lies inside its words. -/
theorem byte_lt_size (hf : o.format = .byteArray) (hk : k < o.len + 1) :
    o.rawAt + k / 8 < o.size := by
  rw [rawAt_eq hf]
  unfold size
  rw [hf]
  simp only [Format.sizeInWords, Format.tailWords]
  omega

end Node

namespace Heap.Depicts

variable {h : Heap} {starts : List Nat} {p : Placement} {nodes : Nat → Node} {known : Nat → Nat}
  {n i k : Nat}

theorem fetchField (hd : h.Depicts starts p nodes known) (hn : p.find? n = some i)
    (hk : k < (nodes n).fields) :
    ∃ r, h.fetchField (.ofWordIndex i) k = .ok r ∧ p.Shows r ((nodes n).field k) := by
  have hs := hd.shows hn
  refine ⟨_, fetchField_eq hd.laidOut (hd.placed hn) (by rw [hs.fields]; exact hk) ?_, hs.field k hk⟩
  exact View.fields_lt_size (by rw [hs.format]; exact hd.allowsFields hn hk) (by rw [hs.fields]; omega)

/-- An element is a slot at a position. -/
theorem slot_element (hd : h.Depicts starts p nodes known) (hn : p.find? n = some i)
    (htail : (nodes n).format.hasReferenceTail = true) (hk : k < known n) :
    ∃ r, h.slot (i + (headerWords + (nodes n).fields + 1 + k)) = .ok r ∧
      p.Shows r ((nodes n).element k) := by
  have hs := hd.shows hn
  refine ⟨_, hd.laidOut.slot_offset (hd.placed hn) ?_, hs.element htail k hk⟩
  exact View.elements_lt_size (by rw [hs.format]; exact htail)
    (by rw [hs.elements_eq, hs.len]; have := hs.le_len; omega)

theorem fetchElement (hd : h.Depicts starts p nodes known) (hn : p.find? n = some i)
    (htail : (nodes n).format.hasReferenceTail = true) (hk : k < known n) :
    ∃ r, h.fetchElement (.ofWordIndex i) k = .ok r ∧ p.Shows r ((nodes n).element k) := by
  have hs := hd.shows hn
  obtain ⟨r, hr, hshows⟩ := hd.slot_element hn htail hk
  refine ⟨r, ?_, hshows⟩
  unfold Heap.fetchElement
  rw [elementIndex_eq hd.laidOut (hd.placed hn) (by rw [hs.len]; exact hk.trans_le hs.le_len)]
  show h.slot _ = _
  rw [hs.elements_eq]
  exact hr

/-- The words of an object without references. -/
theorem word_raw (hd : h.Depicts starts p nodes known) (hn : p.find? n = some i)
    (hno : (nodes n).format.allowsFields = false) (hnot : (nodes n).format ≠ .largeInteger)
    (hk : (nodes n).rawAt + k < (nodes n).size) :
    h.word (i + ((nodes n).rawAt + k)) = .ok ((nodes n).raw k) := by
  have hs := hd.shows hn
  rw [hd.laidOut.word_offset (hd.placed hn) (by rw [hs.size_eq]; exact hk), hs.raw hno hnot k hk]

/-- Objects without references have no fields. -/
theorem fields_eq_zero (hd : h.Depicts starts p nodes known) (hn : p.find? n = some i)
    (hno : (nodes n).format.allowsFields = false) : (nodes n).fields = 0 := by
  by_contra hne
  have := hd.allowsFields hn (Nat.pos_of_ne_zero hne)
  rw [hno] at this
  cases this

/-- The bytes of an object, at an offset. -/
theorem byteAtOffset (hd : h.Depicts starts p nodes known) (hn : p.find? n = some i)
    (hf : (nodes n).format = .byteArray) (hk : k < (nodes n).len + 1) :
    h.byteAtOffset ((i + (headerWords + (nodes n).fields + 1)) * 8 + k) =
      .ok ((nodes n).byte k) := by
  have hdiv : ((i + (headerWords + (nodes n).fields + 1)) * 8 + k) / 8 =
      i + ((nodes n).rawAt + k / 8) := by
    rw [Node.rawAt_eq hf]
    omega
  have hmod : ((i + (headerWords + (nodes n).fields + 1)) * 8 + k) % 8 = k % 8 := by omega
  unfold Heap.byteAtOffset
  rw [hdiv, hmod, hd.word_raw hn (by rw [hf]; rfl) (by rw [hf]; simp) (Node.byte_lt_size hf hk)]
  rfl

/-- Writing a byte writes its word. -/
theorem setByteAtOffset (hd : h.Depicts starts p nodes known) (hn : p.find? n = some i)
    (hf : (nodes n).format = .byteArray) (hk : k < (nodes n).len + 1) (b : UInt8) :
    h.setByteAtOffset ((i + (headerWords + (nodes n).fields + 1)) * 8 + k) b =
      .ok (h.poke (i + ((nodes n).rawAt + k / 8))
        (setByteOfWord ((nodes n).raw (k / 8)) (k % 8) b)) := by
  have hdiv : ((i + (headerWords + (nodes n).fields + 1)) * 8 + k) / 8 =
      i + ((nodes n).rawAt + k / 8) := by
    rw [Node.rawAt_eq hf]
    omega
  have hmod : ((i + (headerWords + (nodes n).fields + 1)) * 8 + k) % 8 = k % 8 := by omega
  have hlt := Node.byte_lt_size hf hk
  have hfit := hd.laidOut.fits_memory (hd.placed hn)
  rw [(hd.shows hn).size_eq] at hfit
  unfold Heap.setByteAtOffset
  rw [hdiv, hmod, hd.word_raw hn (by rw [hf]; rfl) (by rw [hf]; simp) hlt]
  exact setWord_eq (by omega) _

theorem bytesOffset (hd : h.Depicts starts p nodes known) (hn : p.find? n = some i) :
    h.bytesOffset (.ofWordIndex i) = .ok ((i + (headerWords + (nodes n).fields + 1)) * 8) := by
  rw [bytesOffset_eq hd.laidOut (hd.placed hn), (hd.shows hn).elements_eq]

theorem bytes (hd : h.Depicts starts p nodes known) (hn : p.find? n = some i)
    (hf : (nodes n).format = .byteArray) :
    h.bytes (.ofWordIndex i) = .ok ((List.range (nodes n).len).map (nodes n).byte) := by
  have hs := hd.shows hn
  have hfit := hd.laidOut.fits_memory (hd.placed hn)
  rw [hs.size_eq] at hfit
  unfold Heap.bytes
  rw [hd.bytesOffset hn, hd.laidOut.length (hd.placed hn), hs.len]
  show (if _ then _ else _) = _
  have hend : (nodes n).len ≠ 0 →
      (i + (headerWords + (nodes n).fields + 1)) * 8 + (nodes n).len ≤ h.memory.size * 8 := by
    intro hpos
    have := Node.byte_lt_size (k := (nodes n).len) hf (by omega)
    rw [Node.rawAt_eq hf] at this
    omega
  rw [if_pos (Decidable.or_iff_not_imp_left.mpr hend)]
  show Except.ok (h.bytesFrom _ _) = _
  unfold bytesFrom
  congr 1
  refine List.map_congr_left fun k hk => ?_
  have hbyte := hd.byteAtOffset hn hf (k := k) (by have := List.mem_range.mp hk; omega)
  unfold Heap.byteAtOffset Heap.word at hbyte
  split at hbyte
  · rename_i heq
    split at heq
    · rename_i hin
      cases heq
      rw [Array.getD_eq_getD_getElem?, Array.getElem?_eq_getElem hin]
      exact Except.ok.inj hbyte
    · cases heq
  · cases hbyte

end Heap.Depicts

/-! ### What is read -/

namespace Reads

variable {α β γ δ : Type} [Depicted α β] [Depicted γ δ] {p : Placement} {r s : Ref} {v w : Value}
  {index : Nat}

theorem pure {a : α} {b : β} (hab : Depicted.shows p a b) :
    Reads p (fun _ => .ok a) (fun _ => some b) := by
  intro m g starts _ b' hb'
  cases hb'
  exact ⟨a, rfl, hab⟩

/-- What is read may decide what is read next. -/
theorem bind {f : Machine → Except Fatal α} {φ : Graph → Option β}
    {k : α → Machine → Except Fatal γ} {χ : β → Graph → Option δ} (hf : Reads p f φ)
    (hk : ∀ a b, Depicted.shows p a b → Reads p (k a) (χ b)) :
    Reads p (fun m => f m >>= fun a => k a m) fun g => φ g >>= fun b => χ b g := by
  intro m g starts hm d hd
  obtain ⟨b, hb, hd⟩ := Option.bind_eq_some_iff.mp hd
  obtain ⟨a, ha, hab⟩ := hf m g starts hm b hb
  obtain ⟨c, hc, hcd⟩ := hk a b hab m g starts hm d hd
  refine ⟨c, ?_, hcd⟩
  show (f m >>= _) = _
  rw [ha]
  exact hc

/-- What is read may be looked at in another way. -/
theorem map {f : Machine → Except Fatal α} {φ : Graph → Option β} {k : α → γ} {χ : β → δ}
    (hf : Reads p f φ) (hk : ∀ a b, Depicted.shows p a b → Depicted.shows p (k a) (χ b)) :
    Reads p (fun m => f m >>= fun a => .ok (k a)) fun g => (φ g).map χ := by
  intro m g starts hm d hd
  obtain ⟨b, hb, rfl⟩ := Option.map_eq_some_iff.mp hd
  obtain ⟨a, ha, hab⟩ := hf m g starts hm b hb
  refine ⟨k a, ?_, hk a b hab⟩
  show (f m >>= _) = _
  rw [ha]
  rfl

/-- What is read may depend on a condition that is the same in both. -/
theorem ite {f f' : Machine → Except Fatal α} {φ φ' : Graph → Option β} {P Q : Prop} [Decidable P]
    [Decidable Q] (hPQ : P ↔ Q) (hf : Reads p f φ) (hf' : Reads p f' φ') :
    Reads p (fun m => if P then f m else f' m) fun g => if Q then φ g else φ' g := by
  by_cases hQ : Q
  · simp only [if_pos (hPQ.mpr hQ), if_pos hQ]
    exact hf
  · simp only [if_neg (mt hPQ.mp hQ), if_neg hQ]
    exact hf'

/-- The object of a value is where its reference leads. -/
theorem node {f : Machine → Except Fatal α} {φ : Node → β} (hr : p.Shows r v)
    (hf : ∀ m g starts n i, m.Realizes g p starts → p.find? n = some i → r = .ofWordIndex i →
      ∃ a, f m = .ok a ∧ Depicted.shows p a (φ (g.nodes n))) :
    Reads p f fun g => (g.node? v).map φ := by
  intro m g starts hm b hb
  obtain ⟨o, ho, rfl⟩ := Option.map_eq_some_iff.mp hb
  obtain ⟨n, rfl, rfl⟩ := Graph.of_node? ho
  obtain ⟨i, hi, rfl⟩ := hr
  exact hf m g starts n i hm hi rfl

section Shape

variable (hr : p.Shows r v)
include hr

theorem format : Reads p (fun m => m.heap.format r) (·.format v) := by
  refine node (φ := Node.format) hr ?_
  rintro m g starts n i hm hn rfl
  exact ⟨_, hm.depicts.laidOut.format (hm.depicts.placed hn), (hm.depicts.shows hn).format⟩

theorem fixedFields : Reads p (fun m => m.heap.fixedFields r) (·.fixedFields v) := by
  refine node (φ := Node.fields) hr ?_
  rintro m g starts n i hm hn rfl
  exact ⟨_, hm.depicts.laidOut.fixedFields (hm.depicts.placed hn), (hm.depicts.shows hn).fields⟩

theorem length : Reads p (fun m => m.heap.length r) (·.length v) := by
  refine node (φ := Node.len) hr ?_
  rintro m g starts n i hm hn rfl
  exact ⟨_, hm.depicts.laidOut.length (hm.depicts.placed hn), (hm.depicts.shows hn).len⟩

theorem hash : Reads p (fun m => m.heap.identityHash r) (·.hash v) := by
  refine node (φ := Node.hash) hr ?_
  rintro m g starts n i hm hn rfl
  refine ⟨(m.heap.view i).header.identityHash, ?_, (hm.depicts.shows hn).hash⟩
  unfold Heap.identityHash
  rw [hm.depicts.laidOut.header (hm.depicts.placed hn)]

theorem isCaptured : Reads p (fun m => m.heap.isCaptured r) (·.isCaptured v) := by
  refine node (φ := Node.captured) hr ?_
  rintro m g starts n i hm hn rfl
  refine ⟨(m.heap.view i).header.isCaptured, ?_, (hm.depicts.shows hn).captured⟩
  unfold Heap.isCaptured
  rw [hm.depicts.laidOut.header (hm.depicts.placed hn)]

theorem classWord : Reads p (fun m => m.heap.classOf r) (·.classWord v) := by
  refine node (φ := Node.cls) hr ?_
  rintro m g starts n i hm hn rfl
  exact ⟨_, hm.depicts.laidOut.classOf (hm.depicts.placed hn), (hm.depicts.shows hn).cls⟩

theorem field (index : Nat) : Reads p (fun m => m.heap.fetchField r index) (·.field v index) := by
  intro m g starts hm b hb
  obtain ⟨n, rfl, hlt, rfl⟩ := Graph.of_field hb
  obtain ⟨i, hi, rfl⟩ := hr
  exact hm.depicts.fetchField hi hlt

theorem hasField (index : Nat) :
    Reads p (fun m => m.heap.hasField r index) fun g => some (g.hasField v index) := by
  rintro m g starts hm b ⟨⟩
  refine ⟨_, ?_, rfl⟩
  show m.heap.hasField r index = _
  unfold Heap.hasField Graph.hasField
  rw [hr.isPointer_eq]
  cases v with
  | immediate a => rfl
  | object n =>
    obtain ⟨i, hi, rfl⟩ := hr
    rw [Value.isObject_object, if_pos rfl, hm.depicts.laidOut.fixedFields (hm.depicts.placed hi),
      (hm.depicts.shows hi).fields]
    rfl

theorem element (index : Nat) :
    Reads p (fun m => m.heap.fetchElement r index) (·.element v index) := by
  intro m g starts hm b hb
  obtain ⟨n, rfl, htail, hlt, rfl⟩ := Graph.of_element hb
  obtain ⟨i, hi, rfl⟩ := hr
  exact hm.depicts.fetchElement hi htail hlt

end Shape

/-! Objects without references. -/

theorem checkElement {m : Machine} {g : Graph} {starts : List Nat} {n i : Nat}
    (hm : m.Realizes g p starts) (hi : p.find? n = some i) (hlt : index < (g.nodes n).len) :
    m.heap.checkElement (.ofWordIndex i) index = .ok () :=
  Heap.checkElement_eq hm.depicts.laidOut (hm.depicts.placed hi)
    (by rw [(hm.depicts.shows hi).len]; exact hlt)

theorem elementIndex {m : Machine} {g : Graph} {starts : List Nat} {n i : Nat}
    (hm : m.Realizes g p starts) (hi : p.find? n = some i) (hlt : index < (g.nodes n).len) :
    m.heap.elementIndex (.ofWordIndex i) index =
      .ok (i + (headerWords + (g.nodes n).fields + 1 + index)) := by
  rw [Heap.elementIndex_eq hm.depicts.laidOut (hm.depicts.placed hi)
    (by rw [(hm.depicts.shows hi).len]; exact hlt), (hm.depicts.shows hi).elements_eq]

section Raw

variable (hr : p.Shows r v)
include hr

theorem byte (index : Nat) : Reads p (fun m => m.heap.fetchByte r index) (·.byte v index) := by
  intro m g starts hm b hb
  obtain ⟨o, ho, hb⟩ := Option.bind_eq_some_iff.mp hb
  obtain ⟨n, rfl, rfl, hf⟩ := Graph.of_nodeOf ho
  obtain ⟨i, hi, rfl⟩ := hr
  split at hb <;> cases hb
  rename_i hlt
  refine ⟨(g.nodes n).byte index, ?_, rfl⟩
  show m.heap.fetchByte _ _ = _
  unfold Heap.fetchByte
  rw [checkElement hm hi hlt, hm.depicts.bytesOffset hi]
  exact hm.depicts.byteAtOffset hi hf (by omega)

theorem bytes : Reads p (fun m => m.heap.bytes r) (·.bytes v) := by
  intro m g starts hm b hb
  obtain ⟨o, ho, hb⟩ := Option.bind_eq_some_iff.mp hb
  obtain ⟨n, rfl, rfl, hf⟩ := Graph.of_nodeOf ho
  obtain ⟨i, hi, rfl⟩ := hr
  cases hb
  exact ⟨_, hm.depicts.bytes hi hf, rfl⟩

theorem word (index : Nat) :
    Reads p (fun m => m.heap.fetchWordElement r index) (·.word v index) := by
  intro m g starts hm b hb
  obtain ⟨o, ho, hb⟩ := Option.bind_eq_some_iff.mp hb
  obtain ⟨n, rfl, rfl, hf⟩ := Graph.of_nodeOf ho
  obtain ⟨i, hi, rfl⟩ := hr
  split at hb <;> cases hb
  rename_i hlt
  refine ⟨_, ?_, rfl⟩
  show m.heap.fetchWordElement _ _ = _
  unfold Heap.fetchWordElement
  rw [checkElement hm hi hlt, Heap.elementsIndex_eq hm.depicts.laidOut (hm.depicts.placed hi),
    (hm.depicts.shows hi).elements_eq]
  have hraw := hm.depicts.word_raw hi (k := index / 2) (by rw [hf]; rfl) (by rw [hf]; simp)
    (by
      unfold Node.rawAt Node.size
      rw [hf, if_neg (by simp)]
      simp only [Format.sizeInWords, Format.tailWords]
      omega)
  unfold Node.rawAt at hraw
  rw [hf, if_neg (by simp), ← Nat.add_assoc] at hraw
  show (m.heap.word _ >>= _) = _
  rw [hraw]
  rfl

theorem floatElement (index : Nat) :
    Reads p (fun m => m.heap.fetchFloatElement r index) (·.floatElement v index) := by
  intro m g starts hm b hb
  obtain ⟨o, ho, hb⟩ := Option.bind_eq_some_iff.mp hb
  obtain ⟨n, rfl, rfl, hf⟩ := Graph.of_nodeOf ho
  obtain ⟨i, hi, rfl⟩ := hr
  split at hb <;> cases hb
  rename_i hlt
  refine ⟨_, ?_, rfl⟩
  show m.heap.fetchFloatElement _ _ = _
  unfold Heap.fetchFloatElement
  rw [elementIndex hm hi hlt]
  have hraw := hm.depicts.word_raw hi (k := index) (by rw [hf]; rfl) (by rw [hf]; simp)
    (by
      unfold Node.rawAt Node.size
      rw [hf, if_neg (by simp)]
      simp only [Format.sizeInWords, Format.tailWords]
      omega)
  unfold Node.rawAt at hraw
  rw [hf, if_neg (by simp)] at hraw
  show (m.heap.word _ >>= _) = _
  rw [hraw]
  rfl

theorem floatValue : Reads p (fun m => m.heap.floatValue r) (·.floatValue v) := by
  intro m g starts hm b hb
  obtain ⟨o, ho, hb⟩ := Option.bind_eq_some_iff.mp hb
  obtain ⟨n, rfl, rfl, hf⟩ := Graph.of_nodeOf ho
  obtain ⟨i, hi, rfl⟩ := hr
  cases hb
  refine ⟨_, ?_, rfl⟩
  show m.heap.floatValue _ = _
  have hcheck := hm.depicts.laidOut.checkFormat (hm.depicts.placed hi)
  rw [(hm.depicts.shows hi).format, hf] at hcheck
  have hraw := hm.depicts.word_raw hi (k := 0) (by rw [hf]; rfl) (by rw [hf]; simp)
    (by
      unfold Node.rawAt Node.size
      rw [hf, if_pos rfl]
      simp only [Format.sizeInWords]
      omega)
  unfold Node.rawAt at hraw
  rw [hf, if_pos rfl] at hraw
  unfold Heap.floatValue
  rw [hcheck, Placement.wordIndex_place hi]
  show (m.heap.word _ >>= _) = _
  rw [show i + headerWords = i + (headerWords + 0) from rfl, hraw]
  rfl

theorem largeInteger : Reads p (fun m => m.heap.largeInteger? r) (·.largeInteger v) := by
  intro m g starts hm b hb
  obtain ⟨o, ho, hb⟩ := Option.bind_eq_some_iff.mp hb
  obtain ⟨n, rfl, rfl, hf⟩ := Graph.of_nodeOf ho
  obtain ⟨i, hi, rfl⟩ := hr
  cases hb
  have hs := hm.depicts.shows hi
  refine ⟨_, hm.depicts.laidOut.largeInteger? (hm.depicts.placed hi) (hs.format.trans hf), ?_⟩
  show Option.Rel _ (m.heap.largeValue? i) _
  rw [hs.large]
  cases (g.nodes n).large? with
  | none => exact .none
  | some x => exact .some rfl

end Raw

end Reads

end ObjectMachine
