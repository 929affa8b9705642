import ObjectMachine.Proofs.Graph.Defining
import ObjectMachine.Proofs.Heap.Packing

/-!
# Graphs at rest

Between two runs nothing is active. Making an object then changes nothing of the objects that there
are, and a collection does not show at all. `Graph.Evolves` says what stays of a graph, and
`Graph.Settled` what holds of every graph at rest from the moment on that the kernel objects exist.

## Main results

* `Node.bytes_withBytes`: an object has the bytes that were written to it.
* `Spec.Ends.allocate`: an object is made.
* `Spec.Ends.intern`, `Spec.Ends.setGlobal`: symbols and globals.
-/

namespace ObjectMachine

/-! ## Bytes read back

Bytes lie eight to a word. Writing one of them leaves the others as they are, so that what is written to a
byte object is what is read from it. -/

namespace Node

variable (o : Node) (b : UInt8) {i j : Nat}

theorem byte_withByte (i j : Nat) : (o.withByte i b).byte j = if j = i then b else o.byte j := by
  show Heap.byteOfWord (Function.update o.raw (i / 8) _ (j / 8)) (j % 8) = _
  have hi : i % 8 < 8 := Nat.mod_lt _ (by decide)
  have hj : j % 8 < 8 := Nat.mod_lt _ (by decide)
  by_cases hword : j / 8 = i / 8
  · rw [hword, Function.update_self, Heap.byteOfWord_setByteOfWord _ _ hi hj]
    by_cases hji : j = i
    · rw [if_pos hji, if_pos (by rw [hji])]
    · rw [if_neg hji, if_neg (by omega)]
      unfold byte
      rw [hword]
  · rw [Function.update_of_ne hword, if_neg (by rintro rfl; exact hword rfl)]
    rfl

@[simp] theorem format_withBytes (values : List UInt8) (i : Nat) :
    (o.withBytes i values).format = o.format := by
  induction values generalizing o i with
  | nil => rfl
  | cons b rest ih => exact ih (o.withByte i b) (i + 1)

@[simp] theorem fields_withBytes (values : List UInt8) (i : Nat) :
    (o.withBytes i values).fields = o.fields := by
  induction values generalizing o i with
  | nil => rfl
  | cons b rest ih => exact ih (o.withByte i b) (i + 1)

@[simp] theorem len_withBytes (values : List UInt8) (i : Nat) :
    (o.withBytes i values).len = o.len := by
  induction values generalizing o i with
  | nil => rfl
  | cons b rest ih => exact ih (o.withByte i b) (i + 1)

@[simp] theorem cls_withBytes (values : List UInt8) (i : Nat) :
    (o.withBytes i values).cls = o.cls := by
  induction values generalizing o i with
  | nil => rfl
  | cons b rest ih => exact ih (o.withByte i b) (i + 1)

@[simp] theorem hash_withBytes (values : List UInt8) (i : Nat) :
    (o.withBytes i values).hash = o.hash := by
  induction values generalizing o i with
  | nil => rfl
  | cons b rest ih => exact ih (o.withByte i b) (i + 1)

theorem byte_withBytes (values : List UInt8) (i j : Nat) :
    (o.withBytes i values).byte j =
      if i ≤ j then values[j - i]?.getD (o.byte j) else o.byte j := by
  induction values generalizing o i with
  | nil => simp [withBytes]
  | cons b rest ih =>
    rw [withBytes, ih, byte_withByte]
    by_cases hij : i ≤ j
    · rw [if_pos hij]
      by_cases hji : j = i
      · simp [hji]
      · obtain ⟨k, hk⟩ := Nat.exists_eq_add_of_lt (show i < j by omega)
        rw [if_pos (by omega), if_neg hji, show j - i = (j - (i + 1)) + 1 by omega,
          List.getElem?_cons_succ]
    · rw [if_neg hij, if_neg (by omega), if_neg (by omega)]

/-- An object has the bytes that were written to it. -/
theorem bytes_withBytes {values : List UInt8} (hlen : o.len = values.length) :
    (List.range (o.withBytes 0 values).len).map (o.withBytes 0 values).byte = values := by
  rw [len_withBytes, hlen]
  apply List.ext_getElem
  · simp
  · intro j _ hj
    simp [byte_withBytes, List.getElem?_eq_getElem hj]

end Node

/-! ## What stays -/

namespace Graph

/-- The graph later on: some objects have other contents, and all others are what they were. Objects,
symbols and globals were added. -/
structure Evolves (changed : Nat → Prop) (g g' : Graph) : Prop where
  next_le : g.next ≤ g'.next
  nodes : ∀ n < g.next, ¬ changed n → g'.nodes n = g.nodes n
  layout : ∀ n < g.next, Node.SameLayout (g.nodes n) (g'.nodes n)
  hash : ∀ n < g.next, (g'.nodes n).hash = (g.nodes n).hash
  capacity : g'.capacity = g.capacity
  nil : g'.nil = g.nil
  core : g'.core = g.core
  registers : g'.registers = g.registers
  symbols : g.symbols <+: g'.symbols
  globals : g.globals <+: g'.globals

/-- No object has other contents. -/
abbrev Grows (g g' : Graph) : Prop := g.Evolves (fun _ => False) g'

namespace Evolves

variable {changed changed' : Nat → Prop} {g g' g'' : Graph}

theorem refl (changed : Nat → Prop) (g : Graph) : g.Evolves changed g where
  next_le := Nat.le_refl _
  nodes _ _ _ := rfl
  layout _ _ := .refl _
  hash _ _ := rfl
  capacity := rfl
  nil := rfl
  core := rfl
  registers := rfl
  symbols := List.prefix_rfl
  globals := List.prefix_rfl

theorem mono (h : g.Evolves changed g') (hsub : ∀ n < g.next, changed n → changed' n) :
    g.Evolves changed' g' :=
  { h with nodes := fun n hn hnot => h.nodes n hn fun hc => hnot (hsub n hn hc) }

/-- What is changed later may be new now. -/
theorem trans (h : g.Evolves changed g') (h' : g'.Evolves changed' g'')
    (hsub : ∀ n < g.next, changed' n → changed n) : g.Evolves changed g'' where
  next_le := h.next_le.trans h'.next_le
  nodes n hn hnot := by
    rw [h'.nodes n (hn.trans_le h.next_le) fun hc => hnot (hsub n hn hc), h.nodes n hn hnot]
  layout n hn :=
    have hold := h.layout n hn
    have hnew := h'.layout n (hn.trans_le h.next_le)
    ⟨hnew.format.trans hold.format, hnew.fields.trans hold.fields, hnew.len.trans hold.len⟩
  hash n hn := by rw [h'.hash n (hn.trans_le h.next_le), h.hash n hn]
  capacity := h'.capacity.trans h.capacity
  nil := h'.nil.trans h.nil
  core := h'.core.trans h.core
  registers := h'.registers.trans h.registers
  symbols := h.symbols.trans h'.symbols
  globals := h.globals.trans h'.globals

/-- What is pinned, what may be answered without a look and the contexts in the pool are not looked
at. -/
theorem other (h : g.Evolves changed g') (pinned pinned' : List Value)
    (memo memo' : Value → Value → Value → Prop) (pool pool' : Pool) :
    Evolves changed { g with pinned := pinned, memo := memo, pool := pool }
      { g' with pinned := pinned', memo := memo', pool := pool' } :=
  { h with }

end Evolves

/-- Nothing is active. -/
def Idle (g : Graph) : Prop := g.registers.active.isObject = false

/-- The name of a kernel class. -/
def classNode (k : KernelClass) : Nat := 1 + k.index

/-- The names of the truth values. -/
def trueNode : Nat := 1 + KernelClass.count

def falseNode : Nat := 2 + KernelClass.count

/-- The objects of the kernel have the first names. -/
structure Kernel (g : Graph) : Prop where
  next : kernelObjects ≤ g.next
  nil : g.nil = .object 0
  coreNil : g.core.nil = .object 0
  trueObject : g.core.trueObject = .object trueNode
  falseObject : g.core.falseObject = .object falseNode
  cls : ∀ k, g.core.cls k = .object (classNode k)

theorem Kernel.evolves {changed : Nat → Prop} {g g' : Graph} (hg : g.Kernel)
    (h : g.Evolves changed g') : g'.Kernel where
  next := hg.next.trans h.next_le
  nil := h.nil.trans hg.nil
  coreNil := by rw [h.core, hg.coreNil]
  trueObject := by rw [h.core, hg.trueObject]
  falseObject := by rw [h.core, hg.falseObject]
  cls k := by rw [h.core, hg.cls]

theorem exists_index_eq (i : Fin KernelClass.count) : ∃ k : KernelClass, k.index = i := by
  have hall : ∀ i : Fin KernelClass.count, ∃ k ∈ KernelClass.all, k.index = i := by decide
  obtain ⟨k, -, hk⟩ := hall i
  exact ⟨k, hk⟩

theorem Kernel.rooted {g : Graph} (hg : g.Kernel) : g.Rooted := by
  intro n hn _
  by_cases hzero : n = 0
  · exact .inl (hzero ▸ hg.coreNil)
  by_cases hcls : n < 1 + KernelClass.count
  · obtain ⟨k, hk⟩ := exists_index_eq ⟨n - 1, by omega⟩
    refine .inr (.inr (.inr ⟨k, ?_⟩))
    rw [hg.cls, classNode, hk]
    congr 1
    show 1 + (n - 1) = n
    omega
  by_cases htrue : n = trueNode
  · exact .inr (.inl (htrue ▸ hg.trueObject))
  · refine .inr (.inr (.inl ?_))
    rw [hg.falseObject]
    simp only [kernelObjects, trueNode, falseNode] at *
    congr 1
    omega

end Graph

/-! ## Allocation -/

namespace Graph

variable {g : Graph}

/-- A collection at rest forgets the pool. -/
theorem Idle.collected (hidle : g.Idle) : g.collected = some { g with pool := ⟨[], []⟩ } := by
  unfold Idle at hidle
  unfold Graph.collected flush
  cases hactive : g.registers.active with
  | object c =>
    rw [hactive] at hidle
    cases hidle
  | immediate r =>
    show ({ g with pool := ⟨[], []⟩ } : Graph).reload = _
    unfold reload
    rw [show ({ g with pool := ⟨[], []⟩ } : Graph).registers.active = .immediate r from hactive]

end Graph

namespace Spec

variable {α β : Type} {g : Graph} {E : Failure → Graph → Prop} {S : Fatal → Prop}

/-- The machine may be stopped where it counts words, if there are too many. -/
def Allows (S : Fatal → Prop) (g : Graph) (words : Nat) : Prop :=
  countableWords ≤ g.capacity ∨ countableWords ≤ words → S (.fault .overflow)

theorem Allows.mono {g' : Graph} {words words' : Nat} (h : Allows S g words)
    (hcapacity : g'.capacity = g.capacity) (hle : words' ≤ words) : Allows S g' words' := by
  intro hlarge
  rw [hcapacity] at hlarge
  exact h (hlarge.imp_right fun hw => hw.trans hle)

namespace Ends

theorem count {words : Nat} (hS : Allows S g words) :
    (Spec.count words).Ends g (fun _ g' => g' = g) E S := by
  rintro r (rfl | ⟨hlarge, rfl⟩)
  · rfl
  · exact hS hlarge

theorem collectGarbage (hidle : g.Idle) (hrooted : g.Rooted) :
    Spec.collectGarbage.Ends g (fun _ g' => g' = { g with pool := ⟨[], []⟩ }) E S := by
  refine guard hrooted (write hidle.collected ?_)
  rintro r ⟨bytes, -, rfl⟩
  rfl

theorem mayCollect (hidle : g.Idle) (hrooted : g.Rooted) :
    Spec.mayCollect.Ends g (fun _ g' => ∃ pool, g' = { g with pool := pool }) E S := by
  refine either (pure ⟨g.pool, rfl⟩) ?_
  refine bind (collectGarbage hidle hrooted) fun _ g' hg' => pure ⟨_, hg'⟩

/-- What an allocation at rest comes to. -/
structure Made (g : Graph) (cls : Value) (format : Format) (fields len : Nat) (v : Value) (g' : Graph) :
    Prop where
  value : v = .object g.next
  graph : ∃ pool hash, g' = { g with pool := pool }.withNew (.fresh cls g.nil format fields len hash)
  size_le : format.sizeInWords fields len ≤ Ref.addressLimit

theorem allocate {cls : Value} {format : Format} {fields len : Nat} (hidle : g.Idle)
    (hrooted : g.Rooted) (hmakes : cls.Makes format fields)
    (hS : Allows S g (format.sizeInWords fields len)) :
    (Spec.allocate cls format fields len).Ends g (Made g cls format fields len) E S := by
  refine guard hmakes ?_
  refine bind (count hS) ?_
  rintro _ _ rfl
  refine bind (mayCollect hidle hrooted) ?_
  rintro _ _ ⟨pool, rfl⟩
  refine bind (mayCollect hidle hrooted) ?_
  rintro _ _ ⟨pool, rfl⟩
  refine bind (count (hS.mono rfl (Nat.le_refl _))) ?_
  rintro _ _ rfl
  rintro r ⟨hsize, hash, rfl⟩
  exact ⟨rfl, ⟨pool, hash, rfl⟩, hsize⟩

end Ends

end Spec

namespace Graph

variable {g : Graph}

theorem setNode_withNew (g : Graph) (o o' : Node) : (g.withNew o).setNode g.next o' = g.withNew o' := by
  simp [withNew, setNode, Function.update_idem]

/-- An object is added. -/
theorem grows_withNew (g : Graph) (pool : Pool) (o : Node) :
    g.Grows ({ g with pool := pool }.withNew o) where
  next_le := Nat.le_succ _
  nodes n hn _ := Function.update_of_ne (Nat.ne_of_lt hn) _ _
  layout n hn := by
    show Node.SameLayout _ (Function.update g.nodes g.next o n)
    rw [Function.update_of_ne (Nat.ne_of_lt hn)]
    exact .refl _
  hash n hn := by
    show (Function.update g.nodes g.next o n).hash = _
    rw [Function.update_of_ne (Nat.ne_of_lt hn)]
  capacity := rfl
  nil := rfl
  core := rfl
  registers := rfl
  symbols := List.prefix_rfl
  globals := List.prefix_rfl

/-- A store changes one object. -/
theorem evolves_setNode {n : Nat} {o : Node} (hlayout : Node.SameLayout (g.nodes n) o)
    (hhash : o.hash = (g.nodes n).hash) : g.Evolves (· = n) (g.setNode n o) where
  next_le := Nat.le_refl _
  nodes n' _ hne := Function.update_of_ne hne _ _
  layout n' _ := hlayout.of_update n'
  hash n' _ := by
    show (Function.update g.nodes n o n').hash = _
    by_cases h : n' = n
    · rw [h, Function.update_self, hhash]
    · rw [Function.update_of_ne h]
  capacity := rfl
  nil := rfl
  core := rfl
  registers := rfl
  symbols := List.prefix_rfl
  globals := List.prefix_rfl

end Graph

/-! ## Graphs at rest -/

namespace Graph

/-- A value is the symbol of a name. -/
def IsSymbol (g : Graph) (name : String) (v : Value) : Prop :=
  ∃ n, v = .object n ∧ kernelObjects ≤ n ∧ n < g.next ∧ (g.nodes n).format = .byteArray ∧
    (g.nodes n).cls = g.core.cls .symbol ∧ g.bytes v = some (Text.utf8Bytes name)

/-- A value is an association. -/
def IsAssociation (g : Graph) (v : Value) : Prop :=
  ∃ n, v = .object n ∧ kernelObjects ≤ n ∧ n < g.next ∧ (g.nodes n).format = .plain ∧
    (g.nodes n).fields = Association.fieldCount

/-- A table has each name and each value once. -/
structure Distinct (names : List (String × Value)) : Prop where
  once : (names.map Prod.fst).Nodup
  apart : (names.map Prod.snd).Nodup

/-- Nothing is active, the objects of the kernel exist, and symbols and globals are what they should
be. -/
structure Settled (g : Graph) : Prop where
  idle : g.Idle
  kernel : g.Kernel
  symbols : ∀ {name v}, (name, v) ∈ g.symbols → g.IsSymbol name v
  symbolsDistinct : Distinct g.symbols
  globals : ∀ {name v}, (name, v) ∈ g.globals → g.IsAssociation v
  globalsDistinct : Distinct g.globals

variable {g g' g'' : Graph} {changed : Nat → Prop} {name : String} {v : Value}

theorem Idle.evolves (hidle : g.Idle) (h : g.Evolves changed g') : g'.Idle := by
  unfold Idle
  rw [h.registers]
  exact hidle

theorem bytes_congr {n : Nat} (h : g'.nodes n = g.nodes n) : g'.bytes (.object n) = g.bytes (.object n) := by
  simp only [bytes, nodeOf, node?_object, h]

theorem bytes_of_format {n : Nat} (h : (g.nodes n).format = .byteArray) :
    g.bytes (.object n) = some ((List.range (g.nodes n).len).map (g.nodes n).byte) := by
  simp only [bytes, nodeOf, node?_object, Option.bind_eq_bind, Option.bind_some, if_pos h]
  rfl

theorem IsSymbol.evolves (hv : g.IsSymbol name v) (h : g.Evolves changed g')
    (hbytes : ∀ n < g.next, changed n → (g.nodes n).format ≠ .byteArray) : g'.IsSymbol name v := by
  obtain ⟨n, rfl, hkernel, hn, hformat, hcls, hvalue⟩ := hv
  have hsame := h.nodes n hn fun hc => hbytes n hn hc hformat
  refine ⟨n, rfl, hkernel, hn.trans_le h.next_le, ?_, ?_, ?_⟩
  · rw [hsame, hformat]
  · rw [hsame, hcls, h.core]
  · rw [bytes_congr hsame, hvalue]

theorem IsAssociation.evolves (hv : g.IsAssociation v) (h : g.Evolves changed g') :
    g'.IsAssociation v := by
  obtain ⟨n, rfl, hkernel, hn, hformat, hfields⟩ := hv
  have hlayout := h.layout n hn
  exact ⟨n, rfl, hkernel, hn.trans_le h.next_le, hlayout.format.trans hformat,
    hlayout.fields.trans hfields⟩

/-- A graph at rest stays one as long as no bytes are written. -/
theorem Settled.evolves (hg : g.Settled) (h : g.Evolves changed g') (hsymbols : g'.symbols = g.symbols)
    (hglobals : g'.globals = g.globals)
    (hbytes : ∀ n < g.next, changed n → (g.nodes n).format ≠ .byteArray) : g'.Settled where
  idle := hg.idle.evolves h
  kernel := hg.kernel.evolves h
  symbols hmem := (hg.symbols (hsymbols ▸ hmem)).evolves h hbytes
  symbolsDistinct := hsymbols ▸ hg.symbolsDistinct
  globals hmem := (hg.globals (hglobals ▸ hmem)).evolves h
  globalsDistinct := hglobals ▸ hg.globalsDistinct

/-- Only objects were added. -/
structure Adds (g g' : Graph) : Prop where
  grows : g.Grows g'
  pinned : g'.pinned = g.pinned
  symbols : g'.symbols = g.symbols
  globals : g'.globals = g.globals

theorem Adds.refl (g : Graph) : g.Adds g := ⟨.refl _ g, rfl, rfl, rfl⟩

theorem Adds.trans (h : g.Adds g') (h' : g'.Adds g'') : g.Adds g'' where
  grows := h.grows.trans h'.grows fun _ _ hc => hc
  pinned := h'.pinned.trans h.pinned
  symbols := h'.symbols.trans h.symbols
  globals := h'.globals.trans h.globals

theorem Settled.adds (hg : g.Settled) (h : g.Adds g') : g'.Settled :=
  hg.evolves h.grows h.symbols h.globals fun _ _ hc => hc.elim

/-- The graph with other temporaries. -/
def withPinned (g : Graph) (pinned : List Value) : Graph := { g with pinned }

section WithPinned

variable (g) (values values' : List Value)

@[simp] theorem nodes_withPinned : (g.withPinned values).nodes = g.nodes := rfl
@[simp] theorem next_withPinned : (g.withPinned values).next = g.next := rfl
@[simp] theorem capacity_withPinned : (g.withPinned values).capacity = g.capacity := rfl
@[simp] theorem nilValue_withPinned : (g.withPinned values).nil = g.nil := rfl
@[simp] theorem core_withPinned : (g.withPinned values).core = g.core := rfl
@[simp] theorem symbols_withPinned : (g.withPinned values).symbols = g.symbols := rfl
@[simp] theorem globals_withPinned : (g.withPinned values).globals = g.globals := rfl
@[simp] theorem pinned_withPinned : (g.withPinned values).pinned = values := rfl
@[simp] theorem registers_withPinned : (g.withPinned values).registers = g.registers := rfl
@[simp] theorem withPinned_withPinned :
    (g.withPinned values).withPinned values' = g.withPinned values' := rfl

end WithPinned

theorem Settled.withPinned (hg : g.Settled) (pinned : List Value) : (g.withPinned pinned).Settled :=
  { hg with kernel := { hg.kernel with } }

theorem Evolves.withPinned (h : g.Evolves changed g') (values values' : List Value) :
    (g.withPinned values).Evolves changed (g'.withPinned values') := { h with }

/-- Objects that were added in the presence of other temporaries. -/
theorem Adds.withPinned {values : List Value} (h : (g.withPinned values).Adds g') (values' : List Value) :
    (g.withPinned values').Adds (g'.withPinned values') :=
  ⟨h.grows.withPinned values' values', rfl, h.symbols, h.globals⟩

/-- What is stored into a new object changes nothing else. -/
theorem Adds.setNode {n : Nat} {o : Node} (h : g.Adds g') (hn : g.next ≤ n)
    (hlayout : Node.SameLayout (g'.nodes n) o) (hhash : o.hash = (g'.nodes n).hash) :
    g.Adds (g'.setNode n o) where
  grows := h.grows.trans (evolves_setNode hlayout hhash) fun n' hn' heq => by omega
  pinned := h.pinned
  symbols := h.symbols
  globals := h.globals

theorem storeField_of_lt {n index : Nat} {w : Value} (hformat : (g.nodes n).format ≠ .context)
    (hlt : index < (g.nodes n).fields) :
    g.storeField (.object n) index w = some (g.setNode n ((g.nodes n).withField index w)) := by
  refine if_pos ⟨hlt, ?_⟩
  rw [Node.live_withField fun h => absurd h hformat]
  exact g.live_le_known n

theorem setNode_storeField {n index : Nat} {o : Node} {w : Value} (hformat : o.format ≠ .context)
    (hlt : index < o.fields) :
    (g.setNode n o).storeField (.object n) index w = some (g.setNode n (o.withField index w)) := by
  have hself : (g.setNode n o).nodes n = o := Function.update_self ..
  rw [storeField_of_lt (by rwa [hself]) (by rwa [hself]), hself, setNode_setNode]

/-- A field is stored, and something is done next. -/
theorem storeField_bind {n index : Nat} {w : Value} (hformat : (g.nodes n).format ≠ .context)
    (hlt : index < (g.nodes n).fields) (f : Graph → Option Graph) :
    (g.storeField (.object n) index w >>= f) = f (g.setNode n ((g.nodes n).withField index w)) := by
  rw [storeField_of_lt hformat hlt]
  rfl

theorem setNode_storeField_bind {n index : Nat} {o : Node} {w : Value} (hformat : o.format ≠ .context)
    (hlt : index < o.fields) (f : Graph → Option Graph) :
    ((g.setNode n o).storeField (.object n) index w >>= f) = f (g.setNode n (o.withField index w)) := by
  rw [setNode_storeField hformat hlt]
  rfl

theorem storeElement_of_lt {n index : Nat} {w : Value} (hformat : (g.nodes n).format = .array)
    (hlt : index < (g.nodes n).len) :
    g.storeElement (.object n) index w = some (g.setNode n ((g.nodes n).withElement index w)) :=
  if_pos ⟨by rw [hformat]; rfl, hlt⟩

theorem field_of_lt {n index : Nat} (hlt : index < (g.nodes n).fields) :
    g.field (.object n) index = some ((g.nodes n).field index) :=
  if_pos hlt

/-- All elements of an array are known. -/
theorem element_of_lt {n index : Nat} (hformat : (g.nodes n).format = .array)
    (hlt : index < (g.nodes n).len) :
    g.element (.object n) index = some ((g.nodes n).element index) := by
  refine if_pos ⟨by rw [hformat]; rfl, hlt.trans_le ?_⟩
  have hlive := g.live_le_known n
  unfold Node.live at hlive
  rw [hformat] at hlive
  exact hlive

end Graph

theorem Value.makes_object {n : Nat} {format : Format} {fields : Nat}
    (hallowed : fields = 0 ∨ format.allowsFields = true) (hcount : fields ≤ Header.maxFields)
    (hcontext : format = .context → 3 ≤ fields) : (Value.object n).Makes format fields :=
  ⟨rfl, rfl, hallowed, hcount, hcontext⟩

namespace Spec.Ends

variable {α β : Type} {g : Graph} {E : Failure → Graph → Prop} {S : Fatal → Prop}

/-- What is known of an object that was just made. -/
structure Fresh (g : Graph) (cls : Value) (format : Format) (fields len : Nat) (v : Value) (g' : Graph) :
    Prop where
  adds : g.Adds g'
  value : v = .object g.next
  next : g'.next = g.next + 1
  node : ∃ hash, g'.nodes g.next = .fresh cls g.nil format fields len hash
  size_le : format.sizeInWords fields len ≤ Ref.addressLimit

theorem Made.fresh {cls v : Value} {format : Format} {fields len : Nat} {g' : Graph}
    (h : Made g cls format fields len v g') : Fresh g cls format fields len v g' := by
  obtain ⟨pool, hash, rfl⟩ := h.graph
  exact ⟨⟨g.grows_withNew pool _, rfl, rfl, rfl⟩, h.value, rfl, ⟨hash, Function.update_self ..⟩,
    h.size_le⟩

/-- An object of a kernel class is made. -/
theorem allocate_core {k : KernelClass} {format : Format} {fields len : Nat} (hidle : g.Idle)
    (hkernel : g.Kernel) (hallowed : fields = 0 ∨ format.allowsFields = true)
    (hcount : fields ≤ Header.maxFields) (hcontext : format = .context → 3 ≤ fields)
    (hS : Allows S g (format.sizeInWords fields len)) :
    (Spec.allocate (g.core.cls k) format fields len).Ends g
      (Fresh g (g.core.cls k) format fields len) E S := by
  have hmakes : (g.core.cls k).Makes format fields := by
    rw [hkernel.cls]
    exact Value.makes_object hallowed hcount hcontext
  exact (allocate hidle hkernel.rooted hmakes hS).mono (fun _ _ h => h.fresh) (fun _ _ h => h)
    fun _ h => h

theorem newArray {len : Nat} (hg : g.Settled) (hS : Allows S g (Format.array.sizeInWords 0 len)) :
    (Spec.newArray len).Ends g (Fresh g (g.core.cls .array) .array 0 len) E S :=
  ask (allocate_core hg.idle hg.kernel (.inl rfl) (Nat.zero_le _) nofun hS)

/-- What is known of a byte object that was just made. -/
structure FreshBytes (g : Graph) (cls : Value) (bytes : List UInt8) (v : Value) (g' : Graph) : Prop where
  adds : g.Adds g'
  value : v = .object g.next
  next : g'.next = g.next + 1
  format : (g'.nodes g.next).format = .byteArray
  cls : (g'.nodes g.next).cls = cls
  len : (g'.nodes g.next).len = bytes.length
  bytes : g'.bytes v = some bytes

theorem newBytes {k : KernelClass} {bytes : List UInt8} (hidle : g.Idle) (hkernel : g.Kernel)
    (hS : Allows S g (Format.byteArray.sizeInWords 0 bytes.length)) :
    (Spec.newBytes (g.core.cls k) bytes).Ends g (FreshBytes g (g.core.cls k) bytes) E S := by
  refine bind (allocate_core hidle hkernel (.inl rfl) (Nat.zero_le _) nofun hS) ?_
  rintro v g₁ ⟨hadds, rfl, hnext, ⟨hash, hnode⟩, -⟩
  have hlen : (g₁.nodes g.next).len = bytes.length := by
    rw [hnode]
    rfl
  have hstore : g₁.storeBytes (.object g.next) bytes =
      some (g₁.setNode g.next ((g₁.nodes g.next).withBytes 0 bytes)) :=
    if_pos ⟨by rw [hnode]; rfl, hlen.symm.le⟩
  refine write hstore (pure ?_)
  refine ⟨hadds.setNode (Nat.le_refl _) ⟨?_, ?_, ?_⟩ ?_, rfl, hnext, ?_, ?_, ?_, ?_⟩
  · exact Node.format_withBytes ..
  · exact Node.fields_withBytes ..
  · exact Node.len_withBytes ..
  · exact Node.hash_withBytes ..
  · simp [hnode, Node.fresh]
  · simp [hnode, Node.fresh]
  · simp [hlen]
  · have hread := Node.bytes_withBytes (g₁.nodes g.next) hlen
    rw [Graph.bytes_of_format (by simp [hnode, Node.fresh]), Graph.nodes_setNode, Function.update_self]
    exact congrArg some hread

end Spec.Ends

/-! ## Numbers and associations -/

/-- A value is the integer with a value: small if it fits. -/
def Graph.IsInteger (g : Graph) (v : Value) (value : Int) : Prop :=
  match Ref.ofInt? value with
  | some r => v = .immediate r
  | none => ∃ n, v = .object n ∧ n < g.next ∧ (g.nodes n).format = .largeInteger ∧
      (g.nodes n).cls = g.core.cls .largeInteger ∧ (g.nodes n).large? = some value

/-- A value is the float of a number. -/
def Graph.IsFloat (g : Graph) (v : Value) (value : Binary64) : Prop :=
  ∃ n, v = .object n ∧ n < g.next ∧ (g.nodes n).format = .float ∧
    (g.nodes n).cls = g.core.cls .float ∧ (g.nodes n).raw 0 = value.bits

namespace Spec.Ends

variable {α β : Type} {g : Graph} {E : Failure → Graph → Prop} {S : Fatal → Prop}

theorem newInteger {value : Int} (hg : g.Settled)
    (hS : Allows S g (Format.largeInteger.sizeInWords 0 0)) :
    (Spec.newInteger value).Ends g (fun v g' => g.Adds g' ∧ g'.IsInteger v value) E S := by
  unfold Spec.newInteger Graph.IsInteger
  cases hsmall : Ref.ofInt? value with
  | some r => exact pure ⟨.refl g, rfl⟩
  | none =>
    refine ask ?_
    refine bind (allocate_core hg.idle hg.kernel (.inl rfl) (Nat.zero_le _) nofun hS) ?_
    rintro v g₁ ⟨hadds, rfl, hnext, ⟨hash, hnode⟩, -⟩
    have hstore : g₁.setLargeInteger (.object g.next) value =
        some (g₁.setNode g.next { g₁.nodes g.next with large? := some value }) :=
      if_pos (by rw [hnode]; rfl)
    refine write hstore (pure ⟨hadds.setNode (Nat.le_refl _) ⟨rfl, rfl, rfl⟩ rfl, g.next, rfl, ?_⟩)
    have hcore := hadds.grows.core
    simp [hnext, hnode, Node.fresh, hcore]

theorem newFloat {value : Binary64} (hg : g.Settled)
    (hS : Allows S g (Format.float.sizeInWords 0 0)) :
    (Spec.newFloat value).Ends g (fun v g' => g.Adds g' ∧ g'.IsFloat v value) E S := by
  refine ask (bind (allocate_core hg.idle hg.kernel (.inl rfl) (Nat.zero_le _) nofun hS) ?_)
  rintro v g₁ ⟨hadds, rfl, hnext, ⟨hash, hnode⟩, -⟩
  have hstore : g₁.setFloatValue (.object g.next) value =
      some (g₁.setNode g.next ((g₁.nodes g.next).withRaw 0 value.bits)) :=
    if_pos (by rw [hnode]; rfl)
  refine write hstore (pure ⟨hadds.setNode (Nat.le_refl _) ⟨rfl, rfl, rfl⟩ rfl, g.next, rfl, ?_⟩)
  have hcore := hadds.grows.core
  simp [hnext, hnode, Node.fresh, hcore, Node.withRaw]

/-- What is known of an association that was just made. -/
structure FreshAssociation (g : Graph) (bound : Value) (v : Value) (g' : Graph) : Prop where
  adds : g.Adds g'
  value : v = .object g.next
  next : g'.next = g.next + 1
  format : (g'.nodes g.next).format = .plain
  fields : (g'.nodes g.next).fields = Association.fieldCount
  bound : (g'.nodes g.next).field Association.valueField = bound

theorem pin {v : Value} {f : Unit → Spec β} {Q : β → Graph → Prop}
    (hf : (f ()).Ends (g.withPinned (g.pinned ++ [v])) Q E S) : (Spec.pin v >>= f).Ends g Q E S :=
  modify hf

theorem unpin {v : Value} {values : List Value} {f : Value → Spec β} {Q : β → Graph → Prop}
    (hpinned : g.pinned = values ++ [v]) (hf : (f v).Ends (g.withPinned values) Q E S) :
    (Spec.unpin >>= f).Ends g Q E S :=
  bind (R := fun a g' => a = v ∧ g' = g.withPinned values)
    (by
      intro r hr
      rw [Spec.unpin_append hpinned] at hr
      cases hr
      exact ⟨rfl, rfl⟩)
    (by rintro a g' ⟨rfl, rfl⟩; exact hf)

theorem newAssociation {key value : Value} (hg : g.Settled)
    (hS : Allows S g (Format.plain.sizeInWords Association.fieldCount 0)) :
    (Spec.newAssociation key value).Ends g (FreshAssociation g value) E S := by
  refine pin (pin (ask ?_))
  refine bind (allocate_core hg.idle { hg.kernel with } (.inr rfl) (by decide) nofun
    (hS.mono rfl (Nat.le_refl _))) ?_
  rintro v g₁ ⟨hadds, rfl, hnext, ⟨hash, hnode⟩, -⟩
  refine unpin hadds.pinned (unpin rfl ?_)
  have hadds : g.Adds (g₁.withPinned g.pinned) := hadds.withPinned g.pinned
  simp only [Graph.next_withPinned] at *
  simp only [Graph.withPinned_withPinned]
  have hstored : ((g₁.withPinned g.pinned).storeField (.object g.next) Association.keyField key >>=
      fun g' => g'.storeField (.object g.next) Association.valueField value) =
      some ((g₁.withPinned g.pinned).setNode g.next
        (((g₁.nodes g.next).withField Association.keyField key).withField Association.valueField
          value)) := by
    rw [Graph.storeField_of_lt (by simp [hnode, Node.fresh]) (by simp [hnode, Node.fresh]; decide)]
    exact Graph.setNode_storeField (by simp [hnode, Node.fresh]) (by simp [hnode, Node.fresh]; decide)
  refine write hstored (pure ?_)
  refine ⟨hadds.setNode (Nat.le_refl _) ⟨rfl, rfl, rfl⟩ rfl, rfl, hnext, ?_, ?_, ?_⟩
  all_goals simp [hnode, Node.fresh]

end Spec.Ends

/-! ## Symbols and globals -/

namespace Graph

variable {names names' : List (String × Value)} {name : String} {v w : Value}

theorem mem_of_named? (h : named? names name = some v) : (name, v) ∈ names := by
  obtain ⟨entry, hfind, rfl⟩ := Option.map_eq_some_iff.mp h
  have hname : entry.1 = name := by simpa using List.find?_some hfind
  have hmem := List.mem_of_find?_eq_some hfind
  rw [← hname]
  exact hmem

theorem not_mem_of_named? (h : named? names name = none) : name ∉ names.map Prod.fst := by
  intro hmem
  obtain ⟨entry, hentry, hname⟩ := List.mem_map.mp hmem
  have hnone := List.find?_eq_none.mp (Option.map_eq_none_iff.mp h) entry hentry
  simp [hname] at hnone

theorem named?_mono (h : named? names name = some v) (hmore : names <+: names') :
    named? names' name = some v := by
  obtain ⟨more, rfl⟩ := hmore
  obtain ⟨entry, hfind, rfl⟩ := Option.map_eq_some_iff.mp h
  unfold named?
  rw [List.find?_append, hfind]
  rfl

theorem named?_append (h : named? names name = none) (v : Value) :
    named? (names ++ [(name, v)]) name = some v := by
  unfold named?
  rw [List.find?_append, Option.map_eq_none_iff.mp h]
  simp

theorem Distinct.name_unique (hd : Distinct names) {name' : String} (h : (name, v) ∈ names)
    (h' : (name', v) ∈ names) : name = name' := by
  obtain ⟨i, hi, hget⟩ := List.getElem_of_mem h
  obtain ⟨j, hj, hget'⟩ := List.getElem_of_mem h'
  have hsame : (names.map Prod.snd).get ⟨i, by simpa using hi⟩ =
      (names.map Prod.snd).get ⟨j, by simpa using hj⟩ := by
    simp [hget, hget']
  obtain rfl := (List.Nodup.getElem_inj_iff hd.apart).mp hsame
  exact congrArg Prod.fst (hget.symm.trans hget')

theorem Distinct.append (hd : Distinct names) (hname : named? names name = none)
    (hvalue : ∀ {name'}, (name', v) ∉ names) : Distinct (names ++ [(name, v)]) where
  once := by
    rw [List.map_append, List.map_singleton, ← List.concat_eq_append]
    exact hd.once.concat (not_mem_of_named? hname)
  apart := by
    rw [List.map_append, List.map_singleton, ← List.concat_eq_append]
    refine hd.apart.concat fun hmem => ?_
    obtain ⟨⟨name', v'⟩, hentry, rfl⟩ := List.mem_map.mp hmem
    exact hvalue hentry

/-- What is known of a graph after a symbol was asked for. -/
structure Interned (g : Graph) (name : String) (v : Value) (g' : Graph) : Prop where
  grows : g.Grows g'
  pinned : g'.pinned = g.pinned
  globals : g'.globals = g.globals
  settled : g'.Settled
  symbol : g'.symbol? name = some v

theorem Settled.isSymbol {g : Graph} (hg : g.Settled) (h : g.symbol? name = some v) :
    g.IsSymbol name v :=
  hg.symbols (mem_of_named? h)

/-- A symbol is not nil. -/
theorem IsSymbol.ne_nil {g : Graph} (hv : g.IsSymbol name v) (hg : g.Kernel) : v ≠ g.nil := by
  obtain ⟨n, rfl, hn, -⟩ := hv
  rw [hg.nil]
  rintro ⟨⟩
  cases hn

/-- A graph at rest with one more symbol. -/
theorem Settled.withSymbol {g : Graph} (hg : g.Settled) (hnew : g.symbol? name = none)
    (hv : g.IsSymbol name v) (hfresh : ∀ {name'}, (name', v) ∉ g.symbols) :
    Settled { g with symbols := g.symbols ++ [(name, v)] } where
  idle := hg.idle
  kernel := { hg.kernel with }
  symbols {name' v'} hmem := by
    obtain hmem | hmem := List.mem_append.mp hmem
    · exact hg.symbols hmem
    · cases List.mem_singleton.mp hmem
      exact hv
  symbolsDistinct := hg.symbolsDistinct.append hnew hfresh
  globals := hg.globals
  globalsDistinct := hg.globalsDistinct

/-- A graph at rest with one more global. -/
theorem Settled.withGlobal {g : Graph} (hg : g.Settled) (hnew : named? g.globals name = none)
    (hv : g.IsAssociation v) (hfresh : ∀ {name'}, (name', v) ∉ g.globals) :
    Settled { g with globals := g.globals ++ [(name, v)] } where
  idle := hg.idle
  kernel := { hg.kernel with }
  symbols := hg.symbols
  symbolsDistinct := hg.symbolsDistinct
  globals {name' v'} hmem := by
    obtain hmem | hmem := List.mem_append.mp hmem
    · exact hg.globals hmem
    · cases List.mem_singleton.mp hmem
      exact hv
  globalsDistinct := hg.globalsDistinct.append hnew hfresh

end Graph

namespace Spec.Ends

open ObjectMachine.Graph

variable {α β : Type} {g : Graph} {E : Failure → Graph → Prop} {S : Fatal → Prop} {name : String}

/-- The words of a symbol. -/
abbrev symbolWords (name : String) : Nat :=
  Format.byteArray.sizeInWords 0 (Text.utf8Bytes name).length

theorem intern (hg : g.Settled) (hS : Allows S g (symbolWords name)) :
    (Spec.intern name).Ends g (g.Interned name) E S := by
  refine ask ?_
  cases hsymbol : g.symbol? name with
  | some v => exact pure ⟨.refl _ g, rfl, rfl, hg, hsymbol⟩
  | none =>
    refine ask (bind (newBytes hg.idle hg.kernel hS) ?_)
    rintro v g₁ ⟨hadds, rfl, hnext, hformat, hcls, -, hbytes⟩
    refine modify (pure ?_)
    have hsettled := hg.adds hadds
    have hnew : g₁.symbol? name = none := by
      unfold symbol?
      rw [hadds.symbols]
      exact hsymbol
    have hsym : g₁.IsSymbol name (.object g.next) :=
      ⟨g.next, rfl, hg.kernel.next, by omega, hformat, by rw [hcls, hadds.grows.core], hbytes⟩
    have hfresh : ∀ {name'}, (name', Value.object g.next) ∉ g₁.symbols := by
      intro name' hmem
      rw [hadds.symbols] at hmem
      obtain ⟨n, heq, -, hlt, -⟩ := hg.symbols hmem
      cases heq
      exact absurd hlt (Nat.lt_irrefl _)
    refine ⟨{ hadds.grows with symbols := ?_ }, hadds.pinned, hadds.globals,
      hsettled.withSymbol hnew hsym hfresh, named?_append hnew _⟩
    show g.symbols <+: g₁.symbols ++ _
    rw [hadds.symbols]
    exact List.prefix_append ..

/-- What is known of a graph after a global was mentioned. -/
structure Mentioned (g : Graph) (name : String) (v : Value) (g' : Graph) : Prop where
  grows : g.Grows g'
  pinned : g'.pinned = g.pinned
  settled : g'.Settled
  association : named? g'.globals name = some v
  /-- An association that is not new was there under the same name. -/
  known : ∀ n, v = .object n → n < g.next → named? g.globals name = some v
  /-- Nor is any other one. -/
  old : ∀ {name' n}, (name', .object n) ∈ g'.globals → n < g.next → (name', .object n) ∈ g.globals

theorem globalAssociation (hg : g.Settled) (hS : Allows S g (symbolWords name)) :
    (Spec.globalAssociation name).Ends g (Mentioned g name) E S := by
  refine ask ?_
  cases hglobal : named? g.globals name with
  | some v => exact pure ⟨.refl _ g, rfl, hg, hglobal, fun _ _ _ => hglobal, fun hmem _ => hmem⟩
  | none =>
    refine bind (intern hg hS) ?_
    intro key g₁ hkey
    refine ask (bind (newAssociation hkey.settled ?_) ?_)
    · refine hS.mono hkey.grows.capacity ?_
      simp only [symbolWords, Format.sizeInWords, Association.fieldCount, Format.tailWords]
      omega
    rintro v g₂ ⟨hadds, rfl, hnext, hformat, hfields, -⟩
    refine modify (pure ?_)
    have hsettled := hkey.settled.adds hadds
    have hsame : g₂.globals = g.globals := hadds.globals.trans hkey.globals
    have hfresh : ∀ {name'}, (name', Value.object g₁.next) ∉ g₂.globals := by
      intro name' hmem
      rw [hadds.globals] at hmem
      obtain ⟨n, heq, -, hlt, -⟩ := hkey.settled.globals hmem
      cases heq
      exact absurd hlt (Nat.lt_irrefl _)
    have hnone : named? g₂.globals name = none := by
      rw [hsame]
      exact hglobal
    have hgrows := hkey.grows.trans hadds.grows fun _ _ hc => hc
    refine ⟨{ hgrows with globals := ?_ }, hadds.pinned.trans hkey.pinned,
      hsettled.withGlobal hnone ⟨g₁.next, rfl, hkey.settled.kernel.next, by omega, hformat, hfields⟩
        hfresh, named?_append hnone _, fun n heq hlt => ?_, fun hmem hlt => ?_⟩
    · show g.globals <+: g₂.globals ++ _
      rw [hsame]
      exact List.prefix_append ..
    · cases heq
      exact absurd hkey.grows.next_le (Nat.not_le.mpr hlt)
    · obtain hmem | hmem := List.mem_append.mp hmem
      · rw [← hsame]
        exact hmem
      · cases List.mem_singleton.mp hmem
        exact absurd hkey.grows.next_le (Nat.not_le.mpr hlt)

/-- What is known of a graph after a global got a value: only its association changed. -/
structure Bound (g : Graph) (name : String) (value : Value) (g' : Graph) (n : Nat) : Prop where
  evolves : g.Evolves (· = n) g'
  pinned : g'.pinned = g.pinned
  settled : g'.Settled
  association : named? g'.globals name = some (.object n)
  bound : (g'.nodes n).field Association.valueField = value
  known : n < g.next → named? g.globals name = some (.object n)
  old : ∀ {name' n}, (name', .object n) ∈ g'.globals → n < g.next → (name', .object n) ∈ g.globals

theorem setGlobal {value : Value} (hg : g.Settled) (hS : Allows S g (symbolWords name)) :
    (Spec.setGlobal name value).Ends g (fun _ g' => ∃ n, Bound g name value g' n) E S := by
  refine pin (bind (globalAssociation (hg.withPinned _) (hS.mono rfl (Nat.le_refl _))) ?_)
  rintro association g₁ ⟨hgrows, hpinned, hsettled, hassociation, hknown, hold⟩
  refine unpin hpinned ?_
  obtain ⟨n, rfl, hkernel, hn, hformat, hfields⟩ := hsettled.globals (mem_of_named? hassociation)
  refine write_last (storeField_of_lt (g := g₁.withPinned g.pinned) ?_ ?_) ?_
  · simp [hformat]
  · simp [hfields]
    decide
  have hstore : (g₁.withPinned g.pinned).Evolves (· = n) ((g₁.withPinned g.pinned).setNode n
      ((g₁.nodes n).withField Association.valueField value)) :=
    evolves_setNode ⟨rfl, rfl, rfl⟩ rfl
  have hbytes : ∀ n' < g₁.next, n' = n → (g₁.nodes n').format ≠ .byteArray := by
    rintro n' - rfl
    rw [hformat]
    nofun
  refine ⟨n, ((hgrows.withPinned g.pinned g.pinned).mono fun _ _ hc => hc.elim).trans hstore
    (fun _ _ hc => hc), rfl, (hsettled.withPinned g.pinned).evolves hstore rfl rfl hbytes,
    hassociation, by simp, hknown n rfl, hold⟩

end Spec.Ends

end ObjectMachine
