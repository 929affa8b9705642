import ObjectMachine.Proofs.Graph.Edits
import ObjectMachine.Proofs.Graph.Evolving
import ObjectMachine.Proofs.Graph.Runs

/-!
# What lasts

Whatever a program asks for, and whatever it runs, objects keep their shapes, the machine knows the same
objects as before, and a name that is bound to an association stays bound to it. What only makes objects
leaves alone the values that globals have.

## Main results

* `Graph.Lasts`: what is left alone by everything that can be asked for.
* `Graph.Shares`, `Graph.Spares`: what is left alone by what stores into nothing that was there before.
* `Spec.Preserves`: computations that leave something alone, with a rule for each way to put computations
  together.
-/

namespace ObjectMachine

theorem Node.SameLayout.trans {o o' o'' : Node} (h : SameLayout o o') (h' : SameLayout o' o'') :
    SameLayout o o'' :=
  ⟨h'.format.trans h.format, h'.fields.trans h.fields, h'.len.trans h.len⟩

namespace Graph

/-- Each global has an association of its own. -/
structure Bound (g : Graph) : Prop where
  kernel : kernelObjects ≤ g.next
  association : ∀ {name v}, (name, v) ∈ g.globals → g.IsAssociation v
  distinct : Distinct g.globals

/-- Each symbol that is known is a symbol of its own, and spells its name. -/
structure Lexicon (g : Graph) : Prop where
  classes : Function.Injective g.core.cls
  symbol : ∀ {name v}, (name, v) ∈ g.symbols → ∃ n, v = .object n ∧ n < g.next ∧ g.IsText n ∧
    g.bytes v = some (Text.utf8Bytes name)
  distinct : Distinct g.symbols

/-- What is left alone when no global is added. -/
structure Rests (g g' : Graph) : Prop where
  next_le : g.next ≤ g'.next
  layout : ∀ n < g.next, Node.SameLayout (g.nodes n) (g'.nodes n)
  nil : g'.nil = g.nil
  core : g'.core = g.core
  globals : g'.globals = g.globals
  symbols : g.symbols <+: g'.symbols
  texts : ∀ n < g.next, g.KeepsText n (g'.nodes n)
  lexicon : g.Lexicon → g'.Lexicon

/-- What is left alone whatever is done. -/
structure Lasts (g g' : Graph) : Prop where
  next_le : g.next ≤ g'.next
  layout : ∀ n < g.next, Node.SameLayout (g.nodes n) (g'.nodes n)
  nil : g'.nil = g.nil
  core : g'.core = g.core
  globals : g.globals <+: g'.globals
  bound : g.Bound → g'.Bound
  symbols : g.symbols <+: g'.symbols
  texts : ∀ n < g.next, g.KeepsText n (g'.nodes n)
  lexicon : g.Lexicon → g'.Lexicon

/-- No global is added, associations keep their values, and arrays keep their elements. -/
structure Spares (g g' : Graph) : Prop extends g.Rests g' where
  cells : ∀ n < g.next, (g.nodes n).fields = Association.fieldCount → (g'.nodes n).field = (g.nodes n).field
  frames : ∀ n < g.next, (g.nodes n).fields = 0 → (g'.nodes n).element = (g.nodes n).element

/-- Globals that are added have some of the given names and are nil, and associations keep their values. -/
structure Shares (names : List String) (g g' : Graph) : Prop extends g.Lasts g' where
  cells : ∀ n < g.next, (g.nodes n).fields = Association.fieldCount → (g'.nodes n).field = (g.nodes n).field
  added : g.Bound → ∀ {name n}, (name, .object n) ∈ g'.globals → (name, .object n) ∈ g.globals ∨
    name ∈ names ∧ (g'.nodes n).field Association.valueField = g.core.nil

variable {g g' g'' : Graph} {v w : Value} {n : Nat}

theorem Bound.fields (hg : g.Bound) {name : String} (hmem : (name, .object n) ∈ g.globals) :
    n < g.next ∧ (g.nodes n).format = .plain ∧ (g.nodes n).fields = Association.fieldCount := by
  obtain ⟨n', heq, -, hn, hformat, hfields⟩ := hg.association hmem
  cases heq
  exact ⟨hn, hformat, hfields⟩

/-- Associations stay what they are as long as objects keep their shapes. -/
theorem Bound.rests (hg : g.Bound) (h : g.Rests g') : g'.Bound where
  kernel := hg.kernel.trans h.next_le
  association {name v} hmem := by
    obtain ⟨n, rfl, hkernel, hn, hformat, hfields⟩ := hg.association (h.globals ▸ hmem)
    have hsame := h.layout n hn
    exact ⟨n, rfl, hkernel, hn.trans_le h.next_le, hsame.format.trans hformat,
      hsame.fields.trans hfields⟩
  distinct := h.globals ▸ hg.distinct

/-- A symbol stays a symbol. -/
theorem IsText.kept (hn : g.IsText n) (hlayout : Node.SameLayout (g.nodes n) (g'.nodes n))
    (hcore : g'.core = g.core) (hcls : (g'.nodes n).cls = (g.nodes n).cls) : g'.IsText n :=
  ⟨hlayout.format.trans hn.format, hlayout.fields.trans hn.fields, by rw [hcls, hcore, hn.cls]⟩

/-- So does one that is changed twice. -/
theorem KeepsText.trans {o : Node} (h : g.KeepsText n (g'.nodes n)) (h' : g'.KeepsText n o)
    (hlayout : Node.SameLayout (g.nodes n) (g'.nodes n)) (hcore : g'.core = g.core) :
    g.KeepsText n o := by
  intro hclasses hn
  obtain ⟨hcls, hraw⟩ := h hclasses hn
  obtain ⟨hcls', hraw'⟩ := h' (hcore ▸ hclasses) (hn.kept hlayout hcore hcls)
  exact ⟨hcls'.trans hcls, hraw'.trans hraw⟩

/-- Symbols spell their names as long as they keep their bytes. -/
theorem Lexicon.kept (hg : g.Lexicon) (hnext : g.next ≤ g'.next)
    (hlayout : ∀ n < g.next, Node.SameLayout (g.nodes n) (g'.nodes n)) (hcore : g'.core = g.core)
    (hsymbols : g'.symbols = g.symbols) (htexts : ∀ n < g.next, g.KeepsText n (g'.nodes n)) :
    g'.Lexicon where
  classes := hcore ▸ hg.classes
  symbol {name v} hmem := by
    obtain ⟨n, rfl, hn, htext, hbytes⟩ := hg.symbol (hsymbols ▸ hmem)
    obtain ⟨hcls, hraw⟩ := htexts n hn hg.classes htext
    refine ⟨n, rfl, hn.trans_le hnext, htext.kept (hlayout n hn) hcore hcls, ?_⟩
    rw [← hbytes, bytes_of_format htext.format, bytes_of_format ((hlayout n hn).format.trans htext.format),
      (hlayout n hn).len]
    unfold Node.byte
    rw [hraw]
  distinct := hsymbols ▸ hg.distinct

/-- No symbol is added. -/
theorem Rests.of_symbols (hnext : g.next ≤ g'.next)
    (hlayout : ∀ n < g.next, Node.SameLayout (g.nodes n) (g'.nodes n)) (hnil : g'.nil = g.nil)
    (hcore : g'.core = g.core) (hglobals : g'.globals = g.globals) (hsymbols : g'.symbols = g.symbols)
    (htexts : ∀ n < g.next, g.KeepsText n (g'.nodes n)) : g.Rests g' :=
  ⟨hnext, hlayout, hnil, hcore, hglobals, hsymbols ▸ List.prefix_rfl, htexts,
    fun hg => hg.kept hnext hlayout hcore hsymbols htexts⟩

theorem Rests.lasts (h : g.Rests g') : g.Lasts g' :=
  ⟨h.next_le, h.layout, h.nil, h.core, h.globals ▸ List.prefix_rfl, fun hg => hg.rests h, h.symbols,
    h.texts, h.lexicon⟩

theorem Lasts.trans (h : g.Lasts g') (h' : g'.Lasts g'') : g.Lasts g'' where
  next_le := h.next_le.trans h'.next_le
  layout n hn := (h.layout n hn).trans (h'.layout n (hn.trans_le h.next_le))
  nil := h'.nil.trans h.nil
  core := h'.core.trans h.core
  globals := h.globals.trans h'.globals
  bound hg := h'.bound (h.bound hg)
  symbols := h.symbols.trans h'.symbols
  texts n hn := (h.texts n hn).trans (h'.texts n (hn.trans_le h.next_le)) (h.layout n hn) h.core
  lexicon hg := h'.lexicon (h.lexicon hg)

theorem Spares.shares (h : g.Spares g') {names : List String} : g.Shares names g' where
  toLasts := h.toRests.lasts
  cells := h.cells
  added _ _ _ hmem := .inl (h.globals ▸ hmem)

theorem Shares.trans {names : List String} (h : g.Shares names g') (h' : g'.Shares names g'') :
    g.Shares names g'' where
  toLasts := h.toLasts.trans h'.toLasts
  cells n hn hfields :=
    (h'.cells n (hn.trans_le h.next_le) ((h.layout n hn).fields.trans hfields)).trans (h.cells n hn hfields)
  added hg name n hmem := by
    obtain hold | ⟨hname, hnil⟩ := h'.added (h.bound hg) hmem
    · obtain hold' | ⟨hname, hnil⟩ := h.added hg hold
      · exact .inl hold'
      · obtain ⟨hn, -, hfields⟩ := (h.bound hg).fields hold
        exact .inr ⟨hname, by rw [h'.cells _ hn hfields, hnil]⟩
    · exact .inr ⟨hname, by rw [hnil, h.core]⟩

theorem Shares.mono {names names' : List String} (h : g.Shares names g') (hsub : names ⊆ names') :
    g.Shares names' g' :=
  ⟨h.toLasts, h.cells, fun hg _ _ hmem => (h.added hg hmem).imp_right fun hnew => ⟨hsub hnew.1, hnew.2⟩⟩

theorem Rests.refl (g : Graph) : g.Rests g :=
  .of_symbols (Nat.le_refl _) (fun _ _ => .refl _) rfl rfl rfl rfl fun _ _ => .of_raw rfl rfl

theorem Rests.trans (h : g.Rests g') (h' : g'.Rests g'') : g.Rests g'' where
  next_le := h.next_le.trans h'.next_le
  layout n hn := (h.layout n hn).trans (h'.layout n (hn.trans_le h.next_le))
  nil := h'.nil.trans h.nil
  core := h'.core.trans h.core
  globals := h'.globals.trans h.globals
  symbols := h.symbols.trans h'.symbols
  texts n hn := (h.texts n hn).trans (h'.texts n (hn.trans_le h.next_le)) (h.layout n hn) h.core
  lexicon hg := h'.lexicon (h.lexicon hg)

theorem Rests.setNode {o : Node} (h : Node.SameLayout (g.nodes n) o) (htext : g.KeepsText n o) :
    g.Rests (g.setNode n o) := by
  refine .of_symbols (Nat.le_refl _) (fun n' _ => h.of_update n') rfl rfl rfl rfl fun n' _ => ?_
  show g.KeepsText n' (Function.update g.nodes n o n')
  by_cases heq : n' = n
  · subst heq
    rw [Function.update_self]
    exact htext
  · rw [Function.update_of_ne heq]
    exact .of_raw rfl rfl

namespace Spares

theorem refl (g : Graph) : g.Spares g := ⟨.refl g, fun _ _ _ => rfl, fun _ _ _ => rfl⟩

theorem trans (h : g.Spares g') (h' : g'.Spares g'') : g.Spares g'' where
  toRests := h.toRests.trans h'.toRests
  cells n hn hfields :=
    (h'.cells n (hn.trans_le h.next_le) ((h.layout n hn).fields.trans hfields)).trans (h.cells n hn hfields)
  frames n hn hfields :=
    (h'.frames n (hn.trans_le h.next_le) ((h.layout n hn).fields.trans hfields)).trans
      (h.frames n hn hfields)

/-- The memory is the same. -/
theorem of_nodes (hnodes : g'.nodes = g.nodes) (hnext : g'.next = g.next) (hnil : g'.nil = g.nil)
    (hcore : g'.core = g.core) (hglobals : g'.globals = g.globals) (hsymbols : g'.symbols = g.symbols) :
    g.Spares g' where
  toRests := .of_symbols hnext.ge (fun n _ => hnodes ▸ .refl _) hnil hcore hglobals hsymbols fun n _ =>
    hnodes ▸ .of_raw rfl rfl
  cells _ _ _ := by rw [hnodes]
  frames _ _ _ := by rw [hnodes]

/-- An object is changed, though neither an association nor an array. -/
theorem setNode {o : Node} (h : Node.SameLayout (g.nodes n) o) (htext : g.KeepsText n o)
    (hfield : o.field = (g.nodes n).field ∨ (g.nodes n).fields ≠ Association.fieldCount)
    (helement : o.element = (g.nodes n).element ∨ (g.nodes n).fields ≠ 0) :
    g.Spares (g.setNode n o) where
  toRests := .setNode h htext
  cells n' _ hfields := by
    show (Function.update g.nodes n o n').field = _
    by_cases heq : n' = n
    · subst heq
      rw [Function.update_self]
      exact hfield.resolve_right fun hne => hne hfields
    · rw [Function.update_of_ne heq]
  frames n' _ hfields := by
    show (Function.update g.nodes n o n').element = _
    by_cases heq : n' = n
    · subst heq
      rw [Function.update_self]
      exact helement.resolve_right fun hne => hne hfields
    · rw [Function.update_of_ne heq]

theorem withNew (o : Node) : g.Spares (g.withNew o) := by
  have hold : ∀ n < g.next, (g.withNew o).nodes n = g.nodes n := fun n hn =>
    Function.update_of_ne hn.ne _ _
  exact
    { toRests := .of_symbols (Nat.le_succ _) (fun n hn => hold n hn ▸ .refl _) rfl rfl rfl rfl
        fun n hn => hold n hn ▸ .of_raw rfl rfl
      cells := fun n hn _ => by rw [hold n hn]
      frames := fun n hn _ => by rw [hold n hn] }

/-- The elements are not those of an array. -/
theorem storeElements {index : Nat} {values : List Value}
    (hfields : ∀ n, v = .object n → (g.nodes n).fields ≠ 0)
    (h : g.storeElements v index values = some g') : g.Spares g' := by
  induction values generalizing g index with
  | nil =>
    cases h
    exact refl _
  | cons value rest ih =>
    obtain ⟨g₁, hstore, h⟩ := Option.bind_eq_some_iff.mp h
    obtain ⟨n, rfl, -, -, rfl⟩ := of_storeElement hstore
    have hfirst : g.Spares (g.setNode n ((g.nodes n).withElement index value)) :=
      setNode ⟨rfl, rfl, rfl⟩ (.of_raw rfl rfl) (.inl rfl) (.inr (hfields n rfl))
    refine hfirst.trans (ih (fun n' heq => ?_) h)
    cases heq
    rw [nodes_setNode, Function.update_self]
    exact hfields n rfl

/-- An object with fields, which no symbol has, becomes one of another class. -/
theorem storeClass (hfields : ∀ n, v = .object n → 0 < (g.nodes n).fields)
    (h : g.storeClass v w = some g') : g.Spares g' := by
  obtain ⟨n, rfl, rfl⟩ := of_storeClass h
  exact setNode ⟨rfl, rfl, rfl⟩ (.of_fields (hfields n rfl)) (.inl rfl) (.inl rfl)

/-- What is filled in with fields, up to the stack pointer at least, is neither an association nor an
array. -/
theorem fill {fields elements : List Value} (hfields : contextStackPointer < fields.length)
    (h : g.fill v fields elements = some g') : g.Spares g' := by
  obtain ⟨n, -, -, -, hcount, -, -, rfl⟩ := of_fill h
  have hlt := hfields.trans_le hcount
  refine setNode (Node.sameLayout_filled _ _ _) (.of_fields (Nat.zero_lt_of_lt hlt)) (.inr fun heq => ?_) (.inr fun heq => ?_)
  · exact absurd (heq ▸ hlt) (by decide)
  · exact absurd (heq ▸ hlt) (by decide)

/-- What is filled in may get another class first, since it is no symbol. -/
theorem reuse {g₁ : Graph} {fields elements : List Value} (hcls : g.storeClass v w = some g₁)
    (hfields : contextStackPointer < fields.length) (h : g₁.fill v fields elements = some g') :
    g.Spares g' := by
  refine (storeClass (fun n heq => ?_) hcls).trans (fill hfields h)
  obtain ⟨n', rfl, rfl⟩ := of_storeClass hcls
  obtain ⟨_, ⟨⟩, -, -, hcount, -⟩ := of_fill h
  cases heq
  rw [nodes_setNode, Function.update_self] at hcount
  exact Nat.zero_lt_of_lt (hfields.trans_le hcount)

theorem load (h : g.load v = some g') : g.Spares g' := by
  obtain ⟨registers, -, rfl⟩ := Option.map_eq_some_iff.mp h
  exact of_nodes rfl rfl rfl rfl rfl rfl

/-- What is written back has more fields than an association. -/
theorem flush (h : g.flush = some g') : g.Spares g' := by
  unfold Graph.flush at h
  split at h
  · cases h
    exact refl g
  · rename_i n _
    obtain ⟨g₁, hpc, hsp⟩ := Option.bind_eq_some_iff.mp h
    obtain ⟨_, ⟨⟩, -, -, rfl⟩ := of_storeField hpc
    obtain ⟨_, ⟨⟩, hcount, -, rfl⟩ := of_storeField hsp
    have hlarge : (g.nodes n).fields ≠ Association.fieldCount := by
      intro heq
      rw [nodes_setNode, Function.update_self] at hcount
      exact absurd (heq ▸ hcount : Context.spField < Association.fieldCount) (by decide)
    refine (setNode (o := (g.nodes n).withField Context.pcField _) ⟨rfl, rfl, rfl⟩ (.of_raw rfl rfl)
      (.inr hlarge) (.inl rfl)).trans (setNode ⟨rfl, rfl, rfl⟩ (.of_raw rfl rfl) (.inr ?_) (.inl rfl))
    rw [nodes_setNode, Function.update_self]
    exact hlarge

theorem collected (h : g.collected = some g') : g.Spares g' := by
  obtain ⟨g₁, hflush, h⟩ := Option.bind_eq_some_iff.mp h
  have hpool : g₁.Spares { g₁ with pool := ⟨[], []⟩ } := of_nodes rfl rfl rfl rfl rfl rfl
  refine ((flush hflush).trans hpool).trans ?_
  unfold Graph.reload at h
  split at h
  · cases h
    exact refl _
  · exact load h

end Spares

namespace Rests

theorem storeField {index : Nat} (h : g.storeField v index w = some g') : g.Rests g' := by
  obtain ⟨n, -, -, -, rfl⟩ := of_storeField h
  exact setNode ⟨rfl, rfl, rfl⟩ (.of_raw rfl rfl)

theorem storeElement {index : Nat} (h : g.storeElement v index w = some g') : g.Rests g' := by
  obtain ⟨n, -, -, -, rfl⟩ := of_storeElement h
  exact setNode ⟨rfl, rfl, rfl⟩ (.of_raw rfl rfl)

theorem fill {fields elements : List Value} (h : g.fill v fields elements = some g') : g.Rests g' := by
  obtain ⟨n, -, -, htail, -, -, -, rfl⟩ := of_fill h
  exact setNode (Node.sameLayout_filled _ _ _) (.of_format fun heq => by rw [heq] at htail; cases htail)

theorem kill (h : g.kill v = some g') : g.Rests g' := by
  obtain ⟨g₁, hsender, hpc⟩ := Option.bind_eq_some_iff.mp h
  exact (storeField hsender).trans (storeField hpc)

theorem retireUpTo {target current : Value} {fuel : Nat}
    (h : Spec.retireUpTo target current fuel g (.ok () g')) : g.Rests g' := by
  induction fuel generalizing current g with
  | zero =>
    obtain ⟨cause, -, h⟩ := h
    cases h
  | succ fuel ih =>
    obtain ⟨_, rfl, h⟩ := h
    change (if (decide (current ≠ target) && g.isLink current) = true then _ else _ : Spec Unit) g _
      at h
    split at h
    · obtain ⟨r, hread, h⟩ := h
      cases hsender : g.field current Context.senderField with
      | none =>
        rw [Spec.read_of_none hsender] at hread
        subst hread
        cases h
      | some sender =>
        rw [Spec.read_of_some hsender] at hread
        subst hread
        obtain ⟨r, hretire, h⟩ := h
        rcases Spec.of_retire hretire with rfl | ⟨g₁, pool, hkill, rfl⟩
        · cases h
        · have hpooled : g₁.Spares { g₁ with pool } := .of_nodes rfl rfl rfl rfl rfl rfl
          exact ((kill hkill).trans hpooled.toRests).trans (ih h)
    · cases h
      exact refl _

theorem claim {dictionary selector : Value} {index : Nat}
    (h : g.claim dictionary selector index = some g') : g.Rests g' := by
  obtain ⟨g₁, helement, h⟩ := Option.bind_eq_some_iff.mp h
  obtain ⟨tally, -, h⟩ := Option.bind_eq_some_iff.mp h
  exact (storeElement helement).trans (.storeField h)

theorem insert {dictionary selector method : Value} 
    (h : g.insert dictionary selector method = some g') : g.Rests g' := by
  obtain ⟨place, -, h⟩ := Option.bind_eq_some_iff.mp h
  cases place with
  | none => cases h
  | some index =>
    obtain ⟨key, -, h⟩ := Option.bind_eq_some_iff.mp h
    have hrest : ∀ g₁ : Graph, (do
        let methods ← g₁.field dictionary MethodDictionary.methodsField
        g₁.storeElement methods index method) = some g' → g₁.Rests g' := by
      intro g₁ h
      obtain ⟨methods, -, h⟩ := Option.bind_eq_some_iff.mp h
      exact storeElement h
    dsimp only at h
    split at h
    · exact hrest g h
    · obtain ⟨g₁, hclaim, h⟩ := Option.bind_eq_some_iff.mp h
      exact (claim hclaim).trans (hrest g₁ h)

theorem insertAll {dictionary : Value} {entries : List (Value × Value)} 
    (h : g.insertAll dictionary entries = some g') : g.Rests g' := by
  induction entries generalizing g with
  | nil =>
    cases h
    exact refl _
  | cons entry rest ih =>
    obtain ⟨g₁, hinsert, h⟩ := Option.bind_eq_some_iff.mp h
    exact (insert hinsert).trans (ih h)

theorem fillClass {cls superclass dictionary name thisClass : Value} {spec : InstanceSpec}
    (h : g.fillClass cls superclass dictionary spec name thisClass = some g') :
    g.Rests g' := by
  obtain ⟨g₁, h₁, h⟩ := Option.bind_eq_some_iff.mp h
  obtain ⟨g₂, h₂, h⟩ := Option.bind_eq_some_iff.mp h
  obtain ⟨g₃, h₃, h⟩ := Option.bind_eq_some_iff.mp h
  obtain ⟨g₄, h₄, h⟩ := Option.bind_eq_some_iff.mp h
  have hfirst := (storeField h₁).trans (.storeField h₂)
  exact (hfirst.trans ((storeField h₃).trans (.storeField h₄))).trans (.storeField h)

end Rests

/-- No edit adds a global. -/
theorem Edit.rests {isOpen : Graph → Value → Prop} (h : Edit isOpen g g') : g.Rests g' := by
  have hidle : ∀ {g' : Graph}, g'.nodes = g.nodes → g'.next = g.next → g'.nil = g.nil →
      g'.core = g.core → g'.globals = g.globals → g'.symbols = g.symbols → g.Rests g' :=
    fun h₁ h₂ h₃ h₄ h₅ h₆ => (Spares.of_nodes h₁ h₂ h₃ h₄ h₅ h₆).toRests
  cases h with
  | registers s _ => exact hidle rfl rfl rfl rfl rfl rfl
  | load h => exact (Spares.load h).toRests
  | flush h => exact (Spares.flush h).toRests
  | pinned | memo | pool => exact hidle rfl rfl rfl rfl rfl rfl
  | content h htext => exact .setNode h.toSameLayout htext
  | store _ h => exact .storeField h
  | record _ _ h => exact .storeField h
  | fill _ _ h => exact .fill h
  | @reuse _ size _ _ _ _ _ _ _ hcls _ hfields h =>
    have hpooled : g.Spares { g with pool := (g.pool.take size).2 } := .of_nodes rfl rfl rfl rfl rfl rfl
    exact (hpooled.trans (.reuse hcls hfields h)).toRests
  | leave h => exact .retireUpTo h
  | make len hash _ => exact (Spares.withNew _).toRests

end Graph

/-! ## Computations that leave something alone -/

namespace Spec

open ObjectMachine.Graph

theorem Keeps.attempt {α : Type} {I : Graph → Prop} {x : Spec α} (hx : x.Keeps I) :
    (Spec.attempt x).Keeps I := by
  rintro g hg out ⟨r, hr, hout⟩
  have hfirst := hx g hg r hr
  cases r with
  | ok a g' =>
    cases hout
    exact hfirst
  | failed failure g' =>
    cases hout
    exact hfirst
  | _ =>
    cases hout
    trivial

/-- A computation that leaves alone what is related to what was there before, whatever comes of it. -/
def Preserves {α : Type} (R : Graph → Graph → Prop) (x : Spec α) : Prop := ∀ g₀, x.Keeps (R g₀)

namespace Preserves

variable {α β : Type} {R R' : Graph → Graph → Prop} {x y : Spec α} {f : α → Spec β}

theorem pure (a : α) : (Pure.pure a : Spec α).Preserves R := fun _ => .pure a fun _ h => h

theorem bind (hx : x.Preserves R) (hf : ∀ a, (f a).Preserves R) : (x >>= f).Preserves R :=
  fun g₀ => Keeps.bind (hx g₀) fun a => hf a g₀

theorem ask (h : Graph → α) : (Spec.ask h).Preserves R := fun _ => Keeps.ask h

theorem read (h : Graph → Option α) : (Spec.read h).Preserves R := fun _ => Keeps.read h

theorem guard (P : Graph → Prop) : (Spec.guard P).Preserves R := fun _ => Keeps.guard P

theorem choose (P : α → Prop) : (Spec.choose P).Preserves R := fun _ => Keeps.choose P

theorem stop (P : Fatal → Prop) : (Spec.stop P : Spec α).Preserves R := fun _ => Keeps.stop P

theorem fail (P : Failure → Prop) : (Spec.fail P : Spec α).Preserves R := fun _ => Keeps.fail P

theorem either (hx : x.Preserves R) (hy : y.Preserves R) : (Spec.either x y).Preserves R :=
  fun g₀ => Keeps.either (hx g₀) (hy g₀)

theorem ite {P : Prop} [Decidable P] (hx : x.Preserves R) (hy : y.Preserves R) :
    (if P then x else y).Preserves R :=
  fun g₀ => .ite (hx g₀) (hy g₀)

theorem attempt (hx : x.Preserves R) : (Spec.attempt x).Preserves R := fun g₀ => Keeps.attempt (hx g₀)

/-- Nothing more is done. -/
theorem map (hx : x.Preserves R) (h : α → β) : (x >>= fun a => Pure.pure (h a)).Preserves R :=
  hx.bind fun _ => pure _

theorem count (words : Nat) : (Spec.count words).Preserves R := fun _ => Keeps.count words

theorem begin [Std.Refl R] (hx : x.Preserves R) (g : Graph) : x.Leads (· = g) (R g) :=
  (hx g).mono (fun g' h => by subst h; exact Std.Refl.refl g') fun _ h => h

variable [IsTrans Graph R]

theorem of_start (hx : ∀ g, x.Leads (· = g) (R g)) : x.Preserves R := by
  intro g₀ g hg out hout
  have hstep := hx g g rfl out hout
  cases out with
  | ok a g' => exact trans_of R hg hstep
  | failed failure g' => exact trans_of R hg hstep
  | _ => trivial

theorem mono [Std.Refl R'] (hx : x.Preserves R') (h : ∀ g g', R' g g' → R g g') : x.Preserves R :=
  of_start fun g => (hx.begin g).mono (fun _ h => h) (h g)

theorem modify {h : Graph → Graph} (hR : ∀ g, R g (h g)) : (Spec.modify h).Preserves R :=
  fun _ => .modify fun g hg => trans_of R hg (hR g)

theorem write {h : Graph → Option Graph} (hR : ∀ g g', h g = some g' → R g g') :
    (Spec.write h).Preserves R :=
  fun _ => .write fun g g' hg hg' => trans_of R hg (hR g g' hg')

end Preserves

end Spec

instance : Std.Refl Graph.Rests := ⟨.refl⟩
instance : IsTrans Graph Graph.Rests := ⟨fun _ _ _ => .trans⟩
instance : Std.Refl Graph.Spares := ⟨.refl⟩
instance : IsTrans Graph Graph.Spares := ⟨fun _ _ _ => .trans⟩
instance (names : List String) : Std.Refl (Graph.Shares names) := ⟨fun g => (Graph.Spares.refl g).shares⟩
instance (names : List String) : IsTrans Graph (Graph.Shares names) := ⟨fun _ _ _ => .trans⟩
instance : Std.Refl Graph.Lasts := ⟨fun g => (Graph.Rests.refl g).lasts⟩
instance : IsTrans Graph Graph.Lasts := ⟨fun _ _ _ => .trans⟩

namespace Spec

open ObjectMachine.Graph

section

variable {α : Type} {x : Spec α}

theorem Preserves.rests (hx : x.Preserves Graph.Spares) : x.Preserves Graph.Rests :=
  hx.mono fun _ _ h => h.toRests

theorem Preserves.lasts (hx : x.Preserves Graph.Rests) : x.Preserves Graph.Lasts :=
  hx.mono fun _ _ => Graph.Rests.lasts

theorem Preserves.lasts_of_shares {names : List String} (hx : x.Preserves (Graph.Shares names)) :
    x.Preserves Graph.Lasts :=
  hx.mono fun _ _ h => h.toLasts

/-- What is made of edits adds no global. -/
theorem Preserves.of_edits (hx : x.Edits fun _ _ => True) : x.Preserves Graph.Rests :=
  .of_start fun g => (hx g).mono (fun _ h => h ▸ .refl) fun _ h =>
    Edited.keeps h (.refl g) fun _ _ h h' => h.trans h'.rests

end

namespace Preserves

/-! ### Temporaries and registers -/

theorem pin (v : Value) : (Spec.pin v).Preserves Graph.Spares :=
  modify fun _ => .of_nodes rfl rfl rfl rfl rfl rfl

theorem pinAll (values : List Value) : (Spec.pinAll values).Preserves Graph.Spares := by
  induction values with
  | nil => exact pure ()
  | cons v rest ih => exact (pin v).bind fun _ => ih

theorem unpin : Spec.unpin.Preserves Graph.Spares :=
  (read _).bind fun v => (modify fun _ => .of_nodes rfl rfl rfl rfl rfl rfl).bind fun _ => pure v

theorem unpinTo (count : Nat) : (Spec.unpinTo count).Preserves Graph.Spares :=
  modify fun _ => .of_nodes rfl rfl rfl rfl rfl rfl

theorem pinnedFrom (start count : Nat) : (Spec.pinnedFrom start count).Preserves Graph.Spares := by
  induction count generalizing start with
  | zero => exact pure []
  | succ count ih => exact (read _).bind fun v => (ih (start + 1)).bind fun rest => pure _

theorem flushRegisters : Spec.flushRegisters.Preserves Graph.Spares := write fun _ _ => .flush

theorem loadContext (v : Value) : (Spec.loadContext v).Preserves Graph.Spares := write fun _ _ => .load

theorem clearRegisters : Spec.clearRegisters.Preserves Graph.Spares :=
  modify fun _ => .of_nodes rfl rfl rfl rfl rfl rfl

/-! ### Stores into what was there before -/

theorem storeField (v : Value) (index : Nat) (w : Value) :
    (Spec.write (·.storeField v index w)).Preserves Graph.Rests :=
  write fun _ _ => .storeField

end Preserves

end Spec

/-! ## New objects -/

namespace Graph

/-- No global is added, and temporaries stay. -/
def Quiet (g g' : Graph) : Prop := g.Spares g' ∧ g'.pinned = g.pinned

/-- An object with a shape was made since a graph. -/
def Fresh (g₀ : Graph) (format : Format) (fields len : Nat) (v : Value) (g : Graph) : Prop :=
  g₀.Quiet g ∧ ∃ n, v = .object n ∧ g₀.next ≤ n ∧ n < g.next ∧ (g.nodes n).format = format ∧
    (g.nodes n).fields = fields ∧ (format.isIndexable = true → (g.nodes n).len = len)

variable {g₀ g g' g'' : Graph} {v w : Value} {n fields len : Nat} {format : Format}

theorem Quiet.refl (g : Graph) : g.Quiet g := ⟨.refl g, rfl⟩

theorem Quiet.trans (h : g.Quiet g') (h' : g'.Quiet g'') : g.Quiet g'' :=
  ⟨h.1.trans h'.1, h'.2.trans h.2⟩

theorem Fresh.after (hv : g.Fresh format fields len v g') (h : g₀.Quiet g) :
    g₀.Fresh format fields len v g' := by
  obtain ⟨hquiet, n, rfl, hnew, hrest⟩ := hv
  exact ⟨h.trans hquiet, n, rfl, h.1.next_le.trans hnew, hrest⟩

/-- Neither associations nor arrays are changed with an object that was made later. -/
theorem Spares.setNew {o : Node} (h : g₀.Spares g) (hn : g₀.next ≤ n)
    (hsame : Node.SameLayout (g.nodes n) o) (htext : g.KeepsText n o) : g₀.Spares (g.setNode n o) where
  toRests := h.toRests.trans (.setNode hsame htext)
  cells n' hn' hfields := by
    show (Function.update g.nodes n o n').field = _
    rw [Function.update_of_ne (hn'.trans_le hn).ne, h.cells n' hn' hfields]
  frames n' hn' hfields := by
    show (Function.update g.nodes n o n').element = _
    rw [Function.update_of_ne (hn'.trans_le hn).ne, h.frames n' hn' hfields]

/-- A byte object was made since a graph, and is not known as a symbol. -/
structure Written (g₀ : Graph) (cls : Value) (bytes : List UInt8) (v : Value) (g : Graph) : Prop where
  quiet : g₀.Quiet g
  symbols : g.symbols = g₀.symbols
  made : ∃ n, v = .object n ∧ g₀.next ≤ n ∧ n < g.next ∧ (g.nodes n).format = .byteArray ∧
    (g.nodes n).fields = 0 ∧ (g.nodes n).cls = cls ∧ g.bytes v = some bytes

/-- A symbol is added. -/
theorem Written.interned {name : String}
    (h : g₀.Written (g₀.core.cls .symbol) (Text.utf8Bytes name) v g) (hname : g₀.symbol? name = none) :
    g₀.Spares { g with symbols := g.symbols ++ [(name, v)] } := by
  obtain ⟨⟨hspares, -⟩, hsymbols, n, rfl, hnew, hn, hformat, hfields, hcls, hbytes⟩ := h
  refine { hspares with symbols := ?_, lexicon := fun hg => ?_ }
  · show g₀.symbols <+: g.symbols ++ _
    rw [hsymbols]
    exact List.prefix_append ..
  have hlexicon := hspares.lexicon hg
  refine ⟨hlexicon.classes, fun {name' v'} hmem => ?_, hlexicon.distinct.append (hsymbols ▸ hname) fun hmem => ?_⟩
  · obtain hmem | hmem := List.mem_append.mp hmem
    · obtain ⟨n', rfl, hlt, htext, hspelled⟩ := hlexicon.symbol hmem
      exact ⟨n', rfl, hlt, ⟨htext.format, htext.fields, htext.cls⟩, hspelled⟩
    · cases List.mem_singleton.mp hmem
      exact ⟨n, rfl, hn, ⟨hformat, hfields, by rw [hcls, ← hspares.core]⟩, hbytes⟩
  · rw [hsymbols] at hmem
    obtain ⟨n', heq, hlt, -⟩ := hg.symbol hmem
    cases heq
    exact absurd hnew (Nat.not_le.mpr hlt)

/-- A context that is there to be filled in: it was made, or it was taken from the pool and got its class. -/
def Supplies (g₀ : Graph) (v : Value) (g : Graph) : Prop :=
  g₀.Spares g ∨ ∃ g₁ cls, g₀.Spares g₁ ∧ g₁.storeClass v cls = some g

/-- Temporaries are released that were pinned for the new object. -/
theorem Fresh.withPinned (hv : g₀.Fresh format fields len v g) (h : g'.Spares g₀) :
    g'.Fresh format fields len v (g.withPinned g'.pinned) := by
  obtain ⟨hquiet, n, rfl, hnew, hrest⟩ := hv
  exact ⟨⟨(h.trans hquiet.1).trans (.of_nodes rfl rfl rfl rfl rfl rfl), rfl⟩, n, rfl, h.next_le.trans hnew,
    hrest⟩

theorem Spares.withPinned (g : Graph) (values : List Value) : g.Spares (g.withPinned values) :=
  .of_nodes rfl rfl rfl rfl rfl rfl

theorem Supplies.withPinned (h : g₀.Supplies v g) (values : List Value) :
    g₀.Supplies v (g.withPinned values) := by
  obtain h | ⟨g₁, cls, h, hcls⟩ := h
  · exact .inl (h.trans (.withPinned g values))
  · obtain ⟨n, rfl, rfl⟩ := of_storeClass hcls
    exact .inr ⟨g₁.withPinned values, cls, h.trans (.withPinned g₁ values), rfl⟩

theorem Supplies.fill {fields elements : List Value} (h : g₀.Supplies v g)
    (hfields : contextStackPointer < fields.length) (hfill : g.fill v fields elements = some g') :
    g₀.Spares g' := by
  obtain h | ⟨g₁, cls, h, hcls⟩ := h
  · exact h.trans (.fill hfields hfill)
  · exact h.trans (.reuse hcls hfields hfill)

/-- A field of the new object is stored. -/
theorem Fresh.storeField {index : Nat} (h : g₀.Fresh format fields len v g)
    (hstore : g.storeField v index w = some g') : g₀.Fresh format fields len v g' := by
  obtain ⟨hquiet, n, rfl, hnew, hn, hformat, hfields, hlen⟩ := h
  obtain ⟨_, ⟨⟩, -, -, rfl⟩ := of_storeField hstore
  refine ⟨⟨hquiet.1.setNew hnew ⟨rfl, rfl, rfl⟩ (.of_raw rfl rfl), hquiet.2⟩, n, rfl, hnew, hn, ?_, ?_,
    fun hi => ?_⟩
  · simp [hformat]
  · simp [hfields]
  · simp [hlen hi]

end Graph

namespace Spec

open ObjectMachine.Graph

variable {α β : Type} {x y : Spec α} {f : α → Spec β} {g : Graph}

/-- A computation that does not fail, adds no global and leaves temporaries alone. -/
def Makes (x : Spec α) : Prop := ∀ g, x.Gives (· = g) (fun _ => g.Quiet) fun _ => False

theorem Gives.of_forall {I Q : Graph → Prop} {P : α → Graph → Prop}
    (hx : ∀ g, I g → x.Gives (· = g) P Q) : x.Gives I P Q :=
  fun g hg => hx g hg g rfl

namespace Makes

/-- What comes of a computation after one that makes something. -/
theorem before {R : Graph → β → Graph → Prop} {Q : Graph → Prop} (hx : x.Makes)
    (hf : ∀ a g, (f a).Gives (· = g) (R g) Q)
    (hR : ∀ {g g' b g''}, g.Quiet g' → R g' b g'' → R g b g'') (g : Graph) :
    (x >>= f).Gives (· = g) (R g) Q :=
  Gives.bind ((hx g).mono (fun _ _ h => h) fun _ h => h.elim) fun a => .of_forall fun g' hg' =>
    (hf a g').mono (fun _ _ => hR hg') fun _ h => h

theorem preserves (hx : x.Makes) : x.Preserves Graph.Spares :=
  .of_start fun g g' hg' out hout => by
    have hmade := hx g g' hg' out hout
    cases out with
    | ok a g'' => exact hmade.1
    | failed failure g'' => exact hmade.elim
    | _ => trivial

theorem pure (a : α) : (Pure.pure a : Spec α).Makes := fun g => .pure (.refl g)

theorem bind (hx : x.Makes) (hf : ∀ a, (f a).Makes) : (x >>= f).Makes :=
  before hx hf fun h h' => h.trans h'

theorem ask (h : Graph → α) : (Spec.ask h).Makes := by
  rintro _ g rfl _ rfl
  exact .refl g

theorem guard (P : Graph → Prop) : (Spec.guard P).Makes := by
  rintro _ g rfl _ (⟨-, rfl⟩ | ⟨-, rfl⟩)
  · exact .refl g
  · trivial

theorem choose (P : α → Prop) : (Spec.choose P).Makes := by
  rintro _ g rfl _ ⟨a, -, rfl⟩
  exact .refl g

theorem count (words : Nat) : (Spec.count words).Makes := by
  rintro _ g rfl _ (rfl | ⟨-, rfl⟩)
  · exact .refl g
  · trivial

theorem either (hx : x.Makes) (hy : y.Makes) : (Spec.either x y).Makes :=
  fun g g' hg' out hout => hout.elim (hx g g' hg' out) (hy g g' hg' out)

theorem write {h : Graph → Option Graph} (hquiet : ∀ g g' : Graph, h g = some g' → g.Quiet g') :
    (Spec.write h).Makes := by
  rintro _ g rfl out hout
  unfold Spec.write at hout
  split at hout <;> subst hout
  · exact hquiet _ _ ‹_›
  · trivial

theorem collectGarbage : Spec.collectGarbage.Makes :=
  (guard _).bind fun _ => (write fun _ _ h => ⟨.collected h, (Collected.of_collected h).pinned⟩).bind
    fun _ => choose _

theorem mayCollect : Spec.mayCollect.Makes := .either (.pure ()) (collectGarbage.bind fun _ => .pure ())

end Makes

/-- An object is made. -/
theorem Gives.new (cls : Value) (format : Format) (fields len : Nat) (g : Graph) :
    (Spec.allocate cls format fields len).Gives (· = g) (g.Fresh format fields len) fun _ => False := by
  have hrest : ∀ {α : Type} {x : Spec α} {f : α → Spec Value}, x.Makes →
      (∀ a g, (f a).Gives (· = g) (g.Fresh format fields len) fun _ => False) →
      ∀ g, (x >>= f).Gives (· = g) (g.Fresh format fields len) fun _ => False :=
    fun hx hf => Makes.before (R := fun g => g.Fresh format fields len) hx hf fun h h' => h'.after h
  refine hrest (.guard _) (fun _ => hrest (.count _) fun _ => hrest .mayCollect fun _ =>
    hrest .mayCollect fun _ => hrest (.count _) fun _ => ?_) g
  rintro _ g rfl _ ⟨-, hash, rfl⟩
  refine ⟨⟨.withNew _, rfl⟩, g.next, rfl, Nat.le_refl _, Nat.lt_succ_self _, ?_, ?_, fun hi => ?_⟩ <;>
    simp_all [Graph.withNew, Node.fresh]

namespace Makes

theorem allocate (cls : Value) (format : Format) (fields len : Nat) :
    (Spec.allocate cls format fields len).Makes :=
  fun g => (Gives.new cls format fields len g).mono (fun _ _ h => h.1) fun _ h => h

theorem newArray (len : Nat) : (Spec.newArray len).Makes := (ask _).bind fun _ => allocate _ _ _ _

/-- A new object gets contents. -/
theorem filled {cls : Value} {format : Format} {fields len : Nat} {h : Value → Graph → Option Graph}
    (hcontent : ∀ g n g', h (.object n) g = some g' →
      ∃ o, Node.SameLayout (g.nodes n) o ∧ g.KeepsText n o ∧ g' = g.setNode n o) :
    (Spec.allocate cls format fields len >>= fun v => Spec.write (h v) >>= fun _ => Pure.pure v).Makes :=
  fun g => Gives.bind (Gives.new cls format fields len g) fun v => .of_forall fun g' hv => by
    obtain ⟨hquiet, n, rfl, hnew, -⟩ := hv
    refine Gives.write fun g'' hg'' => Gives.pure ?_
    obtain ⟨o, hsame, htext, rfl⟩ := hcontent g' n g'' hg''
    exact ⟨hquiet.1.setNew hnew hsame htext, hquiet.2⟩

end Makes

/-- A byte object is made, which may be a symbol that nobody knows yet. -/
theorem Gives.newBytes (cls : Value) (bytes : List UInt8) (g : Graph) :
    (Spec.newBytes cls bytes).Gives (· = g) (g.Written cls bytes) fun _ => False := by
  let I : Graph → Prop := fun g' => g.Quiet g' ∧ g'.symbols = g.symbols
  have hI : Spec.mayCollect.Keeps I := Keeps.mayCollect fun g₁ g₂ hg₁ h =>
    have hsame := Collected.of_collected h
    ⟨hg₁.1.trans ⟨.collected h, hsame.pinned⟩, hsame.symbols.trans hg₁.2⟩
  have hmade : (Spec.allocate cls .byteArray 0 bytes.length).Gives (· = g) _ I :=
    fun g' hg' => Gives.fresh hI g' (hg' ▸ ⟨.refl g, rfl⟩)
  refine Gives.bind ((hmade.and (Gives.new cls .byteArray 0 bytes.length g)).mono (fun _ _ h => h.1)
    fun _ h => h.2.elim) fun v => .of_forall fun g' hg' => ?_
  obtain ⟨g₁, hash, ⟨hquiet, hsymbols⟩, rfl, rfl⟩ := hg'
  refine Gives.write fun g'' h => Gives.pure ?_
  obtain ⟨-, heq⟩ := Option.ite_none_right_eq_some.mp h
  cases heq
  generalize ho : ((g₁.withNew _).nodes g₁.next).withBytes 0 bytes = o
  rw [setNode_withNew]
  have hself : (g₁.withNew o).nodes g₁.next = o := Function.update_self ..
  have hnew : (g₁.withNew (.fresh cls g₁.nil .byteArray 0 bytes.length hash)).nodes g₁.next =
    .fresh cls g₁.nil .byteArray 0 bytes.length hash := Function.update_self ..
  rw [hnew] at ho
  subst ho
  have hformat : ((g₁.withNew ((Node.fresh cls g₁.nil .byteArray 0 bytes.length hash).withBytes 0
      bytes)).nodes g₁.next).format = .byteArray := by
    rw [hself, Node.format_withBytes]
    rfl
  refine ⟨⟨hquiet.1.trans (.withNew _), hquiet.2⟩, hsymbols, g₁.next, rfl, hquiet.1.next_le,
    Nat.lt_succ_self _, hformat, ?_, ?_, ?_⟩
  · rw [hself, Node.fields_withBytes]
    rfl
  · rw [hself, Node.cls_withBytes]
    rfl
  · rw [bytes_of_format hformat, hself]
    exact congrArg some (Node.bytes_withBytes _ rfl)

namespace Makes

theorem newBytes (cls : Value) (bytes : List UInt8) : (Spec.newBytes cls bytes).Makes :=
  fun g => (Gives.newBytes cls bytes g).mono (fun _ _ h => h.quiet) fun _ h => h

theorem newString (text : String) : (Spec.newString text).Makes := (ask _).bind fun _ => newBytes _ _

theorem newFloat (value : Binary64) : (Spec.newFloat value).Makes := by
  refine (ask _).bind fun _ => filled fun g n g' h => ?_
  obtain ⟨hformat, heq⟩ := Option.ite_none_right_eq_some.mp h
  cases heq
  exact ⟨(g.nodes n).withRaw 0 value.bits, ⟨rfl, rfl, rfl⟩, .of_format (by rw [hformat]; nofun), rfl⟩

theorem newInteger (value : Int) : (Spec.newInteger value).Makes := by
  unfold Spec.newInteger
  split
  · exact .pure _
  refine (ask _).bind fun _ => filled fun g n g' h => ?_
  obtain ⟨-, heq⟩ := Option.ite_none_right_eq_some.mp h
  cases heq
  exact ⟨{ g.nodes n with large? := some value }, ⟨rfl, rfl, rfl⟩, .of_raw rfl rfl, rfl⟩

theorem intern (name : String) : (Spec.intern name).Makes := by
  refine fun g => Gives.ask ?_
  cases hname : g.symbol? name with
  | some v => exact .pure (.refl g)
  | none =>
    refine Gives.ask (Gives.bind (Gives.newBytes _ _ g) fun v => .of_forall fun g' hv => ?_)
    exact Gives.modify (Gives.pure ⟨hv.interned hname, hv.quiet.2⟩)

end Makes

/-- What was pinned is taken again before a context is filled in. -/
theorem Gives.supplies_pinnedFrom {context : Value} {Q : Graph → Prop} (start count : Nat) :
    (Spec.pinnedFrom start count).Gives (g.Supplies context) (fun _ => g.Supplies context) Q := by
  induction count generalizing start with
  | zero =>
    rintro g hg _ rfl
    exact hg
  | succ count ih =>
    refine Gives.bind (Gives.look _) fun v => Gives.bind (ih (start + 1)) fun rest => ?_
    rintro g hg _ rfl
    exact hg

theorem Gives.supplies_unpinTo {context : Value} {Q : Graph → Prop} (count : Nat) :
    (Spec.unpinTo count).Gives (g.Supplies context) (fun _ => g.Supplies context) Q := by
  rintro g hg _ rfl
  exact hg.withPinned _

namespace Preserves

theorem allocate (cls : Value) (format : Format) (fields len : Nat) :
    (Spec.allocate cls format fields len).Preserves Graph.Spares :=
  (Makes.allocate cls format fields len).preserves

theorem instantiate (cls : Value) (len : Nat) :
    (Spec.instantiate cls len).Preserves Graph.Spares := by
  unfold Spec.instantiate
  refine .ite ((read _).bind fun fields => .ite (.pure none) ((read _).bind fun spec => ?_)) (.pure none)
  split
  · exact .pure none
  · refine .ite (.pure none) ((count _).bind fun _ => Makes.mayCollect.preserves.bind fun _ =>
      .either ?_ (.pure none))
    exact (allocate _ _ _ _).map some

/-- A context comes from the pool, or it is made. -/
theorem newContext (needed : Nat) (cls : Value) (g₀ : Graph) :
    (Spec.newContext needed cls).Gives g₀.Spares (g₀.Supplies) g₀.Spares := by
  refine Gives.bind (P := fun _ => g₀.Spares) (x := Spec.takeContext _) ?_ fun taken => ?_
  · rintro g hg _ rfl
    exact hg.trans (.of_nodes rfl rfl rfl rfl rfl rfl)
  cases taken with
  | some context =>
    rintro g hg out ⟨r, hr, hout⟩
    unfold Spec.write at hr
    split at hr <;> subst hr <;> cases hout
    · exact .inr ⟨g, cls, hg, ‹_›⟩
    · trivial
  | none => exact (Gives.of_keeps (allocate _ _ _ _ g₀) fun _ h => h).mono (fun _ _ => .inl) fun _ h => h

theorem start (receiver method : Value) (args : List Value) :
    (Spec.start receiver method args).Preserves Graph.Spares := by
  refine (ask _).bind fun s => .ite (.fail _) ((read _).bind fun header => .ite (.fail _) ?_)
  refine (ask _).bind fun base => (pin _).bind fun _ => (pin _).bind fun _ => (pinAll _).bind fun _ =>
    (ask _).bind fun core g₀ => (newContext _ _ g₀).leads fun context => ?_
  refine (Gives.look _).leads fun method => (Gives.look _).leads fun receiver =>
    (Gives.supplies_pinnedFrom _ _).leads fun args => ?_
  refine (Gives.supplies_unpinTo _).leads fun _ => Leads.bind (J := g₀.Spares) (.write fun g g' hg h => ?_)
    (fun _ h => h) fun _ => loadContext _ g₀
  obtain ⟨g₁, h₁, h⟩ := Option.bind_eq_some_iff.mp h
  refine (hg.fill (by simp [contextStackPointer]) h₁).trans (.storeElements (fun n heq => ?_) h)
  obtain ⟨_, rfl, -, -, hcount, -, -, rfl⟩ := of_fill h₁
  cases heq
  rw [nodes_setNode, Function.update_self, (Node.sameLayout_filled _ _ _).fields]
  exact Nat.ne_of_gt (Nat.lt_of_lt_of_le (by simp) hcount)

end Preserves

/-! ### Objects with fields -/

/-- A computation with some values pinned, after which they are taken again. -/
theorem Gives.pinned {values : List Value} {v : Value} {f : Value → Spec β} {R : β → Graph → Prop}
    {Q : Graph → Prop} (hpinned : g.pinned = values ++ [v])
    (hf : (f v).Gives (· = g.withPinned values) R Q) : (Spec.unpin >>= f).Gives (· = g) R Q :=
  of_eq (bind_of_ok (unpin_append hpinned)) hf

namespace Makes

theorem newMethodDictionary (capacity : Nat) : (Spec.newMethodDictionary capacity).Makes := by
  refine (guard _).bind fun _ => (newArray _).bind fun methods g => Gives.modify (Gives.ask ?_)
  refine Gives.bind (Gives.new _ _ _ _ _) fun v => .of_forall fun g₁ hv => ?_
  have hpinned : g₁.pinned = g.pinned ++ [methods] := hv.1.2
  refine Gives.pinned hpinned (Gives.write fun g₂ h => Gives.pure ?_)
  obtain ⟨g₃, htally, hmethods⟩ := Option.bind_eq_some_iff.mp h
  exact (((hv.withPinned (.withPinned g _)).storeField htally).storeField hmethods).1

end Makes

/-! ## Dictionaries, classes and runs -/

namespace Preserves

theorem growDictionary (position : Nat) : (Spec.growDictionary position).Preserves Graph.Rests := by
  refine (read _).bind fun cls => (read _).bind fun capacity =>
    (Makes.newMethodDictionary _).preserves.rests.bind fun grown => (read _).bind fun cls => write fun g g' h => ?_
  obtain ⟨dictionary, -, h⟩ := Option.bind_eq_some_iff.mp h
  obtain ⟨entries, -, h⟩ := Option.bind_eq_some_iff.mp h
  obtain ⟨g₁, hinsert, h⟩ := Option.bind_eq_some_iff.mp h
  exact (Graph.Rests.insertAll hinsert).trans (.storeField h)

theorem installMethod (cls : Value) (selector : String) (method : Value) :
    (Spec.installMethod cls selector method).Preserves Graph.Rests := by
  refine (ask _).bind fun base => (pin _).rests.bind fun _ => (pin _).rests.bind fun _ =>
    (Makes.intern _).preserves.rests.bind fun _ => (pin _).rests.bind fun _ => (read _).bind fun cls =>
    (read _).bind fun full => ?_
  refine bind (.ite (growDictionary _) (.pure ())) fun _ => (read _).bind fun cls =>
    (read _).bind fun method => (read _).bind fun selector => (unpinTo _).rests.bind fun _ =>
    (write fun g g' h => ?_).bind fun _ => rests (modify fun _ => .of_nodes rfl rfl rfl rfl rfl rfl)
  obtain ⟨dictionary, -, h⟩ := Option.bind_eq_some_iff.mp h
  exact Graph.Rests.insert h

theorem linkClass (cls metaclass superclass : Value) (spec : InstanceSpec)
    (name dictionary metaDictionary : Value) :
    (Spec.linkClass cls metaclass superclass spec name dictionary metaDictionary).Preserves
      Graph.Rests := by
  refine (ask _).bind fun core => bind (.ite (.pure _) (read _)) fun inherited => write fun g g' h => ?_
  obtain ⟨g₁, h₁, h⟩ := Option.bind_eq_some_iff.mp h
  obtain ⟨g₂, h₂, h⟩ := Option.bind_eq_some_iff.mp h
  refine ((Graph.Spares.storeClass (fun n heq => ?_) h₁).toRests.trans (.fillClass h₂)).trans (.fillClass h)
  -- What is filled in as a class has fields.
  obtain ⟨_, hfirst, -⟩ := Option.bind_eq_some_iff.mp h₂
  obtain ⟨_, rfl, rfl⟩ := of_storeClass h₁
  obtain ⟨_, ⟨⟩, hlt, -⟩ := of_storeField hfirst
  cases heq
  rw [nodes_setNode, Function.update_self] at hlt
  exact Nat.zero_lt_of_lt hlt

/-! ### Runs -/

theorem step : Spec.step.Preserves Graph.Rests := of_edits .step

theorem run (fuel : Nat) : (Spec.run fuel).Preserves Graph.Rests := by
  induction fuel with
  | zero =>
    rintro g₀ g hg _ rfl
    trivial
  | succ fuel ih =>
    refine step.bind fun result => ?_
    cases result with
    | none => exact ih
    | some v => exact .pure v

theorem resume {R : Graph → Graph → Prop} (result : Except Failure α) :
    (Spec.resume result).Preserves R := by
  cases result with
  | ok a => exact .pure a
  | error failure => exact .fail _

theorem resumeContext (v : Value) : (Spec.resumeContext v).Preserves Graph.Spares :=
  .ite (loadContext v) clearRegisters

theorem execute (fuel : Nat) (receiver method : Value) (args : List Value) :
    (Spec.execute fuel receiver method args).Preserves Graph.Rests :=
  flushRegisters.rests.bind fun _ => (ask _).bind fun _ => (ask _).bind fun _ =>
    (pin _).rests.bind fun _ => clearRegisters.rests.bind fun _ =>
    ((start _ _ _).rests.bind fun _ => run fuel).attempt.bind fun result => (read _).bind fun _ =>
    (unpinTo _).rests.bind fun _ =>
    (resumeContext _).rests.bind fun _ => resume result

end Preserves

end Spec

end ObjectMachine
