import ObjectMachine.Proofs.Graph.Dictionary

/-!
# Classes and their methods in graphs

A world says what the classes of a graph at rest are: in which order they were defined, from what, and
which methods were added to them. Classes are only ever added, and a superclass is older than what
inherits from it, so that every chain of superclasses comes to an end.

## Main results

* `Graph.World.Describes`: a graph has the classes and the methods of a world.
* `Graph.World.Describes.ascends_cls`, `Graph.World.Describes.ascends_metaclass`: chains of
  superclasses.
* `Graph.World.Describes.enroll`, `Graph.World.Describes.filed`: classes and methods are added.
-/

namespace ObjectMachine.Graph

/-! ## Worlds -/

/-- A class and its metaclass, as they were defined. -/
structure Entry where
  cls : Nat
  metaclass : Nat
  superclass : Option Nat
  name : String
  spec : InstanceSpec

/-- The classes, the newest first, the two arrays of the dictionary of each, what was added to the
dictionaries and what globals were bound to, the newest first. -/
structure World where
  roster : List Entry
  shelf : Nat → Nat × Nat
  log : Nat → List (String × Value)
  bindings : List (String × Value)

/-- The classes and metaclasses of a roster. -/
def classesOf (roster : List Entry) : List Nat := roster.flatMap fun e => [e.cls, e.metaclass]

namespace World

def classes (w : World) : List Nat := classesOf w.roster

/-- An object is one of the two arrays of the dictionary of a class. -/
def Keeps (w : World) (c n : Nat) : Prop := n = (w.shelf c).1 ∨ n = (w.shelf c).2

/-- The objects that may change: classes, dictionaries and the associations of globals. -/
def Loose (w : World) (g : Graph) (n : Nat) : Prop :=
  (∃ k, n = classNode k) ∨ n ∈ w.classes ∨ (∃ c ∈ w.classes, w.Keeps c n) ∨
    ∃ name, (name, .object n) ∈ g.globals

/-- The world with another method for a class. -/
def file (w : World) (c : Nat) (selector : String) (method : Value) : World :=
  { w with log := Function.update w.log c ((selector, method) :: w.log c) }

/-- The world with other arrays for the dictionary of a class. -/
def reshelve (w : World) (c d a : Nat) : World :=
  { w with shelf := Function.update w.shelf c (d, a) }

/-- The world with another value of a global. -/
def bind (w : World) (name : String) (v : Value) : World :=
  { w with bindings := (name, v) :: w.bindings }

/-- The world with one more class, whose dictionaries are empty. -/
def enroll (w : World) (e : Entry) (shelf metaShelf : Nat × Nat) : World where
  roster := e :: w.roster
  shelf := Function.update (Function.update w.shelf e.cls shelf) e.metaclass metaShelf
  log := Function.update (Function.update w.log e.cls []) e.metaclass []
  bindings := w.bindings

end World

/-! ## What graphs have of them -/

/-- A class or a metaclass, as far as its own class and its superclass are concerned. -/
structure IsLinked (g : Graph) (n : Nat) (cls superclass : Value) : Prop where
  lt : n < g.next
  format : (g.nodes n).format = .plain
  fields : (g.nodes n).fields = Class.fieldCount
  cls : (g.nodes n).cls = cls
  superclass : (g.nodes n).field Class.superclassField = superclass

/-- The value in the superclass field: nil ends a chain. -/
def superclassValue : Option Nat → Value
  | none => .object 0
  | some s => .object s

/-- The class that the metaclass of a class inherits from. -/
def Entry.Inherits (e : Entry) (older : List Entry) (inherited : Nat) : Prop :=
  match e.superclass with
  | none => inherited = classNode .theClass
  | some s => ∃ e' ∈ older, e'.cls = s ∧ e'.metaclass = inherited

/-- A class and its metaclass are what was defined. -/
structure IsEntry (g : Graph) (older : List Entry) (e : Entry) : Prop where
  cls : g.IsLinked e.cls (.object e.metaclass) (superclassValue e.superclass)
  metaclass : ∃ inherited, e.Inherits older inherited ∧
    g.IsLinked e.metaclass (.object (classNode .metaclass)) (.object inherited)
  name : g.symbol? e.name = some ((g.nodes e.cls).field Class.nameField)
  spec : (g.nodes e.cls).field Class.specField = .immediate e.spec.toRef
  sole : (g.nodes e.metaclass).field Class.instanceField = .object e.cls

/-- All classes are what was defined. -/
def Linked (g : Graph) : List Entry → Prop
  | [] => True
  | e :: older => g.IsEntry older e ∧ Linked g older

/-- The dictionary of a class has what was added to it. -/
structure World.Files (w : World) (g : Graph) (c : Nat) : Prop where
  shelf : (g.nodes c).field Class.dictionaryField = .object (w.shelf c).1
  places : ∃ slots, g.IsDictionary (w.shelf c).1 (w.shelf c).2 slots ∧
    ∀ s m, some (s, m) ∈ slots ↔ ∃ name, g.symbol? name = some s ∧ (w.log c).lookup name = some m
  interned : ∀ {name m}, (w.log c).lookup name = some m → ∃ s, g.symbol? name = some s

/-- A graph at rest has the classes and the methods of a world. -/
structure World.Describes (w : World) (g : Graph) : Prop where
  settled : g.Settled
  nil : (g.nodes 0).format = .plain ∧ (g.nodes 0).fields = 0
  bare : ∀ k, (g.nodes (classNode k)).format = .plain ∧
    (g.nodes (classNode k)).fields = Class.fieldCount
  linked : g.Linked w.roster
  nodup : w.classes.Nodup
  metaclasses : ∀ e ∈ w.roster, kernelObjects ≤ e.metaclass
  files : ∀ c ∈ w.classes, w.Files g c
  apart : ∀ c ∈ w.classes, ∀ c' ∈ w.classes, c ≠ c' →
    (w.shelf c).1 ≠ (w.shelf c').1 ∧ (w.shelf c).2 ≠ (w.shelf c').2
  bound : ∀ {name v}, w.bindings.lookup name = some v → ∃ n, named? g.globals name = some (.object n) ∧
    (g.nodes n).field Association.valueField = v

/-- The objects that may not change are what they were. -/
structure World.Advances (w : World) (g : Graph) (w' : World) (g' : Graph) : Prop where
  evolves : g.Evolves (w.Loose g) g'
  loose : ∀ n < g.next, w'.Loose g' n → w.Loose g n

variable {g g' g'' : Graph} {w w' w'' : World} {changed : Nat → Prop} {e e' : Entry}
  {older roster : List Entry} {c c' n : Nat} {name : String} {v s m : Value}

namespace World.Advances

theorem refl (w : World) (g : Graph) : w.Advances g w g :=
  ⟨.refl _ g, fun _ _ h => h⟩

theorem trans (h : w.Advances g w' g') (h' : w'.Advances g' w'' g'') : w.Advances g w'' g'' where
  evolves := h.evolves.trans h'.evolves h.loose
  loose n hn hl := h.loose n hn (h'.loose n (hn.trans_le h.evolves.next_le) hl)

end World.Advances

/-! ### Classes -/

theorem mem_classesOf : n ∈ classesOf roster ↔ ∃ e ∈ roster, n = e.cls ∨ n = e.metaclass := by
  simp [classesOf]

theorem Linked.of_suffix (h : g.Linked roster) (hsuffix : older <:+ roster) : g.Linked older := by
  obtain ⟨newer, rfl⟩ := hsuffix
  induction newer with
  | nil => exact h
  | cons e newer ih => exact ih h.2

/-- A class of a roster is what was defined after the older ones. -/
theorem Linked.isEntry (h : g.Linked roster) (he : e ∈ roster) :
    ∃ older, e :: older <:+ roster ∧ g.IsEntry older e := by
  obtain ⟨newer, older, rfl⟩ := List.append_of_mem he
  exact ⟨older, List.suffix_append .., (h.of_suffix (List.suffix_append ..)).1⟩

/-- A class whose dictionary was replaced is the same class. -/
structure SameClass (o o' : Node) : Prop where
  cls : o'.cls = o.cls
  field : ∀ index ≠ Class.dictionaryField, o'.field index = o.field index

theorem SameClass.of_eq {o o' : Node} (h : o' = o) : SameClass o o' :=
  ⟨by rw [h], fun _ _ => by rw [h]⟩

theorem IsLinked.evolves {cls superclass : Value} (hn : g.IsLinked n cls superclass)
    (h : g.Evolves changed g') (hsame : SameClass (g.nodes n) (g'.nodes n)) :
    g'.IsLinked n cls superclass where
  lt := hn.lt.trans_le h.next_le
  format := (h.layout n hn.lt).format.trans hn.format
  fields := (h.layout n hn.lt).fields.trans hn.fields
  cls := hsame.cls.trans hn.cls
  superclass := (hsame.field _ (by decide)).trans hn.superclass

theorem symbol?_evolves (hs : g.symbol? name = some s) (h : g.Evolves changed g') :
    g'.symbol? name = some s :=
  named?_mono hs h.symbols

theorem IsEntry.evolves (he : g.IsEntry older e) (h : g.Evolves changed g')
    (hcls : SameClass (g.nodes e.cls) (g'.nodes e.cls))
    (hmeta : SameClass (g.nodes e.metaclass) (g'.nodes e.metaclass)) : g'.IsEntry older e where
  cls := he.cls.evolves h hcls
  metaclass :=
    let ⟨inherited, hinherits, hlinked⟩ := he.metaclass
    ⟨inherited, hinherits, hlinked.evolves h hmeta⟩
  name := by
    rw [hcls.field _ (by decide)]
    exact symbol?_evolves he.name h
  spec := (hcls.field _ (by decide)).trans he.spec
  sole := (hmeta.field _ (by decide)).trans he.sole

theorem Linked.evolves (hr : g.Linked roster) (h : g.Evolves changed g')
    (hsame : ∀ c ∈ classesOf roster, SameClass (g.nodes c) (g'.nodes c)) : g'.Linked roster := by
  induction roster with
  | nil => trivial
  | cons e rest ih =>
    refine ⟨hr.1.evolves h (hsame _ ?_) (hsame _ ?_), ih hr.2 fun c hc => hsame c ?_⟩
    · exact mem_classesOf.mpr ⟨e, List.mem_cons_self .., .inl rfl⟩
    · exact mem_classesOf.mpr ⟨e, List.mem_cons_self .., .inr rfl⟩
    · obtain ⟨e', he', hc⟩ := mem_classesOf.mp hc
      exact mem_classesOf.mpr ⟨e', List.mem_cons_of_mem _ he', hc⟩

/-- Every class has the layout of one. -/
theorem Linked.layout (hr : g.Linked roster) (hc : c ∈ classesOf roster) :
    c < g.next ∧ (g.nodes c).format = .plain ∧ (g.nodes c).fields = Class.fieldCount := by
  obtain ⟨e, he, rfl | rfl⟩ := mem_classesOf.mp hc
  · obtain ⟨_, -, hentry⟩ := hr.isEntry he
    exact ⟨hentry.cls.lt, hentry.cls.format, hentry.cls.fields⟩
  · obtain ⟨_, -, hentry⟩ := hr.isEntry he
    obtain ⟨_, -, hlinked⟩ := hentry.metaclass
    exact ⟨hlinked.lt, hlinked.format, hlinked.fields⟩

/-! ### Dictionaries -/

theorem World.Files.evolves (hf : w.Files g c) (h : g.Evolves changed g')
    (hshelf : (g'.nodes c).field Class.dictionaryField = (g.nodes c).field Class.dictionaryField)
    (hd : ¬ changed (w.shelf c).1) (ha : ¬ changed (w.shelf c).2) :
    w.Files g' c := by
  obtain ⟨slots, hdictionary, hmem⟩ := hf.places
  refine ⟨hshelf.trans hf.shelf, ⟨slots, hdictionary.evolves h hd ha, fun s m => ?_⟩, fun hm => ?_⟩
  · rw [hmem]
    constructor
    · rintro ⟨name, hname, hm⟩
      exact ⟨name, symbol?_evolves hname h, hm⟩
    · rintro ⟨name, hname, hm⟩
      obtain ⟨s', hs'⟩ := hf.interned hm
      have hsame := symbol?_evolves hs' h
      rw [hname] at hsame
      cases hsame
      exact ⟨name, hs', hm⟩
  · obtain ⟨s, hs⟩ := hf.interned hm
    exact ⟨s, symbol?_evolves hs h⟩

/-! ### Everything -/

theorem classNode_lt (k : KernelClass) : classNode k < kernelObjects := by
  unfold classNode kernelObjects
  omega

namespace World.Describes

/-- Every class has the layout of one. -/
theorem layout (hw : w.Describes g) (hc : c ∈ w.classes) :
    c < g.next ∧ (g.nodes c).format = .plain ∧ (g.nodes c).fields = Class.fieldCount :=
  hw.linked.layout hc

theorem next_le (hw : w.Describes g) : kernelObjects ≤ g.next := hw.settled.kernel.next

/-- The arrays of a dictionary are no classes. -/
theorem shelf_array (hw : w.Describes g) (hc : c ∈ w.classes) (hn : w.Keeps c n) :
    n < g.next ∧ (g.nodes n).format = .array := by
  obtain ⟨slots, hd, -⟩ := (hw.files c hc).places
  rcases hn with rfl | rfl
  · exact ⟨hd.selectors_lt, hd.selectors⟩
  · exact ⟨hd.methods_lt, hd.methods⟩

theorem ne_shelf (hw : w.Describes g) (hc : c ∈ w.classes) (hn : (g.nodes n).format = .plain) :
    ¬ w.Keeps c n := by
  intro hkeeps
  rw [(hw.shelf_array hc hkeeps).2] at hn
  cases hn

/-- Two dictionaries have no array in common. -/
theorem keeps_unique (hw : w.Describes g) (hc : c ∈ w.classes) (hc' : c' ∈ w.classes)
    (hn : w.Keeps c n) (hn' : w.Keeps c' n) : c = c' := by
  by_contra hne
  obtain ⟨slots, hd, -⟩ := (hw.files c hc).places
  obtain ⟨slots', hd', -⟩ := (hw.files c' hc').places
  have hapart := hw.apart c hc c' hc' hne
  have hfields : MethodDictionary.fieldCount ≠ 0 := by decide
  rcases hn with rfl | rfl <;> rcases hn' with hn' | hn'
  · exact hapart.1 hn'
  · exact hfields (hd.fields.symm.trans (hn' ▸ hd'.methods_fields))
  · exact hfields (hd'.fields.symm.trans (hn' ▸ hd.methods_fields))
  · exact hapart.2 hn'

/-- The association of a global is no class, and no array of a dictionary. -/
theorem association (hw : w.Describes g) (hn : (name, .object n) ∈ g.globals) :
    n < g.next ∧ kernelObjects ≤ n ∧ (g.nodes n).format = .plain ∧
      (g.nodes n).fields = Association.fieldCount := by
  obtain ⟨_, hv, hle, hlt, hformat, hfields⟩ := hw.settled.globals hn
  cases hv
  exact ⟨hlt, hle, hformat, hfields⟩

/-- The layout of the objects of the kernel stays. -/
theorem kernelLayout (hw : w.Describes g) (h : g.Evolves changed g') :
    ((g'.nodes 0).format = .plain ∧ (g'.nodes 0).fields = 0) ∧
      ∀ k, (g'.nodes (classNode k)).format = .plain ∧
        (g'.nodes (classNode k)).fields = Class.fieldCount := by
  have hlayout : ∀ n < kernelObjects, Node.SameLayout (g.nodes n) (g'.nodes n) :=
    fun n hn => h.layout n (hn.trans_le hw.next_le)
  have hnil := hlayout 0 (by decide)
  refine ⟨⟨hnil.format.trans hw.nil.1, hnil.fields.trans hw.nil.2⟩, fun k => ?_⟩
  have hcls := hlayout _ (classNode_lt k)
  exact ⟨hcls.format.trans (hw.bare k).1, hcls.fields.trans (hw.bare k).2⟩

/-- Temporaries, the memo and the pool are not looked at. -/
theorem other (hw : w.Describes g) (values : List Value) (memo : Value → Value → Value → Prop)
    (pool : Pool) :
    w.Describes { g with pinned := values, memo := memo, pool := pool } where
  settled :=
    { idle := hw.settled.idle
      kernel := { hw.settled.kernel with }
      symbols := hw.settled.symbols
      symbolsDistinct := hw.settled.symbolsDistinct
      globals := hw.settled.globals
      globalsDistinct := hw.settled.globalsDistinct }
  nil := hw.nil
  bare := hw.bare
  linked := hw.linked.evolves ((Evolves.refl (fun _ => False) g).other ..) fun _ _ => .of_eq rfl
  nodup := hw.nodup
  metaclasses := hw.metaclasses
  files c hc := (hw.files c hc).evolves ((Evolves.refl (fun _ => False) g).other ..) rfl id id
  apart := hw.apart
  bound := hw.bound

/-- Objects, symbols and globals may be added. -/
theorem grows (hw : w.Describes g) (h : g.Grows g') (hsettled : g'.Settled) : w.Describes g' where
  settled := hsettled
  nil := (hw.kernelLayout h).1
  bare := (hw.kernelLayout h).2
  linked := hw.linked.evolves h fun c hc => .of_eq (h.nodes c (hw.layout hc).1 id)
  nodup := hw.nodup
  metaclasses := hw.metaclasses
  files c hc := (hw.files c hc).evolves h (by rw [h.nodes c (hw.layout hc).1 id]) id id
  apart := hw.apart
  bound hv := by
    obtain ⟨n, hn, hvalue⟩ := hw.bound hv
    refine ⟨n, named?_mono hn h.globals, ?_⟩
    rw [h.nodes n (hw.association (mem_of_named? hn)).1 id]
    exact hvalue

/-- The dictionary of one class has other entries, or was replaced. -/
theorem filed (hw : w.Describes g) (hc : c ∈ w.classes) (hroster : w'.roster = w.roster)
    (hbindings : w'.bindings = w.bindings)
    (hothers : ∀ c' ≠ c, w'.shelf c' = w.shelf c' ∧ w'.log c' = w.log c')
    (h : g.Evolves (fun n => n = c ∨ n = (w.shelf c).1 ∨ n = (w.shelf c).2) g')
    (hsettled : g'.Settled) (hsame : SameClass (g.nodes c) (g'.nodes c)) (hfiles : w'.Files g' c)
    (hshelf : w'.shelf c = w.shelf c ∨ g.next ≤ (w'.shelf c).1 ∧ g.next ≤ (w'.shelf c).2) :
    w'.Describes g' := by
  have hclasses : w'.classes = w.classes := by
    unfold World.classes
    rw [hroster]
  -- What is plain is the class itself or none of what changed.
  have hplain : ∀ n < g.next, (g.nodes n).format = .plain → n ≠ c → g'.nodes n = g.nodes n :=
    fun n hn hformat hne => h.nodes n hn fun hchanged =>
      hchanged.elim hne (hw.ne_shelf hc hformat)
  have hclass : ∀ c' ∈ w.classes, SameClass (g.nodes c') (g'.nodes c') := by
    intro c' hc'
    obtain ⟨hlt, hformat, -⟩ := hw.layout hc'
    by_cases hne : c' = c
    · rw [hne]
      exact hsame
    · exact .of_eq (hplain c' hlt hformat hne)
  refine
    { settled := hsettled
      nil := (hw.kernelLayout h).1
      bare := (hw.kernelLayout h).2
      linked := ?_
      nodup := hclasses ▸ hw.nodup
      metaclasses := hroster ▸ hw.metaclasses
      files := fun c' hc' => ?_
      apart := ?_
      bound := ?_ }
  · rw [hroster]
    exact hw.linked.evolves h hclass
  · rw [hclasses] at hc'
    by_cases hne : c' = c
    · rw [hne]
      exact hfiles
    · obtain ⟨hlt, hformat, -⟩ := hw.layout hc'
      obtain ⟨hshelf', hlog⟩ := hothers c' hne
      have hunchanged : ∀ n, w.Keeps c' n → ¬ (n = c ∨ n = (w.shelf c).1 ∨ n = (w.shelf c).2) := by
        rintro n hn (rfl | hkeeps)
        · exact hw.ne_shelf hc' (hw.layout hc).2.1 hn
        · exact hne (hw.keeps_unique hc' hc hn hkeeps)
      have hsame' := (hw.files c' hc').evolves h (by rw [hplain c' hlt hformat hne])
        (hunchanged _ (.inl rfl)) (hunchanged _ (.inr rfl))
      exact
        { shelf := by rw [hshelf']; exact hsame'.shelf
          places := by rw [hshelf', hlog]; exact hsame'.places
          interned := by rw [hlog]; exact hsame'.interned }
  · intro c₁ hc₁ c₂ hc₂ hne
    rw [hclasses] at hc₁ hc₂
    -- A dictionary that was replaced has arrays that no other one can have had.
    have hnew : ∀ c' ∈ w.classes, c' ≠ c → (w'.shelf c).1 ≠ (w'.shelf c').1 ∧
        (w'.shelf c).2 ≠ (w'.shelf c').2 := by
      intro c' hc' hne
      rw [(hothers c' hne).1]
      rcases hshelf with hshelf | hshelf
      · rw [hshelf]
        exact hw.apart c hc c' hc' (Ne.symm hne)
      · have h₁ := (hw.shelf_array hc' (.inl rfl)).1
        have h₂ := (hw.shelf_array hc' (.inr rfl)).1
        omega
    by_cases h₁ : c₁ = c
    · rw [h₁] at hne ⊢
      exact hnew c₂ hc₂ (Ne.symm hne)
    · by_cases h₂ : c₂ = c
      · rw [h₂]
        exact ⟨(hnew c₁ hc₁ h₁).1.symm, (hnew c₁ hc₁ h₁).2.symm⟩
      · rw [(hothers c₁ h₁).1, (hothers c₂ h₂).1]
        exact hw.apart c₁ hc₁ c₂ hc₂ hne
  · intro name v hv
    rw [hbindings] at hv
    obtain ⟨n, hn, hvalue⟩ := hw.bound hv
    obtain ⟨hlt, -, hformat, hfields⟩ := hw.association (mem_of_named? hn)
    have hne : n ≠ c := by
      rintro rfl
      rw [(hw.layout hc).2.2] at hfields
      exact absurd hfields (by decide)
    refine ⟨n, named?_mono hn h.globals, ?_⟩
    rw [hplain n hlt hformat hne]
    exact hvalue

/-- A global has another value. -/
theorem bind (hw : w.Describes g) (h : g.Evolves (· = n) g') (hsettled : g'.Settled)
    (hn : named? g'.globals name = some (.object n)) (hvalue : (g'.nodes n).field Association.valueField = v)
    (hknown : n < g.next → named? g.globals name = some (.object n)) : (w.bind name v).Describes g' := by
  -- The association of the global is no class and not part of a dictionary.
  have hcls : ∀ c < g.next, (g.nodes c).format = .plain → (g.nodes c).fields = Class.fieldCount →
      g'.nodes c = g.nodes c := by
    intro c hlt hformat hfields
    refine h.nodes c hlt ?_
    rintro rfl
    rw [(hw.association (mem_of_named? (hknown hlt))).2.2.2] at hfields
    exact absurd hfields (by decide)
  have hkeeps : ∀ c ∈ w.classes, ∀ i, w.Keeps c i → i ≠ n := by
    rintro c hc i hi rfl
    obtain ⟨hlt, hformat⟩ := hw.shelf_array hc hi
    rw [(hw.association (mem_of_named? (hknown hlt))).2.2.1] at hformat
    cases hformat
  refine
    { settled := hsettled
      nil := (hw.kernelLayout h).1
      bare := (hw.kernelLayout h).2
      linked := hw.linked.evolves h fun c hc => ?_
      nodup := hw.nodup
      metaclasses := hw.metaclasses
      files := fun c hc => ?_
      apart := hw.apart
      bound := fun {name' v'} hv' => ?_ }
  · obtain ⟨hlt, hformat, hfields⟩ := hw.layout hc
    exact .of_eq (hcls c hlt hformat hfields)
  · obtain ⟨hlt, hformat, hfields⟩ := hw.layout hc
    have hfiles := (hw.files c hc).evolves h (by rw [hcls c hlt hformat hfields])
      (hkeeps c hc _ (.inl rfl)) (hkeeps c hc _ (.inr rfl))
    exact ⟨hfiles.shelf, hfiles.places, hfiles.interned⟩
  · by_cases hname : name' = name
    · subst hname
      have hlookup : (w.bind name' v).bindings.lookup name' = some v := List.lookup_cons_self
      exact ⟨n, hn, hvalue.trans (Option.some.inj (hlookup.symm.trans hv'))⟩
    · have hlookup : (w.bind name v).bindings.lookup name' = w.bindings.lookup name' := by
        show List.lookup name' ((name, v) :: w.bindings) = _
        rw [List.lookup_cons, beq_false_of_ne hname]
      rw [hlookup] at hv'
      obtain ⟨n', hn', hvalue'⟩ := hw.bound hv'
      have hmore := named?_mono hn' h.globals
      refine ⟨n', hmore, ?_⟩
      have hne : n' ≠ n := by
        rintro rfl
        exact hname (hsettled.globalsDistinct.name_unique (mem_of_named? hmore) (mem_of_named? hn))
      rw [h.nodes n' (hw.association (mem_of_named? hn')).1 hne]
      exact hvalue'

/-- A class is defined. -/
theorem enroll (hw : w.Describes g) {shelf metaShelf : Nat × Nat}
    (h : g.Evolves (fun n => n = e.cls ∨ n = e.metaclass) g') (hsettled : g'.Settled)
    (hentry : g'.IsEntry w.roster e) (hcls : e.cls ∉ w.classes) (hmeta : e.metaclass ∉ w.classes)
    (hne : e.cls ≠ e.metaclass) (hkernel : kernelObjects ≤ e.metaclass)
    (hplain : ∀ n, n = e.cls ∨ n = e.metaclass → n < g.next →
      (g.nodes n).format = .plain ∧ (g.nodes n).fields = Class.fieldCount)
    (hfiles : (w.enroll e shelf metaShelf).Files g' e.cls)
    (hmetaFiles : (w.enroll e shelf metaShelf).Files g' e.metaclass)
    (hshelf : shelf.1 ≠ metaShelf.1 ∧ shelf.2 ≠ metaShelf.2)
    (hnew : ∀ c ∈ w.classes, ∀ n, w.Keeps c n →
      n ≠ shelf.1 ∧ n ≠ shelf.2 ∧ n ≠ metaShelf.1 ∧ n ≠ metaShelf.2) :
    (w.enroll e shelf metaShelf).Describes g' := by
  have hclasses : (w.enroll e shelf metaShelf).classes = e.cls :: e.metaclass :: w.classes := rfl
  have hold : ∀ c ∈ w.classes, (w.enroll e shelf metaShelf).shelf c = w.shelf c ∧
      (w.enroll e shelf metaShelf).log c = w.log c := by
    intro c hc
    have hne₁ : c ≠ e.cls := by
      rintro rfl
      exact hcls hc
    have hne₂ : c ≠ e.metaclass := by
      rintro rfl
      exact hmeta hc
    simp [World.enroll, Function.update_of_ne hne₁, Function.update_of_ne hne₂]
  have hshelfCls : (w.enroll e shelf metaShelf).shelf e.cls = shelf := by
    simp [World.enroll, Function.update_of_ne hne]
  have hshelfMeta : (w.enroll e shelf metaShelf).shelf e.metaclass = metaShelf := by
    simp [World.enroll]
  refine
    { settled := hsettled
      nil := (hw.kernelLayout h).1
      bare := (hw.kernelLayout h).2
      linked := ⟨hentry, hw.linked.evolves h fun c hc => ?_⟩
      nodup := ?_
      metaclasses := ?_
      files := fun c hc => ?_
      apart := ?_
      bound := fun {name v} hv => ?_ }
  · refine .of_eq (h.nodes c (hw.layout hc).1 ?_)
    rintro (rfl | rfl)
    · exact hcls hc
    · exact hmeta hc
  · rw [hclasses]
    refine List.nodup_cons.mpr ⟨fun hc => ?_, List.nodup_cons.mpr ⟨hmeta, hw.nodup⟩⟩
    exact (List.mem_cons.mp hc).elim hne hcls
  · intro e' he'
    obtain rfl | he' := List.mem_cons.mp he'
    · exact hkernel
    · exact hw.metaclasses e' he'
  · rw [hclasses] at hc
    obtain rfl | hc := List.mem_cons.mp hc
    · exact hfiles
    obtain rfl | hc := List.mem_cons.mp hc
    · exact hmetaFiles
    · obtain ⟨hsame, hlog⟩ := hold c hc
      have hnot : ∀ n, w.Keeps c n → ¬ (n = e.cls ∨ n = e.metaclass) := by
        intro n hn hchanged
        obtain ⟨hlt, hformat⟩ := hw.shelf_array hc hn
        rw [(hplain n hchanged hlt).1] at hformat
        cases hformat
      have hunchanged : ¬ (c = e.cls ∨ c = e.metaclass) := by
        rintro (rfl | rfl)
        · exact hcls hc
        · exact hmeta hc
      have hf := (hw.files c hc).evolves h (by rw [h.nodes c (hw.layout hc).1 hunchanged])
        (hnot _ (.inl rfl)) (hnot _ (.inr rfl))
      exact
        { shelf := by rw [hsame]; exact hf.shelf
          places := by rw [hsame, hlog]; exact hf.places
          interned := by rw [hlog]; exact hf.interned }
  · have hapart : ∀ c ∈ w.classes, ∀ shelf', shelf' = shelf ∨ shelf' = metaShelf →
        (w.shelf c).1 ≠ shelf'.1 ∧ (w.shelf c).2 ≠ shelf'.2 := by
      intro c hc shelf' hshelf'
      have h₁ := hnew c hc _ (.inl rfl)
      have h₂ := hnew c hc _ (.inr rfl)
      rcases hshelf' with rfl | rfl
      · exact ⟨h₁.1, h₂.2.1⟩
      · exact ⟨h₁.2.2.1, h₂.2.2.2⟩
    -- The two new dictionaries are apart from one another and from those that there were.
    intro c hc c' hc' hcc'
    rw [hclasses] at hc hc'
    obtain rfl | hc := List.mem_cons.mp hc
    · rw [hshelfCls]
      obtain rfl | hc' := List.mem_cons.mp hc'
      · exact absurd rfl hcc'
      obtain rfl | hc' := List.mem_cons.mp hc'
      · rw [hshelfMeta]
        exact hshelf
      · rw [(hold c' hc').1]
        exact (hapart c' hc' shelf (.inl rfl)).imp Ne.symm Ne.symm
    obtain rfl | hc := List.mem_cons.mp hc
    · rw [hshelfMeta]
      obtain rfl | hc' := List.mem_cons.mp hc'
      · rw [hshelfCls]
        exact hshelf.imp Ne.symm Ne.symm
      obtain rfl | hc' := List.mem_cons.mp hc'
      · exact absurd rfl hcc'
      · rw [(hold c' hc').1]
        exact (hapart c' hc' metaShelf (.inr rfl)).imp Ne.symm Ne.symm
    · rw [(hold c hc).1]
      obtain rfl | hc' := List.mem_cons.mp hc'
      · rw [hshelfCls]
        exact hapart c hc shelf (.inl rfl)
      obtain rfl | hc' := List.mem_cons.mp hc'
      · rw [hshelfMeta]
        exact hapart c hc metaShelf (.inr rfl)
      · rw [(hold c' hc').1]
        exact hw.apart c hc c' hc' hcc'
  · obtain ⟨n, hn, hvalue⟩ := hw.bound hv
    obtain ⟨hlt, -, -, hfields⟩ := hw.association (mem_of_named? hn)
    refine ⟨n, named?_mono hn h.globals, ?_⟩
    rw [h.nodes n hlt fun hchanged => ?_]
    · exact hvalue
    · rw [(hplain n hchanged hlt).2] at hfields
      exact absurd hfields (by decide)

end World.Describes

/-- Objects may be added to a world. -/
theorem World.Advances.of_grows (w : World) (h : g.Grows g')
    (hglobals : ∀ {name n}, (name, .object n) ∈ g'.globals → n < g.next →
      ∃ name', (name', .object n) ∈ g.globals) : w.Advances g w g' where
  evolves := h.mono fun _ _ => False.elim
  loose n hn hl := by
    obtain h | h | h | ⟨name, h⟩ := hl
    · exact .inl h
    · exact .inr (.inl h)
    · exact .inr (.inr (.inl h))
    · exact .inr (.inr (.inr (hglobals h hn)))

/-! ## Chains of superclasses -/

/-- The superclasses of a class, itself included, end with nil. -/
inductive Ascends (g : Graph) : Value → List Nat → Prop
  | nil : Ascends g (.object 0) []
  | cons {n : Nat} {v : Value} {rest : List Nat} (hn : n ≠ 0)
    (hv : g.field (.object n) Class.superclassField = some v) (hrest : Ascends g v rest) :
    Ascends g (.object n) (n :: rest)

namespace Ascends

variable {chain chain' : List Nat}

theorem unique (h : g.Ascends v chain) (h' : g.Ascends v chain') : chain = chain' := by
  induction h generalizing chain' with
  | nil =>
    cases h' with
    | nil => rfl
    | cons hn => exact absurd rfl hn
  | cons hn hv _ ih =>
    cases h' with
    | nil => exact absurd rfl hn
    | cons _ hv' hrest' =>
      obtain rfl := Option.some.inj (hv.symm.trans hv')
      rw [ih hrest']

/-- Whatever is in a chain has the rest of it as its own. -/
theorem exists_of_mem (h : g.Ascends v chain) (hn : n ∈ chain) :
    ∃ rest, g.Ascends (.object n) (n :: rest) ∧ (n :: rest).length ≤ chain.length := by
  induction h with
  | nil => cases hn
  | @cons n' v' rest hne hv hrest ih =>
    obtain rfl | hn := List.mem_cons.mp hn
    · exact ⟨rest, .cons hne hv hrest, Nat.le_refl _⟩
    · obtain ⟨rest', hascends, hle⟩ := ih hn
      exact ⟨rest', hascends, hle.trans (by simp)⟩

/-- No class is its own ancestor. -/
theorem nodup (h : g.Ascends v chain) : chain.Nodup := by
  induction h with
  | nil => exact List.nodup_nil
  | @cons n v rest hne hv hrest ih =>
    refine List.nodup_cons.mpr ⟨fun hmem => ?_, ih⟩
    obtain ⟨rest', hascends, hle⟩ := hrest.exists_of_mem hmem
    obtain rfl := (List.cons.inj (hascends.unique (.cons hne hv hrest))).2
    simp at hle

theorem isLink_of_ne (hnil : g.nil = .object 0) (hn : n ≠ 0) : g.isLink (.object n) = true := by
  simp [isLink, hnil, hn]

theorem not_isLink (hnil : g.nil = .object 0) : g.isLink (.object 0) = false := by
  simp [isLink, hnil]

/-- A lookup takes the first method that is found along the chain. -/
theorem lookupMethod? (h : g.Ascends v chain) (hnil : g.nil = .object 0) {own : Nat → Option Value}
    (hown : ∀ c ∈ chain, g.ownMethod? (.object c) s = some (own c)) :
    g.lookupMethod? v s = some (chain.findSome? own) := by
  refine walked_eq_some.mpr ⟨chain.length + 1, ?_⟩
  induction h with
  | nil =>
    have hvisit : g.visitMethod s (.object 0) = some (.inl none) := by
      unfold visitMethod
      rw [not_isLink hnil]
      rfl
    unfold walk
    rw [hvisit]
    rfl
  | @cons n v rest hne hv hrest ih =>
    have hrec := ih fun c hc => hown c (List.mem_cons_of_mem _ hc)
    have hhead := hown n (List.mem_cons_self ..)
    unfold walk visitMethod
    rw [isLink_of_ne hnil hne, if_pos rfl, hhead, hv]
    cases hfound : own n with
    | some method => simp [hfound]
    | none =>
      rw [List.length_cons, List.findSome?_cons, hfound]
      show (walk (g.visitMethod s) (rest.length + 1) v).map id = _
      rw [Option.map_id, hrec]
      rfl

/-- A class inherits from what is in its chain. -/
theorem inheritsFrom (h : g.Ascends v chain) (hnil : g.nil = .object 0) (w : Value) :
    g.inheritsFrom v w = some (decide (w ∈ chain.map .object)) := by
  refine walked_eq_some.mpr ⟨chain.length + 1, ?_⟩
  induction h with
  | nil =>
    have hvisit : g.visitAncestor w (.object 0) = some (.inl false) := by
      unfold visitAncestor
      rw [not_isLink hnil]
      rfl
    unfold walk
    rw [hvisit]
    rfl
  | @cons n v rest hne hv hrest ih =>
    unfold walk visitAncestor
    rw [isLink_of_ne hnil hne, if_pos rfl]
    by_cases heq : .object n = w
    · simp [heq]
    · rw [if_neg heq, hv]
      show (walk (g.visitAncestor w) (rest.length + 1) v).map id = _
      rw [Option.map_id, ih]
      simp [Ne.symm heq]

end Ascends

/-- The dictionary of a class is looked at. -/
theorem ownMethod?_eq {d : Nat} (hnil : g.nil = .object 0)
    (hdictionary : g.field v Class.dictionaryField = some (.object d)) (hne : d ≠ 0) :
    g.ownMethod? v s = g.methodAt? (.object d) s := by
  unfold ownMethod?
  rw [hdictionary]
  show (if g.isLink (.object d) = true then _ else _) = _
  rw [if_pos (Ascends.isLink_of_ne hnil hne)]

namespace World.Describes

theorem nil_eq (hw : w.Describes g) : g.nil = .object 0 := hw.settled.kernel.nil

/-- Classes are not nil. -/
theorem ne_zero (hw : w.Describes g) (hc : c ∈ w.classes) : c ≠ 0 := by
  rintro rfl
  have hfields := (hw.layout hc).2.2
  rw [hw.nil.2] at hfields
  exact absurd hfields (by decide)

theorem superclass_field (hw : w.Describes g) (hc : c ∈ w.classes) :
    g.field (.object c) Class.superclassField =
      some ((g.nodes c).field Class.superclassField) :=
  field_of_lt (by rw [(hw.layout hc).2.2]; decide)

/-- The superclasses of a class are older classes. -/
theorem ascends_linked (hw : w.Describes g) (hroster : roster <:+ w.roster) (he : e ∈ roster) :
    ∃ chain, g.Ascends (.object e.cls) chain ∧ ∀ c ∈ chain, c ∈ w.classes := by
  induction roster generalizing e with
  | nil => cases he
  | cons e' older ih =>
    have holder : older <:+ w.roster := (List.suffix_cons ..).trans hroster
    obtain rfl | he := List.mem_cons.mp he
    · have hmem : e.cls ∈ w.classes :=
        mem_classesOf.mpr ⟨e, hroster.mem (List.mem_cons_self ..), .inl rfl⟩
      have hentry : g.IsEntry older e := (hw.linked.of_suffix hroster).1
      have hfield := hw.superclass_field hmem
      rw [hentry.cls.superclass] at hfield
      obtain ⟨inherited, hinherits, -⟩ := hentry.metaclass
      cases hsuper : e.superclass with
      | none =>
        rw [hsuper] at hfield
        refine ⟨[e.cls], .cons (hw.ne_zero hmem) hfield .nil, ?_⟩
        simpa using hmem
      | some s =>
        unfold Entry.Inherits at hinherits
        rw [hsuper] at hfield hinherits
        obtain ⟨e', he', rfl, -⟩ := hinherits
        obtain ⟨chain, hchain, hall⟩ := ih holder he'
        refine ⟨e.cls :: chain, .cons (hw.ne_zero hmem) hfield hchain, ?_⟩
        intro c hc
        obtain rfl | hc := List.mem_cons.mp hc
        · exact hmem
        · exact hall c hc
    · exact ih holder he

theorem ascends_cls (hw : w.Describes g) (he : e ∈ w.roster) :
    ∃ chain, g.Ascends (.object e.cls) chain ∧ ∀ c ∈ chain, c ∈ w.classes :=
  hw.ascends_linked List.suffix_rfl he

/-- The superclasses of a metaclass are the metaclasses of older classes, and then the class of
classes and its superclasses. -/
theorem ascends_metaclass (hw : w.Describes g) (he : e ∈ w.roster) {top : Entry}
    (htop : top ∈ w.roster) (hcls : top.cls = classNode .theClass) :
    ∃ chain, g.Ascends (.object e.metaclass) chain ∧ ∀ c ∈ chain, c ∈ w.classes := by
  obtain ⟨topChain, htopChain, htopAll⟩ := hw.ascends_cls htop
  rw [hcls] at htopChain
  have hall : ∀ roster, roster <:+ w.roster → ∀ e ∈ roster, ∃ chain,
      g.Ascends (.object e.metaclass) chain ∧ ∀ c ∈ chain, c ∈ w.classes := by
    intro roster hroster
    induction roster with
    | nil => nofun
    | cons e' older ih =>
      intro e he
      have holder : older <:+ w.roster := (List.suffix_cons ..).trans hroster
      obtain rfl | he := List.mem_cons.mp he
      · have hmem : e.metaclass ∈ w.classes :=
          mem_classesOf.mpr ⟨e, hroster.mem (List.mem_cons_self ..), .inr rfl⟩
        have hentry : g.IsEntry older e := (hw.linked.of_suffix hroster).1
        obtain ⟨inherited, hinherits, hlinked⟩ := hentry.metaclass
        have hfield := hw.superclass_field hmem
        rw [hlinked.superclass] at hfield
        have hrest : ∃ chain, g.Ascends (.object inherited) chain ∧ ∀ c ∈ chain, c ∈ w.classes := by
          unfold Entry.Inherits at hinherits
          cases hsuper : e.superclass with
          | none =>
            rw [hsuper] at hinherits
            rw [hinherits]
            exact ⟨topChain, htopChain, htopAll⟩
          | some s =>
            rw [hsuper] at hinherits
            obtain ⟨e', he', -, rfl⟩ := hinherits
            exact ih holder e' he'
        obtain ⟨chain, hchain, hchainAll⟩ := hrest
        refine ⟨e.metaclass :: chain, .cons (hw.ne_zero hmem) hfield hchain, ?_⟩
        intro c hc
        obtain rfl | hc := List.mem_cons.mp hc
        · exact hmem
        · exact hchainAll c hc
      · exact ih holder e he
  exact hall _ List.suffix_rfl e he

/-! ### Methods -/

theorem dictionary_field (hw : w.Describes g) (hc : c ∈ w.classes) :
    g.field (.object c) Class.dictionaryField = some (.object (w.shelf c).1) := by
  rw [field_of_lt (by rw [(hw.layout hc).2.2]; decide), (hw.files c hc).shelf]

/-- The dictionary of a class is not nil. -/
theorem shelf_ne_zero (hw : w.Describes g) (hc : c ∈ w.classes) : (w.shelf c).1 ≠ 0 := by
  intro hzero
  have harray := (hw.shelf_array hc (.inl rfl)).2
  rw [hzero, hw.nil.1] at harray
  cases harray

/-- The dictionary of a class answers every selector. -/
theorem ownMethod?_total (hw : w.Describes g) (hc : c ∈ w.classes) (hs : g.IsSelector s) :
    ∃ found, g.ownMethod? (.object c) s = some found := by
  obtain ⟨slots, hd, -⟩ := (hw.files c hc).places
  rw [ownMethod?_eq hw.nil_eq (hw.dictionary_field hc) (hw.shelf_ne_zero hc)]
  by_cases hmem : ∃ m, some (s, m) ∈ slots
  · obtain ⟨m, hm⟩ := hmem
    exact ⟨some m, hd.methodAt?_of_mem hs hm⟩
  · exact ⟨none, hd.methodAt?_of_not_mem hs fun m hm => hmem ⟨m, hm⟩⟩

/-- A lookup of anything comes to an end. -/
theorem lookupMethod?_total (hw : w.Describes g) {chain : List Nat} (hchain : g.Ascends v chain)
    (hall : ∀ c ∈ chain, c ∈ w.classes) (hs : g.IsSelector s) :
    ∃ found, g.lookupMethod? v s = some found := by
  classical
  have hown : ∀ c, ∃ found, c ∈ chain → g.ownMethod? (.object c) s = some found := by
    intro c
    by_cases hc : c ∈ chain
    · obtain ⟨found, hfound⟩ := hw.ownMethod?_total (hall c hc) hs
      exact ⟨found, fun _ => hfound⟩
    · exact ⟨none, fun h => absurd h hc⟩
  choose own hfound using hown
  exact ⟨_, hchain.lookupMethod? hw.nil_eq fun c hc => hfound c hc⟩

/-! ### Names -/

/-- The name of a class is a text. -/
theorem className_cls (hw : w.Describes g) (he : e ∈ w.roster) :
    g.className (.object e.cls) = some (Text.utf8Text (Text.utf8Bytes e.name)) := by
  obtain ⟨older, hsuffix, hentry⟩ := hw.linked.isEntry he
  have hcls : e.cls ∈ w.classes := mem_classesOf.mpr ⟨e, he, .inl rfl⟩
  obtain ⟨n, hname, -, -, -, hsymbol, hbytes⟩ := hw.settled.isSymbol hentry.name
  have hmeta : g.isInstance .metaclass (.object e.cls) = false := by
    have hle := hw.metaclasses e he
    have hlt := classNode_lt .metaclass
    have hne : (g.nodes e.cls).cls ≠ g.core.cls .metaclass := by
      rw [hentry.cls.cls, hw.settled.kernel.cls]
      intro heq
      rw [Value.object.inj heq] at hle
      omega
    simp [isInstance, hne]
  have hfield : g.field (.object e.cls) Class.nameField = some (.object n) := by
    rw [field_of_lt (by rw [(hw.layout hcls).2.2]; decide), hname]
  have htext : g.isText (.object n) = true := by
    simp [isText, isInstance, hsymbol]
  rw [hname] at hbytes
  have hvalue : g.stringValue? (.object n) = some (some (Text.utf8Text (Text.utf8Bytes e.name))) := by
    unfold stringValue?
    rw [htext, if_pos rfl, hbytes]
    rfl
  have hvisit : g.visitName (.object e.cls) = some (.inl (Text.utf8Text (Text.utf8Bytes e.name))) := by
    unfold visitName
    rw [hmeta, hfield]
    show (g.stringValue? (.object n)).bind _ = _
    rw [hvalue]
    rfl
  refine walked_eq_some.mpr ⟨1, ?_⟩
  unfold walk
  rw [hvisit]

theorem className_metaclass (hw : w.Describes g) (he : e ∈ w.roster) :
    g.className (.object e.metaclass) = some (Text.utf8Text (Text.utf8Bytes e.name) ++ " class") := by
  obtain ⟨older, hsuffix, hentry⟩ := hw.linked.isEntry he
  obtain ⟨_, -, hlinked⟩ := hentry.metaclass
  have hcls : e.metaclass ∈ w.classes := mem_classesOf.mpr ⟨e, he, .inr rfl⟩
  obtain ⟨fuel, hwalk⟩ := walked_eq_some.mp (hw.className_cls he)
  have hmeta : g.isInstance .metaclass (.object e.metaclass) = true := by
    simp [isInstance, hlinked.cls, hw.settled.kernel.cls]
  have hfield : g.field (.object e.metaclass) Class.instanceField = some (.object e.cls) := by
    rw [field_of_lt (by rw [(hw.layout hcls).2.2]; decide), hentry.sole]
  refine walked_eq_some.mpr ⟨fuel + 1, ?_⟩
  have hvisit : g.visitName (.object e.metaclass) = some (.inr (.object e.cls, (· ++ " class"))) := by
    unfold visitName
    rw [hmeta, hfield]
    rfl
  unfold walk
  rw [hvisit]
  show (walk g.visitName fuel (.object e.cls)).map (· ++ " class") = _
  rw [hwalk]
  rfl

theorem className_total (hw : w.Describes g) (hc : c ∈ w.classes) :
    ∃ name, g.className (.object c) = some name := by
  obtain ⟨e, he, rfl | rfl⟩ := mem_classesOf.mp hc
  · exact ⟨_, hw.className_cls he⟩
  · exact ⟨_, hw.className_metaclass he⟩

end World.Describes

end ObjectMachine.Graph
