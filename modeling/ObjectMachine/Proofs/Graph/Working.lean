import ObjectMachine.Proofs.Graph.Bootstrapping
import ObjectMachine.Proofs.Graph.Finishing

/-!
# Graphs at work

While methods run, contexts change, and so do the registers. As long as a program only computes, what
else there was stays as it was: the classes, the methods, the symbols, and the contexts of the
activations that wait for an answer.

## Main results

* `Graph.Works`: what stays while contexts change.
* `Graph.World.Guides`: a graph at work has the classes and the methods of a world, and whatever the
  machine keeps to be faster agrees with them.
-/

namespace ObjectMachine

namespace Graph

/-- The registers when nothing is active. -/
def Registers.idle : Registers where
  active := .immediate .null
  home := .immediate .null
  method := .immediate .null
  receiver := .immediate .null
  literals := .immediate .null
  code := .immediate .null
  pc := 0
  sp := 0
  tempLimit := 0
  selector := .immediate .null
  argCount := 0
  lookupClass := .immediate .null
  newMethod := .immediate .null

/-- The graph without what is active. -/
def atRest (g : Graph) : Graph := { g with registers := .idle }

section AtRest

variable (g : Graph)

@[simp] theorem nodes_atRest : g.atRest.nodes = g.nodes := rfl
@[simp] theorem next_atRest : g.atRest.next = g.next := rfl
@[simp] theorem nil_atRest : g.atRest.nil = g.nil := rfl
@[simp] theorem core_atRest : g.atRest.core = g.core := rfl
@[simp] theorem symbols_atRest : g.atRest.symbols = g.symbols := rfl
@[simp] theorem globals_atRest : g.atRest.globals = g.globals := rfl

end AtRest

variable {g g' g'' : Graph} {w w' : World} {n c : Nat} {name : String} {v s method : Value}
  {held held' busy : List Nat} {chain : List Nat}

/-! ## What stays -/

/-- Contexts may have changed, except for those that are held, and objects were added. -/
structure Works (held : List Nat) (g g' : Graph) : Prop where
  evolves : g.atRest.Evolves (fun n => (g.nodes n).format = .context ∧ n ∉ held) g'.atRest
  symbols : g'.symbols = g.symbols
  globals : g'.globals = g.globals
  pinned : g'.pinned = g.pinned

namespace Works

theorem next_le (h : Works held g g') : g.next ≤ g'.next := h.evolves.next_le

theorem core (h : Works held g g') : g'.core = g.core := h.evolves.core

theorem nil (h : Works held g g') : g'.nil = g.nil := h.evolves.nil

theorem layout (h : Works held g g') (hn : n < g.next) : Node.SameLayout (g.nodes n) (g'.nodes n) :=
  h.evolves.layout n hn

/-- What is no context is what it was. -/
theorem nodes_eq (h : Works held g g') (hn : n < g.next) (hformat : (g.nodes n).format ≠ .context) :
    g'.nodes n = g.nodes n :=
  h.evolves.nodes n hn fun hc => hformat hc.1

/-- Nor is a context that is held. -/
theorem held_eq (h : Works held g g') (hn : n < g.next) (hheld : n ∈ held) : g'.nodes n = g.nodes n :=
  h.evolves.nodes n hn fun hc => hc.2 hheld

/-- What is not looked at may be anything. -/
theorem other (g : Graph) (registers : Registers) (memo : Value → Value → Value → Prop) (pool : Pool) :
    Works held g { g with registers, memo, pool } :=
  ⟨{ Evolves.refl _ g.atRest with }, rfl, rfl, rfl⟩

theorem refl (held : List Nat) (g : Graph) : Works held g g := ⟨.refl _ _, rfl, rfl, rfl⟩

theorem trans (h : Works held g g') (h' : Works held g' g'') : Works held g g'' where
  evolves := h.evolves.trans h'.evolves fun _ hn hc => ⟨(h.layout hn).format ▸ hc.1, hc.2⟩
  symbols := h'.symbols.trans h.symbols
  globals := h'.globals.trans h.globals
  pinned := h'.pinned.trans h.pinned

theorem mono (h : Works held g g') (hsub : held' ⊆ held) : Works held' g g' :=
  ⟨h.evolves.mono fun _ _ hc => ⟨hc.1, fun hmem => hc.2 (hsub hmem)⟩, h.symbols, h.globals, h.pinned⟩

/-- A context is changed. -/
theorem setNode {o : Node} (hlayout : Node.SameLayout (g.nodes c) o) (hhash : o.hash = (g.nodes c).hash)
    (hcontext : (g.nodes c).format = .context) (hheld : c ∉ held) : Works held g (g.setNode c o) :=
  ⟨(evolves_setNode (g := g.atRest) hlayout hhash).mono fun _ _ heq => heq ▸ ⟨hcontext, hheld⟩, rfl, rfl,
    rfl⟩

/-- An object is added. -/
theorem withNew (o : Node) : Works held g (g.withNew o) :=
  ⟨(grows_withNew g.atRest g.pool o).mono fun _ _ hc => hc.elim, rfl, rfl, rfl⟩

/-- What was pinned in between is not any more. -/
theorem unpinned {values : List Value} (h : Works held (g.withPinned values) g') :
    Works held g (g'.withPinned g.pinned) :=
  ⟨{ h.evolves with }, h.symbols, h.globals, rfl⟩

theorem symbol? (h : Works held g g') : g'.symbol? name = g.symbol? name := by
  unfold Graph.symbol?
  rw [h.symbols]

theorem isInteger {value : Int} (h : Works held g g') (hv : g.IsInteger v value) :
    g'.IsInteger v value := by
  unfold IsInteger at hv ⊢
  split at hv
  · exact hv
  · obtain ⟨n, rfl, hn, hformat, hcls, hlarge⟩ := hv
    rw [h.core]
    have hsame := h.nodes_eq hn (by rw [hformat]; nofun)
    exact ⟨n, rfl, hn.trans_le h.next_le, by rw [hsame, hformat], by rw [hsame, hcls],
      by rw [hsame, hlarge]⟩

end Works

/-- Chains of superclasses depend on superclasses alone. -/
theorem Ascends.congr (h : g.Ascends v chain)
    (hfield : ∀ c ∈ chain, g'.field (.object c) Class.superclassField =
      g.field (.object c) Class.superclassField) : g'.Ascends v chain := by
  induction h with
  | nil => exact .nil
  | cons hn hv _ ih =>
    exact .cons hn ((hfield _ List.mem_cons_self).trans hv) (ih fun c hc => hfield c (List.mem_cons_of_mem _ hc))

/-- A graph at work has the classes and the methods of a world. -/
theorem World.Describes.works (hw : w.Describes g.atRest) (h : Works held g g') :
    w.Describes g'.atRest := by
  have hplain : ∀ c ∈ w.classes, g'.nodes c = g.nodes c := fun c hc =>
    h.nodes_eq (hw.layout hc).1 (by rw [show (g.nodes c).format = _ from (hw.layout hc).2.1]; nofun)
  have hshelf : ∀ c ∈ w.classes, ∀ n, w.Keeps c n → ¬ ((g.nodes n).format = .context ∧ n ∉ held) := by
    intro c hc n hkeeps hchanged
    have harray : (g.nodes n).format = .array := (hw.shelf_array hc hkeeps).2
    rw [harray] at hchanged
    exact nomatch hchanged.1
  exact
    { settled := hw.settled.evolves h.evolves h.symbols h.globals fun n _ hc => by
        rw [show (g.atRest.nodes n).format = _ from hc.1]
        nofun
      nil := (hw.kernelLayout h.evolves).1
      bare := (hw.kernelLayout h.evolves).2
      linked := hw.linked.evolves h.evolves fun c hc => .of_eq (hplain c hc)
      nodup := hw.nodup
      metaclasses := hw.metaclasses
      files := fun c hc => (hw.files c hc).evolves h.evolves
        (congrArg (Node.field · Class.dictionaryField) (hplain c hc))
        (hshelf c hc _ (.inl rfl)) (hshelf c hc _ (.inr rfl))
      apart := hw.apart
      bound := fun hv => by
        obtain ⟨n, hn, hvalue⟩ := hw.bound hv
        obtain ⟨hlt, -, hformat, -⟩ := hw.association (mem_of_named? hn)
        refine ⟨n, named?_mono hn h.evolves.globals, ?_⟩
        have hsame := h.nodes_eq hlt (by rw [show (g.nodes n).format = _ from hformat]; nofun)
        exact (congrArg (Node.field · Association.valueField) hsame).trans hvalue }

/-- A class keeps its superclass. -/
theorem World.Describes.superclass_works (hw : w.Describes g.atRest) (h : Works held g g') (hc : c ∈ w.classes) :
    g'.field (.object c) Class.superclassField = g.field (.object c) Class.superclassField := by
  have hlayout := hw.layout hc
  have hsame : g'.nodes c = g.nodes c :=
    h.nodes_eq hlayout.1 (by rw [show (g.nodes c).format = _ from hlayout.2.1]; nofun)
  simp only [Graph.field, node?_object, hsame]

theorem World.Describes.ascends_works (hw : w.Describes g.atRest) (h : Works held g g')
    (hchain : g.Ascends v chain) (hall : ∀ c ∈ chain, c ∈ w.classes) : g'.Ascends v chain :=
  hchain.congr fun c hc => hw.superclass_works h (hall c hc)

/-! ## Lookups at work -/

/-- A dictionary is one whatever is active. -/
theorem IsDictionary.of_atRest {d a : Nat} {slots : Slots Value Value}
    (h : g.atRest.IsDictionary d a slots) : g.IsDictionary d a slots :=
  { h with }

namespace World.Describes

/-- A class has what was added last for a name, while methods run. -/
theorem ownMethod?_atWork (hw : w.Describes g.atRest) (hc : c ∈ w.classes) (hs : g.symbol? name = some s) :
    g.ownMethod? (.object c) s = some ((w.log c).lookup name) := by
  obtain ⟨slots, hd, hmem⟩ := (hw.files c hc).places
  have hd := hd.of_atRest
  have hsymbol : g.symbol? name = some s := hs
  have hselector : g.IsSelector s := (hw.settled.isSymbol hs).isSelector hw.settled.kernel
  have hfield : g.field (.object c) Class.dictionaryField = some (.object (w.shelf c).1) :=
    hw.dictionary_field hc
  rw [ownMethod?_eq (show g.nil = .object 0 from hw.nil_eq) hfield (hw.shelf_ne_zero hc)]
  cases hlog : (w.log c).lookup name with
  | some m => exact hd.methodAt?_of_mem hselector ((hmem s m).mpr ⟨name, hs, hlog⟩)
  | none =>
    refine hd.methodAt?_of_not_mem hselector fun m hm => ?_
    obtain ⟨name', hs', hlog'⟩ := (hmem s m).mp hm
    obtain rfl := hw.settled.symbolsDistinct.name_unique (mem_of_named? hs) (mem_of_named? hs')
    rw [hlog] at hlog'
    cases hlog'

/-- A lookup finds what was added last for a name, along the chain of superclasses. -/
theorem lookupMethod?_atWork (hw : w.Describes g.atRest) (hchain : g.Ascends v chain)
    (hall : ∀ c ∈ chain, c ∈ w.classes) (hs : g.symbol? name = some s) :
    g.lookupMethod? v s = some (chain.findSome? fun c => (w.log c).lookup name) :=
  hchain.lookupMethod? hw.nil_eq fun c hc => hw.ownMethod?_atWork (hall c hc) hs

end World.Describes

/-! ## What the machine keeps to be faster -/

/-- A context with a frame of a size. -/
structure IsFree (g : Graph) (size n : Nat) : Prop where
  lt : n < g.next
  format : (g.nodes n).format = .context
  fields : (g.nodes n).fields = contextFields
  len : (g.nodes n).len = size

/-- The pool has contexts other than those that are busy, each of them once. -/
structure Pooled (g : Graph) (busy : List Nat) : Prop where
  busy_lt : ∀ n ∈ busy, n < g.next
  small : ∀ v ∈ g.pool.small, ∃ n, v = .object n ∧ g.IsFree ContextPool.smallFrame n ∧ n ∉ busy
  large : ∀ v ∈ g.pool.large, ∃ n, v = .object n ∧ g.IsFree ContextPool.largeFrame n ∧ n ∉ busy
  smallOnce : g.pool.small.Nodup
  largeOnce : g.pool.large.Nodup

/-- What is remembered of a class and a symbol is what a lookup finds. -/
def World.Remembers (w : World) (g : Graph) : Prop :=
  ∀ {cls selector method : Value}, g.memo cls selector method → ∃ name chain, g.symbol? name = some selector ∧
    g.Ascends cls chain ∧ (∀ c ∈ chain, c ∈ w.classes) ∧
      (chain.findSome? fun c => (w.log c).lookup name) = some method

/-- A graph at work has the classes and the methods of a world, and a cache and a pool that agree with
them. -/
structure World.Guides (w : World) (g : Graph) (busy : List Nat) : Prop where
  describes : w.Describes g.atRest
  remembers : w.Remembers g
  pooled : g.Pooled busy

theorem IsFree.works {size : Nat} (hn : g.IsFree size n) (h : Works held g g') : g'.IsFree size n where
  lt := hn.lt.trans_le h.next_le
  format := (h.layout hn.lt).format.trans hn.format
  fields := (h.layout hn.lt).fields.trans hn.fields
  len := (h.layout hn.lt).len.trans hn.len

theorem Pooled.of_free (hp : g.Pooled busy) (hle : g.next ≤ g'.next)
    (hfree : ∀ {size n}, g.IsFree size n → g'.IsFree size n) (hpool : g'.pool = g.pool) :
    g'.Pooled busy where
  busy_lt n hn := (hp.busy_lt n hn).trans_le hle
  small v hv := by
    obtain ⟨n, rfl, hn, hbusy⟩ := hp.small v (hpool ▸ hv)
    exact ⟨n, rfl, hfree hn, hbusy⟩
  large v hv := by
    obtain ⟨n, rfl, hn, hbusy⟩ := hp.large v (hpool ▸ hv)
    exact ⟨n, rfl, hfree hn, hbusy⟩
  smallOnce := hpool ▸ hp.smallOnce
  largeOnce := hpool ▸ hp.largeOnce

theorem Pooled.works (hp : g.Pooled busy) (h : Works held g g') (hpool : g'.pool = g.pool) :
    g'.Pooled busy :=
  hp.of_free h.next_le (fun hn => hn.works h) hpool

theorem Pooled.empty (hbusy : ∀ n ∈ busy, n < g.next) (hpool : g.pool = ⟨[], []⟩) : g.Pooled busy where
  busy_lt := hbusy
  small _ hv := by rw [hpool] at hv; cases hv
  large _ hv := by rw [hpool] at hv; cases hv
  smallOnce := by rw [hpool]; exact List.nodup_nil
  largeOnce := by rw [hpool]; exact List.nodup_nil

theorem Pooled.mono {fewer : List Nat} (hp : g.Pooled busy) (hsub : fewer ⊆ busy) : g.Pooled fewer where
  busy_lt n hn := hp.busy_lt n (hsub hn)
  small v hv := by
    obtain ⟨n, rfl, hn, hbusy⟩ := hp.small v hv
    exact ⟨n, rfl, hn, fun hmem => hbusy (hsub hmem)⟩
  large v hv := by
    obtain ⟨n, rfl, hn, hbusy⟩ := hp.large v hv
    exact ⟨n, rfl, hn, fun hmem => hbusy (hsub hmem)⟩
  smallOnce := hp.smallOnce
  largeOnce := hp.largeOnce

theorem findSome?_congr {α β : Type} {f h : α → Option β} {xs : List α} (hall : ∀ x ∈ xs, f x = h x) :
    xs.findSome? f = xs.findSome? h := by
  induction xs with
  | nil => rfl
  | cons x xs ih =>
    rw [List.findSome?_cons, List.findSome?_cons, hall x List.mem_cons_self,
      ih fun y hy => hall y (List.mem_cons_of_mem _ hy)]

/-- Whoever is a class stays what it is, as far as lookups are concerned. -/
theorem World.Remembers.of_less (hr : w.Remembers g) (hless : ∀ {cls selector method}, g'.memo cls selector method →
      g.memo cls selector method)
    (hsymbol : ∀ {name s}, g.symbol? name = some s → g'.symbol? name = some s)
    (hfield : ∀ c ∈ w.classes, g'.field (.object c) Class.superclassField =
      g.field (.object c) Class.superclassField)
    (hclass : ∀ c ∈ w.classes, c ∈ w'.classes ∧ w'.log c = w.log c) : w'.Remembers g' := by
  intro cls selector method hm
  obtain ⟨name, chain, hs, hchain, hall, hfound⟩ := hr (hless hm)
  refine ⟨name, chain, hsymbol hs, hchain.congr fun c hc => hfield c (hall c hc), fun c hc => (hclass c (hall c hc)).1,
    ?_⟩
  rw [← hfound]
  exact findSome?_congr fun c hc => by rw [(hclass c (hall c hc)).2]

/-- Contexts were changed, and objects were added. -/
theorem World.Guides.works {busy' : List Nat} (hg : w.Guides g busy) (h : Works held g g')
    (hmemo : g'.memo = g.memo) (hpooled : g'.Pooled busy') : w.Guides g' busy' where
  describes := hg.describes.works h
  remembers := World.Remembers.of_less hg.remembers (fun hm => hmemo ▸ hm) (fun hs => h.symbol?.trans hs)
    (fun _ hc => hg.describes.superclass_works h hc) fun _ hc => ⟨hc, rfl⟩
  pooled := hpooled

theorem World.Guides.mono {fewer : List Nat} (hg : w.Guides g busy) (hsub : fewer ⊆ busy) :
    w.Guides g fewer :=
  { hg with pooled := hg.pooled.mono hsub }

/-- Temporaries are not looked at. -/
theorem World.Guides.withPinned (hg : w.Guides g busy) (values : List Value) :
    w.Guides (g.withPinned values) busy where
  describes := hg.describes.withPinned values
  remembers := @World.Remembers.of_less g (g.withPinned values) w w hg.remembers id id (fun _ _ => rfl)
    fun _ hc => ⟨hc, rfl⟩
  pooled := hg.pooled.of_free (Nat.le_refl _) (fun hn => { hn with }) rfl

/-! ## Graphs at rest -/

theorem Linked.withRegisters {roster : List Entry} (h : g.Linked roster) (registers : Registers) :
    ({ g with registers } : Graph).Linked roster := by
  induction roster with
  | nil => trivial
  | cons e older ih =>
    exact ⟨⟨{ h.1.cls with }, h.1.metaclass.imp fun _ hm => ⟨hm.1, { hm.2 with }⟩, h.1.name, h.1.spec,
      h.1.sole⟩, ih h.2⟩

/-- Which registers there are does not matter, as long as nothing is active. -/
theorem World.Describes.withRegisters (hw : w.Describes g) (registers : Registers)
    (hidle : ({ g with registers } : Graph).Idle) : w.Describes { g with registers } where
  settled :=
    { idle := hidle
      kernel := { hw.settled.kernel with }
      symbols := hw.settled.symbols
      symbolsDistinct := hw.settled.symbolsDistinct
      globals := hw.settled.globals
      globalsDistinct := hw.settled.globalsDistinct }
  nil := hw.nil
  bare := hw.bare
  linked := hw.linked.withRegisters registers
  nodup := hw.nodup
  metaclasses := hw.metaclasses
  files c hc :=
    have hfiles := hw.files c hc
    ⟨hfiles.shelf, hfiles.places.imp fun _ h => ⟨{ h.1 with }, h.2⟩, hfiles.interned⟩
  apart := hw.apart
  bound := hw.bound

/-- Superclasses are those that were given with the definitions. -/
theorem World.Describes.superclass_unique (hw : w.Describes g) (hw' : w'.Describes g')
    (hroster : w.roster <:+ w'.roster) (hc : c ∈ w.classes) :
    (g'.nodes c).field Class.superclassField = (g.nodes c).field Class.superclassField := by
  suffices ∀ roster : List Entry, roster <:+ w.roster → g.Linked roster → g'.Linked roster →
      c ∈ classesOf roster → (g'.nodes c).field Class.superclassField =
        (g.nodes c).field Class.superclassField from
      this _ List.suffix_rfl hw.linked (hw'.linked.of_suffix hroster) hc
  intro roster hsuffix hlinked hlinked' hc
  induction roster with
  | nil => cases hc
  | cons e older ih =>
    have holder : ∀ e' ∈ older, e' ∈ w.roster := fun e' he' =>
      hsuffix.mem (List.mem_cons_of_mem _ he')
    rcases List.mem_append.mp (show c ∈ [e.cls, e.metaclass] ++ classesOf older from hc) with hown | hc
    · rcases List.mem_pair.mp hown with rfl | rfl
      · exact hlinked'.1.cls.superclass.trans hlinked.1.cls.superclass.symm
      · obtain ⟨inherited, hinherits, hmeta⟩ := hlinked.1.metaclass
        obtain ⟨inherited', hinherits', hmeta'⟩ := hlinked'.1.metaclass
        have heq : inherited' = inherited := by
          unfold Entry.Inherits at hinherits hinherits'
          cases hsuperclass : e.superclass with
          | none =>
            rw [hsuperclass] at hinherits hinherits'
            exact hinherits'.trans hinherits.symm
          | some s =>
            rw [hsuperclass] at hinherits hinherits'
            obtain ⟨e₁, he₁, hcls₁, rfl⟩ := hinherits
            obtain ⟨e₂, he₂, hcls₂, rfl⟩ := hinherits'
            rw [hw.entry_unique (holder _ he₂) (holder _ he₁) (.inl hcls₂.symm) (.inl hcls₁.symm)]
        rw [hmeta.superclass, hmeta'.superclass, heq]
    · exact ih ((List.suffix_cons ..).trans hsuffix) hlinked.2 hlinked'.2 hc

/-- Classes stay when others are added. -/
theorem World.classes_subset (hroster : w.roster <:+ w'.roster) : w.classes ⊆ w'.classes :=
  (hroster.sublist.flatMap _).subset

/-- A class keeps its superclass, whatever else is added to the world. -/
theorem World.Describes.superclass_leads (hw : w.Describes g) (h : w.Leads g w' g') (hroster : w.roster <:+ w'.roster)
    (hc : c ∈ w.classes) :
    g'.field (.object c) Class.superclassField = g.field (.object c) Class.superclassField := by
  rw [h.describes.superclass_field (World.classes_subset hroster hc), hw.superclass_field hc,
    hw.superclass_unique h.describes hroster hc]

namespace World.Guides

/-- Nothing is active. -/
theorem describes_idle (hg : w.Guides g busy) (hidle : g.Idle) : w.Describes g :=
  hg.describes.withRegisters g.registers hidle

/-- What only makes and fills objects leaves contexts alone. -/
theorem of_leads (hg : w.Guides g []) (h : w.Leads g w' g') (hless : g.LessStock g') (hremembers : w'.Remembers g') :
    w'.Guides g' [] where
  describes := h.describes.withRegisters .idle rfl
  remembers := hremembers
  pooled := by
    have hfree : ∀ {size n : Nat}, g.IsFree size n → g'.IsFree size n := fun hn =>
      have hlayout := h.advances.evolves.layout _ hn.lt
      ⟨hn.lt.trans_le h.advances.evolves.next_le, hlayout.format.trans hn.format,
        hlayout.fields.trans hn.fields, hlayout.len.trans hn.len⟩
    rcases hless.pool with hpool | hpool
    · exact hg.pooled.of_free h.advances.evolves.next_le hfree hpool
    · exact .empty nofun hpool

/-- Classes and objects were added. -/
theorem leads (hg : w.Guides g []) (hidle : g.Idle) (h : w.Leads g w' g') (hless : g.LessStock g')
    (hroster : w.roster <:+ w'.roster) (hlog : ∀ c ∈ w.classes, w'.log c = w.log c) : w'.Guides g' [] :=
  hg.of_leads h hless <| World.Remembers.of_less hg.remembers hless.memo
    (fun hs => symbol?_evolves hs h.advances.evolves)
    (fun _ hc => (hg.describes_idle hidle).superclass_leads h hroster hc)
    fun c hc => ⟨World.classes_subset hroster hc, hlog c hc⟩

end World.Guides

end Graph

end ObjectMachine
