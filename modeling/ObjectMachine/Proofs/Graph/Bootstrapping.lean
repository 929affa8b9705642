import ObjectMachine.Proofs.Graph.Compiling
import ObjectMachine.Proofs.Graph.Reading

/-!
# Bootstrapped graphs

What a fresh machine gets, as a graph: the objects of the kernel under the first names, the kernel
classes with their metaclasses, the selectors that the machine sends by itself, and the kernel methods
in the dictionaries of their classes.

## Main results

* `Graph.Booted`: a graph has everything that a fresh machine has.
* `Spec.Ends.bootstrap`: a graph without objects is bootstrapped.
* `Machine.bootstrap_concludes`: a machine of any configuration is.
-/

namespace ObjectMachine

theorem KernelClass.getElem_all (k : KernelClass) : KernelClass.all[k.index.val]? = some k := by
  cases k <;> rfl

theorem KernelClass.index_injective : Function.Injective KernelClass.index := by
  intro k k' h
  have hk := k.getElem_all
  rw [h, k'.getElem_all] at hk
  exact (Option.some.inj hk).symm

theorem KernelClass.index_of_getElem? {i : Nat} {k : KernelClass} (h : KernelClass.all[i]? = some k) :
    k.index.val = i :=
  (List.getElem?_inj (List.getElem?_eq_some_iff.mp k.getElem_all).1 (by decide)).mp
    (k.getElem_all.trans h.symm)

/-- Superclasses come first. -/
theorem KernelClass.superclass_index_lt {k s : KernelClass} (h : s ∈ k.superclass?) :
    s.index.val < k.index.val := by
  cases k <;> cases h <;> decide

theorem KernelClass.superclass_mem {before after : List KernelClass} {k s : KernelClass}
    (hall : KernelClass.all = before ++ k :: after) (hs : s ∈ k.superclass?) : s ∈ before := by
  have hk : k.index.val = before.length := KernelClass.index_of_getElem? (by rw [hall]; simp)
  have hlt := KernelClass.superclass_index_lt hs
  have hget := s.getElem_all
  rw [hall, List.getElem?_append_left (by omega)] at hget
  exact List.mem_of_getElem? hget

/-- The code of the kernel is complete. -/
theorem KernelMethod.finish_ok : ∀ method ∈ KernelMethod.all, ∃ draft, method.code.finish.1 = .ok draft := by
  have hall : KernelMethod.all.all (fun method => method.code.finish.1.toBool) = true := by
    decide +kernel
  intro method hm
  have hok := List.all_eq_true.mp hall method hm
  cases hfinish : method.code.finish.1 with
  | ok draft => exact ⟨draft, rfl⟩
  | error cause =>
    rw [hfinish] at hok
    cases hok

namespace Graph

variable {g g' : Graph} {w w' : World} {count : Nat}

/-! ## The first objects -/

/-- Nothing was made yet. -/
structure Unborn (g : Graph) : Prop where
  idle : g.Idle
  next : g.next = 0
  symbols : g.symbols = []
  globals : g.globals = []
  pinned : g.pinned = []
  special : g.core.special.length = specialSelectors.size

/-- Nil was made, and a number of classes without contents. -/
structure Bare (g : Graph) (count : Nat) : Prop where
  idle : g.Idle
  next : g.next = 1 + count
  nil : g.nil = .object 0
  coreNil : g.core.nil = .object 0
  nilNode : (g.nodes 0).format = .plain ∧ (g.nodes 0).fields = 0
  cls : ∀ k : KernelClass, k.index < count → g.core.cls k = .object (classNode k) ∧
    (g.nodes (classNode k)).format = .plain ∧
    (g.nodes (classNode k)).fields = Class.fieldCount
  symbols : g.symbols = []
  globals : g.globals = []
  pinned : g.pinned = []
  special : g.core.special.length = specialSelectors.size

/-- The graph with other objects that the machine knows. -/
def withCore (g : Graph) (core : Core) : Graph := { g with core }

theorem Evolves.withCore {changed : Nat → Prop} {core : Core} (h : (g.withCore core).Evolves changed g')
    (core' : Core) : (g.withCore core').Evolves changed (g'.withCore core') :=
  { h with core := rfl }

theorem Idle.withCore (h : g.Idle) (core : Core) : (g.withCore core).Idle := h

/-- No class was filled in. -/
def World.empty : World := ⟨[], fun _ => (0, 0), fun _ => [], []⟩

/-- Whatever there is is nil or a class. -/
theorem Bare.root (hg : g.Bare count) (hcount : count ≤ KernelClass.count) {n : Nat}
    (hn : n < g.next) : g.core.nil = .object n ∨ ∃ k, g.core.cls k = .object n := by
  rw [hg.next] at hn
  cases n with
  | zero => exact .inl hg.coreNil
  | succ n =>
    have hindex : n < KernelClass.count := by omega
    obtain ⟨k, hk⟩ := exists_index_eq ⟨n, hindex⟩
    have hval : k.index.val = n := congrArg Fin.val hk
    refine .inr ⟨k, ?_⟩
    rw [(hg.cls k (by omega)).1, classNode, hval, Nat.add_comm]

theorem Bare.rooted (hg : g.Bare count) (hcount : count ≤ KernelClass.count) : g.Rooted :=
  fun _ _ hn => (hg.root hcount hn).elim .inl fun h => .inr (.inr (.inr h))

/-- Nil may get a class. -/
theorem Bare.withClass (hg : g.Bare count) (cls : Value) :
    (g.setNode 0 ((g.nodes 0).withClass cls)).Bare count where
  idle := hg.idle
  next := hg.next
  nil := hg.nil
  coreNil := hg.coreNil
  nilNode := by simpa using hg.nilNode
  cls k hk := by
    have hne : classNode k ≠ 0 := by
      unfold classNode
      omega
    have hk := hg.cls k hk
    simpa [Function.update_of_ne hne] using hk
  symbols := hg.symbols
  globals := hg.globals
  pinned := hg.pinned
  special := hg.special

end Graph

namespace Spec.Ends

open ObjectMachine.Graph

variable {α β : Type} {g : Graph} {w : World} {E : Failure → Graph → Prop} {S : Fatal → Prop}

theorem nullMakes {fields : Nat} (hcount : fields ≤ Header.maxFields) :
    (Value.immediate .null).Makes .plain fields :=
  ⟨by decide, by decide, .inr rfl, hcount, nofun⟩

theorem createNil (hg : g.Unborn) (hS : S (.fault .overflow)) :
    Spec.createNil.Ends g (fun _ g' => g'.Bare 0) E S := by
  have hrooted : g.Rooted := fun n _ hlt => absurd hlt (by rw [hg.next]; exact Nat.not_lt_zero n)
  refine bind (allocate hg.idle hrooted (nullMakes (Nat.zero_le _)) fun _ => hS) ?_
  rintro v g₁ ⟨rfl, ⟨pool, hash, rfl⟩, -⟩
  refine write rfl (modify_last ?_)
  exact
    { idle := hg.idle
      next := by simp [withNew, hg.next]
      nil := by simp [hg.next]
      coreNil := by simp [hg.next]
      nilNode := by simp [withNew, hg.next, Node.fresh]
      cls := nofun
      symbols := hg.symbols
      globals := hg.globals
      pinned := hg.pinned
      special := hg.special }

theorem createBareClasses (hS : S (.fault .overflow)) (classes : List KernelClass) {count : Nat}
    (hg : g.Bare count) (hclasses : ∀ i k, classes[i]? = some k → k.index = count + i)
    (hcount : count + classes.length ≤ KernelClass.count) :
    (Spec.createBareClasses classes).Ends g (fun _ g' => g'.Bare (count + classes.length)) E S := by
  induction classes generalizing g count with
  | nil => exact pure hg
  | cons k rest ih =>
    rw [List.length_cons] at hcount
    refine bind (allocate hg.idle (hg.rooted (by omega)) (nullMakes (by decide)) fun _ => hS) ?_
    rintro v g₁ ⟨rfl, ⟨pool, hash, rfl⟩, -⟩
    have hindex : k.index = count := hclasses 0 k rfl
    have hnext : g.next = classNode k := by rw [hg.next, classNode, hindex]
    have hnew : ∀ n < g.next, Function.update g.nodes g.next (Node.fresh (.immediate .null) g.nil .plain
        Class.fieldCount 0 hash) n = g.nodes n := fun n hn => Function.update_of_ne (Nat.ne_of_lt hn) ..
    refine modify ?_
    rw [List.length_cons, Nat.add_comm rest.length, ← Nat.add_assoc]
    refine @ih _ (count + 1) ?_ (fun i k' hk' => ?_) (by omega)
    · refine
        { idle := hg.idle
          next := ?_
          nil := hg.nil
          coreNil := hg.coreNil
          nilNode := ?_
          cls := fun k' hk' => ?_
          symbols := hg.symbols
          globals := hg.globals
          pinned := hg.pinned
          special := hg.special }
      · show g.next + 1 = _
        rw [hg.next]
        omega
      · show (Function.update g.nodes g.next _ 0).format = _ ∧ (Function.update g.nodes g.next _ 0).fields = _
        rw [hnew 0 (by rw [hg.next]; omega)]
        exact hg.nilNode
      · show Function.update g.core.cls k (.object g.next) k' = _ ∧
          (Function.update g.nodes g.next _ (classNode k')).format = _ ∧
          (Function.update g.nodes g.next _ (classNode k')).fields = _
        by_cases heq : k' = k
        · rw [heq, ← hnext, Function.update_self, Function.update_self]
          exact ⟨rfl, rfl, rfl⟩
        · have hlt : k'.index < count := by
            have hne : k'.index.val ≠ k.index.val := fun h => heq (KernelClass.index_injective (Fin.ext h))
            omega
          have hle : classNode k' < g.next := by
            rw [hg.next, classNode]
            omega
          rw [Function.update_of_ne heq, hnew _ hle]
          exact hg.cls k' hlt
    · have := hclasses (i + 1) k' hk'
      omega

/-- The truth values are made: from then on there is everything that the machine knows. -/
theorem createConstants (hS : S (.fault .overflow)) (hg : g.Bare KernelClass.count) :
    Spec.createConstants.Ends g (fun _ g' => World.empty.Describes g' ∧ g'.pinned = [] ∧
      g'.core.special.length = specialSelectors.size) E S := by
  have hclass : ∀ k : KernelClass, g.core.cls k = .object (classNode k) :=
    fun k => (hg.cls k k.index.isLt).1
  have hmakes : ∀ k : KernelClass, (g.core.cls k).Makes .plain 0 := fun k => by
    rw [hclass]
    exact Value.makes_object (.inl rfl) (Nat.zero_le _) fun h => by cases h
  have hstore : g.storeClass g.core.nil (g.core.cls .undefinedObject) =
      some (g.setNode 0 ((g.nodes 0).withClass (g.core.cls .undefinedObject))) := by
    rw [hg.coreNil]
    rfl
  have hg₁ := hg.withClass (g.core.cls .undefinedObject)
  refine ask (write hstore ?_)
  generalize hnil : g.setNode 0 ((g.nodes 0).withClass (g.core.cls .undefinedObject)) = g₁ at hg₁ ⊢
  have hcore₁ : g₁.core = g.core := by
    rw [← hnil]
    rfl
  refine bind (allocate hg₁.idle (hg₁.rooted (Nat.le_refl _)) (hmakes .trueClass) fun _ => hS) ?_
  intro v g₂ hmade
  obtain ⟨hadds₂, rfl, hnext₂, -, -⟩ := hmade.fresh
  have hcore₂ : g₂.core = g.core := hadds₂.grows.core.trans hcore₁
  refine modify (ask ?_)
  show Spec.Ends _ (g₂.withCore { g₂.core with trueObject := .object g₁.next }) _ _ _
  rw [hcore₂]
  have hrooted : (g₂.withCore { g.core with trueObject := .object g₁.next }).Rooted := by
    intro n hn hlt
    have hlt : n < g₂.next := hlt
    by_cases heq : n = g₁.next
    · rw [heq]
      exact .inr (.inl rfl)
    · have hroot := hg₁.root (Nat.le_refl _) (n := n) (by omega)
      rw [hcore₁] at hroot
      exact hroot.elim .inl fun h => .inr (.inr (.inr h))
  refine bind (allocate ((hg₁.idle.evolves hadds₂.grows).withCore _) hrooted (hmakes .falseClass)
    fun _ => hS) ?_
  intro v g₃ hmade
  obtain ⟨hadds₃, rfl, hnext₃, -, -⟩ := hmade.fresh
  have hgrows₂ : g₁.Grows (g₂.withCore g₁.core) := { hadds₂.grows with core := rfl }
  have hgrows₃ : (g₂.withCore g₁.core).Grows (g₃.withCore g₁.core) := hadds₃.grows.withCore g₁.core
  have hgrows := hgrows₂.trans hgrows₃ fun _ _ h => h
  have hcore₃ : g₃.core = { g.core with trueObject := .object g₁.next } := hadds₃.grows.core
  refine modify_last ?_
  show World.empty.Describes (g₃.withCore { g₃.core with falseObject := .object g₂.next }) ∧
    g₃.pinned = [] ∧ g₃.core.special.length = _
  rw [hcore₃]
  have hnode : ∀ n < g₁.next, g₃.nodes n = g₁.nodes n := fun n hn => hgrows.nodes n hn id
  have hkernel : ∀ k, classNode k < g₁.next := fun k => by
    rw [hg₁.next, classNode]
    omega
  have hsymbols : g₃.symbols = [] := hadds₃.symbols.trans (hadds₂.symbols.trans hg₁.symbols)
  have hglobals : g₃.globals = [] := hadds₃.globals.trans (hadds₂.globals.trans hg₁.globals)
  have hnext₃ : g₃.next = g₂.next + 1 := hnext₃
  refine ⟨?_, hadds₃.pinned.trans (hadds₂.pinned.trans hg₁.pinned), hg.special⟩
  refine
    { settled :=
        { idle := (hg₁.idle.evolves hgrows : (g₃.withCore _).Idle)
          kernel :=
            { next := ?_
              nil := hgrows.nil.trans hg₁.nil
              coreNil := hg.coreNil
              trueObject := congrArg Value.object hg₁.next
              falseObject := ?_
              cls := hclass }
          symbols := fun hmem => ?_
          symbolsDistinct := ?_
          globals := fun hmem => ?_
          globalsDistinct := ?_ }
      nil := ?_
      bare := fun k => ?_
      linked := trivial
      nodup := List.nodup_nil
      metaclasses := fun _ h => absurd h List.not_mem_nil
      files := fun _ h => absurd h List.not_mem_nil
      apart := fun _ h => absurd h List.not_mem_nil
      bound := fun h => by cases h }
  · show kernelObjects ≤ g₃.next
    rw [hnext₃, hnext₂, hg₁.next]
    decide
  · show Value.object g₂.next = .object falseNode
    rw [hnext₂, hg₁.next]
    rfl
  · have hmem : _ ∈ g₃.symbols := hmem
    rw [hsymbols] at hmem
    cases hmem
  · show Distinct g₃.symbols
    rw [hsymbols]
    exact ⟨List.nodup_nil, List.nodup_nil⟩
  · have hmem : _ ∈ g₃.globals := hmem
    rw [hglobals] at hmem
    cases hmem
  · show Distinct g₃.globals
    rw [hglobals]
    exact ⟨List.nodup_nil, List.nodup_nil⟩
  · show (g₃.nodes 0).format = .plain ∧ (g₃.nodes 0).fields = 0
    rw [hnode 0 (by rw [hg₁.next]; omega)]
    exact hg₁.nilNode
  · show (g₃.nodes (classNode k)).format = .plain ∧ (g₃.nodes (classNode k)).fields = _
    rw [hnode _ (hkernel k)]
    exact (hg₁.cls k k.index.isLt).2

end Spec.Ends

/-! ## Kernel classes -/

namespace Graph

/-- A class is a kernel class, as far as its definition is concerned. -/
structure IsKernelEntry (k : KernelClass) (e : Entry) : Prop where
  cls : e.cls = classNode k
  superclass : e.superclass = k.superclass?.map classNode
  name : e.name = k.name
  spec : e.spec = k.spec

/-- Some kernel classes were filled in, and there are no methods yet. -/
structure Founded (w : World) (g : Graph) (done : List KernelClass) : Prop where
  describes : w.Describes g
  pinned : g.pinned = []
  special : g.core.special.length = specialSelectors.size
  roster : List.Forall₂ IsKernelEntry done.reverse w.roster
  bindings : w.bindings = done.reverse.map fun k => (k.name, .object (classNode k))
  log : ∀ c, w.log c = []

theorem classNode_injective : Function.Injective classNode := by
  intro k k' h
  unfold classNode at h
  exact KernelClass.index_injective (Fin.ext (by omega))

variable {g : Graph} {w : World} {done : List KernelClass} {k : KernelClass}

theorem Founded.exists_entry (h : Founded w g done) (hk : k ∈ done) :
    ∃ e ∈ w.roster, IsKernelEntry k e := by
  obtain ⟨i, hi, hget⟩ := List.getElem_of_mem (List.mem_reverse.mpr hk)
  have hentry := (List.forall₂_iff_get.mp h.roster).2 i hi (h.roster.length_eq ▸ hi)
  rw [List.get_eq_getElem, hget] at hentry
  exact ⟨_, List.getElem_mem _, hentry⟩

theorem Founded.exists_kernel (h : Founded w g done) {e : Entry} (he : e ∈ w.roster) :
    ∃ k ∈ done, IsKernelEntry k e := by
  obtain ⟨i, hi, hget⟩ := List.getElem_of_mem he
  have hentry := (List.forall₂_iff_get.mp h.roster).2 i (h.roster.length_eq ▸ hi) hi
  rw [List.get_eq_getElem, List.get_eq_getElem, hget] at hentry
  exact ⟨_, List.mem_reverse.mp (List.getElem_mem _), hentry⟩

/-- A class that was not filled in is no class yet. -/
theorem Founded.free (h : Founded w g done) (hk : k ∉ done) : classNode k ∉ w.classes := by
  intro hmem
  obtain ⟨e, he, heq | heq⟩ := mem_classesOf.mp hmem
  · obtain ⟨k', hk', hentry⟩ := h.exists_kernel he
    rw [hentry.cls] at heq
    exact hk (classNode_injective heq ▸ hk')
  · have hle := h.describes.metaclasses e he
    have hlt := classNode_lt k
    omega

end Graph

namespace Spec.Ends

open ObjectMachine.Graph

variable {α β : Type} {g : Graph} {w : World} {E : Failure → Graph → Prop} {S : Fatal → Prop}
  {done : List KernelClass} {k : KernelClass}

/-- A kernel class is filled in. -/
theorem createClass (h : Founded w g done) (hS : S (.fault .overflow)) (hk : k ∉ done)
    (hsuper : ∀ s ∈ k.superclass?, s ∈ done) :
    (Spec.createClass k).Ends g (fun _ g' => ∃ w', Founded w' g' (done ++ [k])) E S := by
  have hw := h.describes
  refine beginClass hw hS ?_
  intro g₁ symbol shelf metaShelf m hbegun
  refine unpin hbegun.pinned (unpin rfl (unpin rfl ?_))
  simp only [withPinned_withPinned]
  have hw₁ : w.Describes (g₁.withPinned g.pinned) :=
    hw.grows hbegun.grows (hbegun.settled.withPinned _)
  have hlt : classNode k < g.next := (classNode_lt k).trans_le hw.next_le
  have hm := hbegun.metaclass
  have hprepared : Prepared g w (g₁.withPinned g.pinned) (classNode k) m shelf metaShelf :=
    { grows := hbegun.grows
      settled := hbegun.settled.withPinned _
      globals := hbegun.globals
      cls := .inl ⟨k, rfl⟩
      free := h.free hk
      metaclass := hm.1
      ne := by omega
      lt := ⟨hlt.trans_le hbegun.grows.next_le, hm.2⟩
      format := ⟨(hw₁.bare k).1, hbegun.layout.1⟩
      fields := ⟨(hw₁.bare k).2, hbegun.layout.2.1⟩
      kind := hbegun.layout.2.2
      dictionary := hbegun.dictionary.evolves ((Evolves.refl (fun _ => False) g₁).withPinned _ _) id id
      metaDictionary :=
        hbegun.metaDictionary.evolves ((Evolves.refl (fun _ => False) g₁).withPinned _ _) id id
      shelf_new := hbegun.shelf_new
      metaShelf_new := hbegun.metaShelf_new
      apart := hbegun.apart }
  have hsuper' : ∀ s ∈ k.superclass?.map classNode, ∃ e ∈ w.roster, e.cls = s := by
    intro s hs
    obtain ⟨s', hs', rfl⟩ := Option.mem_map.mp hs
    obtain ⟨e, he, hentry⟩ := h.exists_entry (hsuper s' hs')
    exact ⟨e, he, hentry.cls⟩
  obtain ⟨inherited, hinherits, hinherited⟩ := inherits_of_mem hw₁ hsuper'
  have hkernel := hw₁.settled.kernel
  refine ask ?_
  have hlink := linkClass (E := E) (S := S) hkernel hprepared.ne hprepared.format hprepared.fields
    hinherited k.spec symbol (.object shelf.1) (.object metaShelf.1)
  have hcls : (g₁.withPinned g.pinned).core.cls k = .object (classNode k) := hkernel.cls k
  rw [hcls]
  refine bind (R := fun _ g' => g' = (g₁.withPinned g.pinned).withClass (classNode k) m
    (superclassValue (k.superclass?.map classNode)) (.object inherited) k.spec symbol (.object shelf.1)
    (.object metaShelf.1)) ?_ ?_
  · cases hs : k.superclass? with
    | none =>
      rw [hs] at hlink
      simp only [hkernel.coreNil]
      exact hlink
    | some s =>
      rw [hs] at hlink
      simp only [hkernel.cls]
      exact hlink
  rintro - g₂ rfl
  have hsymbol : (g₁.withPinned g.pinned).symbol? k.name = some symbol := hbegun.symbol
  obtain ⟨hdescribes, hadvances⟩ := hw.withClass
    (e := ⟨classNode k, m, k.superclass?.map classNode, k.name, k.spec⟩) hprepared hsymbol
    (hinherits ..)
  refine (setGlobal_leads hdescribes hS).mono ?_ (fun _ _ h => h) fun _ h => h
  intro _ g₃ hleads
  refine ⟨_, hleads.describes, ?_, ?_, ?_, ?_, fun c => ?_⟩
  · rw [hleads.pinned]
    exact h.pinned
  · rw [hleads.advances.evolves.core, hadvances.evolves.core]
    exact h.special
  · rw [List.reverse_append, List.reverse_singleton]
    exact .cons ⟨rfl, rfl, rfl, rfl⟩ h.roster
  · rw [List.reverse_append, List.reverse_singleton]
    show _ :: w.bindings = _
    rw [h.bindings]
    rfl
  · show Function.update (Function.update w.log _ []) _ [] c = []
    rw [Function.update_apply, Function.update_apply, h.log]
    simp

/-- Kernel classes are filled in, superclasses first. -/
theorem createClasses (hS : S (.fault .overflow)) (classes : List KernelClass) {w : World}
    (h : Founded w g done) (hnodup : (done ++ classes).Nodup)
    (hsuper : ∀ before k after, classes = before ++ k :: after →
      ∀ s ∈ k.superclass?, s ∈ done ++ before) :
    (Spec.createClasses classes).Ends g (fun _ g' => ∃ w', Founded w' g' (done ++ classes)) E S := by
  induction classes generalizing g done w with
  | nil => exact pure ⟨w, by simpa using h⟩
  | cons k rest ih =>
    have hk : k ∉ done := by
      intro hmem
      exact (List.nodup_append.mp hnodup).2.2 k hmem k (List.mem_cons_self ..) rfl
    refine bind (createClass h hS hk (by simpa using hsuper [] k rest rfl)) ?_
    rintro - g₁ ⟨w₁, h₁⟩
    refine (ih h₁ (by simpa using hnodup) ?_).mono ?_ (fun _ _ h => h) fun _ h => h
    · intro before k' after heq s hs
      rw [List.append_assoc]
      exact hsuper (k :: before) k' after (by rw [heq]; rfl) s hs
    · rintro - g₂ ⟨w₂, h₂⟩
      exact ⟨w₂, by simpa using h₂⟩

end Spec.Ends

/-! ## Selectors -/

namespace Graph

variable {g g' : Graph} {w w' : World}

/-- The selectors that the machine sends by itself are symbols. -/
structure Spoken (g : Graph) : Prop where
  special : ∀ (i : Nat) (selector : SpecialSelector), specialSelectors.toList[i]? = some selector →
    ∃ v, g.core.special[i]? = some v ∧ g.symbol? selector.name = some v
  doesNotUnderstand : g.symbol? "doesNotUnderstand:" = some g.core.doesNotUnderstand
  escapedBlock : g.symbol? "escapedBlock:" = some g.core.escapedBlock
  mustBeBoolean : g.symbol? "mustBeBoolean" = some g.core.mustBeBoolean

theorem Spoken.evolves {changed : Nat → Prop} (h : g.Spoken) (he : g.Evolves changed g') :
    g'.Spoken where
  special i selector hi := by
    obtain ⟨v, hv, hs⟩ := h.special i selector hi
    exact ⟨v, by rw [he.core, hv], symbol?_evolves hs he⟩
  doesNotUnderstand := by
    rw [he.core]
    exact symbol?_evolves h.doesNotUnderstand he
  escapedBlock := by
    rw [he.core]
    exact symbol?_evolves h.escapedBlock he
  mustBeBoolean := by
    rw [he.core]
    exact symbol?_evolves h.mustBeBoolean he

theorem Linked.withCore {roster : List Entry} (h : g.Linked roster) (core : Core) :
    (g.withCore core).Linked roster := by
  induction roster with
  | nil => trivial
  | cons e older ih =>
    obtain ⟨inherited, hinherits, hlinked⟩ := h.1.metaclass
    exact ⟨⟨{ h.1.cls with }, ⟨inherited, hinherits, { hlinked with }⟩, h.1.name, h.1.spec, h.1.sole⟩,
      ih h.2⟩

theorem World.Files.withCore {c : Nat} (h : w.Files g c) (core : Core) :
    w.Files (g.withCore core) c := by
  obtain ⟨slots, hd, hmem⟩ := h.places
  exact ⟨h.shelf, ⟨slots, { hd with }, hmem⟩, h.interned⟩

/-- Which selectors the machine sends does not matter to classes. -/
theorem World.Describes.withCore (hw : w.Describes g) {core : Core} (hnil : core.nil = g.core.nil)
    (htrue : core.trueObject = g.core.trueObject) (hfalse : core.falseObject = g.core.falseObject)
    (hcls : core.cls = g.core.cls) : w.Describes (g.withCore core) := by
  have hkernel : (g.withCore core).Kernel :=
    { next := hw.settled.kernel.next
      nil := hw.settled.kernel.nil
      coreNil := hnil.trans hw.settled.kernel.coreNil
      trueObject := htrue.trans hw.settled.kernel.trueObject
      falseObject := hfalse.trans hw.settled.kernel.falseObject
      cls := fun k => (congrFun hcls k).trans (hw.settled.kernel.cls k) }
  refine
    { settled :=
        { idle := hw.settled.idle
          kernel := hkernel
          symbols := fun hmem => ?_
          symbolsDistinct := hw.settled.symbolsDistinct
          globals := hw.settled.globals
          globalsDistinct := hw.settled.globalsDistinct }
      nil := hw.nil
      bare := hw.bare
      linked := ?_
      nodup := hw.nodup
      metaclasses := hw.metaclasses
      files := fun c hc => ?_
      apart := hw.apart
      bound := hw.bound }
  · obtain ⟨n, hv, hle, hlt, hformat, hclass, hbytes⟩ := hw.settled.symbols hmem
    exact ⟨n, hv, hle, hlt, hformat, hclass.trans (congrFun hcls.symm .symbol), hbytes⟩
  · exact hw.linked.withCore core
  · exact (hw.files c hc).withCore core

end Graph

namespace Spec.Ends

open ObjectMachine.Graph

variable {α β : Type} {g : Graph} {w : World} {E : Failure → Graph → Prop} {S : Fatal → Prop}

/-- Symbols were asked for, and some of them are sent by the machine itself from now on. -/
structure Speaks (w : World) (g g' : Graph) : Prop where
  describes : w.Describes g'
  pinned : g'.pinned = g.pinned
  symbols : g.symbols <+: g'.symbols

theorem Speaks.trans {g' g'' : Graph} (h : Speaks w g g') (h' : Speaks w g' g'') : Speaks w g g'' :=
  ⟨h'.describes, h'.pinned.trans h.pinned, h.symbols.trans h'.symbols⟩

/-- A selector is asked for and remembered. -/
theorem internCore (hw : w.Describes g) (hS : S (.fault .overflow)) (name : String)
    {f : Core → Value → Core} (hnil : ∀ c v, (f c v).nil = c.nil)
    (htrue : ∀ c v, (f c v).trueObject = c.trueObject)
    (hfalse : ∀ c v, (f c v).falseObject = c.falseObject) (hcls : ∀ c v, (f c v).cls = c.cls) :
    Spec.Ends (do
      let v ← Spec.intern name
      Spec.modifyCore fun c => f c v) g
      (fun _ g' => ∃ v, Speaks w g g' ∧ g'.core = f g.core v ∧ g'.symbol? name = some v) E S := by
  refine bind (intern hw.settled fun _ => hS) ?_
  intro v g₁ hinterned
  refine modify_last ⟨v, ⟨?_, hinterned.pinned, hinterned.grows.symbols⟩, ?_, hinterned.symbol⟩
  · exact (hw.grows hinterned.grows hinterned.settled).withCore (hnil ..) (htrue ..) (hfalse ..)
      (hcls ..)
  · show f g₁.core v = f g.core v
    rw [hinterned.grows.core]

theorem internCore_bind (hw : w.Describes g) (hS : S (.fault .overflow)) (name : String)
    {f : Core → Value → Core} {next : Unit → Spec β} {Q : β → Graph → Prop}
    (hnil : ∀ c v, (f c v).nil = c.nil) (htrue : ∀ c v, (f c v).trueObject = c.trueObject)
    (hfalse : ∀ c v, (f c v).falseObject = c.falseObject) (hcls : ∀ c v, (f c v).cls = c.cls)
    (hnext : ∀ g' v, Speaks w g g' → g'.core = f g.core v → g'.symbol? name = some v →
      (next ()).Ends g' Q E S) :
    (Spec.intern name >>= fun v => Spec.modifyCore (fun c => f c v) >>= next).Ends g Q E S := by
  rw [← Spec.bind_assoc]
  refine bind (internCore hw hS name hnil htrue hfalse hcls) ?_
  rintro - g' ⟨v, hspeaks, hcore, hsymbol⟩
  exact hnext g' v hspeaks hcore hsymbol

/-- Special selectors are asked for. -/
theorem internSpecial (hS : S (.fault .overflow)) (selectors : List SpecialSelector) (index : Nat)
    (hw : w.Describes g) (hroom : index + selectors.length ≤ g.core.special.length) :
    (Spec.internSpecial index selectors).Ends g (fun _ g' => Speaks w g g' ∧
      g'.core.special.length = g.core.special.length ∧
      (∀ i < index, g'.core.special[i]? = g.core.special[i]?) ∧
      ∀ (i : Nat) (selector : SpecialSelector), selectors[i]? = some selector →
        ∃ v, g'.core.special[index + i]? = some v ∧ g'.symbol? selector.name = some v) E S := by
  induction selectors generalizing g index with
  | nil => exact pure ⟨⟨hw, rfl, List.prefix_refl _⟩, rfl, fun _ _ => rfl, by simp⟩
  | cons selector rest ih =>
    rw [List.length_cons] at hroom
    refine internCore_bind hw hS selector.name (f := fun c v => { c with special := c.special.set index v })
      (fun _ _ => rfl) (fun _ _ => rfl) (fun _ _ => rfl) (fun _ _ => rfl) ?_
    intro g₁ v hspeaks hcore hsymbol
    have hlength : g₁.core.special.length = g.core.special.length := by
      rw [hcore]
      exact List.length_set ..
    refine (ih (index + 1) hspeaks.describes (by rw [hlength]; omega)).mono ?_ (fun _ _ h => h)
      fun _ h => h
    rintro - g₂ ⟨hspeaks₂, hlength₂, hbelow, hall⟩
    refine ⟨hspeaks.trans hspeaks₂, hlength₂.trans hlength, fun i hi => ?_, fun i selector' hi => ?_⟩
    · rw [hbelow i (by omega), hcore]
      exact List.getElem?_set_ne (by omega)
    · cases i with
      | zero =>
        obtain rfl := Option.some.inj hi
        refine ⟨v, ?_, named?_mono hsymbol hspeaks₂.symbols⟩
        rw [Nat.add_zero, hbelow index (Nat.lt_succ_self _), hcore]
        exact List.getElem?_set_self (by omega)
      | succ i =>
        obtain ⟨v', hv', hs'⟩ := hall i selector' hi
        exact ⟨v', by rwa [Nat.add_right_comm, Nat.add_assoc] at hv', hs'⟩

/-- The selectors that the machine sends by itself are asked for. -/
theorem internSelectors (hS : S (.fault .overflow)) (hw : w.Describes g)
    (hspecial : g.core.special.length = specialSelectors.size) :
    Spec.internSelectors.Ends g (fun _ g' => Speaks w g g' ∧ g'.Spoken) E S := by
  refine bind (internSpecial hS _ 0 hw (by rw [hspecial, Nat.zero_add]; exact Nat.le_refl _)) ?_
  rintro - g₁ ⟨hspeaks₁, -, -, hall⟩
  refine internCore_bind hspeaks₁.describes hS "doesNotUnderstand:"
    (f := fun c v => { c with doesNotUnderstand := v }) (fun _ _ => rfl) (fun _ _ => rfl)
    (fun _ _ => rfl) (fun _ _ => rfl) ?_
  intro g₂ v₂ hspeaks₂ hcore₂ hsymbol₂
  refine internCore_bind hspeaks₂.describes hS "escapedBlock:"
    (f := fun c v => { c with escapedBlock := v }) (fun _ _ => rfl) (fun _ _ => rfl)
    (fun _ _ => rfl) (fun _ _ => rfl) ?_
  intro g₃ v₃ hspeaks₃ hcore₃ hsymbol₃
  refine (internCore hspeaks₃.describes hS "mustBeBoolean"
    (f := fun c v => { c with mustBeBoolean := v }) (fun _ _ => rfl) (fun _ _ => rfl)
    (fun _ _ => rfl) fun _ _ => rfl).mono ?_ (fun _ _ h => h) fun _ h => h
  rintro - g₄ ⟨v₄, hspeaks₄, hcore₄, hsymbol₄⟩
  have hcore : g₄.core = { g₁.core with
      doesNotUnderstand := v₂, escapedBlock := v₃, mustBeBoolean := v₄ } := by
    rw [hcore₄, hcore₃, hcore₂]
  refine ⟨hspeaks₁.trans (hspeaks₂.trans (hspeaks₃.trans hspeaks₄)), ?_⟩
  constructor
  · intro i selector hi
    obtain ⟨v, hv, hs⟩ := hall i selector hi
    rw [Nat.zero_add] at hv
    exact ⟨v, by rw [hcore]; exact hv,
      named?_mono hs (hspeaks₂.symbols.trans (hspeaks₃.symbols.trans hspeaks₄.symbols))⟩
  · rw [hcore]
    exact named?_mono hsymbol₂ (hspeaks₃.symbols.trans hspeaks₄.symbols)
  · rw [hcore]
    exact named?_mono hsymbol₃ hspeaks₄.symbols
  · rw [hcore]
    exact hsymbol₄

end Spec.Ends

/-! ## Kernel methods -/

namespace Graph

variable {g g' : Graph} {w w' : World} {c : Nat} {methods : List KernelMethod}

/-- The class that kernel methods belong to. -/
def World.Owns (w : World) : Owner → Nat → Prop
  | .cls k, c => c = classNode k
  | .metaclass k, c => ∃ e ∈ w.roster, e.cls = classNode k ∧ c = e.metaclass

/-- What was added to a class is a kernel method. -/
def IsKernelMethod (w : World) (g : Graph) (c : Nat) (method : KernelMethod)
    (added : String × Value) : Prop :=
  added.1 = method.selector ∧
    ∃ draft, method.code.finish.1 = .ok draft ∧ w.IsBuilt g draft (.object c) added.2

/-- A graph has the kernel classes and some kernel methods. -/
structure Equipped (w : World) (g : Graph) (methods : List KernelMethod) : Prop where
  describes : w.Describes g
  pinned : g.pinned = []
  spoken : g.Spoken
  roster : List.Forall₂ IsKernelEntry KernelClass.all.reverse w.roster
  bindings : w.bindings = KernelClass.all.reverse.map fun k => (k.name, .object (classNode k))
  log : ∀ owner c, w.Owns owner c → List.Forall₂ (IsKernelMethod w g c)
    (methods.filter (·.owner = owner)).reverse (w.log c)

/-- A graph has everything that a fresh machine has. -/
abbrev Booted (w : World) (g : Graph) : Prop := Equipped w g KernelMethod.all

/-- No two classes are the same object. -/
theorem World.Describes.entry_unique (hw : w.Describes g) {e e' : Entry} (he : e ∈ w.roster)
    (he' : e' ∈ w.roster) (hc : c = e.cls ∨ c = e.metaclass) (hc' : c = e'.cls ∨ c = e'.metaclass) :
    e = e' := by
  have hnodup := hw.nodup
  unfold World.classes classesOf at hnodup
  by_contra hne
  have hpairwise := (List.nodup_flatMap.mp hnodup).2
  have hsymm : Std.Symm (Function.onFun List.Disjoint fun e : Entry => [e.cls, e.metaclass]) :=
    ⟨fun _ _ h => h.symm⟩
  have hdisjoint := hpairwise.forall he he' hne
  exact hdisjoint (by simpa using hc) (by simpa using hc')

namespace Equipped

theorem exists_entry (h : Equipped w g methods) (k : KernelClass) :
    ∃ e ∈ w.roster, IsKernelEntry k e := by
  have hk : k ∈ KernelClass.all.reverse := List.mem_reverse.mpr (List.mem_of_getElem? k.getElem_all)
  obtain ⟨i, hi, hget⟩ := List.getElem_of_mem hk
  have hentry := (List.forall₂_iff_get.mp h.roster).2 i hi (h.roster.length_eq ▸ hi)
  rw [List.get_eq_getElem, hget] at hentry
  exact ⟨_, List.getElem_mem _, hentry⟩

/-- A class has one owner. -/
theorem owner_unique (h : Equipped w g methods) {owner owner' : Owner} (hc : w.Owns owner c)
    (hc' : w.Owns owner' c) : owner = owner' := by
  have hmeta : ∀ k, ¬ ∃ e ∈ w.roster, classNode k = e.metaclass := by
    rintro k ⟨e, he, heq⟩
    have hle := h.describes.metaclasses e he
    have hlt := classNode_lt k
    omega
  cases owner with
  | cls k =>
    cases owner' with
    | cls k' => rw [classNode_injective (Eq.trans (Eq.symm hc) hc')]
    | metaclass k' =>
      obtain ⟨e, he, -, heq⟩ := hc'
      exact absurd ⟨e, he, (Eq.symm hc).trans heq⟩ (hmeta k)
  | metaclass k =>
    obtain ⟨e, he, hcls, heq⟩ := hc
    cases owner' with
    | cls k' => exact absurd ⟨e, he, (Eq.symm hc').trans heq⟩ (hmeta k')
    | metaclass k' =>
      obtain ⟨e', he', hcls', heq'⟩ := hc'
      obtain rfl := h.describes.entry_unique he he' (.inr heq) (.inr heq')
      rw [classNode_injective (hcls.symm.trans hcls')]

/-- An owner is one class. -/
theorem owns_unique (h : Equipped w g methods) {owner : Owner} {c' : Nat} (hc : w.Owns owner c)
    (hc' : w.Owns owner c') : c = c' := by
  cases owner with
  | cls k => exact Eq.trans hc (Eq.symm hc')
  | metaclass k =>
    obtain ⟨e, he, hcls, rfl⟩ := hc
    obtain ⟨e', he', hcls', rfl⟩ := hc'
    rw [h.describes.entry_unique he he' (.inl rfl) (.inl (hcls.trans hcls'.symm))]

theorem mem_classes (h : Equipped w g methods) {owner : Owner} (hc : w.Owns owner c) :
    c ∈ w.classes := by
  cases owner with
  | cls k =>
    obtain ⟨e, he, hentry⟩ := h.exists_entry k
    exact mem_classesOf.mpr ⟨e, he, .inl (Eq.trans hc hentry.cls.symm)⟩
  | metaclass k =>
    obtain ⟨e, he, -, rfl⟩ := hc
    exact mem_classesOf.mpr ⟨e, he, .inr rfl⟩

theorem exists_owned (h : Equipped w g methods) (owner : Owner) : ∃ c, w.Owns owner c := by
  cases owner with
  | cls k => exact ⟨_, rfl⟩
  | metaclass k =>
    obtain ⟨e, he, hentry⟩ := h.exists_entry k
    exact ⟨e.metaclass, e, he, hentry.cls, rfl⟩

/-- Another kernel method was installed. -/
theorem installed (h : Equipped w g methods) {method : KernelMethod} (hc : w.Owns method.owner c)
    (hi : Spec.Ends.Installed w g method.code c method.selector w' g') :
    Equipped w' g' (methods ++ [method]) := by
  obtain ⟨draft, v, hfinish, hbuilt, hlog⟩ := hi.method
  have howns : ∀ owner c, w'.Owns owner c ↔ w.Owns owner c := by
    intro owner c
    cases owner with
    | cls k => exact Iff.rfl
    | metaclass k =>
      show (∃ e ∈ w'.roster, _) ↔ ∃ e ∈ w.roster, _
      rw [hi.roster]
  refine
    { describes := hi.leads.describes
      pinned := hi.leads.pinned.trans h.pinned
      spoken := h.spoken.evolves hi.leads.advances.evolves
      roster := hi.roster ▸ h.roster
      bindings := hi.bindings.trans h.bindings
      log := fun owner c' hc' => ?_ }
  have hc' := (howns owner c').mp hc'
  have hold : List.Forall₂ (IsKernelMethod w' g' c') (methods.filter (·.owner = owner)).reverse
      (w.log c') := by
    refine (h.log owner c' hc').imp fun method added hadded => ?_
    obtain ⟨hname, draft, hdraft, hbuilt⟩ := hadded
    exact ⟨hname, draft, hdraft, hbuilt.advances h.describes hi.leads.advances⟩
  rw [List.filter_append, hlog]
  by_cases heq : c' = c
  · subst heq
    obtain rfl := h.owner_unique hc hc'
    rw [List.filter_cons_of_pos (by simp), List.filter_nil, List.reverse_append, Function.update_self]
    exact .cons ⟨rfl, draft, hfinish, hbuilt⟩ hold
  · have hne : method.owner ≠ owner := by
      rintro rfl
      exact heq (h.owns_unique hc' hc)
    rw [List.filter_cons_of_neg (by simpa using hne), List.filter_nil, List.append_nil,
      Function.update_of_ne heq]
    exact hold

end Equipped

end Graph

namespace Spec.Ends

open ObjectMachine.Graph

variable {α β : Type} {g : Graph} {w : World} {E : Failure → Graph → Prop} {S : Fatal → Prop}

/-- Kernel methods are installed. -/
theorem installKernel (hS : S (.fault .overflow)) (methods : List KernelMethod)
    (hcomplete : ∀ method ∈ methods, ∃ draft, method.code.finish.1 = .ok draft)
    {done : List KernelMethod} (h : Equipped w g done) :
    (Spec.installKernel methods).Ends g (fun _ g' => ∃ w', Equipped w' g' (done ++ methods)) E S := by
  induction methods generalizing g w done with
  | nil => exact pure ⟨w, by simpa using h⟩
  | cons method rest ih =>
    obtain ⟨c, hc⟩ := h.exists_owned method.owner
    obtain ⟨draft, hdraft⟩ := hcomplete method (List.mem_cons_self ..)
    have howner : (Spec.ownerClass method.owner).Ends g (fun v g' => v = .object c ∧ g' = g) E S := by
      cases howner : method.owner with
      | cls k =>
        rw [howner] at hc
        obtain rfl : c = classNode k := hc
        intro r hr
        rw [hr]
        exact ⟨h.describes.settled.kernel.cls k, rfl⟩
      | metaclass k =>
        rw [howner] at hc
        obtain ⟨e, he, hcls, rfl⟩ := hc
        obtain ⟨older, -, hentry⟩ := h.describes.linked.isEntry he
        refine read_last ?_ ⟨rfl, rfl⟩
        show g.classWord (g.core.cls k) = _
        rw [h.describes.settled.kernel.cls, ← hcls]
        exact congrArg some hentry.cls.cls
    refine bind howner ?_
    rintro v g' ⟨hv, hg'⟩
    rw [hv, hg']
    refine bind ((install h.describes (h.mem_classes hc) hS method.code (fun cause heq => ?_)
      method.selector).mono (fun _ _ h => h) (fun _ _ hfailed => ?_) fun _ h => h) ?_
    · rw [hdraft] at heq
      cases heq
    · obtain ⟨-, cause, heq⟩ := hfailed
      rw [hdraft] at heq
      cases heq
    · rintro - g₁ ⟨w₁, hinstalled⟩
      refine (ih (fun method hm => hcomplete method (List.mem_cons_of_mem _ hm))
        (h.installed hc hinstalled)).mono ?_ (fun _ _ h => h) fun _ h => h
      rintro - g₂ ⟨w₂, h₂⟩
      exact ⟨w₂, by simpa using h₂⟩

/-- A graph without objects gets everything that a fresh machine has. -/
theorem bootstrap (hg : g.Unborn) (hS : S (.fault .overflow)) :
    Spec.bootstrap.Ends g (fun _ g' => ∃ w, Booted w g') E S := by
  refine bind (createNil hg hS) fun _ g₁ hbare₁ => ?_
  refine bind (createBareClasses hS KernelClass.all hbare₁ (fun i k hi => ?_) (by decide))
    fun _ g₂ hbare₂ => ?_
  · rw [Nat.zero_add]
    exact KernelClass.index_of_getElem? hi
  refine bind (createConstants hS hbare₂) ?_
  rintro - g₃ ⟨hw₃, hpinned₃, hspecial₃⟩
  have hfounded₃ : Founded World.empty g₃ [] := ⟨hw₃, hpinned₃, hspecial₃, .nil, rfl, fun _ => rfl⟩
  refine bind (createClasses hS KernelClass.all hfounded₃ (by decide)
    fun _ _ _ hall _ hs => KernelClass.superclass_mem hall hs) ?_
  rintro - g₄ ⟨w, hfounded⟩
  rw [List.nil_append] at hfounded
  refine bind (internSelectors hS hfounded.describes hfounded.special) ?_
  rintro - g₅ ⟨hspeaks, hspoken⟩
  have hequipped : Equipped w g₅ [] :=
    { describes := hspeaks.describes
      pinned := hspeaks.pinned.trans hfounded.pinned
      spoken := hspoken
      roster := hfounded.roster
      bindings := hfounded.bindings
      log := fun owner c _ => by
        rw [hfounded.log]
        exact .nil }
  refine within ((installKernel hS KernelMethod.all KernelMethod.finish_ok hequipped).mono ?_
    (fun _ _ h => h) fun _ h => h)
  rintro - g₆ ⟨w', hbooted⟩
  exact ⟨w', by rwa [List.nil_append] at hbooted⟩

end Spec.Ends

/-! ## Fresh machines -/

namespace Machine

variable {m : Machine} {config : MachineConfig}

theorem eq_ofHeap (hok : ofConfig config = .ok m) : ∃ heap cache,
    Heap.ofConfig config.heap = .ok heap ∧ MethodCache.ofSize? config.cacheSize = some cache ∧
      m = ofHeap heap cache := by
  unfold Machine.ofConfig at hok
  cases hheap : Heap.ofConfig config.heap with
  | error problem =>
    rw [hheap] at hok
    cases hok
  | ok heap =>
    cases hcache : MethodCache.ofSize? config.cacheSize with
    | none =>
      rw [hheap, hcache] at hok
      cases hok
    | some cache =>
      rw [hheap, hcache] at hok
      exact ⟨heap, cache, rfl, rfl, (Except.ok.inj hok).symm⟩

/-- A machine without objects can be read as a graph without objects. -/
theorem legible_ofConfig (hok : ofConfig config = .ok m) (hbytes : config.heap.maxBytes < countLimit) :
    m.Legible [] .null := by
  have hearly := Early.ofConfig hok hbytes
  obtain ⟨heap, cache, hheap, hcache, rfl⟩ := eq_ofHeap hok
  have hcount : heap.sinceCollection = 0 := by
    unfold Heap.ofConfig at hheap
    split at hheap
    · cases hheap
    · cases hheap
      rfl
  have hempty : ∀ entry ∈ cache.entries.toList, entry = MethodCache.noEntry := by
    unfold MethodCache.ofSize? at hcache
    split at hcache
    · cases hcache
      simp
    · cases hcache
  have hnull : Known [] .null := fun hp => nomatch hp
  exact
    { wellFormed := hearly.shaped.toWellFormed
      reserved := hearly.shaped.reserved
      allowed := by simp
      table := hearly.shaped.table
      counted := by
        show heap.sinceCollection ≤ _
        rw [hcount]
        exact Nat.zero_le _
      rootsIn := hearly.rootsIn
      pooled := fun r hr => nomatch hr
      cached := fun entry he => by
        rw [hempty entry he]
        exact ⟨hnull, hnull, hnull⟩
      active := fun hp => absurd (show Ref.null.isPointer = true from hp) (by decide) }

theorem unborn_ofConfig (hok : ofConfig config = .ok m) : (m.graph [] .null).Unborn := by
  obtain ⟨heap, cache, -, -, rfl⟩ := eq_ofHeap hok
  exact
    { idle := by
        have hnull : (Value.ofRef [] .null).isObject = false := by decide
        simpa [Graph.Idle, graph, ofHeap, Registers.empty] using hnull
      next := rfl
      symbols := rfl
      globals := rfl
      pinned := rfl
      special := by
        show (List.map _ _).length = _
        rw [List.length_map]
        simp [ofHeap, CoreObjects.empty] }

/-- A machine has everything that a fresh machine has. -/
def IsBooted (m : Machine) : Prop :=
  ∃ g p starts w, m.Realizes g p starts ∧ Graph.Booted w g

/-- Bootstrapping succeeds unless memory is too small. -/
theorem bootstrap_concludes (hok : ofConfig config = .ok m) (hbytes : config.heap.maxBytes < countLimit) :
    m.bootstrap.Concludes (fun _ m' => m'.IsBooted) (fun _ _ => False) (· = .fault .overflow) := by
  refine (Simulates.bootstrap.concludes (legible_ofConfig hok hbytes).realizes
    (Spec.Ends.bootstrap (E := fun _ _ => False) (S := fun cause => cause = .fault .overflow)
      (unborn_ofConfig hok) rfl)).mono ?_ ?_
  · rintro - m' ⟨-, g, p, starts, ⟨w, hbooted⟩, -, -, hm'⟩
    exact ⟨g, p, starts, w, hm', hbooted⟩
  · rintro failure m' ⟨g, p, starts, hfalse, -⟩
    exact hfalse

end Machine

end ObjectMachine
