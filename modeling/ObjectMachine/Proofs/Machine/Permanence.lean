import ObjectMachine.Proofs.Graph.Bootstrapping
import ObjectMachine.Proofs.Graph.Operations

/-!
# Objects that never move

Nil, the kernel classes and the truth values are made before everything else, so they come first in
memory, and they are roots from the moment when they exist. Collections, which slide what survives to the
front, find them there already.

## Main results

* `Machine.kernel_stays`: these objects are where they were made, whatever is done with the machine.
-/

namespace ObjectMachine

/-- The word where a kernel class is made: nil comes first, and each class has as many words as any. -/
def KernelClass.home (k : KernelClass) : Nat := firstWord + 2 + 7 * k.index

namespace Machine

/-- Nil and some kernel classes are where memory begins, in the order in which they are made. -/
structure IsFounded (m : Machine) (classes : List KernelClass) : Prop where
  nil : m.core.nil = .ofWordIndex firstWord
  cls : ∀ k ∈ classes, m.core.cls k = .ofWordIndex k.home

/-- All objects of the kernel are where memory begins. -/
structure IsInPlace (m : Machine) : Prop extends m.IsFounded KernelClass.all where
  trueObject : m.core.trueObject = .ofWordIndex (firstWord + 2 + 7 * KernelClass.count)
  falseObject : m.core.falseObject = .ofWordIndex (firstWord + 4 + 7 * KernelClass.count)

end Machine

namespace Graph

/-- Nil and some kernel classes have the shapes that they are made with. -/
structure Shaped (g : Graph) (count : Nat) : Prop where
  next : 1 + count ≤ g.next
  nilSize : (g.nodes 0).size = 2
  clsSize : ∀ k : KernelClass, k.index < count → (g.nodes (classNode k)).size = 7

/-- So have all objects of the kernel. -/
structure Furnished (g : Graph) : Prop extends g.Shaped KernelClass.count where
  kernel : kernelObjects ≤ g.next
  trueSize : (g.nodes trueNode).size = 2

variable {g g' : Graph} {count : Nat}

theorem Bare.shaped (hg : g.Bare count) : g.Shaped count where
  next := hg.next.ge
  nilSize := by
    unfold Node.size
    rw [hg.nilNode.1, hg.nilNode.2]
    rfl
  clsSize k hk := by
    obtain ⟨-, hformat, hfields⟩ := hg.cls k hk
    unfold Node.size
    rw [hformat, hfields]
    rfl

theorem Shaped.origin (hg : g.Shaped count) {i : Nat} (hi : i ≤ count) (hcount : count ≤ KernelClass.count) :
    originOf g.nodes (1 + i) = firstWord + 2 + 7 * i := by
  induction i with
  | zero => exact congrArg (firstWord + ·) hg.nilSize
  | succ i ih =>
    obtain ⟨k, hk⟩ := exists_index_eq ⟨i, by omega⟩
    have hval : k.index.val = i := congrArg Fin.val hk
    have hsize := hg.clsSize k (by omega)
    rw [classNode, hval] at hsize
    show originOf g.nodes (1 + i) + (g.nodes (1 + i)).size = _
    rw [ih (by omega), hsize]
    omega

theorem Shaped.layout (hg : g.Shaped count) (hnext : g.next ≤ g'.next)
    (h : ∀ n < g.next, Node.SameLayout (g.nodes n) (g'.nodes n)) : g'.Shaped count where
  next := hg.next.trans hnext
  nilSize := by rw [(h 0 (by have := hg.next; omega)).size_eq, hg.nilSize]
  clsSize k hk := by
    have hlt : classNode k < g.next := by
      have := hg.next
      unfold classNode
      omega
    rw [(h _ hlt).size_eq, hg.clsSize k hk]

theorem Kernel.lasts (hg : g.Kernel) (h : g.Lasts g') : g'.Kernel where
  next := hg.next.trans h.next_le
  nil := h.nil.trans hg.nil
  coreNil := by rw [h.core, hg.coreNil]
  trueObject := by rw [h.core, hg.trueObject]
  falseObject := by rw [h.core, hg.falseObject]
  cls k := by rw [h.core, hg.cls]

theorem Furnished.layout (hg : g.Furnished) (hnext : g.next ≤ g'.next)
    (h : ∀ n < g.next, Node.SameLayout (g.nodes n) (g'.nodes n)) : g'.Furnished where
  toShaped := hg.toShaped.layout hnext h
  kernel := hg.kernel.trans hnext
  trueSize := by
    have hlt : trueNode < g.next := by
      have := hg.kernel
      simp only [kernelObjects, trueNode] at this ⊢
      omega
    rw [(h _ hlt).size_eq, hg.trueSize]

/-- What holds whatever is asked for, and whatever selectors the machine knows. -/
structure Enduring (I : Graph → Prop) : Prop where
  lasts : ∀ {g g'}, I g → g.Lasts g' → I g'
  core : ∀ {g : Graph} {core : Core}, I g → core.cls = g.core.cls → I (g.withCore core)

theorem Furnished.enduring : Enduring Furnished where
  lasts hg h := hg.layout h.next_le h.layout
  core hg _ := hg.layout (Nat.le_refl _) fun _ _ => .refl _

/-- Some objects were made, among them all kernel classes. -/
structure Furnishing (top : Nat) (g : Graph) : Prop extends g.Shaped KernelClass.count where
  made : g.next = top
  trueSize : trueNode < top → (g.nodes trueNode).size = 2

theorem Furnishing.layout {top : Nat} (hg : Furnishing top g) (hnext : g'.next = g.next)
    (h : ∀ n < g.next, Node.SameLayout (g.nodes n) (g'.nodes n)) : Furnishing top g' where
  toShaped := hg.toShaped.layout hnext.ge h
  made := hnext.trans hg.made
  trueSize hlt := by rw [(h _ (hlt.trans_eq hg.made.symm)).size_eq, hg.trueSize hlt]

/-- A truth value is made. -/
theorem Furnishing.withNew {top : Nat} (hg : Furnishing top g) (cls nil : Value) (hash : Nat) :
    Furnishing (top + 1) (g.withNew (.fresh cls nil .plain 0 0 hash)) where
  toShaped := hg.toShaped.layout (Nat.le_succ _) (Spares.withNew _).layout
  made := congrArg (· + 1) hg.made
  trueSize hlt := by
    show (Function.update g.nodes g.next _ trueNode).size = 2
    by_cases heq : trueNode = g.next
    · rw [heq, Function.update_self, Node.size_fresh]
      rfl
    · rw [Function.update_of_ne heq]
      exact hg.trueSize (by have := hg.made; omega)

end Graph

namespace Spec

open ObjectMachine.Graph

theorem Preserves.endures {α : Type} {x : Spec α} {I : Graph → Prop} (hx : x.Preserves Graph.Lasts)
    (hI : Enduring I) : x.Keeps I := by
  intro g hg out hout
  have hlasts := hx.begin g g rfl out hout
  cases out with
  | ok a g' => exact hI.lasts hg hlasts
  | failed failure g' => exact hI.lasts hg hlasts
  | _ => trivial

theorem Keeps.furnishing_mayCollect (top : Nat) : Spec.mayCollect.Keeps (Furnishing top) :=
  Keeps.mayCollect fun _ _ hg h =>
    hg.layout (Collected.of_collected h).next (Spares.collected h).layout

/-- A truth value is made. -/
theorem Gives.furnishing_allocate (top : Nat) (cls : Value) : (Spec.allocate cls .plain 0 0).Gives
    (Furnishing top) (fun _ => Furnishing (top + 1)) (fun _ => True) := by
  refine (Gives.fresh (Keeps.furnishing_mayCollect top)).mono ?_ fun _ _ => trivial
  rintro v _ ⟨g, hash, hg, -, rfl⟩
  exact hg.withNew cls g.nil hash

/-- The truth values are made last. -/
theorem Gives.createConstants : Spec.createConstants.Gives (Graph.Bare · KernelClass.count)
    (fun _ g => g.Furnished) (fun _ => True) := by
  have hask : ∀ {top : Nat} {α : Type} {φ : Graph → α}, (Spec.ask φ).Gives (Furnishing top)
      (fun _ => Furnishing top) (fun _ => True) := of_keeps (Keeps.ask _) fun _ _ => trivial
  have hcore : ∀ {top : Nat} {f : Core → Core}, (Spec.modifyCore f).Gives (Furnishing top)
      (fun _ => Furnishing top) (fun _ => True) :=
    of_keeps (.modify fun g hg => hg.layout rfl fun _ _ => .refl _) fun _ _ => trivial
  refine bind (of_keeps (Keeps.ask _) fun _ _ => trivial) fun core =>
    bind (P := fun _ => Furnishing (1 + KernelClass.count)) ?_ fun _ =>
    bind (furnishing_allocate _ _) fun _ => bind hcore fun _ => bind hask fun _ =>
    bind (furnishing_allocate _ _) fun _ => mono hcore ?_ fun _ h => h
  · intro g hg out hout
    unfold Spec.write at hout
    split at hout <;> subst hout
    · rename_i g' h
      obtain ⟨n, -, rfl⟩ := of_storeClass h
      have hsame : Node.SameLayout (g.nodes n) ((g.nodes n).withClass (core.cls .undefinedObject)) :=
        ⟨rfl, rfl, rfl⟩
      exact ⟨hg.shaped.layout (Nat.le_refl _) fun n' _ => hsame.of_update n', hg.next,
        fun hlt => absurd hlt (by decide)⟩
    · trivial
  · intro _ g hg
    exact ⟨hg.toShaped, hg.made.ge, hg.trueSize (by decide)⟩

/-! ### The rest of what a fresh machine has -/

theorem Preserves.createClass (k : KernelClass) : (Spec.createClass k).Preserves Graph.Lasts := by
  have hmade : ∀ {α : Type} {f : Unit → Spec α}, (f ()).Preserves Graph.Lasts →
      (Spec.newMethodDictionary MethodDictionary.minCapacity >>= fun v => Spec.pin v >>= f).Preserves
        Graph.Lasts :=
    fun hf => (Makes.newMethodDictionary _).preserves.rests.lasts.bind fun v => (pin v).rests.lasts.bind fun _ => hf
  refine (Makes.intern _).preserves.rests.lasts.bind fun symbol => (pin _).rests.lasts.bind fun _ => hmade (hmade ?_)
  exact (ask _).bind fun core => (allocate _ _ _ _).rests.lasts.bind fun metaclass =>
    unpin.rests.lasts.bind fun _ => unpin.rests.lasts.bind fun _ => unpin.rests.lasts.bind fun _ =>
    (ask _).bind fun _ => (linkClass _ _ _ _ _ _ _).lasts.bind fun _ => setGlobal _ _

theorem Preserves.createClasses (classes : List KernelClass) :
    (Spec.createClasses classes).Preserves Graph.Lasts := by
  induction classes with
  | nil => exact .pure ()
  | cons k rest ih => exact (createClass k).bind fun _ => ih

theorem Preserves.installKernel (methods : List KernelMethod) :
    (Spec.installKernel methods).Preserves Graph.Lasts := by
  induction methods with
  | nil => exact .pure ()
  | cons method rest ih =>
    refine bind ?_ fun cls => (install _ _ _).bind fun _ => ih
    cases method.owner with
    | cls k => exact ask _
    | metaclass k => exact read _

theorem Keeps.internSelectors {I : Graph → Prop} (hI : Enduring I) : Spec.internSelectors.Keeps I := by
  have hcore : ∀ {f : Core → Core}, (∀ core, (f core).cls = core.cls) → (Spec.modifyCore f).Keeps I :=
    fun hf => .modify fun g hg => hI.core hg (hf g.core)
  have hintern : ∀ name, (Spec.intern name).Keeps I := fun name =>
    (Makes.intern name).preserves.rests.lasts.endures hI
  have hspecial : ∀ index (specials : List SpecialSelector), (Spec.internSpecial index specials).Keeps I := by
    intro index specials
    induction specials generalizing index with
    | nil => exact Leads.pure () fun _ h => h
    | cons special rest ih =>
      exact bind (hintern _) fun v => bind (hcore fun _ => rfl) fun _ => ih (index + 1)
  exact bind (hspecial _ _) fun _ => bind (hintern _) fun _ => bind (hcore fun _ => rfl) fun _ =>
    bind (hintern _) fun _ => bind (hcore fun _ => rfl) fun _ => bind (hintern _) fun _ => hcore fun _ => rfl

theorem Keeps.within {α : Type} {I : Graph → Prop} {activity : Activity} {x : Spec α} (hx : x.Keeps I) :
    (Spec.within activity x).Keeps I := by
  rintro g hg out ⟨r, hr, hout⟩
  have hfirst := hx g hg r hr
  cases r <;> cases hout <;> exact hfirst

/-- What holds of the objects of the kernel once they are made holds when the machine has everything that it
needs. -/
theorem Gives.bootstrap {I : Graph → Prop} (hI : Enduring I) (hconstants : Spec.createConstants.Gives
    (Graph.Bare · KernelClass.count) (fun _ => I) (fun _ => True)) :
    Spec.bootstrap.Gives Graph.Unborn (fun _ => I) (fun _ => True) := by
  have hkeep : ∀ {α : Type} {x : Spec α}, x.Keeps I → x.Gives I (fun _ => I) fun _ => True :=
    fun hx => of_keeps hx fun _ _ => trivial
  refine bind (of_ends fun g hg => Ends.createNil hg trivial) fun _ => ?_
  refine bind (P := fun _ g => g.Bare KernelClass.count) (of_ends fun g hg => ?_) fun _ => ?_
  · have hends := Ends.createBareClasses (E := fun _ _ => True) (S := fun _ => True) trivial
      KernelClass.all hg (fun i k hi => ?_) (by decide)
    · exact hends
    · rw [Nat.zero_add]
      exact KernelClass.index_of_getElem? hi
  refine bind hconstants fun _ => bind (hkeep ((Preserves.createClasses _).endures hI)) fun _ =>
    bind (hkeep (Keeps.internSelectors hI)) fun _ =>
    hkeep (Keeps.within ((Preserves.installKernel _).endures hI))

end Spec

namespace Machine

variable {m m' : Machine} {g : Graph} {p : Placement} {starts : List Nat} {config : MachineConfig}

/-- Objects of the kernel are where their names say. -/
theorem Realizes.ref_eq (hm : m.Realizes g p starts) {r : Ref} {n : Nat} (hr : p.Shows r (.object n))
    (hkernel : n < kernelObjects) (hn : n < g.next) : r = .ofWordIndex (originOf g.nodes n) := by
  obtain ⟨i, hi, rfl⟩ := hr
  rw [hm.first n hkernel hn] at hi
  cases hi
  rfl

theorem Realizes.isFounded (hm : m.Realizes g p starts) {count : Nat} (hg : g.Shaped count)
    (hcount : count ≤ KernelClass.count) (hnil : g.core.nil = .object 0) {classes : List KernelClass}
    (hclasses : ∀ k ∈ classes, k.index < count ∧ g.core.cls k = .object (Graph.classNode k)) :
    m.IsFounded classes where
  nil := hm.ref_eq (hnil ▸ hm.roots.core.nil) (by decide) (by have := hg.next; omega)
  cls k hk := by
    obtain ⟨hlt, hcls⟩ := hclasses k hk
    have hr := hm.ref_eq (hcls ▸ hm.roots.core.cls k)
      (by simp only [kernelObjects, Graph.classNode]; omega)
      (by have := hg.next; simp only [Graph.classNode]; omega)
    rw [hr, Graph.classNode, hg.origin hlt.le hcount]
    rfl

theorem Realizes.isInPlace (hm : m.Realizes g p starts) (hg : g.Furnished) (hkernel : g.Kernel) :
    m.IsInPlace where
  toIsFounded := hm.isFounded hg.toShaped (Nat.le_refl _) hkernel.coreNil fun k _ =>
    ⟨k.index.isLt, hkernel.cls k⟩
  trueObject := by
    have hr := hm.ref_eq (hkernel.trueObject ▸ hm.roots.core.trueObject) (by decide)
      (lt_of_lt_of_le (by decide) hg.kernel)
    rw [hr, Graph.trueNode, hg.origin (Nat.le_refl _) (Nat.le_refl _)]
  falseObject := by
    have hr := hm.ref_eq (hkernel.falseObject ▸ hm.roots.core.falseObject) (by decide)
      (lt_of_lt_of_le (by decide) hg.kernel)
    have horigin : originOf g.nodes Graph.falseNode =
        originOf g.nodes Graph.trueNode + (g.nodes Graph.trueNode).size := rfl
    rw [hr, horigin, hg.trueSize, Graph.trueNode, hg.origin (Nat.le_refl _) (Nat.le_refl _)]
    rfl

/-! ## The kernel stays -/

/-- An action that succeeds has one of the outcomes of the computation that it simulates. -/
theorem Realizes.exists_outcome {α β : Type} [Depicted α β] {K : Placement → Prop} {x : Action α}
    {y : Spec β} (hm : m.Realizes g p starts) (hx : Simulates p K x y) (hright : ¬ y g .wrong) {a : α}
    (hok : x m = .ok a m') : ∃ b g' p' starts', y g (.ok b g') ∧ m'.Realizes g' p' starts' := by
  have hfits := hx m g starts hm hright
  rw [hok] at hfits
  obtain ⟨b, g', p', starts', hout, -, -, hm'⟩ := hfits
  exact ⟨b, g', p', starts', hout, hm'⟩

/-- What is done first with a fresh machine: nil and some kernel classes are made. -/
def begin (classes : List KernelClass) : Action Unit := do
  createNil
  createBareClasses classes

theorem begin_simulates (classes : List KernelClass) : Simulates p p.Steady (begin classes)
    (Spec.createNil >>= fun _ => Spec.createBareClasses classes) :=
  Simulates.createNil.bind_steady fun _ _ _ _ _ => Simulates.createBareClasses classes

theorem begin_ends (hg : g.Unborn) {classes more : List KernelClass}
    (hall : KernelClass.all = classes ++ more) :
    (Spec.createNil >>= fun _ => Spec.createBareClasses classes).Ends g
      (fun _ g' => g'.Bare classes.length) (fun _ _ => True) fun _ => True := by
  have hlength : classes.length ≤ KernelClass.count := by
    have := congrArg List.length hall
    rw [List.length_append] at this
    exact le_trans (Nat.le_add_right _ _) this.ge
  refine Spec.Ends.bind (Spec.Ends.createNil hg trivial) fun _ g₁ hbare => ?_
  have hends := Spec.Ends.createBareClasses (E := fun _ _ => True) (S := fun _ => True) trivial classes
    hbare (fun i k hi => ?_) (by rwa [Nat.zero_add])
  · rwa [Nat.zero_add] at hends
  · rw [Nat.zero_add]
    refine KernelClass.index_of_getElem? ?_
    rw [hall, List.getElem?_append_left (List.getElem?_eq_some_iff.mp hi).1, hi]

/-- A fresh machine gets everything that it needs, and then operations are performed. -/
def operate (operations : List Operation) : Action Unit := do
  bootstrap
  Operation.performAll operations

/-- The heap of a fresh machine is kept well-formed: neither an operation nor a program that is run reads
or writes anything that is not a part of an object. -/
def KeepsHeap (m : Machine) (operations : List Operation) : Prop :=
  ¬ (do Spec.bootstrap; Spec.performAll operations : Spec Unit) (m.graph [] .null) .wrong

/-- Nil, the kernel classes and the truth values keep the places where they are made: when each class is
made, it and those before it are in place, so are all of them once the last one is made, and whatever is
done then, and however often memory is collected. -/
theorem kernel_stays (hok : ofConfig config = .ok m) (hbytes : config.heap.maxBytes < countLimit) :
    (∀ classes more m', KernelClass.all = classes ++ more → begin classes m = .ok () m' →
      m'.IsFounded classes) ∧
    (∀ m', (do begin KernelClass.all; createConstants : Action Unit) m = .ok () m' → m'.IsInPlace) ∧
    ∀ operations m', m.KeepsHeap operations → operate operations m = .ok () m' → m'.IsInPlace := by
  have hm := (legible_ofConfig hok hbytes).realizes
  have hunborn := unborn_ofConfig hok
  refine ⟨fun classes more m' hall hrun => ?_, fun m' hrun => ?_, fun operations m' hkeeps hrun => ?_⟩
  · have hends := begin_ends hunborn hall
    obtain ⟨_, g', p', starts', hout, hm'⟩ :=
      hm.exists_outcome (begin_simulates classes) (fun hwrong => hends _ hwrong) hrun
    have hbare : g'.Bare classes.length := hends _ hout
    have hlength : classes.length ≤ KernelClass.count := by
      have hlen := congrArg List.length hall
      rw [List.length_append] at hlen
      exact le_trans (Nat.le_add_right _ _) hlen.ge
    refine hm'.isFounded hbare.shaped hlength hbare.coreNil fun k hk => ?_
    obtain ⟨i, hi, rfl⟩ := List.getElem_of_mem hk
    have hindex : (classes[i]).index.val = i := KernelClass.index_of_getElem? (by
      rw [hall, List.getElem?_append_left hi, List.getElem?_eq_getElem hi])
    exact ⟨by omega, (hbare.cls _ (by omega)).1⟩
  · have hends := begin_ends hunborn (List.append_nil _).symm
    have hspec := hends.bind fun _ g₁ hbare => Spec.Ends.createConstants (E := fun _ _ => True) trivial hbare
    obtain ⟨_, g', p', starts', hout, hm'⟩ := hm.exists_outcome
      ((begin_simulates _).bind_steady fun _ _ _ _ _ => Simulates.createConstants)
      (fun hwrong => hspec _ hwrong) hrun
    have hgives := Spec.Gives.bind (Spec.Gives.of_ends (I := (· = m.graph [] .null)) fun g hg => hg ▸ hends)
      fun _ => Spec.Gives.createConstants
    have hfurnished : g'.Furnished := hgives _ rfl _ hout
    exact hm'.isInPlace hfurnished (hspec _ hout).1.settled.kernel
  · obtain ⟨_, g', p', starts', hout, hm'⟩ := hm.exists_outcome
      (Simulates.bootstrap.bind_steady fun _ _ _ _ _ => Simulates.operations operations) hkeeps hrun
    have hboot := Spec.Ends.bootstrap (E := fun _ _ => True) (S := fun _ => True) hunborn trivial
    have hgives := (Spec.Gives.bootstrap Graph.Furnished.enduring Spec.Gives.createConstants).bind
      fun _ => Spec.Gives.of_keeps ((Spec.Preserves.operations operations).endures Graph.Furnished.enduring)
        (Q := fun _ => True) fun _ _ => trivial
    have hfurnished : g'.Furnished := hgives _ hunborn _ hout
    obtain ⟨r, hfirst, hrest⟩ := hout
    cases r with
    | ok _ g₁ =>
      obtain ⟨w, hbooted⟩ := hboot _ hfirst
      have hlasts := (Spec.Preserves.operations operations).begin g₁ g₁ rfl _ hrest
      exact hm'.isInPlace hfurnished (hbooted.describes.settled.kernel.lasts hlasts)
    | _ => cases hrest

/-- A class without a superclass is defined, and memory is collected. -/
def defineRoot : List Operation := [.define "Root" .nil ⟨.plain, 2⟩, .collect]

/-- What makes nothing and does not fail is done. -/
theorem ends_perform {operation : Operation} {Q : Graph → Prop}
    (hspec : operation.spec.Ends g (fun a g' => a = none ∧ Q g') (fun _ _ => False) fun _ => True) :
    (Spec.perform operation).Ends g (fun _ g' => Q g') (fun _ _ => True) fun _ => True := by
  refine Spec.Ends.bind (Spec.Ends.attempt hspec) ?_
  rintro (failure | a) g' hknown
  · exact hknown.elim
  · obtain ⟨rfl, hQ⟩ := hknown
    exact Spec.Ends.pure hQ

theorem defineRoot_keepsHeap (hok : ofConfig config = .ok m) : m.KeepsHeap defineRoot := by
  intro hwrong
  have hends : (do Spec.bootstrap; Spec.performAll defineRoot : Spec Unit).Ends (m.graph [] .null)
      (fun _ _ => True) (fun _ _ => True) fun _ => True := by
    refine Spec.Ends.bind (Spec.Ends.bootstrap (unborn_ofConfig hok) trivial) ?_
    rintro _ g ⟨w, hbooted⟩
    have hw := hbooted.describes
    refine Spec.Ends.bind (ends_perform (Q := fun g' => ∃ w' : Graph.World, w'.Describes g') ?_) ?_
    · refine Spec.Ends.read rfl ?_
      rw [show g.core.nil = Graph.superclassValue none from hw.settled.kernel.coreNil]
      refine Spec.Ends.bind (Spec.Ends.defineClass hw trivial (fun s hs => by cases hs) _) ?_
      rintro _ g₁ ⟨c, metaclass, shelf, metaShelf, -, hleads⟩
      exact Spec.Ends.pure ⟨rfl, _, hleads.describes⟩
    · rintro _ g₁ ⟨w₁, hw₁⟩
      refine Spec.Ends.bind (ends_perform (Q := fun _ => True) ?_) fun _ _ _ => Spec.Ends.pure trivial
      exact Spec.Ends.bind (Spec.Ends.collectGarbage hw₁.settled.idle hw₁.settled.kernel.rooted)
        fun _ _ _ => Spec.Ends.pure ⟨rfl, trivial⟩
  exact hends _ hwrong

theorem defineRoot_stays : ∃ m, ofConfig {} = .ok m ∧ ({} : HeapConfig).maxBytes < countLimit ∧
    m.KeepsHeap defineRoot ∧ ∀ m', operate defineRoot m = .ok () m' → m'.IsInPlace := by
  obtain ⟨m, hok⟩ : ∃ m, ofConfig {} = .ok m := ⟨_, rfl⟩
  have hkeeps := defineRoot_keepsHeap hok
  exact ⟨m, hok, by decide, hkeeps, fun m' hrun =>
    (kernel_stays hok (by decide)).2.2 defineRoot m' hkeeps hrun⟩

end Machine

end ObjectMachine
