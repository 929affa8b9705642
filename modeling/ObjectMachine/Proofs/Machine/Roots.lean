import Mathlib
import ObjectMachine.Machine.Basic

/-!
# The roots of a machine

Listing the roots and replacing them are one traversal with two visitors, one that writes references
down and one that reads them off a list. Both visit the same references in the same order. So when
every root is replaced by its image under a function, every reference of the machine is, and nothing
else changes.

## Main results

* `Machine.roots_eq`: the roots, in order.
* `Machine.withRoots_map`: replacing the roots by their images maps the references of the machine.
-/

namespace ObjectMachine

/-! ## Traversals -/

/-- Writes a reference down. -/
private def noting (r : Ref) : StateM (List Ref) Ref := fun found => (r, r :: found)

/-- Takes the next reference off a list. -/
private def taking (r : Ref) : StateM (List Ref) Ref
  | [] => (r, [])
  | first :: rest => (first, rest)

/-- A traversal that visits some references in order and puts together what the visitor answers. -/
private structure Visits {α : Type} (t : (Ref → StateM (List Ref) Ref) → StateM (List Ref) α)
    (refs : List Ref) (image : (Ref → Ref) → α) : Prop where
  noting : ∀ found, (t noting).run found = (image id, refs.reverse ++ found)
  taking : ∀ f rest, (t taking).run (refs.map f ++ rest) = (image f, rest)

namespace Visits

variable {α β : Type}

private theorem pure (a : α) : Visits (fun _ => Pure.pure a) [] fun _ => a where
  noting _ := rfl
  taking _ _ := rfl

private theorem single (r : Ref) : Visits (fun f => f r) [r] fun f => f r where
  noting _ := rfl
  taking _ _ := rfl

private theorem bind {t : (Ref → StateM (List Ref) Ref) → StateM (List Ref) α}
    {k : α → (Ref → StateM (List Ref) Ref) → StateM (List Ref) β} {xs ys : List Ref}
    {image : (Ref → Ref) → α} {next : α → (Ref → Ref) → β} (ht : Visits t xs image)
    (hk : ∀ a, Visits (k a) ys (next a)) :
    Visits (fun f => t f >>= fun a => k a f) (xs ++ ys) fun f => next (image f) f where
  noting found := by
    rw [StateT.run_bind, ht.noting]
    show (k (image id) ObjectMachine.noting).run (xs.reverse ++ found) = _
    rw [(hk _).noting, List.reverse_append, List.append_assoc]
  taking f rest := by
    rw [StateT.run_bind, List.map_append, List.append_assoc, ht.taking]
    show (k (image f) ObjectMachine.taking).run (ys.map f ++ rest) = _
    exact (hk _).taking f rest

/-- A list is traversed element by element. -/
private theorem mapM_list {γ : Type} {visit : γ → (Ref → StateM (List Ref) Ref) → StateM (List Ref) β}
    {ref : γ → Ref} {image : γ → (Ref → Ref) → β}
    (hvisit : ∀ x, Visits (visit x) [ref x] (image x)) (xs : List γ) :
    Visits (fun f => xs.mapM fun x => visit x f) (xs.map ref) fun f =>
      xs.map fun x => image x f := by
  induction xs with
  | nil => exact .pure []
  | cons x xs ih =>
    simp only [List.mapM_cons, List.map_cons]
    have hrest := (hvisit x).bind fun y => ih.bind fun ys => .pure (y :: ys)
    rw [List.append_nil] at hrest
    exact hrest

private theorem map {t : (Ref → StateM (List Ref) Ref) → StateM (List Ref) α} {refs : List Ref}
    {image : (Ref → Ref) → α} (ht : Visits t refs image) (g : α → β) :
    Visits (fun f => g <$> t f) refs fun f => g (image f) := by
  have hbind := ht.bind fun a => Visits.pure (g a)
  rw [List.append_nil] at hbind
  simp only [map_eq_pure_bind]
  exact hbind

private theorem mapM_array {γ : Type}
    {visit : γ → (Ref → StateM (List Ref) Ref) → StateM (List Ref) β} {ref : γ → Ref}
    {image : γ → (Ref → Ref) → β} (hvisit : ∀ x, Visits (visit x) [ref x] (image x))
    (xs : Array γ) :
    Visits (fun f => xs.mapM fun x => visit x f) (xs.toList.map ref) fun f =>
      xs.map fun x => image x f := by
  have himage : ∀ f, (xs.toList.map fun x => image x f).toArray = xs.map fun x => image x f := by
    intro f
    rw [← Array.toList_map]
  have hlist := (mapM_list hvisit xs.toList).map List.toArray
  simp only [himage] at hlist
  simp only [Array.mapM_eq_mapM_toList]
  exact hlist

private theorem mapM_vector {n : Nat} (xs : Vector Ref n) :
    Visits (fun f => xs.mapM f) xs.toList fun f => xs.map f := by
  have harray : Visits (fun f => xs.toArray.mapM f) xs.toList fun f => xs.toArray.map f := by
    have hmap := mapM_array (fun r => Visits.single r) xs.toArray
    rw [List.map_id''] at hmap
    · exact hmap
    · intro r
      rfl
  -- A vector is traversed as the array of its elements is.
  have hrun : ∀ (f : Ref → StateM (List Ref) Ref) (s : List Ref),
      (xs.toArray.mapM f).run s = (((xs.mapM f).run s).1.toArray, ((xs.mapM f).run s).2) := by
    intro f s
    rw [← Vector.toArray_mapM]
    rfl
  constructor
  · intro found
    have hnoting := harray.noting found
    rw [hrun, Prod.mk.injEq] at hnoting
    refine Prod.ext ?_ hnoting.2
    exact Vector.toArray_inj.mp (hnoting.1.trans (by simp))
  · intro f rest
    have htaking := harray.taking f rest
    rw [hrun, Prod.mk.injEq] at htaking
    refine Prod.ext ?_ htaking.2
    exact Vector.toArray_inj.mp (htaking.1.trans (by simp))

end Visits

/-! ## References and their images -/

namespace Registers

/-- The references in the registers, in order. -/
def refs (r : Registers) : List Ref :=
  [r.activeContext, r.homeContext, r.method, r.receiver, r.literals, r.selector, r.lookupClass,
    r.newMethod]

/-- The registers with the images of their references. -/
def mapRefs (f : Ref → Ref) (r : Registers) : Registers :=
  { r with
    activeContext := f r.activeContext
    homeContext := f r.homeContext
    method := f r.method
    receiver := f r.receiver
    literals := f r.literals
    selector := f r.selector
    lookupClass := f r.lookupClass
    newMethod := f r.newMethod }

private theorem visits (r : Registers) : Visits (fun f => r.traverse f) r.refs (mapRefs · r) :=
  (Visits.single r.activeContext).bind fun _ => (Visits.single r.homeContext).bind fun _ =>
    (Visits.single r.method).bind fun _ => (Visits.single r.receiver).bind fun _ =>
    (Visits.single r.literals).bind fun _ => (Visits.single r.selector).bind fun _ =>
    (Visits.single r.lookupClass).bind fun _ => (Visits.single r.newMethod).bind fun _ => .pure _

end Registers

namespace CoreObjects

/-- The known objects, in order. -/
def refs (c : CoreObjects) : List Ref :=
  c.nil :: c.trueObject :: c.falseObject :: (c.classes.toList ++
    c.doesNotUnderstand :: c.escapedBlock :: c.mustBeBoolean :: c.specialSelectors.toList)

/-- The images of the known objects. -/
def mapRefs (f : Ref → Ref) (c : CoreObjects) : CoreObjects where
  nil := f c.nil
  trueObject := f c.trueObject
  falseObject := f c.falseObject
  classes := c.classes.map f
  doesNotUnderstand := f c.doesNotUnderstand
  escapedBlock := f c.escapedBlock
  mustBeBoolean := f c.mustBeBoolean
  specialSelectors := c.specialSelectors.map f

private theorem visits (c : CoreObjects) : Visits (fun f => c.traverse f) c.refs (mapRefs · c) := by
  have hselectors := Visits.mapM_array (fun r => Visits.single r) c.specialSelectors
  have hall := (Visits.single c.nil).bind fun nil => (Visits.single c.trueObject).bind fun yes =>
    (Visits.single c.falseObject).bind fun no => (Visits.mapM_vector c.classes).bind fun classes =>
    (Visits.single c.doesNotUnderstand).bind fun unknown =>
    (Visits.single c.escapedBlock).bind fun escaped =>
    (Visits.single c.mustBeBoolean).bind fun boolean => hselectors.bind fun selectors =>
    Visits.pure (⟨nil, yes, no, classes, unknown, escaped, boolean, selectors⟩ : CoreObjects)
  simp only [List.append_nil, List.map_id'] at hall
  exact hall

end CoreObjects

namespace NameTable

/-- The references in a table, in order. -/
def refs (t : NameTable) : List Ref := t.entries.toList.map (·.2)

/-- The table with the images of its references. -/
def mapRefs (f : Ref → Ref) (t : NameTable) : NameTable :=
  ⟨t.entries.map fun (name, r) => (name, f r)⟩

private theorem visits (t : NameTable) : Visits (fun f => t.traverse f) t.refs (mapRefs · t) := by
  have hentry : ∀ x : String × Ref, Visits
      (fun f => do return (x.1, ← f x.2)) [x.2] fun f => (x.1, f x.2) := by
    intro x
    exact (Visits.single x.2).bind fun r => .pure (x.1, r)
  have hall := (Visits.mapM_array hentry t.entries).bind fun entries =>
    Visits.pure (⟨entries⟩ : NameTable)
  rw [List.append_nil] at hall
  exact hall

end NameTable

namespace Machine

/-- The machine with the images of its roots. -/
def mapRoots (f : Ref → Ref) (m : Machine) : Machine :=
  { m with
    registers := m.registers.mapRefs f
    core := m.core.mapRefs f
    symbols := m.symbols.mapRefs f
    globals := m.globals.mapRefs f
    pinned := m.pinned.map f }

private theorem visits (m : Machine) :
    Visits (fun f => m.traverse f)
      (m.registers.refs ++ (m.core.refs ++ (m.symbols.refs ++ (m.globals.refs ++ m.pinned.toList))))
      (mapRoots · m) := by
  have hpinned := Visits.mapM_array (fun r => Visits.single r) m.pinned
  have hall := m.registers.visits.bind fun registers => m.core.visits.bind fun core =>
    m.symbols.visits.bind fun symbols => m.globals.visits.bind fun globals =>
    hpinned.bind fun pinned => Visits.pure { m with registers, core, symbols, globals, pinned }
  simp only [List.append_nil, List.map_id'] at hall
  exact hall

/-- The roots: the references in the registers, the known objects, symbols, globals and pinned
temporaries. -/
theorem roots_eq (m : Machine) :
    m.roots =
      m.registers.refs ++ (m.core.refs ++ (m.symbols.refs ++ (m.globals.refs ++ m.pinned.toList))) := by
  have hnoting := m.visits.noting []
  show ((m.traverse noting).run []).2.reverse = _
  rw [hnoting]
  simp

/-- Replacing the roots by their images maps the references of the machine. -/
theorem withRoots_map (m : Machine) (f : Ref → Ref) :
    m.withRoots (m.roots.map f) = m.mapRoots f := by
  have htaking := m.visits.taking f []
  rw [List.append_nil, ← roots_eq] at htaking
  show ((m.traverse taking).run (m.roots.map f)).1 = _
  rw [htaking]

end Machine

end ObjectMachine
