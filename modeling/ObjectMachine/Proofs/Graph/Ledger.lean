import Mathlib.Logic.Function.Basic
import ObjectMachine.Proofs.Graph.Fetching
import ObjectMachine.Proofs.Graph.Operations

/-!
# The values of globals

A ledger notes what is stored under the names of globals: by whoever asks for that from outside, and by
the instructions that store into a variable. Whatever else is done, the ledger is right about the
associations: what was noted last for a name is the value of its association, and the methods that
mention a name have that association among their literals.

## Main results

* `Ledger.Holds.next`: an operation and its note.
* `Ledger.Holds.record`: operations one after the other.
-/

namespace ObjectMachine

/-- The literal whose association an instruction stores into as a variable. -/
def Instruction.globalStore? : Instruction → Option Nat
  | .store .literal index | .popInto .literal index => some index.toNat
  | _ => none

namespace Graph

variable (g : Graph)

/-- The value of a global, if it was ever mentioned. -/
def global? (name : String) : Option Value := do
  let association ← named? g.globals name
  g.field association Association.valueField

/-- A literal of the running method, if it is an association. -/
def associationLiteral? (index : Nat) : Option Value := do
  let len ← g.length g.registers.literals
  let v ← g.element g.registers.literals index
  if index < len ∧ g.hasAssociationShape v = true then some v else none

/-- The association that the next instruction stores into as a variable, and what it stores. -/
def nextStore? : Option (Value × Value) := do
  let index ← (← g.next?).globalStore?
  let association ← g.associationLiteral? index
  let v ← g.stackValue 0
  return (association, v)

/-- The names of the globals that a method mentions, each with what the method has for it. -/
def linksOf (literals : List Literal) (method : Option Value) : List (String × Option Value) :=
  literals.zipIdx.filterMap fun entry =>
    entry.1.global?.map fun name => (name, method.bind fun v => g.literal v entry.2)

/-- The values of associations are what they were, with one exception, and new ones are nil. -/
def LeavesCells (spared : Option Value) (g g' : Graph) : Prop :=
  ∀ name n, (name, .object n) ∈ g'.globals → spared ≠ some (.object n) →
    (name, .object n) ∈ g.globals ∧
        (g'.nodes n).field Association.valueField = (g.nodes n).field Association.valueField ∨
      (name, .object n) ∉ g.globals ∧ (g'.nodes n).field Association.valueField = g.core.nil

/-- Globals are added with some names, and all of these are there afterwards. -/
structure AddsNames (names : List String) (g g' : Graph) : Prop extends g.Lasts g' where
  added : g.Bound → ∀ {name n}, (name, .object n) ∈ g'.globals → (name, .object n) ∈ g.globals ∨ name ∈ names
  known : ∀ name ∈ names, ∃ v, named? g'.globals name = some v

end Graph

/-- What was stored under names. -/
structure Ledger where
  /-- What was stored last under a name, or nil if the name was only mentioned. -/
  value : String → Option Value
  links : List (String × Option Value)

namespace Ledger

open ObjectMachine.Graph

/-- Names are mentioned. -/
def mention (L : Ledger) (nil : Value) (names : List String) : Ledger :=
  { L with value := fun name => if name ∈ names then some ((L.value name).getD nil) else L.value name }

/-- A value is stored under a name. -/
def store (L : Ledger) (name : String) (v : Option Value) : Ledger :=
  { L with value := Function.update L.value name v }

/-- A value is stored into an association. -/
def storeInto (L : Ledger) (globals : List (String × Value)) (association v : Value) : Ledger :=
  { L with value := fun name => if named? globals name = some association then some v else L.value name }

/-- What is noted of an operation. The methods that are built are kept among the temporaries. -/
def after (L : Ledger) (operation : Operation) (g g' : Graph) : Ledger :=
  match operation with
  | .mention name => L.mention g.core.nil [name]
  | .bind name value => L.store name (value.value g)
  | .build code _ =>
    let noted := L.mention g.core.nil code.mentioned
    { noted with links := noted.links ++ g'.linksOf code.frame g'.pinned.getLast? }
  | .install code _ _ => L.mention g.core.nil code.mentioned
  | .step =>
    match g.nextStore? with
    | some (association, v) => L.storeInto g.globals association v
    | none => L
  | _ => L

/-- A ledger is right about a graph. -/
structure Holds (L : Ledger) (g : Graph) : Prop where
  bound : g.Bound
  value : ∀ name, L.value name = g.global? name
  links : ∀ {name v}, (name, v) ∈ L.links → v.isSome ∧ v = named? g.globals name

end Ledger

namespace Operation

/-- What is written into associations otherwise than as the values of globals. Nothing has to be known of
operations that only make objects. -/
def LeavesCells (g : Graph) (operation : Operation) (g' : Graph) : Prop :=
  match operation with
  | step => g.LeavesCells (g.nextStore?.map Prod.fst) g'
  | install .. | add .. => g.LeavesCells none g'
  | _ => True

/-- Operations that are not made of other operations. -/
def IsSimple : Operation → Prop
  | define .. | run .. | execute .. | send .. => False
  | _ => True

end Operation

namespace Spec

/-- Does what is asked for and notes it. -/
noncomputable def note (operation : Operation) (L : Ledger) : Spec Ledger := do
  let g ← ask id
  perform operation
  guard (operation.LeavesCells g)
  ask (L.after operation g)

/-- Does one thing after another, and notes everything. -/
noncomputable def noteAll : List Operation → Ledger → Spec Ledger
  | [], L => return L
  | operation :: rest, L => do noteAll rest (← note operation L)

end Spec

/-! ## What is known of a global -/

namespace Graph

variable {g g' : Graph} {name : String} {names : List String} {spared : Option Value} {v : Value} {n : Nat}

theorem Bound.named? (hg : g.Bound) (h : named? g.globals name = some v) :
    ∃ n, v = .object n ∧ (name, .object n) ∈ g.globals ∧ g.global? name =
      some ((g.nodes n).field Association.valueField) := by
  have hmem := mem_of_named? h
  obtain ⟨n, rfl, -, -, -, hfields⟩ := hg.association hmem
  refine ⟨n, rfl, hmem, ?_⟩
  unfold global?
  rw [h]
  exact field_of_lt (hfields ▸ (by decide : Association.valueField < Association.fieldCount))

theorem global?_of_none (h : named? g.globals name = none) : g.global? name = none := by
  unfold global?
  rw [h]
  rfl

theorem not_mem_of_none (h : named? g.globals name = none) : (name, v) ∉ g.globals :=
  fun hmem => not_mem_of_named? h (List.mem_map_of_mem hmem)

theorem Shares.leavesCells (h : g.Shares names g') (hg : g.Bound) : g.LeavesCells none g' := by
  intro name n hmem _
  by_cases hold : (name, Value.object n) ∈ g.globals
  · obtain ⟨hn, -, hfields⟩ := hg.fields hold
    exact .inl ⟨hold, by rw [h.cells _ hn hfields]⟩
  · exact .inr ⟨hold, ((h.added hg hmem).resolve_left hold).2⟩

theorem Rests.addsNames (h : g.Rests g') : g.AddsNames [] g' :=
  ⟨h.lasts, fun _ _ _ hmem => .inl (h.globals ▸ hmem), fun _ hname => absurd hname List.not_mem_nil⟩

theorem AddsNames.of_shares (h : g.Shares names g')
    (hknown : ∀ name ∈ names, ∃ v, Graph.named? g'.globals name = some v) : g.AddsNames names g' :=
  ⟨h.toLasts, fun hg _ _ hmem => (h.added hg hmem).imp_right fun hnew => hnew.1, hknown⟩

theorem AddsNames.rests {g'' : Graph} (h : g.AddsNames names g') (h' : g'.Rests g'') :
    g.AddsNames names g'' :=
  ⟨h.toLasts.trans h'.lasts, fun hg _ _ hmem => h.added hg (h'.globals ▸ hmem),
    fun name hname => h'.globals.symm ▸ h.known name hname⟩

/-- A method that has its globals among its literals was made once these were there. -/
theorem Links.known {code : Assembler} {method : Value} (h : g.Links code.frame method) :
    ∀ name ∈ code.mentioned, ∃ v, Graph.named? g.globals name = some v := by
  intro name hname
  obtain ⟨literal, hliteral, heq⟩ := List.mem_filterMap.mp hname
  obtain ⟨index, hindex, rfl⟩ := List.getElem_of_mem hliteral
  have hglobal : code.frame[index] = .global name := by
    unfold Literal.global? at heq
    split at heq <;> simp_all
  obtain ⟨association, hnamed, -⟩ := h index name (by rw [List.getElem?_eq_getElem hindex, hglobal])
  exact ⟨association, hnamed⟩

/-- What is noted of a method is what it has among its literals. -/
theorem Links.linksOf {literals : List Literal} {method : Value} (h : g.Links literals method)
    {v : Option Value} (hmem : (name, v) ∈ g.linksOf literals (some method)) :
    v.isSome ∧ v = Graph.named? g.globals name := by
  obtain ⟨⟨literal, index⟩, hentry, heq⟩ := List.mem_filterMap.mp hmem
  have hindex : literals[index]? = some literal := List.mk_mem_zipIdx_iff_getElem?.mp hentry
  obtain ⟨name', hname, heq⟩ := Option.map_eq_some_iff.mp heq
  cases heq
  have hglobal : literal = .global name := by
    unfold Literal.global? at hname
    split at hname <;> simp_all
  obtain ⟨association, hnamed, hliteral⟩ := h index name (hglobal ▸ hindex)
  show (g.literal method index).isSome ∧ g.literal method index = _
  rw [hliteral, hnamed]
  exact ⟨rfl, rfl⟩

end Graph

namespace Ledger.Holds

open ObjectMachine.Graph

variable {L : Ledger} {g g' : Graph} {names : List String} {spared : Option Value} {name : String}

/-- What is known of a global after names were added, unless its association is the one that may have
changed. -/
theorem global? (hL : L.Holds g) (hadds : g.AddsNames names g') (hcells : g.LeavesCells spared g')
    (hspared : ∀ v, named? g'.globals name = some v → spared ≠ some v) :
    (L.mention g.core.nil names).value name = g'.global? name := by
  show (if name ∈ names then some ((L.value name).getD g.core.nil) else L.value name) = _
  rw [hL.value]
  cases hnew : named? g'.globals name with
  | none =>
    have hnone : named? g.globals name = none := by
      cases hold : named? g.globals name with
      | none => rfl
      | some v => rw [named?_mono hold hadds.globals] at hnew; cases hnew
    rw [global?_of_none hnew, global?_of_none hnone, if_neg]
    intro hname
    obtain ⟨v, hv⟩ := hadds.known name hname
    rw [hv] at hnew
    cases hnew
  | some v =>
    obtain ⟨n, rfl, hmem', hvalue'⟩ := (hadds.bound hL.bound).named? hnew
    have hcell := hcells name n hmem' (hspared _ hnew)
    rw [hvalue']
    cases hold : named? g.globals name with
    | none =>
      have hnot := not_mem_of_none (v := .object n) hold
      have hname := (hadds.added hL.bound hmem').resolve_left hnot
      rw [global?_of_none hold, if_pos hname, (hcell.resolve_left fun h => hnot h.1).2]
      rfl
    | some w =>
      rw [named?_mono hold hadds.globals] at hnew
      cases hnew
      obtain ⟨n', ⟨⟩, hmem, hvalue⟩ := hL.bound.named? hold
      rw [hvalue, (hcell.resolve_right fun h => h.1 hmem).2]
      split <;> rfl

theorem links_lasts (hL : L.Holds g) (h : g.Lasts g') {v : Option Value} (hmem : (name, v) ∈ L.links) :
    v.isSome ∧ v = named? g'.globals name := by
  obtain ⟨hsome, hv⟩ := hL.links hmem
  obtain ⟨w, rfl⟩ := Option.isSome_iff_exists.mp hsome
  exact ⟨rfl, (named?_mono hv.symm h.globals).symm⟩

/-- Names are mentioned. -/
theorem mention (hL : L.Holds g) (hadds : g.AddsNames names g') (hcells : g.LeavesCells none g') :
    (L.mention g.core.nil names).Holds g' where
  bound := hadds.bound hL.bound
  value _ := hL.global? hadds hcells fun _ _ h => by cases h
  links := hL.links_lasts hadds.toLasts

theorem mention_nil (L : Ledger) (nil : Value) : L.mention nil [] = L := by
  unfold Ledger.mention
  simp

/-- No global is stored into. -/
theorem spares (hL : L.Holds g) (h : g.Rests g') (hcells : g.LeavesCells none g') : L.Holds g' := by
  have hnext := hL.mention h.addsNames hcells
  rwa [mention_nil] at hnext

/-- A value is stored under a name. -/
theorem store (hL : L.Holds g) {association v : Value} (hadds : g.AddsNames [name] g')
    (hcells : g.LeavesCells (some association) g') (hnamed : named? g'.globals name = some association)
    (hvalue : g'.field association Association.valueField = some v) : (L.store name (some v)).Holds g' where
  bound := hadds.bound hL.bound
  value other := by
    show Function.update L.value name (some v) other = _
    by_cases heq : other = name
    · subst heq
      rw [Function.update_self]
      unfold Graph.global?
      rw [hnamed]
      exact hvalue.symm
    · rw [Function.update_of_ne heq]
      have hnext : (L.mention g.core.nil [name]).value other = g'.global? other :=
        hL.global? hadds hcells fun w hw hspared => by
        cases hspared
        exact heq ((hadds.bound hL.bound).distinct.name_unique (mem_of_named? hw) (mem_of_named? hnamed))
      rw [← hnext]
      exact (if_neg (by simpa using heq)).symm
  links := hL.links_lasts hadds.toLasts

/-- A value is stored into an association. -/
theorem storeInto (hL : L.Holds g) {association v : Value} (h : g.Rests g')
    (hcells : g.LeavesCells (some association) g')
    (hvalue : ∀ name, named? g.globals name = some association →
      g'.field association Association.valueField = some v) :
    (L.storeInto g.globals association v).Holds g' where
  bound := hL.bound.rests h
  value name := by
    show (if named? g.globals name = some association then some v else L.value name) = _
    split
    · rename_i hnamed
      unfold Graph.global?
      rw [h.globals, hnamed]
      exact (hvalue name hnamed).symm
    · rename_i hnamed
      have hnext : (L.mention g.core.nil []).value name = g'.global? name :=
        hL.global? h.addsNames hcells fun w hw hspared => by
        cases hspared
        exact hnamed (h.globals ▸ hw)
      rwa [mention_nil] at hnext
  links := hL.links_lasts h.lasts

end Ledger.Holds

/-! ## Operations -/

namespace Spec

open ObjectMachine.Graph

namespace Gives

variable {α β : Type} {x : Spec α} {f : α → Spec β} {g : Graph} {I Q : Graph → Prop}
  {P : α → Graph → Prop} {R : β → Graph → Prop}

theorem attempt (hx : x.Gives I P Q) :
    (Spec.attempt x).Gives I (fun result g' => match result with
      | .ok a => P a g'
      | .error _ => Q g') fun _ => False := by
  rintro g hg out ⟨r, hr, hout⟩
  have hfirst := hx g hg r hr
  cases r <;> cases hout <;> exact hfirst

theorem guard {p : Graph → Prop} {f : Unit → Spec β} (hf : p g → (f ()).Gives (· = g) R Q) :
    (Spec.guard p >>= f).Gives (· = g) R Q := by
  rintro _ rfl out ⟨r, (⟨hp, rfl⟩ | ⟨-, rfl⟩), hout⟩
  · exact hf hp _ rfl out hout
  · cases hout
    trivial

theorem write_last {h : Graph → Option Graph} {P : Unit → Graph → Prop}
    (hP : ∀ g', h g = some g' → P () g') : (Spec.write h).Gives (· = g) P Q := by
  rintro _ rfl out hout
  unfold Spec.write at hout
  split at hout <;> subst hout
  · exact hP _ ‹_›
  · trivial

theorem of_preserves {R : Graph → Graph → Prop} [Std.Refl R] (hx : x.Preserves R) (g : Graph) :
    x.Gives (· = g) (fun _ => R g) (R g) := by
  intro g' hg' out hout
  have hlead := hx.begin g g' hg' out hout
  cases out with
  | ok a g'' => exact hlead
  | failed failure g'' => exact hlead
  | _ => trivial

/-- An operation, with what it makes kept. -/
theorem perform {operation : Operation} {P : Option Value → Graph → Prop} {R : Graph → Prop}
    (hx : operation.spec.Gives (· = g) P Q) (hnone : ∀ g', P none g' → R g')
    (hsome : ∀ v g', P (some v) g' → R (g'.withPinned (g'.pinned ++ [v]))) (hQ : ∀ g', Q g' → R g') :
    (Spec.perform operation).Gives (· = g) (fun _ => R) fun _ => False := by
  refine bind hx.attempt fun result => .of_forall fun g' hg' => ?_
  rcases result with failure | (_ | v)
  · exact Gives.pure (hQ g' hg')
  · exact Gives.pure (hnone g' hg')
  · rintro _ rfl _ rfl
    exact hsome v _ hg'

end Gives

end Spec

namespace Ledger.Holds

open ObjectMachine.Graph

variable {L : Ledger} {g : Graph} {operation : Operation}

/-- An operation is performed of which something is known. -/
theorem note_of {R : Graph → Prop}
    (hx : (Spec.perform operation).Gives (· = g) (fun _ => R) fun _ => False)
    (hR : ∀ g', R g' → operation.LeavesCells g g' → (L.after operation g g').Holds g') :
    (Spec.note operation L).Gives (· = g) (fun L' g' => L'.Holds g') fun _ => True := by
  refine Spec.Gives.ask ?_
  refine Spec.Gives.bind (hx.mono (fun _ _ h => h) fun _ h => h.elim) fun _ => .of_forall fun g' hg' =>
    Spec.Gives.guard fun hleaves => ?_
  rintro _ rfl _ rfl
  exact hR _ hg' hleaves

/-- Nothing is noted. -/
theorem note_spares (hL : L.Holds g) (hx : operation.spec.Preserves Graph.Spares)
    (hafter : ∀ g', L.after operation g g' = L) :
    (Spec.note operation L).Gives (· = g) (fun L' g' => L'.Holds g') fun _ => True := by
  refine note_of (R := g.Spares) ((Spec.Gives.of_preserves hx g).perform (fun _ h => h)
    (fun v g' h => h.trans (.withPinned _ _)) fun _ h => h) fun g' hg' _ => ?_
  rw [hafter]
  exact hL.spares hg'.toRests ((hg'.shares : g.Shares [] g').leavesCells hL.bound)

theorem note_mention (hL : L.Holds g) (name : String) :
    (Spec.note (.mention name) L).Gives (· = g) (fun L' g' => L'.Holds g') fun _ => True := by
  let R : Graph → Prop := fun g' => g.Shares [name] g' ∧ ∃ v, named? g'.globals name = some v
  have hspec : (Operation.mention name).spec.Gives (· = g) (fun _ => R) fun _ => False :=
    Spec.Gives.bind (Spec.Gives.globalAssociation name g) fun v => .of_forall fun g' h =>
      Spec.Gives.pure ⟨h.1, v, h.2.2⟩
  refine note_of (hspec.perform (fun _ h => h) (fun v g' h => ⟨h.1.trans (Spares.withPinned _ _).shares, h.2⟩)
    fun _ h => h.elim) fun g' hg' _ => ?_
  refine hL.mention (.of_shares hg'.1 fun other hother => ?_) (hg'.1.leavesCells hL.bound)
  rw [List.mem_singleton.mp hother]
  exact hg'.2

theorem note_build (hL : L.Holds g) (code : Assembler) (cls : Operand) :
    (Spec.note (.build code cls) L).Gives (· = g) (fun L' g' => L'.Holds g') fun _ => True := by
  let P : Option Value → Graph → Prop := fun made g' => ∃ v, made = some v ∧ g.Shares code.mentioned g' ∧
    g'.Links code.frame v
  let R : Graph → Prop := fun g' => (∃ v, g'.pinned.getLast? = some v ∧ g.Shares code.mentioned g' ∧
    g'.Links code.frame v) ∨ g' = g ∧ code.frame = []
  have hspec : (Operation.build code cls).spec.Gives (· = g) P fun g' => g' = g ∧ code.frame = [] :=
    Spec.Gives.read fun c _ => Spec.Gives.bind (Spec.Gives.build code c g) fun v => .of_forall fun g' h =>
      Spec.Gives.pure ⟨v, rfl, h.1.1, h.2.1⟩
  refine note_of (R := R) (hspec.perform ?_ ?_ fun _ h => .inr h) fun g' hg' _ => ?_
  · rintro g' ⟨v, hv, -⟩
    cases hv
  · rintro v g' ⟨_, ⟨⟩, hshares, hlinks⟩
    exact .inl ⟨v, List.getLast?_concat .., hshares.trans (Spares.withPinned _ _).shares, hlinks⟩
  · obtain ⟨v, hlast, hshares, hlinks⟩ | ⟨rfl, hframe⟩ := hg'
    · have hnext := hL.mention (.of_shares hshares hlinks.known) (hshares.leavesCells hL.bound)
      refine { hnext with links := fun hmem => ?_ }
      obtain hmem | hmem := List.mem_append.mp hmem
      · exact hnext.links hmem
      · rw [hlast] at hmem
        exact hlinks.linksOf hmem
    · show Ledger.Holds { L.mention g'.core.nil code.mentioned with
        links := L.links ++ g'.linksOf code.frame g'.pinned.getLast? } g'
      unfold Assembler.mentioned
      rw [hframe]
      show Ledger.Holds { L.mention g'.core.nil [] with links := L.links ++ [] } g'
      rw [mention_nil, List.append_nil]
      exact hL

theorem note_bind (hL : L.Holds g) (name : String) (operand : Operand) :
    (Spec.note (.bind name operand) L).Gives (· = g) (fun L' g' => L'.Holds g') fun _ => True := by
  let R : Graph → Prop := fun g' => ∃ association v, operand.value g = some v ∧ g.AddsNames [name] g' ∧
    g.LeavesCells (some association) g' ∧ named? g'.globals name = some association ∧
    g'.field association Association.valueField = some v
  have hspec : (Operation.bind name operand).spec.Gives (· = g) (fun made g' => made = none ∧ R g')
      fun _ => False := by
    refine Spec.Gives.read fun v hv => ?_
    rw [Spec.setGlobal, Spec.bind_assoc]
    refine Spec.Gives.modify ?_
    rw [Spec.bind_assoc]
    refine Spec.Gives.bind (Spec.Gives.globalAssociation name _) fun association => .of_forall fun g₁ h₁ => ?_
    obtain ⟨hshares, hpins, hnamed⟩ := h₁
    rw [Spec.bind_assoc]
    refine Spec.Gives.pinned hpins (Spec.Gives.write fun g₂ hstore => Spec.Gives.pure ⟨rfl, ?_⟩)
    have hshares : g.Shares [name] (g₁.withPinned g.pinned) :=
      ((Spares.withPinned g _).shares.trans hshares).trans (Spares.withPinned _ _).shares
    have hrests := Rests.storeField hstore
    obtain ⟨n, rfl, hlt, -, rfl⟩ := of_storeField hstore
    refine ⟨_, v, hv, ⟨hshares.toLasts.trans hrests.lasts, fun hg _ _ hmem =>
      (hshares.added hg hmem).imp_right fun hnew => hnew.1, fun other hother => ?_⟩, ?_, hnamed, ?_⟩
    · rw [List.mem_singleton.mp hother]
      exact ⟨_, hnamed⟩
    · intro other n' hmem hne
      have hne : n' ≠ n := fun heq => hne (by rw [heq])
      rw [nodes_setNode, Function.update_of_ne hne]
      exact hshares.leavesCells hL.bound other n' hmem (by simp)
    · rw [field_of_lt (by simpa using hlt)]
      simp
  refine note_of (R := R) (hspec.perform (fun _ h => h.2) (fun v _ h => by cases h.1) fun _ h => h.elim)
    fun g' hg' _ => ?_
  obtain ⟨association, v, hv, hadds, hcells, hnamed, hvalue⟩ := hg'
  show (L.store name (operand.value g)).Holds g'
  rw [hv]
  exact hL.store hadds hcells hnamed hvalue

theorem note_add (hL : L.Holds g) (cls : Operand) (selector : String) (method : Operand) :
    (Spec.note (.add cls selector method) L).Gives (· = g) (fun L' g' => L'.Holds g') fun _ => True := by
  have hspec : (Operation.add cls selector method).spec.Preserves Graph.Rests :=
    (Spec.Preserves.read _).bind fun c => (Spec.Preserves.read _).bind fun v =>
      (Spec.Preserves.installMethod c selector v).map _
  refine note_of (R := g.Rests) ((Spec.Gives.of_preserves hspec g).perform (fun _ h => h)
    (fun v g' h => h.trans (Spares.withPinned _ _).toRests) fun _ h => h) fun g' hg' hleaves => ?_
  exact hL.spares hg' hleaves

theorem note_install (hL : L.Holds g) (code : Assembler) (cls : Operand) (selector : String) :
    (Spec.note (.install code cls selector) L).Gives (· = g) (fun L' g' => L'.Holds g') fun _ => True := by
  have hspec : (Operation.install code cls selector).spec.Gives (· = g)
      (fun _ => g.AddsNames code.mentioned) (g.AddsNames code.mentioned) := by
    refine Spec.Gives.read fun c _ => ?_
    rw [Spec.install, Spec.bind_assoc]
    refine Spec.Gives.modify ?_
    rw [Spec.bind_assoc]
    have hpin : g.Spares (g.withPinned (g.pinned ++ [c])) := .withPinned g _
    have hbuilt := (Spec.Gives.build code c (g.withPinned (g.pinned ++ [c]))).attempt
    refine Spec.Gives.bind (hbuilt.mono (fun _ _ h => h) fun _ h => h.elim) fun method =>
      .of_forall fun g₁ h₁ => ?_
    have hadds : g.AddsNames code.mentioned g₁ := by
      rcases method with failure | v
      · obtain ⟨rfl, hframe⟩ := h₁
        unfold Assembler.mentioned
        rw [hframe]
        exact hpin.toRests.addsNames
      · exact .of_shares (hpin.shares.trans h₁.1.1) h₁.2.1.known
    refine (Spec.Gives.of_preserves (R := Graph.Rests) ?_ g₁).mono (fun _ _ h => hadds.rests h)
      fun _ h => hadds.rests h
    refine Spec.Preserves.map (Spec.Preserves.unpin.rests.bind fun cls => ?_) _
    cases method with
    | ok method => exact .installMethod cls selector method
    | error failure => exact (Spec.Preserves.read _).bind fun _ => .fail _
  refine note_of (R := g.AddsNames code.mentioned) (hspec.perform (fun _ h => h)
    (fun v g' h => h.rests (Spares.withPinned _ _).toRests) fun _ h => h) fun g' hg' hleaves => ?_
  exact hL.mention hg' hleaves

end Ledger.Holds

/-! ### Instructions -/

namespace Spec

open ObjectMachine.Graph

variable {g g' : Graph} {α : Type} {index : Nat} {association v : Value}

/-- A value is stored into the association that a literal is. -/
theorem Gives.setGlobalVariable (hliteral : g.associationLiteral? index = some association)
    (hregisters : g'.registers.literals = g.registers.literals) (hnodes : g'.nodes = g.nodes) :
    (Spec.setVariable .literal index v).Gives (· = g')
      (fun _ g'' => g''.field association Association.valueField = some v) fun _ => False := by
  obtain ⟨len, hlen, hliteral⟩ := Option.bind_eq_some_iff.mp hliteral
  obtain ⟨literal, helement, hliteral⟩ := Option.bind_eq_some_iff.mp hliteral
  obtain ⟨⟨hlt, hshape⟩, heq⟩ := Option.ite_none_right_eq_some.mp hliteral
  cases heq
  have hnode : ∀ v, g'.node? v = g.node? v := fun v => by
    cases v <;> simp [Graph.node?, hnodes]
  have hshape' : g'.hasAssociationShape association = true := by
    unfold Graph.hasAssociationShape
    rw [hnode]
    exact hshape
  have hlen' : g'.length g'.registers.literals = some len := by
    unfold Graph.length
    rw [hregisters, hnode]
    exact hlen
  show ((Spec.literalAt index >>= _) >>= _ : Spec Unit).Gives _ _ _
  rw [Spec.bind_assoc, Spec.literalAt, Spec.bind_assoc]
  refine Gives.ask ?_
  rw [Spec.bind_assoc]
  refine Gives.read fun len' hread => ?_
  obtain rfl : len' = len := Option.some.inj (hread.symm.trans hlen')
  rw [if_pos hlt]
  refine Gives.read fun literal' hread => ?_
  obtain ⟨n, hn, -, -, rfl⟩ := of_element hread
  obtain ⟨n', hn', -, -, rfl⟩ := of_element helement
  rw [hregisters] at hn
  obtain rfl : n = n' := Value.object.inj (hn.symm.trans hn')
  rw [hnodes, Spec.bind_assoc]
  refine Gives.ask ?_
  rw [if_pos hshape', Spec.pure_bind]
  refine Gives.write_last fun g₂ hstore => ?_
  obtain ⟨k, heq, hk, -, rfl⟩ := of_storeField hstore
  rw [heq, field_of_lt (by simpa using hk)]
  simp

/-- A step that stores into a global. -/
theorem Gives.step_stores (h : g.nextStore? = some (association, v)) :
    Spec.step.Gives (· = g) (fun result g' => result = none ∧
      g'.field association Association.valueField = some v) fun _ => False := by
  obtain ⟨i, hi, h⟩ := Option.bind_eq_some_iff.mp h
  obtain ⟨index, hindex, h⟩ := Option.bind_eq_some_iff.mp h
  obtain ⟨a, hliteral, h⟩ := Option.bind_eq_some_iff.mp h
  obtain ⟨w, htop, heq⟩ := Option.bind_eq_some_iff.mp h
  cases heq
  refine Gives.of_eq (Spec.step_next hi) ?_
  cases i with
  | store place index' =>
    cases place <;> cases hindex
    refine Gives.read fun w hw => ?_
    obtain rfl : w = v := Option.some.inj (hw.symm.trans htop)
    exact Gives.bind (Gives.setGlobalVariable hliteral rfl rfl) fun _ => .of_forall fun g' hg' =>
      Gives.pure ⟨rfl, hg'⟩
  | popInto place index' =>
    cases place <;> cases hindex
    show ((Spec.pop >>= _) : Spec (Option Value)).Gives _ _ _
    rw [Spec.pop, Spec.bind_assoc]
    refine Gives.ask ?_
    split
    · rw [Spec.bind_assoc]
      refine Gives.read fun w hw => ?_
      obtain rfl : w = v := Option.some.inj (hw.symm.trans htop)
      rw [Spec.bind_assoc]
      refine Gives.modify ?_
      rw [Spec.pure_bind]
      exact Gives.bind (Gives.setGlobalVariable hliteral rfl rfl) fun _ => .of_forall fun g' hg' =>
        Gives.pure ⟨rfl, hg'⟩
    · rintro _ _ _ ⟨r, ⟨cause, -, rfl⟩, hout⟩
      cases hout
      trivial
  | _ => cases hindex

end Spec

namespace Ledger.Holds

open ObjectMachine.Graph

variable {L : Ledger} {g : Graph} {operation : Operation}

theorem note_step (hL : L.Holds g) :
    (Spec.note .step L).Gives (· = g) (fun L' g' => L'.Holds g') fun _ => True := by
  have hrests := Spec.Gives.of_preserves Spec.Preserves.step g
  cases hstore : g.nextStore? with
  | none =>
    refine note_of (R := g.Rests) (hrests.perform (fun _ h => h)
      (fun v g' h => h.trans (Spares.withPinned _ _).toRests) fun _ h => h) fun g' hg' hleaves => ?_
    replace hleaves : g.LeavesCells (g.nextStore?.map Prod.fst) g' := hleaves
    unfold Ledger.after
    rw [hstore] at hleaves ⊢
    exact hL.spares hg' hleaves
  | some store =>
    obtain ⟨association, v⟩ := store
    have hspec := hrests.and (Spec.Gives.step_stores hstore)
    refine note_of (R := fun g' => g.Rests g' ∧ g'.field association Association.valueField = some v)
      (hspec.perform (fun _ h => ⟨h.1, h.2.2⟩) (fun w _ h => by cases h.2.1) fun _ h => h.2.elim)
      fun g' hg' hleaves => ?_
    replace hleaves : g.LeavesCells (g.nextStore?.map Prod.fst) g' := hleaves
    unfold Ledger.after
    rw [hstore] at hleaves ⊢
    exact hL.storeInto hg'.1 hleaves fun _ _ => hg'.2

/-- What an operation does is what is noted of it. -/
theorem note (hL : L.Holds g) (hsimple : operation.IsSimple) :
    (Spec.note operation L).Gives (· = g) (fun L' g' => L'.Holds g') fun _ => True := by
  cases operation with
  | keep o => exact hL.note_spares ((Spec.Preserves.read _).map some) fun _ => rfl
  | releaseTo count => exact hL.note_spares ((Spec.Preserves.unpinTo count).map _) fun _ => rfl
  | array len => exact hL.note_spares ((Spec.Makes.newArray len).preserves.map some) fun _ => rfl
  | string text => exact hL.note_spares ((Spec.Makes.newString text).preserves.map some) fun _ => rfl
  | float value => exact hL.note_spares ((Spec.Makes.newFloat value).preserves.map some) fun _ => rfl
  | integer value => exact hL.note_spares ((Spec.Makes.newInteger value).preserves.map some) fun _ => rfl
  | instantiate cls len =>
    exact hL.note_spares ((Spec.Preserves.read _).bind fun v => .instantiate v len) fun _ => rfl
  | symbol name => exact hL.note_spares ((Spec.Makes.intern name).preserves.map some) fun _ => rfl
  | mention name => exact hL.note_mention name
  | bind name value => exact hL.note_bind name value
  | build code cls => exact hL.note_build code cls
  | install code cls selector => exact hL.note_install code cls selector
  | add cls selector method => exact hL.note_add cls selector method
  | collect => exact hL.note_spares (Spec.Makes.collectGarbage.preserves.map _) fun _ => rfl
  | start receiver method args =>
    exact hL.note_spares ((Spec.Preserves.read _).bind fun _ => (Spec.Preserves.read _).bind fun _ =>
      (Spec.Preserves.read _).bind fun _ => (Spec.Preserves.start _ _ _).map _) fun _ => rfl
  | step => exact hL.note_step
  | suspend =>
    exact hL.note_spares (Spec.Preserves.flushRegisters.bind fun _ => (Spec.Preserves.ask _).bind fun _ =>
      Spec.Preserves.clearRegisters.map _) fun _ => rfl
  | resume context =>
    exact hL.note_spares ((Spec.Preserves.read _).bind fun v =>
      (Spec.Preserves.resumeContext v).map _) fun _ => rfl
  | define | run | execute | send => exact hsimple.elim

/-- The ledger is right whatever is done. -/
theorem noteAll {operations : List Operation} (hL : L.Holds g)
    (hsimple : ∀ operation ∈ operations, operation.IsSimple) :
    (Spec.noteAll operations L).Gives (· = g) (fun L' g' => L'.Holds g') fun _ => True := by
  induction operations generalizing L g with
  | nil => exact Spec.Gives.pure hL
  | cons operation rest ih =>
    refine Spec.Gives.bind (hL.note (hsimple operation List.mem_cons_self)) fun L' => .of_forall fun g' hL' => ?_
    exact ih hL' fun operation hmem => hsimple operation (List.mem_cons_of_mem _ hmem)

end Ledger.Holds

end ObjectMachine
