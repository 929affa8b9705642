import ObjectMachine.Proofs.Graph.Ledger
import ObjectMachine.Proofs.Machine.Permanence

/-!
# Globals are shared cells

Whoever asks for a global from outside finds its association in a table, and a compiled method has it
among its literals. Both mean the same object, whoever mentioned the global first and however often
memory was collected in between: what was stored last, either way, is what is read, either way.

## Main results

* `Simulates.noteAll`: the ledger of what is done with a machine.
* `Machine.globals_shared`: what a machine answers for globals is what the ledger says.
-/

namespace ObjectMachine

namespace Graph

/-- The association whose value the next instruction pushes. -/
def nextPush? (g : Graph) : Option Value := do
  match ← g.next? with
  | .push .literal index => g.associationLiteral? index.toNat
  | _ => none

variable {g : Graph} {name : String} {association : Value}

/-- The association of a global has a value, which is that of the global. -/
theorem Bound.field (hg : g.Bound) (h : Graph.named? g.globals name = some association) :
    ∃ v, g.field association Association.valueField = some v ∧ g.global? name = some v := by
  obtain ⟨n, rfl, -, hvalue⟩ := hg.named? h
  refine ⟨_, ?_, hvalue⟩
  unfold global? at hvalue
  rw [h] at hvalue
  exact hvalue

end Graph

namespace Ledger

/-- What is stored under names at first. -/
def ofGraph (g : Graph) : Ledger := ⟨g.global?, []⟩

theorem ofGraph_holds {g : Graph} (hg : g.Bound) : (ofGraph g).Holds g where
  bound := hg
  value _ := rfl
  links hmem := absurd hmem List.not_mem_nil

/-- A machine answers for globals what a ledger says, and has a cell for each of them that no other one
shares. -/
structure Describes (L : Ledger) (m : Machine) (g : Graph) (p : Placement) : Prop where
  value : ∀ name, ∃ answer, m.global? name = .ok answer ∧ Depicted.shows p answer (L.value name)
  apart : ∀ {name name' r}, m.globals.find? name = some r → m.globals.find? name' = some r → name = name'
  /-- A method that mentions a global has the association from the table among its literals. -/
  links : ∀ {name v}, (name, v) ∈ L.links →
    ∃ r association, v = some association ∧ m.globals.find? name = some r ∧ p.Shows r association
  /-- If the value of a global is what is pushed next, it is pushed, unless there is no room for it. -/
  pushes : ∀ {name association}, Graph.named? g.globals name = some association →
    g.nextPush? = some association → ∃ v, L.value name = some v ∧
      (Machine.step m).Concludes (fun result m' => result = none ∧
        ∃ r g' p' starts', m'.stackValue 0 = .ok r ∧ p'.Shows r v ∧ m'.Realizes g' p' starts' ∧
          Spec.step g (.ok none g'))
        (fun _ _ => False) fun cause => ∃ context slots, cause = .operandStackOverflow context slots

end Ledger

/-! ## A value is pushed -/

namespace Spec

open ObjectMachine.Graph

variable {g : Graph} {index : Nat} {association v : Value} {β : Type}

/-- The association that a literal is. -/
theorem associationAt_bind (hliteral : g.associationLiteral? index = some association)
    (f : Value → Spec β) : (Spec.associationAt index >>= f) g = f association g := by
  obtain ⟨len, hlen, hliteral⟩ := Option.bind_eq_some_iff.mp hliteral
  obtain ⟨literal, helement, hliteral⟩ := Option.bind_eq_some_iff.mp hliteral
  obtain ⟨⟨hlt, hshape⟩, heq⟩ := Option.ite_none_right_eq_some.mp hliteral
  cases heq
  unfold Spec.associationAt Spec.literalAt
  rw [Spec.bind_assoc, Spec.bind_assoc]
  show (Spec.ask _ >>= _) g = _
  rw [ask_bind, Spec.bind_assoc, read_bind hlen, if_pos hlt, read_bind helement, Spec.bind_assoc,
    ask_bind, if_pos hshape, Spec.pure_bind]

theorem Ends.of_eq {α : Type} {x y : Spec α} {g g' : Graph} {Q : α → Graph → Prop}
    {E : Failure → Graph → Prop} {S : Fatal → Prop} (heq : x g = y g') (hy : y.Ends g' Q E S) :
    x.Ends g Q E S := fun r hr => hy r (heq ▸ hr)

/-- Where the value of an association is next, that is what a step pushes. -/
theorem Ends.step_pushes (h : g.nextPush? = some association)
    (hvalue : g.field association Association.valueField = some v) :
    Spec.step.Ends g (fun result g' => result = none ∧ g'.stackValue 0 = some v) (fun _ _ => False)
      fun cause => ∃ context slots, cause = .operandStackOverflow context slots := by
  obtain ⟨i, hi, h⟩ := Option.bind_eq_some_iff.mp h
  obtain ⟨index, rfl, hliteral⟩ : ∃ index, i = .push .literal index ∧
      g.associationLiteral? index.toNat = some association := by
    split at h
    · exact ⟨_, rfl, h⟩
    · cases h
  obtain ⟨bytes, hbytes, -⟩ := Option.bind_eq_some_iff.mp hi
  obtain ⟨c, hactive, -⟩ := Option.bind_eq_some_iff.mp hbytes
  let g' := g.withPc (g.registers.pc + (Instruction.push .literal index).width)
  have heq : Spec.step g = (Spec.push v >>= fun _ => Pure.pure none) g' := by
    have hread : g'.field association Association.valueField = some v := hvalue
    rw [Spec.step_next hi]
    show (((Spec.associationAt _ >>= fun a => Spec.read _) >>= _ : Spec (Option Value)) g') = _
    rw [Spec.bind_assoc, associationAt_bind (g := g') hliteral, read_bind hread]
  have hactive' : g'.active? = some c := hactive
  refine .of_eq heq ?_
  rw [Spec.push, Spec.bind_assoc]
  refine Ends.read hactive' ?_
  rw [Spec.bind_assoc]
  refine Ends.ask ?_
  split
  · refine Ends.modify (Ends.pure ⟨rfl, ?_⟩)
    have hsame : (g'.pushed c v).active? = some c := hactive
    unfold Graph.stackValue
    rw [hsame]
    simp [Graph.pushed, Graph.withSp, Node.withElement]
  · exact Ends.bind (R := fun _ _ => False) (Ends.stop fun _ h => h) fun _ _ h => h.elim

end Spec

/-! ## What is noted -/

namespace Simulates

variable {p : Placement} {K : Placement → Prop} {α β γ : Type} [Depicted α β] {x : Action α}

/-- A look at the graph is not noticed. -/
theorem looked {f : Graph → γ} {h : γ → Spec β} (hx : ∀ a, Simulates p K x (h a)) :
    Simulates p K x (Spec.ask f >>= h) := by
  intro m g starts hm hright
  rw [Spec.ask_bind] at hright ⊢
  exact hx (f g) m g starts hm hright

/-- Nor is a condition. -/
theorem guarded {P : Graph → Prop} {y : Spec β} (hx : Simulates p K x y) :
    Simulates p K x (Spec.guard P >>= fun _ => y) :=
  guard fun m g starts hm _ hright => hx m g starts hm hright

/-- What is noted does not change what is done. -/
theorem noteAll (operations : List Operation) (L : Ledger) :
    Simulates p p.Steady (Operation.performAll operations)
      (Spec.noteAll operations L >>= fun _ => Pure.pure ()) := by
  induction operations generalizing p L with
  | nil =>
    show Simulates p p.Steady _ (Pure.pure L >>= fun _ => Pure.pure ())
    rw [Spec.pure_bind]
    exact pure trivial (.refl p)
  | cons operation rest ih =>
    simp only [Spec.noteAll, Spec.note, Spec.bind_assoc]
    refine looked fun g => (perform operation).bind_steady fun p' _ _ _ _ => guarded (looked fun L' => ?_)
    exact ih L'

end Simulates

namespace Spec

/-- Makes everything that a fresh machine needs, and then notes what is done. -/
noncomputable def noteFromStart (operations : List Operation) : Spec Ledger := do
  bootstrap
  let L ← ask Ledger.ofGraph
  noteAll operations L

end Spec

namespace Machine

open ObjectMachine.Graph

variable {m m' : Machine} {g : Graph} {p : Placement} {starts : List Nat} {L : Ledger}
  {config : MachineConfig} {operations : List Operation}

/-- What a ledger says of a graph is what a machine answers. -/
theorem Realizes.describes (hm : m.Realizes g p starts) (hL : L.Holds g) : L.Describes m g p where
  value name := by
    have hknown := hm.roots.globals.named? name
    rw [hL.value]
    unfold Machine.global?
    generalize m.globals.find? name = found at hknown ⊢
    cases hnamed : Graph.named? g.globals name with
    | none =>
      rw [hnamed] at hknown
      cases hknown
      rw [Graph.global?_of_none hnamed]
      exact ⟨none, rfl, .none⟩
    | some association =>
      rw [hnamed] at hknown
      cases hknown with | some hr =>
      obtain ⟨v, hfield, hvalue⟩ := hL.bound.field hnamed
      obtain ⟨r, hread, hshows⟩ := (Reads.field hr Association.valueField).ok hm hfield
      rw [hvalue]
      exact ⟨some r, by simp only [hread]; rfl, .some hshows⟩
  apart {name name' r} hr hr' := by
    have hfirst := hm.roots.globals.named? name
    have hsecond := hm.roots.globals.named? name'
    rw [hr] at hfirst
    rw [hr'] at hsecond
    generalize hv : Graph.named? g.globals name = known at hfirst
    generalize hv' : Graph.named? g.globals name' = known' at hsecond
    cases hfirst with | some hr => cases hsecond with | some hr' =>
    rw [hr.value_eq hr'] at hv
    exact hL.bound.distinct.name_unique (mem_of_named? hv) (mem_of_named? hv')
  links {name v} hmem := by
    obtain ⟨hsome, rfl⟩ := hL.links hmem
    have hknown := hm.roots.globals.named? name
    generalize m.globals.find? name = found at hknown ⊢
    generalize Graph.named? g.globals name = known at hknown hsome ⊢
    cases hknown with
    | none => cases hsome
    | some hr => exact ⟨_, _, rfl, rfl, hr⟩
  pushes {name association} hnamed hnext := by
    obtain ⟨v, hfield, hvalue⟩ := hL.bound.field hnamed
    refine ⟨v, (hL.value name).trans hvalue, ?_⟩
    have hends := Spec.Ends.step_pushes hnext hfield
    have hfits := Simulates.step m g starts hm fun hwrong => hends _ hwrong
    show (m.step).Concludes _ _ _
    generalize m.step = outcome at hfits ⊢
    cases outcome with
    | ok result m' =>
      obtain ⟨b, g', p', starts', hout, -, hshows, hm'⟩ := hfits
      obtain ⟨rfl, htop⟩ := hends _ hout
      obtain ⟨r, hread, hr⟩ := (Reads.stackValue 0).ok hm' htop
      cases hshows
      exact ⟨rfl, r, g', p', starts', hread, hr, hm', hout⟩
    | failed failure m' =>
      obtain ⟨g', p', starts', hout, -⟩ := hfits
      exact hends _ hout
    | stopped cause => exact hfits.imp_right (hends _)
    | unfinished => trivial

/-- What is noted of a fresh machine is there once everything is done. -/
theorem exists_noted {α : Type} {y : Spec α} (hok : ofConfig config = .ok m)
    (hbytes : config.heap.maxBytes < countLimit)
    (hsimulates : ∀ p : Placement, Simulates p p.Steady (operate operations) (y >>= fun _ => Pure.pure ()))
    (hkeeps : ¬ y (m.graph [] .null) .wrong) (hrun : operate operations m = .ok () m') :
    ∃ a g p starts, y (m.graph [] .null) (.ok a g) ∧ m'.Realizes g p starts := by
  have hright : ¬ (y >>= fun _ => Pure.pure () : Spec Unit) (m.graph [] .null) .wrong := by
    rintro ⟨r, hr, hafter⟩
    cases r <;> cases hafter
    exact hkeeps hr
  obtain ⟨_, g, p, starts, ⟨r, hout, hafter⟩, hm'⟩ :=
    (legible_ofConfig hok hbytes).realizes.exists_outcome (hsimulates _) hright hrun
  cases r with
  | ok a g' =>
    cases hafter
    exact ⟨a, g, p, starts, hout, hm'⟩
  | _ => cases hafter

/-- Globals are shared cells: whatever is done with a fresh machine that keeps its memory well-formed and
writes into the values of associations only by storing into globals, the machine answers what was stored
last under each name, and pushes it, and no two names have a cell in common. -/
theorem globals_shared (hok : ofConfig config = .ok m) (hbytes : config.heap.maxBytes < countLimit)
    (hsimple : ∀ operation ∈ operations, operation.IsSimple)
    (hkeeps : ¬ Spec.noteFromStart operations (m.graph [] .null) .wrong)
    (hrun : operate operations m = .ok () m') :
    ∃ L g p starts, Spec.noteFromStart operations (m.graph [] .null) (.ok L g) ∧
      m'.Realizes g p starts ∧ L.Describes m' g p := by
  have hsimulates : ∀ p : Placement, Simulates p p.Steady (operate operations)
      (Spec.noteFromStart operations >>= fun _ => Pure.pure ()) := by
    intro p
    unfold Spec.noteFromStart operate
    simp only [Spec.bind_assoc]
    exact Simulates.bootstrap.bind_steady fun _ _ _ _ _ => .looked fun L => .noteAll operations L
  obtain ⟨L, g, p, starts, hout, hm'⟩ := exists_noted hok hbytes hsimulates hkeeps hrun
  refine ⟨L, g, p, starts, hout, hm', hm'.describes ?_⟩
  obtain ⟨r, hboot, hnoted⟩ := hout
  cases r with
  | ok _ g₁ =>
    obtain ⟨w, hbooted⟩ := Spec.Ends.bootstrap (E := fun _ _ => True) (S := fun _ => True)
      (unborn_ofConfig hok) trivial _ hboot
    have hsettled := hbooted.describes.settled
    have hbound : g₁.Bound := ⟨hsettled.kernel.next, hsettled.globals, hsettled.globalsDistinct⟩
    have hnoted : Spec.noteAll operations (.ofGraph g₁) g₁ (.ok L g) := by
      rwa [Spec.after, Spec.ask_bind] at hnoted
    exact (Ledger.ofGraph_holds hbound).noteAll hsimple _ rfl _ hnoted
  | _ => cases hnoted

/-- A global gets a value, and memory is collected. -/
def bindAnswer : List Operation := [.bind "answer" (.immediate (.ofNat 42) rfl), .collect]

theorem bindAnswer_keepsHeap (hok : ofConfig config = .ok m) :
    ¬ Spec.noteFromStart bindAnswer (m.graph [] .null) .wrong := by
  intro hwrong
  have hends : (Spec.noteFromStart bindAnswer).Ends (m.graph [] .null) (fun _ _ => True)
      (fun _ _ => True) fun _ => True := by
    refine Spec.Ends.bind (Spec.Ends.bootstrap (unborn_ofConfig hok) trivial) ?_
    rintro _ g ⟨w, hbooted⟩
    have hsettled := hbooted.describes.settled
    simp only [bindAnswer, Spec.noteAll, Spec.note, Spec.bind_assoc]
    refine .ask (.ask (.bind (ends_perform (Q := Settled) ?_) fun _ g₁ hsettled₁ =>
      .guard trivial (.ask (.ask (.bind (ends_perform (Q := fun _ => True) ?_) fun _ g₂ _ =>
        .guard trivial (.ask (.pure trivial)))))))
    · refine .read rfl (.bind (Spec.Ends.setGlobal hsettled (fun _ => trivial)) ?_)
      rintro _ g₁ ⟨n, hbound⟩
      exact .pure ⟨rfl, hbound.settled⟩
    · exact .bind (Spec.Ends.collectGarbage hsettled₁.idle hsettled₁.kernel.rooted) fun _ _ _ =>
        .pure ⟨rfl, trivial⟩
  exact hends _ hwrong

theorem bindAnswer_shared : ∃ m, ofConfig {} = .ok m ∧ ({} : HeapConfig).maxBytes < countLimit ∧
    (∀ operation ∈ bindAnswer, operation.IsSimple) ∧
    ¬ Spec.noteFromStart bindAnswer (m.graph [] .null) .wrong ∧
    ∀ m', operate bindAnswer m = .ok () m' → ∃ L g p starts,
      Spec.noteFromStart bindAnswer (m.graph [] .null) (.ok L g) ∧ m'.Realizes g p starts ∧
        L.Describes m' g p := by
  obtain ⟨m, hok⟩ : ∃ m, ofConfig {} = .ok m := ⟨_, rfl⟩
  have hkeeps := bindAnswer_keepsHeap hok
  have hsimple : ∀ operation ∈ bindAnswer, operation.IsSimple := by simp [bindAnswer, Operation.IsSimple]
  exact ⟨m, hok, by decide, hsimple, hkeeps, fun m' hrun =>
    globals_shared hok (by decide) hsimple hkeeps hrun⟩

end Machine

end ObjectMachine
