import ObjectMachine.Proofs.Graph.Compiling
import ObjectMachine.Proofs.Graph.Fetching
import ObjectMachine.Proofs.Graph.Lasting

/-!
# Computations that come to an end

What is known of the outcomes of a computation says nothing of one that is given too little fuel. Here
that is ruled out as well.

A machine remembers methods that it found, and keeps contexts that returned, to be faster next time. What
only makes and fills objects adds to neither, though it may give them up, and it comes to an end whatever is
known of it.

## Main results

* `Spec.Finishes`: all outcomes of a computation are known, and it comes to an end, with a rule for each
  way to put computations together.
* `Spec.Modest`: computations that come to an end and add nothing to what the machine has in stock.
* `Spec.Modest.build`, `Spec.Modest.bootstrap`: a method is built; a fresh machine gets what it needs.
-/

namespace ObjectMachine

namespace Spec

variable {α β : Type}

/-- Every outcome is a value with `Q` or a failure with `E`, or the machine is stopped by a cause with
`S`. -/
def Finishes (x : Spec α) (g : Graph) (Q : α → Graph → Prop) (E : Failure → Graph → Prop)
    (S : Fatal → Prop) : Prop :=
  x.Ends g Q E S ∧ ¬ x g .unfinished

namespace Finishes

variable {x : Spec α} {f : α → Spec β} {g g' : Graph} {Q : β → Graph → Prop} {R : α → Graph → Prop}
  {E : Failure → Graph → Prop} {S : Fatal → Prop}

theorem mono {R' : α → Graph → Prop} {E' : Failure → Graph → Prop} {S' : Fatal → Prop}
    (hx : x.Finishes g R E S) (hR : ∀ a g', R a g' → R' a g') (hE : ∀ e g', E e g' → E' e g')
    (hS : ∀ cause, S cause → S' cause) : x.Finishes g R' E' S' :=
  ⟨hx.1.mono hR hE hS, hx.2⟩

theorem of_eq {y : Spec α} (heq : x g = y g') (hy : y.Finishes g' R E S) : x.Finishes g R E S :=
  ⟨fun r hr => hy.1 r (heq ▸ hr), fun h => hy.2 (heq ▸ h)⟩

theorem pure {a : α} (ha : R a g) : (Pure.pure a : Spec α).Finishes g R E S :=
  ⟨.pure ha, nofun⟩

theorem bind (hx : x.Finishes g R E S) (hf : ∀ a g', R a g' → (f a).Finishes g' Q E S) :
    (x >>= f).Finishes g Q E S := by
  refine ⟨hx.1.bind fun a g' h => (hf a g' h).1, ?_⟩
  rintro ⟨r, hr, hafter⟩
  cases r with
  | ok a g' => exact (hf a g' (hx.1 _ hr)).2 hafter
  | unfinished => exact hx.2 hr
  | _ => cases hafter

theorem ask {h : Graph → α} (hf : (f (h g)).Finishes g Q E S) : (Spec.ask h >>= f).Finishes g Q E S :=
  of_eq (ask_bind ..) hf

theorem modify {h : Graph → Graph} {f : Unit → Spec β} (hf : (f ()).Finishes (h g) Q E S) :
    (Spec.modify h >>= f).Finishes g Q E S :=
  of_eq (modify_bind ..) hf

theorem modify_last {h : Graph → Graph} {R : Unit → Graph → Prop} (hR : R () (h g)) :
    (Spec.modify h).Finishes g R E S :=
  ⟨.modify_last hR, nofun⟩

theorem read {h : Graph → Option α} {a : α} (ha : h g = some a) (hf : (f a).Finishes g Q E S) :
    (Spec.read h >>= f).Finishes g Q E S :=
  of_eq (read_bind ha _) hf

theorem write {h : Graph → Option Graph} {g₁ : Graph} {f : Unit → Spec β} (ha : h g = some g₁)
    (hf : (f ()).Finishes g₁ Q E S) : (Spec.write h >>= f).Finishes g Q E S :=
  of_eq (write_bind ha _) hf

theorem guard {P : Graph → Prop} {f : Unit → Spec β} (hP : P g) (hf : (f ()).Finishes g Q E S) :
    (Spec.guard P >>= f).Finishes g Q E S := by
  refine ⟨.guard hP hf.1, ?_⟩
  rintro ⟨r, ⟨-, rfl⟩ | ⟨hnot, -⟩, hafter⟩
  · exact hf.2 hafter
  · exact hnot hP

theorem either {y : Spec α} (hx : x.Finishes g R E S) (hy : y.Finishes g R E S) :
    (Spec.either x y).Finishes g R E S :=
  ⟨.either hx.1 hy.1, fun h => h.elim hx.2 hy.2⟩

theorem fail {P : Failure → Prop} (hE : ∀ failure, P failure → E failure g) :
    (Spec.fail P : Spec α).Finishes g R E S :=
  ⟨.fail hE, fun ⟨_, _, h⟩ => nomatch h⟩

theorem attempt {E' : Failure → Graph → Prop} (hx : x.Finishes g R E S) :
    (Spec.attempt x).Finishes g (fun a g' => match a with
      | .ok a => R a g'
      | .error failure => E failure g') E' S := by
  refine ⟨hx.1.attempt, ?_⟩
  rintro ⟨r, hr, hout⟩
  cases r with
  | unfinished => exact hx.2 hr
  | _ => cases hout

theorem pin {v : Value} {f : Unit → Spec β} (hf : (f ()).Finishes (g.withPinned (g.pinned ++ [v])) Q E S) :
    (Spec.pin v >>= f).Finishes g Q E S :=
  modify hf

theorem unpin {values : List Value} {v : Value} {f : Value → Spec α} {Q : α → Graph → Prop}
    (hpinned : g.pinned = values ++ [v]) (hf : (f v).Finishes (g.withPinned values) Q E S) :
    (Spec.unpin >>= f).Finishes g Q E S :=
  of_eq (bind_of_ok (unpin_append hpinned)) hf

end Finishes

end Spec

/-! ## What the machine has in stock -/

namespace Graph

/-- The same methods are remembered, and the same contexts are kept. -/
structure SameStock (g g' : Graph) : Prop where
  memo : g'.memo = g.memo
  pool : g'.pool = g.pool

/-- Nothing else is remembered, and the contexts are kept or all given up. -/
structure LessStock (g g' : Graph) : Prop where
  memo : ∀ {cls selector method}, g'.memo cls selector method → g.memo cls selector method
  pool : g'.pool = g.pool ∨ g'.pool = ⟨[], []⟩

variable {g g' g'' : Graph} {v w : Value}

theorem LessStock.trans (h : g.LessStock g') (h' : g'.LessStock g'') : g.LessStock g'' where
  memo hm := h.memo (h'.memo hm)
  pool := by
    rcases h'.pool with heq | hempty
    · rw [heq]
      exact h.pool
    · exact .inr hempty

namespace SameStock

theorem refl (g : Graph) : g.SameStock g := ⟨rfl, rfl⟩

theorem trans (h : g.SameStock g') (h' : g'.SameStock g'') : g.SameStock g'' :=
  ⟨h'.memo.trans h.memo, h'.pool.trans h.pool⟩

theorem less (h : g.SameStock g') : g.LessStock g' := ⟨fun hm => h.memo ▸ hm, .inl h.pool⟩

theorem storeClass (h : g.storeClass v w = some g') : g.SameStock g' := by
  obtain ⟨n, -, rfl⟩ := of_storeClass h
  exact ⟨rfl, rfl⟩

theorem storeField {index : Nat} (h : g.storeField v index w = some g') : g.SameStock g' := by
  obtain ⟨n, -, -, -, rfl⟩ := of_storeField h
  exact ⟨rfl, rfl⟩

theorem storeElement {index : Nat} (h : g.storeElement v index w = some g') : g.SameStock g' := by
  obtain ⟨n, -, -, -, rfl⟩ := of_storeElement h
  exact ⟨rfl, rfl⟩

theorem storeElements {index : Nat} {values : List Value} (h : g.storeElements v index values = some g') :
    g.SameStock g' := by
  induction values generalizing g index with
  | nil =>
    cases h
    exact refl _
  | cons value rest ih =>
    obtain ⟨g₁, hstore, h⟩ := Option.bind_eq_some_iff.mp h
    exact (storeElement hstore).trans (ih h)

theorem claim {dictionary selector : Value} {index : Nat}
    (h : g.claim dictionary selector index = some g') : g.SameStock g' := by
  obtain ⟨g₁, helement, h⟩ := Option.bind_eq_some_iff.mp h
  obtain ⟨tally, -, h⟩ := Option.bind_eq_some_iff.mp h
  exact (storeElement helement).trans (.storeField h)

theorem insert {dictionary selector method : Value} (h : g.insert dictionary selector method = some g') :
    g.SameStock g' := by
  obtain ⟨place, -, h⟩ := Option.bind_eq_some_iff.mp h
  cases place with
  | none => cases h
  | some index =>
    obtain ⟨key, -, h⟩ := Option.bind_eq_some_iff.mp h
    have hrest : ∀ g₁ : Graph, (do
        let methods ← g₁.field dictionary MethodDictionary.methodsField
        g₁.storeElement methods index method) = some g' → g₁.SameStock g' := by
      intro g₁ h
      obtain ⟨methods, -, h⟩ := Option.bind_eq_some_iff.mp h
      exact storeElement h
    dsimp only at h
    split at h
    · exact hrest g h
    · obtain ⟨g₁, hclaim, h⟩ := Option.bind_eq_some_iff.mp h
      exact (claim hclaim).trans (hrest g₁ h)

theorem insertAll {dictionary : Value} {entries : List (Value × Value)}
    (h : g.insertAll dictionary entries = some g') : g.SameStock g' := by
  induction entries generalizing g with
  | nil =>
    cases h
    exact refl _
  | cons entry rest ih =>
    obtain ⟨g₁, hinsert, h⟩ := Option.bind_eq_some_iff.mp h
    exact (insert hinsert).trans (ih h)

theorem moveEntries {cls grown : Value} (h : g.moveEntries cls grown = some g') : g.SameStock g' := by
  obtain ⟨dictionary, -, h⟩ := Option.bind_eq_some_iff.mp h
  obtain ⟨entries, -, h⟩ := Option.bind_eq_some_iff.mp h
  obtain ⟨g₁, hinsert, h⟩ := Option.bind_eq_some_iff.mp h
  exact (insertAll hinsert).trans (.storeField h)

theorem insertMethod {cls selector method : Value} (h : g.insertMethod cls selector method = some g') :
    g.SameStock g' := by
  obtain ⟨dictionary, -, h⟩ := Option.bind_eq_some_iff.mp h
  exact insert h

theorem fillClass {cls superclass dictionary name thisClass : Value} {spec : InstanceSpec}
    (h : g.fillClass cls superclass dictionary spec name thisClass = some g') : g.SameStock g' := by
  obtain ⟨g₁, h₁, h⟩ := Option.bind_eq_some_iff.mp h
  obtain ⟨g₂, h₂, h⟩ := Option.bind_eq_some_iff.mp h
  obtain ⟨g₃, h₃, h⟩ := Option.bind_eq_some_iff.mp h
  obtain ⟨g₄, h₄, h⟩ := Option.bind_eq_some_iff.mp h
  have hfirst := (storeField h₁).trans (.storeField h₂)
  exact (hfirst.trans ((storeField h₃).trans (.storeField h₄))).trans (.storeField h)

theorem storeBytes {bytes : List UInt8} (h : g.storeBytes v bytes = some g') : g.SameStock g' := by
  unfold Graph.storeBytes at h
  split at h
  · cases h
  · obtain ⟨-, heq⟩ := Option.ite_none_right_eq_some.mp h
    cases heq
    exact ⟨rfl, rfl⟩

theorem setLargeInteger {value : Int} (h : g.setLargeInteger v value = some g') : g.SameStock g' := by
  unfold Graph.setLargeInteger at h
  split at h
  · cases h
  · obtain ⟨-, heq⟩ := Option.ite_none_right_eq_some.mp h
    cases heq
    exact ⟨rfl, rfl⟩

theorem setFloatValue {value : Binary64} (h : g.setFloatValue v value = some g') : g.SameStock g' := by
  unfold Graph.setFloatValue at h
  split at h
  · cases h
  · obtain ⟨-, heq⟩ := Option.ite_none_right_eq_some.mp h
    cases heq
    exact ⟨rfl, rfl⟩

theorem load (h : g.load v = some g') : g.SameStock g' := by
  obtain ⟨registers, -, rfl⟩ := Option.map_eq_some_iff.mp h
  exact ⟨rfl, rfl⟩

theorem flush (h : g.flush = some g') : g.SameStock g' := by
  unfold Graph.flush at h
  split at h
  · cases h
    exact refl _
  · obtain ⟨g₁, hfirst, h⟩ := Option.bind_eq_some_iff.mp h
    exact (storeField hfirst).trans (.storeField h)

end SameStock

theorem LessStock.collected (h : g.collected = some g') : g.LessStock g' := by
  obtain ⟨g₁, hflush, h⟩ := Option.bind_eq_some_iff.mp h
  have hempty : g₁.LessStock { g₁ with pool := ⟨[], []⟩ } := ⟨id, .inr rfl⟩
  refine ((SameStock.flush hflush).less.trans hempty).trans ?_
  unfold reload at h
  split at h
  · cases h
    exact (SameStock.refl _).less
  · exact (SameStock.load h).less

end Graph

instance : Std.Refl Graph.LessStock := ⟨fun g => (Graph.SameStock.refl g).less⟩
instance : IsTrans Graph Graph.LessStock := ⟨fun _ _ _ => .trans⟩

/-! ## Computations that add nothing to the stock -/

namespace Spec

open ObjectMachine.Graph

/-- A computation that comes to an end wherever it begins and adds nothing to the stock. -/
structure Modest {α : Type} (x : Spec α) : Prop where
  finishes : ∀ g, ¬ x g .unfinished
  less : x.Preserves LessStock

/-- All is known of its outcomes if they are known at all. -/
theorem Finishes.of_modest {α : Type} {x : Spec α} {g : Graph} {R : α → Graph → Prop}
    {E : Failure → Graph → Prop} {S : Fatal → Prop} (hx : x.Ends g R E S) (hm : x.Modest) :
    x.Finishes g (fun a g' => R a g' ∧ g.LessStock g') (fun e g' => E e g' ∧ g.LessStock g') S := by
  refine ⟨fun r hr => ?_, hm.finishes g⟩
  have hless := hm.less.begin g g rfl r hr
  cases r with
  | ok a g' => exact ⟨hx _ hr, hless⟩
  | failed failure g' => exact ⟨hx _ hr, hless⟩
  | _ => exact hx _ hr

namespace Modest

variable {α β : Type} {x y : Spec α} {f : α → Spec β}

theorem pure (a : α) : (Pure.pure a : Spec α).Modest := ⟨fun _ h => (nomatch h), .pure a⟩

theorem bind (hx : x.Modest) (hf : ∀ a, (f a).Modest) : (x >>= f).Modest := by
  refine ⟨?_, hx.less.bind fun a => (hf a).less⟩
  rintro g ⟨r, hr, hafter⟩
  cases r with
  | ok a g' => exact (hf a).finishes g' hafter
  | unfinished => exact hx.finishes g hr
  | _ => cases hafter

theorem ask (h : Graph → α) : (Spec.ask h).Modest := ⟨fun _ h => (nomatch h), .ask h⟩

theorem modify {h : Graph → Graph} (hless : ∀ g : Graph, g.LessStock (h g)) : (Spec.modify h).Modest :=
  ⟨fun _ h => (nomatch h), .modify hless⟩

theorem read (h : Graph → Option α) : (Spec.read h).Modest := by
  refine ⟨fun g hg => ?_, .read h⟩
  unfold Spec.read at hg
  split at hg <;> cases hg

theorem write {h : Graph → Option Graph} (hless : ∀ g g' : Graph, h g = some g' → g.LessStock g') :
    (Spec.write h).Modest := by
  refine ⟨fun g hg => ?_, .write hless⟩
  unfold Spec.write at hg
  split at hg <;> cases hg

theorem store {h : Graph → Option Graph} (hsame : ∀ g g' : Graph, h g = some g' → g.SameStock g') :
    (Spec.write h).Modest :=
  write fun g g' hg => (hsame g g' hg).less

theorem guard (P : Graph → Prop) : (Spec.guard P).Modest := by
  refine ⟨?_, .guard P⟩
  rintro g (⟨-, h⟩ | ⟨-, h⟩) <;> cases h

theorem choose (P : α → Prop) : (Spec.choose P).Modest := ⟨fun _ ⟨_, _, h⟩ => (nomatch h), .choose P⟩

theorem stop (P : Fatal → Prop) : (Spec.stop P : Spec α).Modest :=
  ⟨fun _ ⟨_, _, h⟩ => (nomatch h), .stop P⟩

theorem fail (P : Failure → Prop) : (Spec.fail P : Spec α).Modest :=
  ⟨fun _ ⟨_, _, h⟩ => (nomatch h), .fail P⟩

theorem either (hx : x.Modest) (hy : y.Modest) : (Spec.either x y).Modest :=
  ⟨fun g h => h.elim (hx.finishes g) (hy.finishes g), hx.less.either hy.less⟩

theorem attempt (hx : x.Modest) : (Spec.attempt x).Modest := by
  refine ⟨?_, hx.less.attempt⟩
  rintro g ⟨r, hr, hout⟩
  cases r with
  | unfinished => exact hx.finishes g hr
  | _ => cases hout

theorem within {activity : Activity} (hx : x.Modest) : (Spec.within activity x).Modest := by
  constructor
  · rintro g ⟨r, hr, hout⟩
    cases r with
    | unfinished => exact hx.finishes g hr
    | _ => cases hout
  · rintro g₀ g hg out ⟨r, hr, hout⟩
    have hless := hx.less g₀ g hg r hr
    cases r <;> cases hout <;> exact hless

theorem count (words : Nat) : (Spec.count words).Modest := by
  refine ⟨?_, .count words⟩
  rintro g (h | ⟨-, h⟩) <;> cases h

theorem make (cls : Value) (format : Format) (fields len : Nat) :
    (Spec.make cls format fields len).Modest := by
  refine ⟨fun _ ⟨_, _, h⟩ => (nomatch h), .of_start ?_⟩
  rintro g _ rfl _ ⟨-, hash, rfl⟩
  exact ⟨id, .inl rfl⟩

theorem collectGarbage : Spec.collectGarbage.Modest :=
  (guard _).bind fun _ => (write fun _ _ => .collected).bind fun _ => choose _

theorem mayCollect : Spec.mayCollect.Modest := either (pure ()) (collectGarbage.bind fun _ => pure ())

theorem allocate (cls : Value) (format : Format) (fields len : Nat) :
    (Spec.allocate cls format fields len).Modest :=
  (guard _).bind fun _ => (count _).bind fun _ => mayCollect.bind fun _ => mayCollect.bind fun _ =>
    (count _).bind fun _ => make ..

theorem pin (v : Value) : (Spec.pin v).Modest := modify fun _ => ⟨id, .inl rfl⟩

theorem unpin : Spec.unpin.Modest := by
  refine (read _).bind fun _ => (modify fun g => ?_).bind fun _ => pure _
  exact ⟨id, .inl rfl⟩

theorem unpinTo (count : Nat) : (Spec.unpinTo count).Modest := modify fun _ => ⟨id, .inl rfl⟩

theorem pinnedFrom (start count : Nat) : (Spec.pinnedFrom start count).Modest := by
  induction count generalizing start with
  | zero => exact pure _
  | succ count ih => exact (read _).bind fun _ => (ih _).bind fun _ => pure _

/-! ### Objects -/

theorem newArray (len : Nat) : (Spec.newArray len).Modest := (ask _).bind fun _ => allocate ..

theorem newBytes (cls : Value) (bytes : List UInt8) : (Spec.newBytes cls bytes).Modest := by
  refine (allocate ..).bind fun _ => (store fun g g' h => ?_).bind fun _ => pure _
  exact .storeBytes h

theorem newInteger (value : Int) : (Spec.newInteger value).Modest := by
  unfold Spec.newInteger
  split
  · exact pure _
  · refine (ask _).bind fun _ => (allocate ..).bind fun _ => (store fun g g' h => ?_).bind fun _ => pure _
    exact .setLargeInteger h

theorem newFloat (value : Binary64) : (Spec.newFloat value).Modest := by
  refine (ask _).bind fun _ => (allocate ..).bind fun _ => (store fun g g' h => ?_).bind fun _ => pure _
  exact .setFloatValue h

theorem newAssociation (key value : Value) : (Spec.newAssociation key value).Modest := by
  refine (pin _).bind fun _ => (pin _).bind fun _ => (ask _).bind fun _ => (allocate ..).bind fun _ =>
    unpin.bind fun _ => unpin.bind fun _ => (store fun g g' h => ?_).bind fun _ => pure _
  obtain ⟨g₁, hfirst, h⟩ := Option.bind_eq_some_iff.mp h
  exact (SameStock.storeField hfirst).trans (.storeField h)

theorem newMethodDictionary (capacity : Nat) : (Spec.newMethodDictionary capacity).Modest := by
  refine (guard _).bind fun _ => (newArray _).bind fun _ => (pin _).bind fun _ => (ask _).bind fun _ =>
    (allocate ..).bind fun _ => unpin.bind fun _ => (store fun g g' h => ?_).bind fun _ => pure _
  obtain ⟨g₁, hfirst, h⟩ := Option.bind_eq_some_iff.mp h
  exact (SameStock.storeField hfirst).trans (.storeField h)

theorem intern (name : String) : (Spec.intern name).Modest := by
  refine (ask _).bind fun found => ?_
  cases found with
  | some v => exact pure v
  | none =>
    refine (ask _).bind fun _ => (newBytes ..).bind fun _ => (modify fun g => ?_).bind fun _ => pure _
    exact ⟨id, .inl rfl⟩

theorem globalAssociation (name : String) : (Spec.globalAssociation name).Modest := by
  refine (ask _).bind fun found => ?_
  cases found with
  | some v => exact pure v
  | none =>
    refine (intern _).bind fun _ => (ask _).bind fun _ => (newAssociation ..).bind fun _ =>
      (modify fun g => ?_).bind fun _ => pure _
    exact ⟨id, .inl rfl⟩

theorem setGlobal (name : String) (value : Value) : (Spec.setGlobal name value).Modest :=
  (pin _).bind fun _ => (globalAssociation _).bind fun _ => unpin.bind fun _ =>
    store fun _ _ => .storeField

/-! ### Methods -/

theorem materialize (position : Nat) (literal : Literal) : (Spec.materialize position literal).Modest := by
  cases literal with
  | integer value => exact newInteger value
  | float value => exact newFloat value
  | string text => exact (ask _).bind fun _ => newBytes ..
  | symbol name => exact intern name
  | global name => exact globalAssociation name
  | methodClass =>
    exact (ask _).bind fun _ => (newAssociation ..).bind fun _ => (read _).bind fun _ =>
      (store fun _ _ => .storeField).bind fun _ => pure _
  | character value => exact pure _
  | _ => exact (ask _).bind fun _ => pure _

theorem materializeAll (position : Nat) (literals : List Literal) :
    (Spec.materializeAll position literals).Modest := by
  induction literals with
  | nil => exact pure ()
  | cons literal rest ih => exact (materialize ..).bind fun _ => (pin _).bind fun _ => ih

theorem buildDraft (draft : Draft) (cls : Value) : (Spec.buildDraft draft cls).Modest := by
  refine bind ((ask _).bind fun _ => (pin _).bind fun _ => (materializeAll ..).bind fun _ =>
      (newArray _).bind fun _ => (pinnedFrom ..).bind fun _ =>
      (store fun _ _ => .storeElements).bind fun _ => (unpinTo _).bind fun _ => pure _)
    fun _ => (pin _).bind fun _ => bind ((ask _).bind fun _ => newBytes ..) fun _ => (pin _).bind fun _ =>
      (ask _).bind fun _ => (allocate ..).bind fun _ => unpin.bind fun _ => unpin.bind fun _ =>
      (store fun g g' h => ?_).bind fun _ => pure _
  obtain ⟨g₁, hfirst, h⟩ := Option.bind_eq_some_iff.mp h
  obtain ⟨g₂, hsecond, h⟩ := Option.bind_eq_some_iff.mp h
  exact (SameStock.storeField hfirst).trans ((SameStock.storeField hsecond).trans (.storeField h))

/-- A method is built. -/
theorem build (a : Assembler) (cls : Value) : (Spec.build a cls).Modest := by
  unfold Spec.build
  split
  · exact buildDraft ..
  · exact fail _
  · exact stop _

theorem installMethod (cls : Value) (selector : String) (method : Value) :
    (Spec.installMethod cls selector method).Modest := by
  have hgrow : ∀ position, (Spec.growDictionary position).Modest := fun position =>
    (read _).bind fun _ => (read _).bind fun _ => (newMethodDictionary _).bind fun _ =>
      (read _).bind fun _ => store fun _ _ => .moveEntries
  refine (ask _).bind fun _ => (pin _).bind fun _ => (pin _).bind fun _ => (intern _).bind fun _ =>
    (pin _).bind fun _ => (read _).bind fun _ => (read _).bind fun full => bind ?_ fun _ =>
      (read _).bind fun _ => (read _).bind fun _ => (read _).bind fun _ => (unpinTo _).bind fun _ =>
        (store fun _ _ => .insertMethod).bind fun _ => modify fun _ => ⟨nofun, .inl rfl⟩
  split
  · exact hgrow _
  · exact pure ()

/-- A method is built and added to a class. -/
theorem install (a : Assembler) (cls : Value) (selector : String) :
    (Spec.install a cls selector).Modest := by
  refine (pin _).bind fun _ => (build ..).attempt.bind fun method => unpin.bind fun _ => ?_
  cases method with
  | ok method => exact installMethod ..
  | error failure => exact (read _).bind fun _ => fail _

/-! ### A fresh machine -/

theorem modifyCore (f : Graph.Core → Graph.Core) : (Spec.modifyCore f).Modest :=
  modify fun _ => ⟨id, .inl rfl⟩

theorem createBareClasses (classes : List KernelClass) : (Spec.createBareClasses classes).Modest := by
  induction classes with
  | nil => exact pure ()
  | cons k rest ih => exact (allocate ..).bind fun _ => (modifyCore _).bind fun _ => ih

theorem linkClass (cls metaclass superclass : Value) (spec : InstanceSpec)
    (name dictionary metaDictionary : Value) :
    (Spec.linkClass cls metaclass superclass spec name dictionary metaDictionary).Modest := by
  have hinherited : ∀ core, (Spec.metaSuperclass core superclass).Modest := by
    intro core
    unfold Spec.metaSuperclass
    split
    · exact pure _
    · exact read _
  refine (ask _).bind fun _ => (hinherited _).bind fun _ => store fun g g' h => ?_
  obtain ⟨g₁, hfirst, h⟩ := Option.bind_eq_some_iff.mp h
  obtain ⟨g₂, hsecond, h⟩ := Option.bind_eq_some_iff.mp h
  exact (SameStock.storeClass hfirst).trans ((SameStock.fillClass hsecond).trans (.fillClass h))

/-- A class is defined. -/
theorem defineClass (name : String) (superclass : Value) (spec : InstanceSpec) :
    (Spec.defineClass name superclass spec).Modest :=
  (pin _).bind fun _ => (intern _).bind fun _ => (pin _).bind fun _ => (newMethodDictionary _).bind fun _ =>
    (pin _).bind fun _ => (newMethodDictionary _).bind fun _ => (pin _).bind fun _ => (ask _).bind fun _ =>
      (allocate ..).bind fun _ => (pin _).bind fun _ => (allocate ..).bind fun _ => unpin.bind fun _ =>
        unpin.bind fun _ => unpin.bind fun _ => unpin.bind fun _ => unpin.bind fun _ =>
          (linkClass ..).bind fun _ => (setGlobal ..).bind fun _ => pure ()

theorem createClass (k : KernelClass) : (Spec.createClass k).Modest :=
  (intern _).bind fun _ => (pin _).bind fun _ => (newMethodDictionary _).bind fun _ => (pin _).bind
    fun _ => (newMethodDictionary _).bind fun _ => (pin _).bind fun _ => (ask _).bind fun _ =>
      (allocate ..).bind fun _ => unpin.bind fun _ => unpin.bind fun _ => unpin.bind fun _ =>
        (ask _).bind fun _ => (linkClass ..).bind fun _ => setGlobal ..

theorem createClasses (classes : List KernelClass) : (Spec.createClasses classes).Modest := by
  induction classes with
  | nil => exact pure ()
  | cons k rest ih => exact (createClass k).bind fun _ => ih

theorem internSpecial (index : Nat) (selectors : List SpecialSelector) :
    (Spec.internSpecial index selectors).Modest := by
  induction selectors generalizing index with
  | nil => exact pure ()
  | cons selector rest ih => exact (intern _).bind fun _ => (modifyCore _).bind fun _ => ih _

theorem internSelectors : Spec.internSelectors.Modest :=
  (internSpecial ..).bind fun _ => (intern _).bind fun _ => (modifyCore _).bind fun _ =>
    (intern _).bind fun _ => (modifyCore _).bind fun _ => (intern _).bind fun _ => modifyCore _

theorem installKernel (methods : List KernelMethod) : (Spec.installKernel methods).Modest := by
  induction methods with
  | nil => exact pure ()
  | cons method rest ih =>
    refine bind ?_ fun _ => (install ..).bind fun _ => ih
    cases method.owner with
    | cls k => exact ask _
    | metaclass k => exact read _

/-- A fresh machine gets what it needs. -/
theorem bootstrap : Spec.bootstrap.Modest := by
  have hnil : Spec.createNil.Modest :=
    (allocate ..).bind fun _ => (write fun g g' h => by cases h; exact ⟨id, .inl rfl⟩).bind fun _ =>
      modifyCore _
  have hconstants : Spec.createConstants.Modest :=
    (ask _).bind fun _ => (store fun _ _ => .storeClass).bind fun _ => (allocate ..).bind fun _ =>
      (modifyCore _).bind fun _ => (ask _).bind fun _ => (allocate ..).bind fun _ => modifyCore _
  exact hnil.bind fun _ => (createBareClasses _).bind fun _ => hconstants.bind fun _ =>
    (createClasses _).bind fun _ => internSelectors.bind fun _ => (installKernel _).within

end Modest

/-! ## Computations after which nothing is remembered -/

/-- A computation after which no method is remembered. -/
def Forgets {α : Type} (x : Spec α) : Prop :=
  ∀ g a g', x g (.ok a g') → ∀ cls selector method, ¬ g'.memo cls selector method

namespace Forgets

variable {α β : Type} {x : Spec α} {f : α → Spec β}

theorem after (hf : ∀ a, (f a).Forgets) : (x >>= f).Forgets := by
  rintro g b g' ⟨r, hr, hafter⟩
  cases r with
  | ok a g₁ => exact hf a g₁ b g' hafter
  | _ => cases hafter

theorem fail (P : Failure → Prop) : (Spec.fail P : Spec α).Forgets := by
  rintro g a g' ⟨_, _, h⟩
  cases h

/-- Whoever adds a method forgets those that were found before. -/
theorem installMethod (cls : Value) (selector : String) (method : Value) :
    (Spec.installMethod cls selector method).Forgets := by
  refine after fun _ => after fun _ => after fun _ => after fun _ => after fun _ => after fun _ => after fun _ =>
    after fun _ => after fun _ => after fun _ => after fun _ => after fun _ => after fun _ => ?_
  rintro g a g' h
  cases h
  exact fun _ _ _ => id

theorem install (a : Assembler) (cls : Value) (selector : String) : (Spec.install a cls selector).Forgets := by
  refine after fun _ => after fun method => after fun _ => ?_
  cases method with
  | ok method => exact installMethod _ selector method
  | error failure => exact after fun _ => fail _

end Forgets

/-- What is known of the outcomes, and that nothing is remembered. -/
theorem Ends.forgets {α : Type} {x : Spec α} {g : Graph} {R : α → Graph → Prop} {E : Failure → Graph → Prop}
    {S : Fatal → Prop} (hx : x.Ends g R E S) (hforgets : x.Forgets) :
    x.Ends g (fun a g' => R a g' ∧ ∀ cls selector method, ¬ g'.memo cls selector method) E S := by
  intro r hr
  cases r with
  | ok a g' => exact ⟨hx _ hr, hforgets g a g' hr⟩
  | _ => exact hx _ hr

end Spec

end ObjectMachine
