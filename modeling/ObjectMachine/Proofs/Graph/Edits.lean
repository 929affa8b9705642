import ObjectMachine.Proofs.Graph.Positions

/-!
# What is changed

Everything that an instruction does to a graph is made of a few kinds of edits. What holds of a graph and
is kept by each kind of edit holds throughout a run. Stores into fields, which a program may ask for, are
told apart from what the machine does by itself, so that something can be known of a program that leaves
some objects alone.

## Main results

* `Graph.Edit`: the kinds of edits.
* `Spec.Edits.step`: an instruction is made of edits.
-/

namespace ObjectMachine

namespace Graph

/-- What may be made: an instance of a kernel class, or of an object that has what a class needs. The
active context, whose fields the machine writes, may have had it. -/
def Suits (g : Graph) (cls : Value) (format : Format) (fields : Nat) : Prop :=
  (∃ k : KernelClass, cls = g.core.cls k ∧ format = k.spec.format ∧ fields = k.spec.fields) ∨
    ∃ c spec, cls = .object c ∧ Class.fieldCount ≤ (g.nodes c).fields ∧
      format = InstanceSpec.format spec ∧ fields = spec.fields ∧
      (g.instanceSpec? cls = some (some spec) ∨ g.registers.active = cls)

/-- An object with other contents, though with the same fields. -/
structure SameFields (o o' : Node) : Prop extends Node.SameLayout o o' where
  hash : o'.hash = o.hash
  cls : o'.cls = o.cls
  field : o'.field = o.field

/-- An object is a byte object of class Symbol. -/
structure IsText (g : Graph) (n : Nat) : Prop where
  format : (g.nodes n).format = .byteArray
  fields : (g.nodes n).fields = 0
  cls : (g.nodes n).cls = g.core.cls .symbol

/-- An object in the place of another one has its class and its bytes if that is a symbol, as long as the
machine tells the classes of the kernel apart. -/
def KeepsText (g : Graph) (n : Nat) (o : Node) : Prop :=
  Function.Injective g.core.cls → g.IsText n → o.cls = (g.nodes n).cls ∧ o.raw = (g.nodes n).raw

/-- The objects that the machine fills in by itself once they are made. -/
def IsRecord (k : KernelClass) : Prop :=
  k = .message ∨ k = .association ∨ k = .methodDictionary ∨ k = .compiledMethod

/-- A context that is filled in has nobody to return to, or the active context. -/
def Follows (g : Graph) (fields : List Value) : Prop :=
  ∀ v ∈ fields[Context.senderField]?, v = g.nil ∨ v = g.registers.active

/-- A value is an object of a class. -/
def IsOf (g : Graph) (v cls : Value) : Prop := ∃ n, v = .object n ∧ (g.nodes n).cls = cls

/-- The kinds of edits. A program may store into the fields of what is open to it. -/
inductive Edit (isOpen : Graph → Value → Prop) (g : Graph) : Graph → Prop
  | registers (s : Registers)
      (h : s.active = g.registers.active ∨ s.active = .immediate .null) :
      Edit isOpen g { g with registers := s }
  | load {v : Value} {g' : Graph} (h : g.load v = some g') : Edit isOpen g g'
  | flush {g' : Graph} (h : g.flush = some g') : Edit isOpen g g'
  | pinned (values : List Value) : Edit isOpen g { g with pinned := values }
  | memo (memo : Value → Value → Value → Prop) : Edit isOpen g { g with memo }
  | pool (pool : Pool) (hsmall : pool.small ⊆ g.pool.small) (hlarge : pool.large ⊆ g.pool.large) :
      Edit isOpen g { g with pool }
  | content {n : Nat} {o : Node} (h : SameFields (g.nodes n) o) (htext : g.KeepsText n o) :
      Edit isOpen g (g.setNode n o)
  | store {v w : Value} {index : Nat} {g' : Graph} (hopen : isOpen g v)
      (h : g.storeField v index w = some g') : Edit isOpen g g'
  | record {n index : Nat} {w : Value} {k : KernelClass} {g' : Graph} (hk : IsRecord k)
      (hcls : (g.nodes n).cls = g.core.cls k) (h : g.storeField (.object n) index w = some g') :
      Edit isOpen g g'
  | fill {v : Value} {fields elements : List Value} {g' : Graph} (hsender : g.Follows fields)
      (hfields : fields = [] ∨ contextStackPointer < fields.length)
      (h : g.fill v fields elements = some g') : Edit isOpen g g'
  /-- A context is used again. -/
  | reuse {v : Value} {size : Nat} {k : KernelClass} {fields elements : List Value} {g₁ g' : Graph}
      (hpool : (g.pool.take size).1 = some v) (hk : k = .methodContext ∨ k = .blockContext)
      (hcls : { g with pool := (g.pool.take size).2 }.storeClass v (g.core.cls k) = some g₁)
      (hsender : g.Follows fields) (hfields : contextStackPointer < fields.length)
      (h : g₁.fill v fields elements = some g') : Edit isOpen g g'
  /-- Contexts are left. -/
  | leave {target : Value} {fuel : Nat} {g' : Graph}
      (h : Spec.retireUpTo target g.registers.active fuel g (.ok () g')) : Edit isOpen g g'
  | make {cls : Value} {format : Format} {fields : Nat} (len hash : Nat)
      (h : g.Suits cls format fields) :
      Edit isOpen g (g.withNew (.fresh cls g.nil format fields len hash))

/-- A number of edits. -/
def Edited (isOpen : Graph → Value → Prop) : Graph → Graph → Prop :=
  Relation.ReflTransGen (Edit isOpen)

variable {isOpen : Graph → Value → Prop} {g₀ g g' : Graph}

theorem Edited.edit (h : Edited isOpen g₀ g) (h' : Edit isOpen g g') : Edited isOpen g₀ g' :=
  .tail h h'

/-- What is kept by every edit holds afterwards. -/
theorem Edited.keeps {I : Graph → Prop} (h : Edited isOpen g₀ g) (hg₀ : I g₀)
    (hI : ∀ g g', I g → Edit isOpen g g' → I g') : I g := by
  induction h with
  | refl => exact hg₀
  | tail _ hedit ih => exact hI _ _ ih hedit

end Graph

/-! ## Computations that are made of edits -/

namespace Spec

open ObjectMachine.Graph

/-- Whatever comes of a computation, the graph is left with a number of edits. -/
def Edits {α : Type} (isOpen : Graph → Value → Prop) (x : Spec α) : Prop :=
  ∀ g₀, x.Keeps (Edited isOpen g₀)

namespace Edits

variable {α β : Type} {isOpen : Graph → Value → Prop} {x y : Spec α} {f : α → Spec β}

theorem pure (a : α) : (Pure.pure a : Spec α).Edits isOpen := fun _ => .pure a fun _ h => h

theorem bind (hx : x.Edits isOpen) (hf : ∀ a, (f a).Edits isOpen) : (x >>= f).Edits isOpen :=
  fun g₀ => Keeps.bind (hx g₀) fun a => hf a g₀

theorem ask (h : Graph → α) : (Spec.ask h).Edits isOpen := fun _ => Keeps.ask h

theorem read (h : Graph → Option α) : (Spec.read h).Edits isOpen := fun _ => Keeps.read h

theorem guard (P : Graph → Prop) : (Spec.guard P).Edits isOpen := fun _ => Keeps.guard P

theorem choose (P : α → Prop) : (Spec.choose P).Edits isOpen := fun _ => Keeps.choose P

theorem stop (P : Fatal → Prop) : (Spec.stop P : Spec α).Edits isOpen := fun _ => Keeps.stop P

theorem fail (P : Failure → Prop) : (Spec.fail P : Spec α).Edits isOpen := fun _ => Keeps.fail P

theorem either (hx : x.Edits isOpen) (hy : y.Edits isOpen) : (Spec.either x y).Edits isOpen :=
  fun g₀ => Keeps.either (hx g₀) (hy g₀)

theorem ite {P : Prop} [Decidable P] (hx : x.Edits isOpen) (hy : y.Edits isOpen) :
    (if P then x else y).Edits isOpen :=
  fun g₀ => .ite (hx g₀) (hy g₀)

theorem modify {h : Graph → Graph} (hedit : ∀ g, Edit isOpen g (h g)) :
    (Spec.modify h).Edits isOpen :=
  fun _ => .modify fun g hg => hg.edit (hedit g)

theorem write {h : Graph → Option Graph} (hedit : ∀ g g', h g = some g' → Edit isOpen g g') :
    (Spec.write h).Edits isOpen :=
  fun _ => .write fun g g' hg hg' => hg.edit (hedit g g' hg')

end Edits

end Spec

/-! ### Contents -/

namespace Graph

variable {isOpen : Graph → Value → Prop} {g g' : Graph} {v w : Value} {index : Nat} {format : Format}
  {n : Nat} {o : Node}

theorem KeepsText.of_raw (hcls : o.cls = (g.nodes n).cls) (hraw : o.raw = (g.nodes n).raw) :
    g.KeepsText n o := fun _ _ => ⟨hcls, hraw⟩

theorem KeepsText.of_format (h : (g.nodes n).format ≠ .byteArray) : g.KeepsText n o :=
  fun _ htext => absurd htext.format h

theorem KeepsText.of_fields (h : 0 < (g.nodes n).fields) : g.KeepsText n o :=
  fun _ htext => absurd htext.fields h.ne'

/-- An instance of another class is no symbol. -/
theorem KeepsText.of_core {k : KernelClass} (hk : k ≠ .symbol) (h : (g.nodes n).cls = g.core.cls k) :
    g.KeepsText n o :=
  fun hinjective htext => absurd (hinjective (h.symm.trans htext.cls)) hk

theorem SameFields.withElement (o : Node) (index : Nat) (w : Value) :
    SameFields o (o.withElement index w) :=
  ⟨⟨rfl, rfl, rfl⟩, rfl, rfl, rfl⟩

theorem SameFields.withRaw (o : Node) (index : Nat) (word : UInt64) :
    SameFields o (o.withRaw index word) :=
  ⟨⟨rfl, rfl, rfl⟩, rfl, rfl, rfl⟩

theorem SameFields.trans {o o' o'' : Node} (h : SameFields o o') (h' : SameFields o' o'') :
    SameFields o o'' where
  format := h'.format.trans h.format
  fields := h'.fields.trans h.fields
  len := h'.len.trans h.len
  hash := h'.hash.trans h.hash
  cls := h'.cls.trans h.cls
  field := h'.field.trans h.field

theorem SameFields.withBytes (o : Node) (index : Nat) (values : List UInt8) :
    SameFields o (o.withBytes index values) := by
  induction values generalizing o index with
  | nil => exact ⟨⟨rfl, rfl, rfl⟩, rfl, rfl, rfl⟩
  | cons b rest ih => exact (withRaw o _ _).trans (ih (o.withByte index b) (index + 1))

namespace Edit

theorem storeElement (h : g.storeElement v index w = some g') : Edit isOpen g g' := by
  obtain ⟨n, -, -, -, rfl⟩ := of_storeElement h
  exact .content (.withElement _ _ _) (.of_raw rfl rfl)

theorem storeRaw {f : Node → Node} (hf : ∀ o, SameFields o (f o))
    (htext : format ≠ .byteArray ∨ g.isInstance .symbol v = false)
    (h : g.storeRaw v format index f = some g') : Edit isOpen g g' := by
  cases v with
  | immediate r => cases h
  | object n =>
    obtain ⟨⟨hformat, -⟩, heq⟩ := Option.ite_none_right_eq_some.mp h
    cases heq
    refine .content (hf _) fun _ hsymbol => ?_
    obtain hne | hno := htext
    · exact absurd (hformat.symm.trans hsymbol.format) hne
    · exact absurd hsymbol.cls (of_decide_eq_false hno)

/-- Bytes are written into an instance of a class of the kernel, which is not that of symbols. -/
theorem storeBytes {values : List UInt8} {k : KernelClass} (hk : k ≠ .symbol)
    (hof : g.IsOf v (g.core.cls k)) (h : g.storeBytes v values = some g') : Edit isOpen g g' := by
  obtain ⟨n, rfl, hcls⟩ := hof
  obtain ⟨-, heq⟩ := Option.ite_none_right_eq_some.mp h
  cases heq
  exact .content (.withBytes _ _ _) (.of_core hk hcls)

theorem setFloatValue {x : Binary64} (h : g.setFloatValue v x = some g') : Edit isOpen g g' := by
  cases v with
  | immediate r => cases h
  | object n =>
    obtain ⟨hformat, heq⟩ := Option.ite_none_right_eq_some.mp h
    cases heq
    exact .content (.withRaw _ _ _) (.of_format (by rw [hformat]; nofun))

theorem setLargeInteger {x : Int} (h : g.setLargeInteger v x = some g') : Edit isOpen g g' := by
  cases v with
  | immediate r => cases h
  | object n =>
    obtain ⟨-, heq⟩ := Option.ite_none_right_eq_some.mp h
    cases heq
    exact .content ⟨⟨rfl, rfl, rfl⟩, rfl, rfl, rfl⟩ (.of_raw rfl rfl)

theorem setCaptured {captured : Bool} (h : g.setCaptured v captured = some g') :
    Edit isOpen g g' := by
  cases v with
  | immediate r => cases h
  | object n =>
    cases h
    exact .content ⟨⟨rfl, rfl, rfl⟩, rfl, rfl, rfl⟩ (.of_raw rfl rfl)

/-- Only elements are filled in. -/
theorem copyTop {count : Nat} (h : g.copyTop v count = some g') : Edit isOpen g g' := by
  obtain ⟨values, -, h⟩ := Option.bind_eq_some_iff.mp h
  exact .fill (fun v hv => by cases hv) (.inl rfl) h

end Edit

end Graph

namespace Spec.Edits

open ObjectMachine.Graph

variable {isOpen : Graph → Value → Prop} {α : Type}

/-! ### The stack and the registers -/

/-- The registers are changed, and the same context stays active. -/
theorem modifyRegisters {f : Graph.Registers → Graph.Registers} (hf : ∀ r, (f r).active = r.active) :
    (Spec.modifyRegisters f).Edits isOpen :=
  modify fun g => .registers _ (.inl (hf g.registers))

theorem peek (depth : Nat) : (Spec.peek depth).Edits isOpen := read _

theorem push (v : Value) : (Spec.push v).Edits isOpen := by
  refine (read _).bind fun c => (ask _).bind fun _ => .ite (fun g₀ => .modify fun g hg => ?_) (stop _)
  exact (hg.edit (.content (.withElement _ _ _) (.of_raw rfl rfl))).edit (.registers _ (.inl rfl))

theorem popMany (count : Nat) : (Spec.popMany count).Edits isOpen :=
  (ask _).bind fun _ => .ite (modify fun _ => .registers _ (.inl rfl)) (stop _)

theorem pop : Spec.pop.Edits isOpen :=
  (ask _).bind fun _ => ite ((peek 0).bind fun v =>
    bind (modify fun _ => .registers _ (.inl rfl)) fun _ => pure v) (stop _)

theorem replaceTop (count : Nat) (v : Value) : (Spec.replaceTop count v).Edits isOpen :=
  (popMany count).bind fun _ => push v

theorem pushAll (values : List Value) : (Spec.pushAll values).Edits isOpen := by
  induction values with
  | nil => exact pure ()
  | cons v rest ih => exact (push v).bind fun _ => ih

theorem flushRegisters : Spec.flushRegisters.Edits isOpen := write fun _ _ => .flush

theorem loadContext (v : Value) : (Spec.loadContext v).Edits isOpen := write fun _ _ => .load

theorem clearRegisters : Spec.clearRegisters.Edits isOpen :=
  modify fun _ => .registers _ (.inr rfl)

theorem pin (v : Value) : (Spec.pin v).Edits isOpen := modify fun _ => .pinned _

end Spec.Edits

/-! ### Allocation -/

namespace Graph

variable {isOpen : Graph → Value → Prop} {g g' : Graph} {cls : Value} {format : Format} {fields : Nat}

/-- What does not depend on a collection. -/
structure Collected (g g' : Graph) : Prop where
  next : g'.next = g.next
  pinned : g'.pinned = g.pinned
  active : g'.registers.active = g.registers.active
  core : g'.core = g.core
  nil : g'.nil = g.nil
  symbols : g'.symbols = g.symbols
  fields : ∀ n, (g'.nodes n).fields = (g.nodes n).fields
  others : ∀ n, g.registers.active ≠ .object n → g'.nodes n = g.nodes n

theorem Collected.of_flush (h : g.flush = some g') : Collected g g' := by
  unfold flush at h
  split at h
  · cases h
    exact ⟨rfl, rfl, rfl, rfl, rfl, rfl, fun _ => rfl, fun _ _ => rfl⟩
  · rename_i c hc
    obtain ⟨g₁, hpc, hsp⟩ := Option.bind_eq_some_iff.mp h
    obtain ⟨n, heq, -, -, rfl⟩ := of_storeField hpc
    obtain ⟨n', heq', -, -, rfl⟩ := of_storeField hsp
    cases heq
    cases heq'
    refine ⟨rfl, rfl, rfl, rfl, rfl, rfl, fun n => ?_, fun n hn => ?_⟩
    · by_cases hnc : n = c
      · subst hnc
        simp
      · simp [Function.update_of_ne hnc]
    · have hnc : n ≠ c := fun heq => hn (heq ▸ hc)
      simp [Function.update_of_ne hnc]

theorem Collected.of_collected (h : g.collected = some g') : Collected g g' := by
  obtain ⟨g₁, hflush, h⟩ := Option.bind_eq_some_iff.mp h
  have hfirst := Collected.of_flush hflush
  unfold Graph.reload at h
  split at h
  · cases h
    exact ⟨hfirst.next, hfirst.pinned, hfirst.active, hfirst.core, hfirst.nil, hfirst.symbols,
      hfirst.fields, hfirst.others⟩
  · rename_i c hactive
    obtain ⟨registers, hloaded, rfl⟩ := Option.map_eq_some_iff.mp h
    have hload := (of_load_active h).1
    exact ⟨hfirst.next, hfirst.pinned, hload.trans (hactive.symm.trans hfirst.active), hfirst.core,
      hfirst.nil, hfirst.symbols, hfirst.fields, hfirst.others⟩

/-- A collection does not change what may be made. -/
theorem Suits.collected (hs : g.Suits cls format fields) (h : Collected g g') :
    g'.Suits cls format fields := by
  rcases hs with ⟨k, hcls, hshape⟩ | ⟨c, spec, rfl, hcount, hformat, hfields, hspec⟩
  · exact .inl ⟨k, h.core ▸ hcls, hshape⟩
  · refine .inr ⟨c, spec, rfl, h.fields c ▸ hcount, hformat, hfields, ?_⟩
    by_cases hactive : g.registers.active = .object c
    · exact .inr (h.active.trans hactive)
    · refine .inl ?_
      have hspec := hspec.resolve_right hactive
      unfold Graph.instanceSpec? field node? at hspec ⊢
      dsimp only at hspec ⊢
      rw [h.others c hactive]
      exact hspec

end Graph

namespace Spec

open ObjectMachine.Graph

variable {isOpen : Graph → Value → Prop} {g₀ : Graph} {α β : Type} {cls : Value} {format : Format}
  {fields len : Nat}

namespace Keeps

/-- What is known of a graph, and kept by collections, is known after there may have been one. -/
theorem mayCollect {I : Graph → Prop} (hI : ∀ g g', I g → g.collected = some g' → I g') :
    Spec.mayCollect.Keeps I := by
  refine .either (.pure () fun _ h => h) (bind ?_ fun _ => .pure () fun _ h => h)
  exact bind (guard _) fun _ => bind (.write hI) fun _ => choose _

theorem count {I : Graph → Prop} (words : Nat) : (Spec.count words).Keeps I := by
  rintro g hg out (rfl | ⟨-, rfl⟩)
  · exact hg
  · trivial

end Keeps

/-! ### Computations that begin with something known -/

section

variable {g : Graph}

theorem bind_of_ok {x : Spec α} {f : α → Spec β} {a : α} {g' : Graph}
    (hx : x g = fun r => r = .ok a g') : (x >>= f) g = f a g' := by
  funext out
  apply propext
  constructor
  · rintro ⟨r, hr, hout⟩
    rw [hx] at hr
    subst hr
    exact hout
  · intro hout
    exact ⟨.ok a g', by rw [hx], hout⟩

theorem ask_bind (h : Graph → α) (f : α → Spec β) : (Spec.ask h >>= f) g = f (h g) g := bind_of_ok rfl

theorem modify_bind (h : Graph → Graph) (f : Unit → Spec β) :
    (Spec.modify h >>= f) g = f () (h g) := bind_of_ok rfl

theorem read_bind {h : Graph → Option α} {a : α} (ha : h g = some a) (f : α → Spec β) :
    (Spec.read h >>= f) g = f a g := bind_of_ok (read_of_some ha)

theorem write_bind {h : Graph → Option Graph} {g' : Graph} (ha : h g = some g') (f : Unit → Spec β) :
    (Spec.write h >>= f) g = f () g' := bind_of_ok (write_of_some ha)

end

/-- A computation on a graph with `I` has values with `P`, and leaves a graph with `Q` if it fails. -/
def Gives (I : Graph → Prop) (P : α → Graph → Prop) (Q : Graph → Prop) (x : Spec α) : Prop :=
  ∀ g, I g → ∀ out, x g out → match out with
    | .ok a g' => P a g'
    | .failed _ g' => Q g'
    | _ => True

namespace Gives

variable {I Q : Graph → Prop} {P : α → Graph → Prop} {R : β → Graph → Prop} {x : Spec α}
  {f : α → Spec β}

theorem bind (hx : x.Gives I P Q) (hf : ∀ a, (f a).Gives (P a) R Q) : (x >>= f).Gives I R Q := by
  rintro g hg out ⟨r, hr, hout⟩
  have hfirst := hx g hg r hr
  cases r with
  | ok a g' => exact hf a g' hfirst out hout
  | failed failure g' =>
    cases hout
    exact hfirst
  | _ =>
    cases hout
    trivial

/-- A value of which something is known is used. -/
theorem leads (hx : x.Gives I P Q) (hf : ∀ a, (f a).Leads (P a) Q) : (x >>= f).Leads I Q := by
  rintro g hg out ⟨r, hr, hout⟩
  have hfirst := hx g hg r hr
  cases r with
  | ok a g' => exact hf a g' hfirst out hout
  | failed failure g' =>
    cases hout
    exact hfirst
  | _ =>
    cases hout
    trivial

theorem mono {P' : α → Graph → Prop} {Q' : Graph → Prop} (hx : x.Gives I P Q)
    (hP : ∀ a g, P a g → P' a g) (hQ : ∀ g, Q g → Q' g) : x.Gives I P' Q' := by
  intro g hg out hout
  have hgives := hx g hg out hout
  cases out with
  | ok a g' => exact hP a g' hgives
  | failed failure g' => exact hQ g' hgives
  | _ => trivial

/-- Two things are known of a computation. -/
theorem and {Q' : Graph → Prop} {P' : α → Graph → Prop} (hx : x.Gives I P Q) (hx' : x.Gives I P' Q') :
    x.Gives I (fun a g => P a g ∧ P' a g) fun g => Q g ∧ Q' g := by
  intro g hg out hout
  have hfirst := hx g hg out hout
  have hsecond := hx' g hg out hout
  cases out with
  | ok a g' => exact ⟨hfirst, hsecond⟩
  | failed failure g' => exact ⟨hfirst, hsecond⟩
  | _ => trivial

/-- What is read changes nothing. -/
theorem look (h : Graph → Option α) : (Spec.read h).Gives I (fun _ => I) Q := by
  intro g hg out hout
  unfold Spec.read at hout
  split at hout <;> subst hout
  · exact hg
  · trivial

theorem of_keeps (hx : x.Keeps I) (hQ : ∀ g, I g → Q g) : x.Gives I (fun _ => I) Q := by
  intro g hg out hout
  have hkeep := hx g hg out hout
  cases out with
  | ok a g' => exact hkeep
  | failed failure g' => exact hQ g' hkeep
  | _ => trivial

theorem of_ends (hx : ∀ g, I g → x.Ends g P (fun _ g' => Q g') fun _ => True) : x.Gives I P Q := by
  intro g hg out hout
  have hends := hx g hg out hout
  cases out with
  | ok a g' => exact hends
  | failed failure g' => exact hends
  | _ => trivial

/-! On a graph that is known, what is read is known. -/

variable {g : Graph}

theorem of_eq {y : Spec α} {g' : Graph} (heq : x g = y g') (hy : y.Gives (· = g') P Q) :
    x.Gives (· = g) P Q := by
  rintro _ rfl out hout
  exact hy g' rfl out (heq ▸ hout)

theorem pure {a : α} (ha : P a g) : (Pure.pure a : Spec α).Gives (· = g) P Q := by
  rintro _ rfl _ rfl
  exact ha

theorem ask {h : Graph → α} (hf : (f (h g)).Gives (· = g) R Q) :
    (Spec.ask h >>= f).Gives (· = g) R Q := of_eq (ask_bind h f) hf

theorem modify {h : Graph → Graph} {f : Unit → Spec β} (hf : (f ()).Gives (· = h g) R Q) :
    (Spec.modify h >>= f).Gives (· = g) R Q := of_eq (modify_bind h f) hf

theorem read {h : Graph → Option α} (hf : ∀ a, h g = some a → (f a).Gives (· = g) R Q) :
    (Spec.read h >>= f).Gives (· = g) R Q := by
  rintro _ rfl out ⟨r, hr, hout⟩
  unfold Spec.read at hr
  split at hr <;> subst hr
  · exact hf _ ‹_› _ rfl out hout
  · cases hout
    trivial

theorem write {h : Graph → Option Graph} {f : Unit → Spec β}
    (hf : ∀ g', h g = some g' → (f ()).Gives (· = g') R Q) :
    (Spec.write h >>= f).Gives (· = g) R Q := by
  rintro _ rfl out ⟨r, hr, hout⟩
  unfold Spec.write at hr
  split at hr <;> subst hr
  · exact hf _ ‹_› _ rfl out hout
  · cases hout
    trivial

end Gives

theorem Edits.edited_collected {g g' : Graph} (hg : Edited isOpen g₀ g) (h : g.collected = some g') :
    Edited isOpen g₀ g' := by
  obtain ⟨g₁, hflush, h⟩ := Option.bind_eq_some_iff.mp h
  have hpool := (hg.edit (.flush hflush)).edit (.pool ⟨[], []⟩ (List.nil_subset _) (List.nil_subset _))
  unfold Graph.reload at h
  split at h
  · cases h
    exact hpool
  · exact hpool.edit (.load h)

/-- What may be made may be made after a collection. -/
theorem Edits.keeps_mayCollect (core : Core) : Spec.mayCollect.Keeps fun g =>
    (Edited isOpen g₀ g ∧ g.core = core) ∧ g.Suits cls format fields := by
  refine Keeps.mayCollect fun g g' hg h => ?_
  have hsame := Collected.of_collected h
  exact ⟨⟨edited_collected hg.1.1 h, hsame.core.trans hg.1.2⟩, hg.2.collected hsame⟩

/-- An object is made in a graph of which is known what collections leave alone. -/
theorem Gives.fresh {I : Graph → Prop} (hI : Spec.mayCollect.Keeps I) :
    (Spec.allocate cls format fields len).Gives I
      (fun v g' => ∃ g hash, I g ∧ v = .object g.next ∧
        g' = g.withNew (.fresh cls g.nil format fields len hash)) I := by
  have hkeep : ∀ {α : Type} {x : Spec α}, x.Keeps I → x.Gives I (fun _ => I) I :=
    fun hx => of_keeps hx fun _ h => h
  refine bind (hkeep (Keeps.guard _)) fun _ => bind (hkeep (Keeps.count _)) fun _ => ?_
  refine bind (hkeep hI) fun _ => bind (hkeep hI) fun _ => bind (hkeep (Keeps.count _)) fun _ => ?_
  rintro g hg _ ⟨-, hash, rfl⟩
  exact ⟨g, hash, hg, rfl, rfl⟩

/-- An object that may be made is made. -/
theorem Gives.allocate (core : Core) {Q : Graph → Prop} (hQ : ∀ g, Edited isOpen g₀ g → Q g) :
    (Spec.allocate cls format fields len).Gives
      (fun g => (Edited isOpen g₀ g ∧ g.core = core) ∧ g.Suits cls format fields)
      (fun v g => (Edited isOpen g₀ g ∧ g.core = core) ∧ g.IsOf v cls) Q := by
  refine mono (fresh (Edits.keeps_mayCollect core)) ?_ fun g hg => hQ g hg.1.1
  rintro v _ ⟨g, hash, ⟨hg, hsuits⟩, rfl, rfl⟩
  refine ⟨⟨hg.1.edit (.make len hash hsuits), hg.2⟩, g.next, rfl, ?_⟩
  show (Function.update g.nodes g.next _ g.next).cls = cls
  rw [Function.update_self]
  rfl

end Spec

namespace Spec.Edits

open ObjectMachine.Graph

variable {isOpen : Graph → Value → Prop} {α : Type} {f : Value → Spec α}

theorem collectGarbage : Spec.collectGarbage.Edits isOpen :=
  (guard _).bind fun _ => bind (fun _ => .write fun _ _ => edited_collected) fun _ => choose _

/-- An instance of a kernel class is made. -/
theorem allocate_core {format : Format} {fields len : Nat} (k : KernelClass)
    (hformat : format = k.spec.format) (hfields : fields = k.spec.fields)
    (hf : ∀ v g₀, (f v).Leads (fun g => Edited isOpen g₀ g ∧ g.IsOf v (g.core.cls k))
      (Edited isOpen g₀)) :
    (Spec.getCore >>= fun core => Spec.allocate (core.cls k) format fields len >>= f).Edits
      isOpen := by
  intro g₀
  refine Leads.ask_bind fun core => ?_
  refine Leads.mono ((Gives.allocate core fun _ h => h).leads fun v =>
    (hf v g₀).mono ?_ fun _ h => h) ?_ fun _ h => h
  · rintro g ⟨⟨hg, rfl⟩, hof⟩
    exact ⟨hg, hof⟩
  · rintro g ⟨hg, rfl⟩
    exact ⟨⟨hg, rfl⟩, .inl ⟨k, rfl, hformat, hfields⟩⟩

/-- What is done with an instance of a kernel class is made of edits whatever it is. -/
theorem allocate_any {format : Format} {fields len : Nat} (k : KernelClass)
    (hformat : format = k.spec.format) (hfields : fields = k.spec.fields)
    (hf : ∀ v, (f v).Edits isOpen) :
    (Spec.getCore >>= fun core => Spec.allocate (core.cls k) format fields len >>= f).Edits
      isOpen :=
  allocate_core k hformat hfields fun v g₀ => (hf v g₀).mono (fun _ h => h.1) fun _ h => h

theorem newArray_bind {len : Nat} (hf : ∀ v, (f v).Edits isOpen) :
    (Spec.newArray len >>= f).Edits isOpen := by
  unfold Spec.newArray
  rw [bind_assoc]
  exact allocate_any .array rfl rfl hf

theorem newString (text : String) : (Spec.newString text).Edits isOpen :=
  allocate_core .string rfl rfl fun v g₀ =>
    Leads.bind (J := Edited isOpen g₀)
      (.write fun g g' hg h => hg.1.edit (.storeBytes (k := .string) (by decide) hg.2 h)) (fun _ h => h)
      fun _ => pure v g₀

theorem newFloat (value : Binary64) : (Spec.newFloat value).Edits isOpen :=
  allocate_any .float rfl rfl fun v => (write fun _ _ => .setFloatValue).bind fun _ => pure v

theorem newInteger (value : Int) : (Spec.newInteger value).Edits isOpen := by
  unfold Spec.newInteger
  split
  · exact pure _
  · exact allocate_any .largeInteger rfl rfl fun v =>
      (write fun _ _ => .setLargeInteger).bind fun _ => pure v

/-- An instance of a class that programs may have made. -/
theorem instantiate (cls : Value) (len : Nat) : (Spec.instantiate cls len).Edits isOpen := by
  unfold Spec.instantiate
  split
  · rename_i hobject
    obtain ⟨c, rfl⟩ : ∃ c, cls = .object c := by
      cases cls with
      | immediate r => cases hobject
      | object c => exact ⟨c, rfl⟩
    intro g₀
    refine Leads.read_bind fun count => ?_
    by_cases hcount : count < Class.fieldCount
    · rw [if_pos hcount]
      exact .pure _ fun _ h => h.1
    rw [if_neg hcount]
    refine Leads.read_bind fun spec? => ?_
    split
    · exact .pure _ fun _ h => h.1.1
    rename_i spec
    refine .ite (.pure _ fun _ h => h.1.1) ?_
    -- The shape was read before the collections that may follow.
    suffices h : ∀ core, (do
        Spec.count (spec.format.sizeInWords spec.fields len)
        Spec.mayCollect
        Spec.either (do return some (← Spec.allocate (.object c) spec.format spec.fields len))
          (Pure.pure none)).Leads
        (fun g => (Edited isOpen g₀ g ∧ g.core = core) ∧ g.Suits (.object c) spec.format spec.fields)
        (Edited isOpen g₀) by
      rintro g ⟨⟨hg, hfixed⟩, hspec⟩
      refine h g.core g ⟨⟨hg, rfl⟩, .inr ⟨c, spec, rfl, ?_, rfl, rfl, .inl hspec⟩⟩
      cases hfixed
      exact Nat.le_of_not_lt hcount
    intro core
    refine Leads.bind (Keeps.count _) (fun g h => h.1.1) fun _ => ?_
    refine Leads.bind (keeps_mayCollect core) (fun g h => h.1.1) fun _ => ?_
    rintro g hg out (hout | hout)
    · exact (Gives.allocate core fun _ h => h).leads
        (fun v => .pure (some v) fun _ h => h.1.1) g hg out hout
    · cases hout
      exact hg.1.1
  · exact pure none

end Spec.Edits

/-! ### Primitives -/

namespace Spec.Edits

open ObjectMachine.Graph

variable {isOpen : Graph → Value → Prop} {α : Type}

theorem smallOperands? : Spec.smallOperands?.Edits isOpen := by
  refine (peek 1).bind fun receiver => (peek 0).bind fun argument => ?_
  split <;> exact pure _

theorem integerOperands? : Spec.integerOperands?.Edits isOpen := by
  refine (peek 1).bind fun receiver => (read _).bind fun value => ?_
  split
  · exact pure _
  · exact (peek 0).bind fun argument => (read _).bind fun other => pure _

theorem floatOperands? : Spec.floatOperands?.Edits isOpen := by
  refine (peek 1).bind fun receiver => (read _).bind fun value => ?_
  split
  · exact pure _
  · exact (peek 0).bind fun argument => (read _).bind fun other => pure _

theorem number? (value : Option Machine.Numeral) : (Spec.number? value).Edits isOpen := by
  unfold Spec.number?
  split
  · exact (newInteger _).bind fun v => pure (some v)
  · exact (newFloat _).bind fun v => pure (some v)
  · exact pure none

theorem boolean? (value : Option Bool) : (Spec.boolean? value).Edits isOpen := by
  unfold Spec.boolean?
  split
  · exact (ask _).bind fun core => pure _
  · exact pure none

theorem string? (text : Option String) : (Spec.string? text).Edits isOpen := by
  unfold Spec.string?
  split
  · exact (newString _).bind fun v => pure (some v)
  · exact pure none

theorem readElement (v : Value) (format : Format) (place : Nat) :
    (Spec.readElement v format place).Edits isOpen := by
  unfold Spec.readElement
  split
  · exact (read _).bind fun w => pure (some w)
  · exact (read _).bind fun b => (ask _).bind fun isText => ite (pure _) (pure _)
  · exact (read _).bind fun x => pure _
  · exact (read _).bind fun x => (newFloat x).bind fun w => pure (some w)
  · exact pure none

theorem storeRaw {v : Value} {index : Nat} {f : Node → Node} (format : Format)
    (hformat : format ≠ .byteArray) (hf : ∀ o, SameFields o (f o)) :
    (Spec.write (·.storeRaw v format index f)).Edits isOpen :=
  write fun _ _ => .storeRaw hf (.inl hformat)

/-- No byte of a symbol is written. -/
theorem storeByte (v w : Value) (place : Nat) : (do
    match ← Spec.ask (·.byteCode? v w) with
    | some code =>
      if 0 ≤ code ∧ code < 256 then
        Spec.write (·.storeByte v place code.toNat.toUInt8)
        return true
      else return false
    | none => return false : Spec Bool).Edits isOpen := by
  intro g₀
  refine Leads.ask_bind fun code => ?_
  split
  · refine .ite (Leads.bind (J := Edited isOpen g₀) (.write fun g g' hg h => ?_) (fun _ h => h) fun _ =>
      pure true g₀) (.pure _ fun _ h => h.1)
    refine hg.1.edit (.storeRaw (fun o => .withRaw o _ _) (.inr ?_) h)
    have hcode := hg.2
    unfold Graph.byteCode? at hcode
    split at hcode
    · cases hcode
    · exact Bool.eq_false_iff.mpr ‹_›
  · exact .pure _ fun _ h => h.1

theorem writeElement (v : Value) (format : Format) (place : Nat) (w : Value) :
    (Spec.writeElement v format place w).Edits isOpen := by
  unfold Spec.writeElement
  split
  · exact (write fun _ _ => .storeElement).bind fun _ => pure true
  · exact storeByte v w place
  · split
    · exact ite ((storeRaw .wordArray nofun fun o => .withRaw o _ _).bind fun _ =>
        pure true) (pure false)
    · exact pure false
  · refine (read _).bind fun x => ?_
    split
    · exact (storeRaw .floatArray nofun fun o => .withRaw o _ _).bind fun _ => pure true
    · exact pure false
  · exact pure false

/-- All that is computed is made of edits, apart from stores into fields. -/
theorem result {primitive : Primitive} (hp : primitive ≠ .fieldAtPut) :
    (Spec.result primitive).Edits isOpen := by
  cases primitive with
  | small op => exact smallOperands?.bind fun _ => pure _
  | smallCompare op => exact smallOperands?.bind fun _ => boolean? _
  | smallAsFloat => exact (peek 0).bind fun _ => number? _
  | smallAsCharacter => exact (peek 0).bind fun _ => pure _
  | smallAtRandom =>
    refine (peek 0).bind fun v => ?_
    split
    · exact ite ((choose _).bind fun k => pure _) (pure none)
    · exact pure none
  | integer op => exact integerOperands?.bind fun _ => number? _
  | integerCompare op => exact integerOperands?.bind fun _ => boolean? _
  | integerPrint => exact (peek 0).bind fun _ => (read _).bind fun _ => string? _
  | float op => exact floatOperands?.bind fun _ => number? _
  | floatCompare op => exact floatOperands?.bind fun _ => boolean? _
  | floatTruncated => exact (peek 0).bind fun _ => (read _).bind fun _ => number? _
  | floatPrint => exact (peek 0).bind fun _ => (read _).bind fun _ => string? _
  | elementAt =>
    refine (peek 1).bind fun receiver => (peek 0).bind fun index => (ask _).bind fun place => ?_
    split
    · exact readElement _ _ _
    · exact pure none
  | elementAtPut =>
    refine (peek 2).bind fun receiver => (peek 1).bind fun index => (ask _).bind fun place => ?_
    split
    · exact (peek 0).bind fun w => (writeElement _ _ _ w).bind fun taken => pure _
    · exact pure none
  | size =>
    refine (peek 0).bind fun receiver => (ask _).bind fun format => ?_
    split
    · exact (read _).bind fun len => pure _
    · exact pure none
  | basicNew => exact (peek 0).bind fun cls => instantiate cls 0
  | basicNewSized =>
    refine (peek 1).bind fun cls => (peek 0).bind fun v => ?_
    split
    · exact ite (instantiate _ _) (pure none)
    · exact pure none
  | fieldAt =>
    refine (peek 1).bind fun receiver => (peek 0).bind fun index => (ask _).bind fun place => ?_
    split
    · exact (read _).bind fun w => pure (some w)
    · exact pure none
  | fieldAtPut => exact absurd rfl hp
  | identityHash => exact (peek 0).bind fun receiver => ask _
  | characterValue =>
    refine (peek 0).bind fun receiver => ?_
    split
    · exact pure _
    · exact pure none
  | notIdentical => exact (peek 1).bind fun _ => (peek 0).bind fun _ => boolean? _
  | identical => exact (peek 1).bind fun _ => (peek 0).bind fun _ => boolean? _
  | classOf => exact (peek 0).bind fun receiver => (read _).bind fun cls => pure (some cls)
  | fullCollection => exact collectGarbage.bind fun reclaimed => pure _
  | blockValue | blockValueWithArguments | exit => exact pure none

theorem answer? (argCount : Nat) (value : Option Value) :
    (Spec.answer? argCount value).Edits isOpen := by
  unfold Spec.answer?
  split
  · exact (replaceTop _ _).bind fun _ => pure _
  · exact pure _

/-! ### Contexts -/

theorem remembered (cls selector : Value) : (Spec.remembered cls selector).Edits isOpen := by
  rintro g₀ g hg _ ⟨method, -, rfl⟩
  exact hg

theorem search (cls selector : Value) : (Spec.search cls selector).Edits isOpen := by
  refine (read _).bind fun method => ?_
  split
  · exact bind (modify fun _ => .memo _) fun _ => pure _
  · exact pure none

theorem lookup (cls selector : Value) : (Spec.lookup cls selector).Edits isOpen :=
  either (remembered cls selector) (search cls selector)

theorem findMethod : Spec.findMethod.Edits isOpen := by
  refine (ask _).bind fun r => (lookup _ _).bind fun method => ?_
  split
  · exact bind (modifyRegisters fun _ => rfl) fun _ => pure true
  · exact pure false

theorem failNotUnderstood : (Spec.failNotUnderstood : Spec α).Edits isOpen :=
  (ask _).bind fun _ => (peek _).bind fun _ => (read _).bind fun _ => (read _).bind fun _ =>
    (read _).bind fun _ => fail _

theorem reifyMessage : Spec.reifyMessage.Edits isOpen := by
  refine (ask _).bind fun r => newArray_bind fun arguments => ?_
  refine (write fun _ _ => .copyTop).bind fun _ => (pin _).bind fun _ => ?_
  refine allocate_core .message rfl rfl fun message g₀ => ?_
  have hunpin : Spec.unpin.Keeps fun g => Edited isOpen g₀ g ∧ g.IsOf message (g.core.cls .message) :=
    Keeps.bind (Keeps.read _) fun v => Keeps.bind
      (Leads.modify fun g hg => ⟨hg.1.edit (.pinned _), hg.2⟩) fun _ => .pure v fun _ h => h
  refine Leads.bind hunpin (fun _ h => h.1) fun arguments => ?_
  refine Leads.bind (Keeps.ask _) (fun _ h => h.1) fun r => ?_
  refine Leads.bind (J := Edited isOpen g₀) (.write fun g g' hg h => ?_) (fun _ h => h) fun _ =>
    (replaceTop _ _ g₀).bind fun _ =>
      modifyRegisters (f := fun r => { r with argCount := 1 }) (fun _ => rfl) g₀
  obtain ⟨hg, n, rfl, hcls⟩ := hg
  obtain ⟨g₁, hfirst, h⟩ := Option.bind_eq_some_iff.mp h
  refine (hg.edit (.record (.inl rfl) hcls hfirst)).edit (.record (k := .message) (.inl rfl) ?_ h)
  obtain ⟨n', heq, -, -, rfl⟩ := of_storeField hfirst
  cases heq
  simpa using hcls

theorem findNewMethod : Spec.findNewMethod.Edits isOpen := by
  refine findMethod.bind fun found => ite (pure ()) ?_
  refine (ask _).bind fun core => (ask _).bind fun r => ite failNotUnderstood ?_
  refine reifyMessage.bind fun _ => (ask _).bind fun core => ?_
  refine bind (modifyRegisters fun r => rfl) fun _ => findMethod.bind fun found => ?_
  exact ite (pure ()) failNotUnderstood

end Spec.Edits

/-! ### Activations -/

namespace Graph

variable {isOpen : Graph → Value → Prop} {g₀ g g' : Graph} {k : KernelClass} {v : Value}
  {fields elements : List Value}

/-- A context that is there to be filled in: it was made, or taken out of the pool. -/
inductive Supplied (isOpen : Graph → Value → Prop) (g₀ : Graph) (k : KernelClass) (v : Value)
    (g : Graph) : Prop
  | made (hg : Edited isOpen g₀ g)
  | taken {g₁ : Graph} {size : Nat} (hg : Edited isOpen g₀ g₁) (hpool : (g₁.pool.take size).1 = some v)
      (hcls : { g₁ with pool := (g₁.pool.take size).2 }.storeClass v (g₁.core.cls k) = some g)

/-- Nothing is taken from an empty pool. -/
theorem Pool.take_eq_none {pool : Pool} {size : Nat} (h : (pool.take size).1 = none) :
    (pool.take size).2 = pool := by
  obtain ⟨small, large⟩ := pool
  unfold Pool.take at h ⊢
  by_cases hsmall : size = ContextPool.smallFrame
  · cases small with
    | nil => simp [hsmall]
    | cons context rest => simp [hsmall] at h
  · by_cases hlarge : size = ContextPool.largeFrame
    · cases large with
      | nil => simp [hlarge, show ContextPool.largeFrame ≠ ContextPool.smallFrame by decide]
      | cons context rest =>
        simp [hlarge, show ContextPool.largeFrame ≠ ContextPool.smallFrame by decide] at h
    · simp [hsmall, hlarge]

theorem Supplied.fill (hk : k = .methodContext ∨ k = .blockContext) (hg : Supplied isOpen g₀ k v g)
    (hsender : fields.head? = some g.registers.active) (hfields : contextStackPointer < fields.length)
    (h : g.fill v fields elements = some g') : Edited isOpen g₀ g' := by
  have hfollows : g.Follows fields := by
    intro w hw
    rw [Context.senderField, ← List.head?_eq_getElem?, hsender] at hw
    exact .inr (Option.some.inj hw).symm
  cases hg with
  | made hg => exact hg.edit (.fill hfollows (.inr hfields) h)
  | taken hg hpool hcls =>
    refine hg.edit (.reuse hpool hk hcls (fun w hw => ?_) hfields h)
    refine (hfollows w hw).imp (fun heq => heq.trans ?_) fun heq => heq.trans ?_
    · obtain ⟨n, -, -, rfl⟩ := of_storeClass hcls
      rfl
    · rw [registers_storeClass hcls]

end Graph

namespace Spec

open ObjectMachine.Graph

variable {isOpen : Graph → Value → Prop} {g₀ : Graph} {k : KernelClass}
  (hk : k = .methodContext ∨ k = .blockContext)

include hk

/-- A context comes from the pool, or it is made. -/
theorem Gives.newContext (needed : Nat) :
    (Spec.getCore >>= fun core => Spec.newContext needed (core.cls k)).Gives (Edited isOpen g₀)
      (Supplied isOpen g₀ k) (Edited isOpen g₀) := by
  rintro g hg out ⟨_, rfl, _, rfl, hout⟩
  generalize hpool : (g.pool.take _).1 = taken at hout
  cases taken with
  | some context =>
    obtain ⟨r, hr, hout⟩ := hout
    unfold Spec.write at hr
    split at hr <;> subst hr <;> cases hout
    · exact .taken hg hpool ‹_›
    · trivial
  | none =>
    rw [Pool.take_eq_none hpool] at hout
    have hmade : (Spec.allocate (g.core.cls k) .context contextFields
        (ContextPool.frameSizeFor needed)).Gives _ _ (Edited isOpen g₀) :=
      Gives.allocate g.core fun _ h => h
    replace hmade := hmade g
      ⟨⟨hg, rfl⟩, .inl ⟨k, rfl, by rcases hk with rfl | rfl <;> exact ⟨rfl, rfl⟩⟩⟩ out hout
    cases out with
    | ok v g' => exact .made hmade.1.1
    | failed failure g' => exact hmade
    | _ => trivial

end Spec

namespace Spec.Edits

open ObjectMachine.Graph

variable {isOpen : Graph → Value → Prop} {g₀ : Graph} {k : KernelClass} {v : Value}

theorem leaveFor (argCount : Nat) : (Spec.leaveFor v argCount).Edits isOpen :=
  (popMany _).bind fun _ => flushRegisters.bind fun _ => loadContext v

theorem enterContext (argCount : Nat) : (Spec.enterContext v argCount).Edits isOpen :=
  (write fun _ _ => .copyTop).bind fun _ => leaveFor argCount

theorem activateNewMethod : Spec.activateNewMethod.Edits isOpen := by
  refine (ask _).bind fun r => (read _).bind fun header => ite ?_ ?_
  · intro g₀
    rw [← bind_assoc]
    refine (Gives.newContext (k := .methodContext) (.inl rfl) _).leads fun context => ?_
    refine Leads.read_bind fun receiver => Leads.ask_bind fun r' => ?_
    refine Leads.bind (J := Edited isOpen g₀) (.write fun g g' hg h => ?_) (fun _ h => h) fun _ =>
      enterContext _ g₀
    obtain ⟨⟨hg, -⟩, rfl⟩ := hg
    exact hg.fill (.inl rfl) rfl (Nat.lt_of_sub_eq_succ rfl) h
  · exact (read _).bind fun selector => fail _

theorem activateBlock (argCount : Nat) : (Spec.activateBlock argCount).Edits isOpen := by
  refine (peek _).bind fun block => (read _).bind fun frame => fun g₀ => ?_
  rw [← bind_assoc]
  refine (Gives.newContext (k := .blockContext) (.inr rfl) _).leads fun context => ?_
  refine Leads.read_bind fun block => Leads.ask_bind fun caller => ?_
  refine Leads.bind (J := Edited isOpen g₀) (.write fun g g' hg h => ?_) (fun _ h => h) fun _ =>
    leaveFor _ g₀
  obtain ⟨⟨hg, -⟩, rfl⟩ := hg
  obtain ⟨initialPc, -, h⟩ := Option.bind_eq_some_iff.mp h
  obtain ⟨blockArgs, -, h⟩ := Option.bind_eq_some_iff.mp h
  obtain ⟨home, -, h⟩ := Option.bind_eq_some_iff.mp h
  obtain ⟨values, -, h⟩ := Option.bind_eq_some_iff.mp h
  exact hg.fill (.inr rfl) rfl (Nat.lt_of_sub_eq_succ rfl) h

theorem makeBlock (argCount : Nat) : (Spec.makeBlock argCount).Edits isOpen := by
  refine (read _).bind fun width => ?_
  split
  · exact (ask _).bind fun s => fail _
  refine (ask _).bind fun s => (read _).bind fun header => ?_
  refine (write fun _ _ => .setCaptured).bind fun _ => ?_
  refine allocate_any .blockContext rfl rfl fun block => (ask _).bind fun s => ?_
  refine (write fun g g' h => .fill (fun w hw => ?_) (.inr (Nat.lt_of_sub_eq_succ rfl)) h).bind
    fun _ => push block
  cases hw
  exact .inl rfl

theorem pushContext : Spec.pushContext.Edits isOpen :=
  flushRegisters.bind fun _ => (ask _).bind fun _ =>
    (write fun _ _ => .setCaptured).bind fun _ => push _

/-! ### Returns -/

theorem retireUpTo_ok {target current : Value} {fuel : Nat} {g : Graph} {out : Result Unit}
    (h : Spec.retireUpTo target current fuel g out) :
    (∃ g', out = .ok () g') ∨ (∃ cause, out = .stopped cause) ∨ out = .wrong := by
  induction fuel generalizing current g with
  | zero =>
    obtain ⟨cause, -, rfl⟩ := h
    exact .inr (.inl ⟨cause, rfl⟩)
  | succ fuel ih =>
    obtain ⟨_, rfl, h⟩ := h
    change (if (decide (current ≠ target) && g.isLink current) = true then _ else _ : Spec Unit) g out
      at h
    split at h
    · obtain ⟨r, hread, h⟩ := h
      cases hsender : g.field current Context.senderField with
      | none =>
        rw [read_of_none hsender] at hread
        subst hread
        exact .inr (.inr h)
      | some sender =>
        rw [read_of_some hsender] at hread
        subst hread
        obtain ⟨r, hretire, h⟩ := h
        rcases of_retire hretire with rfl | ⟨g', pool, -, rfl⟩
        · exact .inr (.inr h)
        · exact ih h
    · exact .inl ⟨g, h⟩

/-- Contexts are left, and nothing fails that way. -/
theorem leaveTo (target : Value) : (Spec.leaveTo target).Edits isOpen := by
  intro g₀
  refine Leads.ask_bind fun active => ?_
  refine Leads.bind (J := Edited isOpen g₀) ?_ (fun _ h => h) fun _ =>
    ((ask _).bind fun _ => ite ((loadContext target).bind fun _ => pure true) (pure false)) g₀
  rintro g ⟨hg, rfl⟩ out ⟨-, fuel, hout⟩
  rcases retireUpTo_ok hout with ⟨g', rfl⟩ | ⟨cause, rfl⟩ | rfl
  · exact hg.edit (.leave hout)
  · trivial
  · trivial

theorem returnTo (target v : Value) : (Spec.returnTo target v).Edits isOpen :=
  (leaveTo target).bind fun _ => ite ((push v).bind fun _ => pure _)
    (clearRegisters.bind fun _ => pure _)

theorem blockReturn : Spec.blockReturn.Edits isOpen :=
  pop.bind fun _ => (ask _).bind fun _ => (read _).bind fun _ => returnTo _ _

end Spec.Edits

/-! ## Stores that a program asks for -/

namespace Spec

open ObjectMachine.Graph

/-- Nothing is stored into. -/
def nowhere : Spec Value := fail fun _ => False

/-- What the primitive of the method found stores into, if it stores into a field. -/
def methodTarget : Spec Value := do
  let r ← getRegisters
  let header ← read (·.header r.newMethod)
  if header.flag? = some .normal ∧ Primitive.ofIndex? header.primitiveIndex = some .fieldAtPut then peek 2
  else nowhere

/-- What a send stores into, with the lookup starting at a class. -/
noncomputable def sendToClassTarget (selector cls : Value) (argCount : Nat) : Spec Value := do
  modifyRegisters fun r => { r with selector, argCount, lookupClass := cls }
  findNewMethod
  methodTarget

/-- What a send stores into. -/
noncomputable def sendTarget (selector : Value) (argCount : Nat) : Spec Value := do
  let receiver ← peek argCount
  let cls ← read (·.classOf receiver)
  sendToClassTarget selector cls argCount

/-- What has the field that a variable is. -/
def variableTarget (place : Variable) (index : Nat) : Spec Value :=
  match place with
  | .receiver => receiverWithField index
  | .temporary => nowhere
  | .literal => associationAt index

/-- What a branch stores into, which is a send if it is not decided. -/
noncomputable def branchTarget (condition : Bool) : Spec Value := do
  let v ← pop
  let core ← getCore
  if v = core.boolean condition then nowhere
  else if v = core.boolean (!condition) then nowhere
  else
    push v
    sendTarget core.mustBeBoolean 0

noncomputable def jumpTarget : Branch → Spec Value
  | .always => nowhere
  | .ifTrue => branchTarget true
  | .ifFalse => branchTarget false

/-- What a send of the selector in a literal stores into. -/
noncomputable def sendNamedTarget (toSuper : Bool) (index argCount : Nat) : Spec Value := do
  let selector ← literalAt index
  if !toSuper then sendTarget selector argCount
  else
    let method := (← getRegisters).method
    match ← read (·.methodClass? method) with
    | some cls => sendToClassTarget selector (← read (·.field cls Class.superclassField)) argCount
    | none => nowhere

noncomputable def sendInFullTarget (index : Nat) : Spec Value := do
  match (← getCore).special[index]? with
  | some selector => sendTarget selector (specialArgCount index)
  | none => nowhere

/-- What the send of a special selector stores into, if it is sent. -/
noncomputable def specialTarget (index : Nat) : Spec Value := do
  let taken ← match Shortcut.ofIndex? index with
    | some shortcut => takeShortcut shortcut
    | none => pure false
  if taken then nowhere else sendInFullTarget index

/-- What a return from a block stores into whose home has returned, which is a send. -/
noncomputable def escapeTarget : Spec Value := do
  let s ← getRegisters
  let caller ← read (·.field s.active Context.senderField)
  write (·.setCaptured s.active true)
  if ← leaveTo caller then
    push s.receiver
    push s.active
    sendTarget (← getCore).escapedBlock 1
  else nowhere

/-- What a return stores into. -/
noncomputable def returnTarget : Spec Value := do
  let s ← getRegisters
  if s.active = s.home then nowhere
  else if ← read (·.canUnwind s.active s.home) then nowhere
  else escapeTarget

/-- What an instruction stores into a field of, as far as it does that. -/
noncomputable def target : Instruction → Spec Value
  | .store place index => do
    let _ ← peek 0
    variableTarget place index.toNat
  | .popInto place index => do
    let _ ← pop
    variableTarget place index.toNat
  | .methodReturn answer => do
    let _ ← answerValue answer
    returnTarget
  | .jump b _ | .longJump b _ => jumpTarget b
  | .send index argCount => sendNamedTarget false index.toNat argCount.toNat
  | .superSend index argCount => sendNamedTarget true index.toNat argCount.toNat
  | .special index => specialTarget index.toNat
  | .push .. | .pushLiteral _ | .constant _ | .thisContext | .dup | .pop | .blockReturn
  | .createBlock _ => nowhere

/-- What the next instruction stores into a field of. -/
noncomputable def nextTarget : Spec Value := do
  let b ← fetchByte
  match Opcode.ofByte? b with
  | some opcode => target (← fetchOperands opcode)
  | none => nowhere

/-- A computation that stores only into what another one answers. -/
def StoresInto {α : Type} (isOpen : Graph → Value → Prop) (x : Spec α) (t : Spec Value) : Prop :=
  ∀ g₀, x.Leads (fun g => Edited isOpen g₀ g ∧ ∀ v g', t g (.ok v g') → isOpen g' v)
    (Edited isOpen g₀)

namespace StoresInto

variable {α β : Type} {isOpen : Graph → Value → Prop} {x : Spec α} {y : Spec β} {f : α → Spec β}
  {t : Spec Value} {u : α → Spec Value}

theorem of_edits (hx : x.Edits isOpen) : x.StoresInto isOpen t :=
  fun g₀ => (hx g₀).mono (fun _ h => h.1) fun _ h => h

theorem bind (hx : x.Edits isOpen) (hf : ∀ a, (f a).StoresInto isOpen (u a)) :
    (x >>= f).StoresInto isOpen (x >>= u) := by
  rintro g₀ g ⟨hg, hopen⟩ out ⟨r, hr, hout⟩
  have hfirst := hx g₀ g hg r hr
  cases r with
  | ok a g' => exact hf a g₀ g' ⟨hfirst, fun v g₁ h => hopen v g₁ ⟨_, hr, h⟩⟩ out hout
  | failed failure g' =>
    cases hout
    exact hfirst
  | _ =>
    cases hout
    trivial

/-- Nothing more is stored into. -/
theorem map (hx : x.StoresInto isOpen t) (hf : ∀ a, (f a).Edits isOpen) :
    (x >>= f).StoresInto isOpen t :=
  fun g₀ => Leads.bind (hx g₀) (fun _ h => h) fun a => hf a g₀

theorem ite {P : Prop} [Decidable P] {x' : Spec α} {t' : Spec Value} (hx : x.StoresInto isOpen t)
    (hx' : x'.StoresInto isOpen t') :
    (if P then x else x').StoresInto isOpen (if P then t else t') := by
  split
  · exact hx
  · exact hx'

/-- A store into a field of a value that was found. -/
theorem store {index : Nat} {w : Value} {z : Spec Value} (hz : z.Edits isOpen) :
    (z >>= fun v => Spec.write (·.storeField v index w)).StoresInto isOpen z := by
  rintro g₀ g ⟨hg, hopen⟩ out ⟨r, hr, hout⟩
  have hfirst := hz g₀ g hg r hr
  cases r with
  | ok v g' =>
    exact Leads.write (I := fun g => Edited isOpen g₀ g ∧ isOpen g v) (Q := Edited isOpen g₀)
      (h := (·.storeField v index w)) (fun g₁ g₂ h h' => h.1.edit (.store h.2 h')) g'
      ⟨hfirst, hopen v g' hr⟩ out hout
  | failed failure g' =>
    cases hout
    exact hfirst
  | _ =>
    cases hout
    trivial

/-- The store into a field that a program asks for by a message. -/
theorem fieldAtPut : (Spec.result .fieldAtPut).StoresInto isOpen (peek 2) := by
  intro g₀
  refine Leads.read_bind fun receiver => Leads.read_bind fun index => Leads.ask_bind fun place => ?_
  have hkeep : ∀ g, ((((Edited isOpen g₀ g ∧ ∀ v g', Spec.peek 2 g (.ok v g') → isOpen g' v) ∧
      g.stackValue 2 = some receiver) ∧ g.stackValue 1 = some index) ∧
      g.fieldPlace? receiver index = place) → Edited isOpen g₀ g ∧ isOpen g receiver := by
    rintro g ⟨⟨⟨⟨hg, hopen⟩, hreceiver⟩, -⟩, -⟩
    refine ⟨hg, hopen receiver g ?_⟩
    show Spec.read _ g _
    rw [read_of_some hreceiver]
  cases place with
  | none => exact .pure none fun g h => (hkeep g h).1
  | some place =>
    refine Leads.mono (Leads.read_bind fun value => ?_) hkeep fun _ h => h
    refine Leads.bind (J := Edited isOpen g₀) (.write fun g g' h h' => ?_) (fun _ h => h) fun _ =>
      .pure _ fun _ h => h
    exact h.1.1.edit (.store h.1.2 h')

end StoresInto

namespace Edits

variable {isOpen : Graph → Value → Prop} {α : Type}

theorem expecting {arity argCount : Nat} {x : Spec Graph.Verdict} (hx : x.Edits isOpen) :
    (Spec.expecting arity argCount x).Edits isOpen :=
  ite hx (pure _)

theorem blockValue (argCount : Nat) : (Spec.blockValue argCount).Edits isOpen :=
  (peek _).bind fun _ => (read _).bind fun _ => ite ((activateBlock _).bind fun _ => pure _) (pure _)

theorem blockValueWithArguments : Spec.blockValueWithArguments.Edits isOpen := by
  refine (peek 1).bind fun block => (peek 0).bind fun arguments => (read _).bind fun values => ?_
  split
  · exact pop.bind fun _ => (pushAll _).bind fun _ => (activateBlock _).bind fun _ => pure _
  · exact pure _

/-- A primitive other than a store into a field. -/
theorem runPrimitive {primitive : Primitive} (hp : primitive ≠ .fieldAtPut) (argCount : Nat) :
    (Spec.runPrimitive primitive argCount).Edits isOpen := by
  unfold Spec.runPrimitive
  split
  · exact blockValue argCount
  · exact expecting blockValueWithArguments
  · exact expecting ((peek 0).bind fun _ => pure _)
  · exact expecting ((result hp).bind fun _ => answer? _ _)

theorem afterPrimitive (verdict : Graph.Verdict) : (Spec.afterPrimitive verdict).Edits isOpen := by
  cases verdict with
  | done => exact pure none
  | failed => exact activateNewMethod.bind fun _ => pure none
  | exit v => exact clearRegisters.bind fun _ => pure _

end Edits

namespace StoresInto

variable {isOpen : Graph → Value → Prop} {α : Type}

theorem invokeFor (header : MethodHeader) (argCount : Nat) :
    (Spec.invokeFor header argCount).StoresInto isOpen
      (if Primitive.ofIndex? header.primitiveIndex = some .fieldAtPut then peek 2 else nowhere) := by
  unfold Spec.invokeFor Spec.invoke
  split
  · exact of_edits (.pure _)
  cases hindex : Primitive.ofIndex? header.primitiveIndex with
  | none => exact of_edits (.pure _)
  | some primitive =>
    by_cases hp : primitive = .fieldAtPut
    · subst hp
      rw [if_pos rfl]
      show (Spec.expecting _ _ _).StoresInto isOpen _
      unfold Spec.expecting
      split
      · exact fieldAtPut.map fun _ => .answer? _ _
      · exact of_edits (.pure _)
    · exact of_edits (.runPrimitive hp argCount)

theorem executeNewMethod : Spec.executeNewMethod.StoresInto isOpen methodTarget := by
  refine bind (.ask _) fun r => bind (.read _) fun header => ?_
  split
  · rename_i hflag
    rw [if_congr (and_iff_right hflag) rfl rfl]
    exact (invokeFor header r.argCount).map .afterPrimitive
  · exact of_edits ((Edits.popMany _).bind fun _ => .pure none)
  · refine of_edits ((Edits.peek _).bind fun receiver => (Edits.ask _).bind fun _ => .ite ?_ ?_)
    · exact (Edits.read _).bind fun v => (Edits.replaceTop _ v).bind fun _ => .pure none
    · exact (Edits.read _).bind fun _ => .fail _
  · refine of_edits ((Edits.read _).bind fun count => .ite (.fail _) ?_)
    exact (Edits.read _).bind fun v => (Edits.replaceTop _ v).bind fun _ => .pure none
  · exact of_edits (.fail _)

theorem sendToClass (selector cls : Value) (argCount : Nat) :
    (Spec.sendToClass selector cls argCount).StoresInto isOpen
      (sendToClassTarget selector cls argCount) :=
  bind (.modifyRegisters fun _ => rfl) fun _ => bind .findNewMethod fun _ => executeNewMethod

theorem send (selector : Value) (argCount : Nat) :
    (Spec.send selector argCount).StoresInto isOpen (sendTarget selector argCount) :=
  bind (.peek _) fun _ => bind (.read _) fun cls => sendToClass selector cls argCount

end StoresInto

/-! ### Instructions -/

namespace Edits

variable {isOpen : Graph → Value → Prop} {α : Type}

theorem fetchByte : Spec.fetchByte.Edits isOpen :=
  (read _).bind fun _ => (ask _).bind fun _ => ite ((read _).bind fun b =>
    bind (modify fun _ => .registers _ (.inl rfl)) fun _ => pure b) (fail _)

theorem fetchOperands (opcode : Opcode) : (Spec.fetchOperands opcode).Edits isOpen := by
  cases opcode with
  | push | pushLiteral | store | popInto | jump | createBlock => exact fetchByte.bind fun _ => pure _
  | constant | thisContext | dup | pop | methodReturn | blockReturn | special => exact pure _
  | longJump | send | superSend => exact fetchByte.bind fun _ => fetchByte.bind fun _ => pure _

theorem literalAt (index : Nat) : (Spec.literalAt index).Edits isOpen :=
  (ask _).bind fun _ => (read _).bind fun _ => ite (read _) (fail _)

theorem associationAt (index : Nat) : (Spec.associationAt index).Edits isOpen :=
  (literalAt index).bind fun v => (ask _).bind fun _ => ite (pure v) (fail _)

theorem checkTemporary (index : Nat) : (Spec.checkTemporary index).Edits isOpen :=
  (read _).bind fun _ => ite (pure ()) (fail _)

theorem receiverWithField (index : Nat) : (Spec.receiverWithField index).Edits isOpen :=
  (ask _).bind fun _ => (ask _).bind fun _ => ite (pure _) (fail _)

theorem variableValue (place : Variable) (index : Nat) :
    (Spec.variableValue place index).Edits isOpen := by
  cases place with
  | receiver => exact (receiverWithField index).bind fun _ => read _
  | temporary => exact (checkTemporary index).bind fun _ => read _
  | literal => exact (associationAt index).bind fun _ => read _

theorem jumpBy (offset : Int) : (Spec.jumpBy offset).Edits isOpen :=
  (read _).bind fun _ => (ask _).bind fun _ => ite (modify fun _ => .registers _ (.inl rfl)) (fail _)

theorem answerValue (answer : Answer) : (Spec.answerValue answer).Edits isOpen := by
  cases answer with
  | top => exact pop
  | self | nil | true | false => exact ask _

theorem replaceTop? (count : Nat) (value : Option Value) :
    (Spec.replaceTop? count value).Edits isOpen := by
  cases value with
  | none => exact pure false
  | some v => exact (replaceTop count v).bind fun _ => pure true

theorem smallShortcut (f : Graph.Core → Int → Int → Option Value) :
    (Spec.smallShortcut f).Edits isOpen := by
  refine smallOperands?.bind fun operands => ?_
  split
  · exact (ask _).bind fun core => replaceTop? 2 _
  · exact pure false

theorem takeShortcut (shortcut : Shortcut) : (Spec.takeShortcut shortcut).Edits isOpen := by
  cases shortcut with
  | arithmetic | comparison | maximum | minimum => exact smallShortcut _
  | identical =>
    exact (peek 1).bind fun _ => (peek 0).bind fun _ => (ask _).bind fun _ => replaceTop? 2 _
  | classOf => exact (peek 0).bind fun _ => (read _).bind fun _ => replaceTop? 1 _
  | nilTest => exact (peek 0).bind fun _ => (ask _).bind fun _ => replaceTop? 1 _
  | size =>
    exact (peek 0).bind fun _ => (ask _).bind fun _ =>
      ite ((read _).bind fun _ => replaceTop? 1 _) (pure false)
  | elementAt =>
    refine (peek 1).bind fun array => (peek 0).bind fun index => (read _).bind fun place => ?_
    split
    · exact (read _).bind fun _ => replaceTop? 2 _
    · exact pure false
  | elementAtPut =>
    refine (peek 2).bind fun array => (peek 1).bind fun index => (peek 0).bind fun value =>
      (read _).bind fun place => ?_
    split
    · exact (write fun _ _ => .storeElement).bind fun _ => replaceTop? 3 _
    · exact pure false
  | blockValue argCount =>
    exact (peek _).bind fun _ => (read _).bind fun _ =>
      ite ((activateBlock _).bind fun _ => pure true) (pure false)

end Edits

namespace StoresInto

variable {isOpen : Graph → Value → Prop} {α : Type}

theorem setVariable (place : Variable) (index : Nat) (v : Value) :
    (Spec.setVariable place index v).StoresInto isOpen (variableTarget place index) := by
  cases place with
  | receiver => exact store (.receiverWithField index)
  | temporary =>
    refine of_edits ((Edits.checkTemporary index).bind fun _ => .write fun g g' h => ?_)
    obtain ⟨c, -, h⟩ := Option.bind_eq_some_iff.mp h
    exact .storeElement h
  | literal => exact store (.associationAt index)

theorem branch (condition : Bool) (offset : Int) :
    (Spec.branch condition offset).StoresInto isOpen (branchTarget condition) :=
  bind .pop fun v => bind (.ask _) fun core =>
    ite (of_edits ((Edits.jumpBy offset).bind fun _ => .pure none))
      (ite (of_edits (.pure none)) (bind (.push v) fun _ => send core.mustBeBoolean 0))

theorem jumpAs (b : Branch) (offset : Int) :
    (Spec.jumpAs b offset).StoresInto isOpen (jumpTarget b) := by
  cases b with
  | always => exact of_edits ((Edits.jumpBy offset).bind fun _ => .pure none)
  | ifTrue => exact branch true offset
  | ifFalse => exact branch false offset

theorem sendNamed (toSuper : Bool) (index argCount : Nat) :
    (Spec.sendNamed toSuper index argCount).StoresInto isOpen
      (sendNamedTarget toSuper index argCount) := by
  refine bind (.literalAt index) fun selector => ite (send selector argCount) ?_
  refine bind (.ask _) fun s => bind (.read _) fun cls => ?_
  cases cls with
  | none => exact of_edits ((Edits.read _).bind fun _ => .fail _)
  | some cls => exact bind (.read _) fun superclass => sendToClass selector superclass argCount

theorem sendSpecial (index : Nat) :
    (Spec.sendSpecial index).StoresInto isOpen (specialTarget index) := by
  have hrest : ∀ x : Spec Bool, x.Edits isOpen →
      (x >>= fun taken => if taken then Pure.pure none else Spec.sendInFull index :
        Spec (Option Value)).StoresInto isOpen
      (x >>= fun taken => if taken then nowhere else sendInFullTarget index) := by
    refine fun x hx => bind hx fun taken => ite (of_edits (.pure none)) (bind (.ask _) fun core => ?_)
    cases core.special[index]? with
    | none => exact of_edits (.stop _)
    | some selector => exact send selector _
  unfold Spec.sendSpecial specialTarget
  cases Shortcut.ofIndex? index with
  | some shortcut => exact hrest _ (.takeShortcut shortcut)
  | none => exact hrest _ (.pure false)

theorem escapeBlock : Spec.escapeBlock.StoresInto isOpen escapeTarget :=
  bind (.ask _) fun _ => bind (.read _) fun caller =>
    bind (.write fun _ _ => .setCaptured) fun _ => bind (.leaveTo caller) fun _ =>
      ite (bind (.push _) fun _ => bind (.push _) fun _ => bind (.ask _) fun _ => send _ 1)
        (of_edits (.fail _))

theorem methodReturn (v : Value) : (Spec.methodReturn v).StoresInto isOpen returnTarget :=
  bind (.ask _) fun _ =>
    ite (of_edits ((Edits.read _).bind fun _ => .returnTo _ v))
      (bind (.read _) fun _ =>
        ite (of_edits ((Edits.read _).bind fun _ => .returnTo _ v)) escapeBlock)

/-- An instruction stores into the field of its target only. -/
theorem effect (i : Instruction) : (Spec.effect i).StoresInto isOpen (target i) := by
  cases i with
  | push place index =>
    exact of_edits ((Edits.variableValue _ _).bind fun v => (Edits.push v).bind fun _ => .pure none)
  | pushLiteral index =>
    exact of_edits ((Edits.literalAt _).bind fun v => (Edits.push v).bind fun _ => .pure none)
  | store place index =>
    exact bind (.peek 0) fun v => (setVariable _ _ v).map fun _ => .pure none
  | popInto place index =>
    exact bind .pop fun v => (setVariable _ _ v).map fun _ => .pure none
  | constant value =>
    exact of_edits ((Edits.ask _).bind fun v => (Edits.push v).bind fun _ => .pure none)
  | thisContext => exact of_edits (Edits.pushContext.bind fun _ => .pure none)
  | dup => exact of_edits ((Edits.peek 0).bind fun v => (Edits.push v).bind fun _ => .pure none)
  | pop => exact of_edits (Edits.pop.bind fun _ => .pure none)
  | methodReturn answer => exact bind (.answerValue answer) fun v => methodReturn v
  | blockReturn => exact of_edits .blockReturn
  | jump b offset => exact jumpAs b offset.toInt
  | longJump b offset => exact jumpAs b offset.toInt
  | send index argCount => exact sendNamed false _ _
  | superSend index argCount => exact sendNamed true _ _
  | createBlock argCount => exact of_edits ((Edits.makeBlock _).bind fun _ => .pure none)
  | special index => exact sendSpecial _

/-- A step is made of edits, with stores into the field of its target only. -/
theorem step : Spec.step.StoresInto isOpen nextTarget := by
  refine bind .fetchByte fun b => ?_
  cases Opcode.ofByte? b with
  | some opcode => exact bind (.fetchOperands opcode) effect
  | none => exact of_edits ((Edits.ask _).bind fun _ => .fail _)

end StoresInto

/-- A step of a program that may store into everything is made of edits. -/
theorem Edits.step : Spec.step.Edits fun _ _ => True :=
  fun g₀ => (StoresInto.step g₀).mono (fun _ h => ⟨h, fun _ _ _ => trivial⟩) fun _ h => h

end Spec

end ObjectMachine
