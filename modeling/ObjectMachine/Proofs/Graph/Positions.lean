import ObjectMachine.Proofs.Graph.Steps

/-!
# Where activations stand

The position of the active context changes by fetching and by jumps, and by nothing else as long as the
context stays active; a collection writes it back to the context and reads it again. When another
context becomes active the position is the one which that context holds.

## Main results

* `Spec.Proceeds.send`: a message is answered in place, or an activation begins.
* `Spec.Leads.effect`: what an instruction does to the position.
-/

namespace ObjectMachine

/-! ## Positions -/

namespace Ref

theorem sshiftRight_shiftLeft_two (x : BitVec 64) :
    ((x.sshiftRight 2 <<< 2) ||| 1#64).sshiftRight 2 = x.sshiftRight 2 := by
  apply BitVec.eq_of_getLsbD_eq
  intro i hi
  simp only [BitVec.getLsbD_sshiftRight, BitVec.getLsbD_or, BitVec.getLsbD_shiftLeft,
    BitVec.msb_eq_getLsbD_last]
  by_cases hin : 2 + i < 64
  · simp [hin, show ¬ 2 + i < 2 by omega]
  · simp [hin]

/-- A count that was read from a word is read again after it was written. -/
theorem toCount_ofNat_toCount (r : Ref) : (ofNat r.toCount).toCount = r.toCount := by
  have hword : r.toCount.toUInt64 = (r.bits.toInt64 >>> 2).toUInt64 := by simp [toCount]
  show ((((r.toCount.toUInt64 <<< 2) ||| 1).toInt64 >>> 2).toUInt64).toNat = _
  rw [hword]
  exact congrArg BitVec.toNat (sshiftRight_shiftLeft_two r.bits.toBitVec)

end Ref

/-- A position that a context holds as it is. -/
def Value.Holds (pc : Nat) : Prop := (Value.immediate (.ofNat pc)).count = pc

namespace Value

theorem holds_iff {pc : Nat} : Holds pc ↔ (Ref.ofNat pc).toCount = pc := by
  unfold Holds count
  dsimp only
  rw [if_pos (show (Ref.ofNat pc).isSmallInteger = true from Ref.isSmallInteger_ofPayload _)]

/-- What a context holds it may hold again. -/
theorem holds_count (v : Value) : Holds v.count := by
  rw [holds_iff]
  unfold count
  split
  · split
    · exact Ref.toCount_ofNat_toCount _
    · exact Ref.toCount_ofNat (by decide)
  · exact Ref.toCount_ofNat (by decide)

end Value

namespace Graph

/-- A graph whose active context is at a position. -/
structure IsAt (g : Graph) (context : Value) (pc : Nat) : Prop where
  active : g.registers.active = context
  pc : g.registers.pc = pc

/-- The position that a context holds. -/
def heldPc (g : Graph) (context : Value) : Option Nat :=
  (g.field context Context.pcField).map Value.count

end Graph

namespace Spec

variable {α β : Type} {I J Q : Graph → Prop} {x y : Spec α} {f : α → Spec β}

/-- Whatever comes of a computation on a graph with `I`, the graph that is left has `Q`. -/
def Leads (I Q : Graph → Prop) (x : Spec α) : Prop :=
  ∀ g, I g → ∀ out, x g out → match out with
    | .ok _ g' => Q g'
    | .failed _ g' => Q g'
    | _ => True

/-- A property of the graph is not lost. -/
abbrev Keeps (I : Graph → Prop) (x : Spec α) : Prop := x.Leads I I

namespace Leads

theorem mono {J' : Graph → Prop} (hx : x.Leads I J) (hI : ∀ g, J' g → I g) (hQ : ∀ g, J g → Q g) :
    x.Leads J' Q := by
  intro g hg out hout
  have hlead := hx g (hI g hg) out hout
  cases out with
  | ok a g' => exact hQ g' hlead
  | failed failure g' => exact hQ g' hlead
  | _ => trivial

/-- One computation after another. If the first one fails its graph is the one that is left. -/
theorem bind (hx : x.Leads I J) (hQ : ∀ g, J g → Q g) (hf : ∀ a, (f a).Leads J Q) :
    (x >>= f).Leads I Q := by
  rintro g hg out ⟨r, hr, hout⟩
  have hfirst := hx g hg r hr
  cases r with
  | ok a g' => exact hf a g' hfirst out hout
  | failed failure g' =>
    cases hout
    exact hQ g' hfirst
  | _ =>
    cases hout
    trivial

theorem pure (a : α) (hQ : ∀ g, I g → Q g) : (Pure.pure a : Spec α).Leads I Q := by
  rintro g hg _ rfl
  exact hQ g hg

theorem modify {h : Graph → Graph} (hQ : ∀ g, I g → Q (h g)) : (Spec.modify h).Leads I Q := by
  rintro g hg _ rfl
  exact hQ g hg

theorem write {h : Graph → Option Graph} (hQ : ∀ g g', I g → h g = some g' → Q g') :
    (Spec.write h).Leads I Q := by
  intro g hg out hout
  unfold Spec.write at hout
  split at hout <;> subst hout
  · exact hQ g _ hg ‹_›
  · trivial

/-- What is read is known afterwards. -/
theorem read_bind {h : Graph → Option α}
    (hf : ∀ a, (f a).Leads (fun g => I g ∧ h g = some a) Q) : (Spec.read h >>= f).Leads I Q := by
  rintro g hg out ⟨r, hr, hout⟩
  unfold Spec.read at hr
  split at hr <;> subst hr
  · exact hf _ g ⟨hg, ‹_›⟩ out hout
  · cases hout
    trivial

theorem ask_bind {h : Graph → α} (hf : ∀ a, (f a).Leads (fun g => I g ∧ h g = a) Q) :
    (Spec.ask h >>= f).Leads I Q := by
  rintro g hg out ⟨_, rfl, hout⟩
  exact hf _ g ⟨hg, rfl⟩ out hout

theorem ite {P : Prop} [Decidable P] (hx : x.Leads I Q) (hy : y.Leads I Q) :
    (if P then x else y).Leads I Q := by
  split
  · exact hx
  · exact hy

end Leads

namespace Keeps

theorem bind (hx : x.Keeps I) (hf : ∀ a, (f a).Keeps I) : (x >>= f).Keeps I :=
  Leads.bind hx (fun _ h => h) hf

theorem ask (h : Graph → α) : (Spec.ask h).Keeps I := by
  rintro g hg _ rfl
  exact hg

theorem read (h : Graph → Option α) : (Spec.read h).Keeps I := by
  intro g hg out hout
  unfold Spec.read at hout
  split at hout <;> subst hout
  · exact hg
  · trivial

theorem guard (P : Graph → Prop) : (Spec.guard P).Keeps I := by
  rintro g hg _ (⟨-, rfl⟩ | ⟨-, rfl⟩)
  · exact hg
  · trivial

theorem choose (P : α → Prop) : (Spec.choose P).Keeps I := by
  rintro g hg _ ⟨a, -, rfl⟩
  exact hg

theorem stop (P : Fatal → Prop) : (Spec.stop P : Spec α).Leads I Q := by
  rintro g - _ ⟨cause, -, rfl⟩
  trivial

theorem fail (P : Failure → Prop) : (Spec.fail P : Spec α).Keeps I := by
  rintro g hg _ ⟨failure, -, rfl⟩
  exact hg

theorem either (hx : x.Keeps I) (hy : y.Keeps I) : (Spec.either x y).Keeps I := by
  rintro g hg out (hout | hout)
  · exact hx g hg out hout
  · exact hy g hg out hout

end Keeps

end Spec

namespace Graph

variable {g g' : Graph} {context v : Value} {pc index : Nat}

namespace IsAt

theorem of_registers (hg : g.IsAt context pc) (hregisters : g'.registers = g.registers) :
    g'.IsAt context pc where
  active := by rw [hregisters, hg.active]
  pc := by rw [hregisters, hg.pc]

theorem flush (hg : g.IsAt context pc) (h : g.flush = some g') : g'.IsAt context pc :=
  hg.of_registers (by rw [of_flush h])

/-- What is written back is the position. -/
theorem heldPc_flush (hg : g.IsAt context pc) (hobject : context.isObject = true)
    (hpc : Value.Holds pc) (h : g.flush = some g') : g'.heldPc context = some pc := by
  cases context with
  | immediate r => cases hobject
  | object c =>
    unfold Graph.flush at h
    rw [hg.active] at h
    obtain ⟨g₁, hfirst, h⟩ := Option.bind_eq_some_iff.mp h
    obtain ⟨n, heq, hfields, -, rfl⟩ := of_storeField hfirst
    obtain ⟨n', heq', -, -, rfl⟩ := of_storeField h
    cases heq
    cases heq'
    have hne : Context.pcField ≠ Context.spField := by decide
    unfold heldPc
    rw [show Graph.field _ (.object c) Context.pcField = some (.immediate (.ofNat g.registers.pc)) from
      (if_pos (by simpa using hfields)).trans (by simp [hne])]
    rw [hg.pc]
    exact congrArg some hpc

end IsAt

/-- The position of a context that becomes active is the one that it holds. -/
theorem of_load_active (h : g.load v = some g') :
    g'.registers.active = v ∧ g'.nodes = g.nodes ∧ g.heldPc v = some g'.registers.pc := by
  obtain ⟨registers, hloaded, rfl⟩ := Option.map_eq_some_iff.mp h
  unfold loaded at hloaded
  simp only [Option.bind_eq_bind, Option.bind_eq_some_iff] at hloaded
  obtain ⟨home, -, method, -, receiver, -, literals, -, code, -, -, -, pc, hpc, sp, -, word, -,
    header, -, context, -, homeContext, -, hregisters⟩ := hloaded
  obtain ⟨-, hregisters⟩ := Option.ite_none_right_eq_some.mp hregisters
  cases hregisters
  exact ⟨rfl, rfl, congrArg (Option.map Value.count) hpc⟩

namespace IsAt

theorem collected (hg : g.IsAt context pc) (hpc : Value.Holds pc)
    (h : g.collected = some g') : g'.IsAt context pc := by
  obtain ⟨g₁, hflush, h⟩ := Option.bind_eq_some_iff.mp h
  have hg₁ := hg.flush hflush
  unfold reload at h
  split at h
  · cases h
    exact hg₁.of_registers rfl
  · rename_i c hactive
    obtain ⟨hload, -, hheld⟩ := of_load_active h
    have hcontext : context = .object c := hg₁.active.symm.trans hactive
    have hsame := hg.heldPc_flush (hcontext ▸ rfl) hpc hflush
    rw [hcontext] at hsame
    exact ⟨hload.trans hcontext.symm, Option.some.inj (hheld.symm.trans hsame)⟩

end IsAt

end Graph

/-! ## Computations that stay -/

namespace Spec

/-- A computation that leaves the active context active, and at its position. -/
def Stays {α : Type} (x : Spec α) : Prop :=
  ∀ context pc, Value.Holds pc → x.Keeps (·.IsAt context pc)

namespace Stays

variable {α β : Type} {x y : Spec α} {f : α → Spec β}

theorem pure (a : α) : (Pure.pure a : Spec α).Stays := fun _ _ _ => .pure a fun _ h => h

theorem bind (hx : x.Stays) (hf : ∀ a, (f a).Stays) : (x >>= f).Stays :=
  fun context pc hpc => Keeps.bind (hx context pc hpc) fun a => hf a context pc hpc

theorem ask (h : Graph → α) : (Spec.ask h).Stays := fun _ _ _ => Keeps.ask h

theorem read (h : Graph → Option α) : (Spec.read h).Stays := fun _ _ _ => Keeps.read h

theorem guard (P : Graph → Prop) : (Spec.guard P).Stays := fun _ _ _ => Keeps.guard P

theorem choose (P : α → Prop) : (Spec.choose P).Stays := fun _ _ _ => Keeps.choose P

theorem stop (P : Fatal → Prop) : (Spec.stop P : Spec α).Stays := fun _ _ _ => Keeps.stop P

theorem fail (P : Failure → Prop) : (Spec.fail P : Spec α).Stays := fun _ _ _ => Keeps.fail P

theorem either (hx : x.Stays) (hy : y.Stays) : (Spec.either x y).Stays :=
  fun context pc hpc => Keeps.either (hx context pc hpc) (hy context pc hpc)

theorem ite {P : Prop} [Decidable P] (hx : x.Stays) (hy : y.Stays) : (if P then x else y).Stays :=
  fun context pc hpc => .ite (hx context pc hpc) (hy context pc hpc)

/-- The registers of the activation are not changed. -/
theorem modify {h : Graph → Graph} (hregisters : ∀ g : Graph,
    (h g).registers.active = g.registers.active ∧ (h g).registers.pc = g.registers.pc) :
    (Spec.modify h).Stays :=
  fun _ _ _ => .modify fun g hg => ⟨(hregisters g).1.trans hg.active, (hregisters g).2.trans hg.pc⟩

theorem write {h : Graph → Option Graph}
    (hregisters : ∀ g g' : Graph, h g = some g' → g'.registers = g.registers) :
    (Spec.write h).Stays :=
  fun _ _ _ => .write fun g g' hg hg' => hg.of_registers (hregisters g g' hg')

end Stays

end Spec

namespace Graph

variable {g g' : Graph} {v w : Value} {index : Nat} {format : Format}

theorem registers_storeClass (h : g.storeClass v w = some g') : g'.registers = g.registers := by
  obtain ⟨n, -, rfl⟩ := of_storeClass h
  rfl

theorem registers_storeField (h : g.storeField v index w = some g') :
    g'.registers = g.registers := by
  obtain ⟨n, -, -, -, rfl⟩ := of_storeField h
  rfl

theorem registers_storeElement (h : g.storeElement v index w = some g') :
    g'.registers = g.registers := by
  obtain ⟨n, -, -, -, rfl⟩ := of_storeElement h
  rfl

theorem registers_storeRaw {f : Node → Node} (h : g.storeRaw v format index f = some g') :
    g'.registers = g.registers := by
  cases v with
  | immediate r => cases h
  | object n =>
    obtain ⟨-, heq⟩ := Option.ite_none_right_eq_some.mp h
    cases heq
    rfl

theorem registers_storeBytes {values : List UInt8} (h : g.storeBytes v values = some g') :
    g'.registers = g.registers := by
  cases v with
  | immediate r => cases h
  | object n =>
    obtain ⟨-, heq⟩ := Option.ite_none_right_eq_some.mp h
    cases heq
    rfl

theorem registers_setFloatValue {x : Binary64} (h : g.setFloatValue v x = some g') :
    g'.registers = g.registers := by
  cases v with
  | immediate r => cases h
  | object n =>
    obtain ⟨-, heq⟩ := Option.ite_none_right_eq_some.mp h
    cases heq
    rfl

theorem registers_setLargeInteger {x : Int} (h : g.setLargeInteger v x = some g') :
    g'.registers = g.registers := by
  cases v with
  | immediate r => cases h
  | object n =>
    obtain ⟨-, heq⟩ := Option.ite_none_right_eq_some.mp h
    cases heq
    rfl

theorem registers_fill {fields elements : List Value} (h : g.fill v fields elements = some g') :
    g'.registers = g.registers := by
  obtain ⟨n, -, -, -, -, -, -, rfl⟩ := of_fill h
  rfl

theorem registers_copyTop {count : Nat} (h : g.copyTop v count = some g') :
    g'.registers = g.registers := by
  obtain ⟨values, -, h⟩ := Option.bind_eq_some_iff.mp h
  exact registers_fill h

end Graph

namespace Spec.Stays

open ObjectMachine.Graph

theorem peek (depth : Nat) : (Spec.peek depth).Stays := read _

theorem push (v : Value) : (Spec.push v).Stays :=
  (read _).bind fun _ => (ask _).bind fun _ => .ite (modify fun _ => ⟨rfl, rfl⟩) (stop _)

theorem popMany (count : Nat) : (Spec.popMany count).Stays :=
  (ask _).bind fun _ => .ite (modify fun _ => ⟨rfl, rfl⟩) (stop _)

theorem pop : Spec.pop.Stays := by
  refine (ask _).bind fun _ => ite ((peek 0).bind fun v => ?_) (stop _)
  refine bind (modify fun g => ?_) fun _ => pure v
  exact ⟨rfl, rfl⟩

theorem replaceTop (count : Nat) (v : Value) : (Spec.replaceTop count v).Stays :=
  (popMany count).bind fun _ => push v

theorem pushAll (values : List Value) : (Spec.pushAll values).Stays := by
  induction values with
  | nil => exact pure ()
  | cons v rest ih => exact (push v).bind fun _ => ih

theorem pin (v : Value) : (Spec.pin v).Stays := modify fun _ => ⟨rfl, rfl⟩

theorem unpin : Spec.unpin.Stays := by
  refine (read _).bind fun v => bind (modify fun g => ?_) fun _ => pure v
  exact ⟨rfl, rfl⟩

/-! ### Allocation -/

/-- A collection comes back to the position that it wrote down. -/
theorem collectGarbage : Spec.collectGarbage.Stays :=
  (guard _).bind fun _ => bind (fun _ _ hpc => .write fun _ _ hg h => hg.collected hpc h)
    fun _ => choose _

theorem mayCollect : Spec.mayCollect.Stays :=
  .either (pure ()) (collectGarbage.bind fun _ => pure ())

theorem count (words : Nat) : (Spec.count words).Stays := by
  rintro context pc - g hg out (rfl | ⟨-, rfl⟩)
  · exact hg
  · trivial

theorem make (cls : Value) (format : Format) (fields len : Nat) :
    (Spec.make cls format fields len).Stays := by
  rintro context pc - g hg _ ⟨-, hash, rfl⟩
  exact hg.of_registers rfl

theorem allocate (cls : Value) (format : Format) (fields len : Nat) :
    (Spec.allocate cls format fields len).Stays :=
  (guard _).bind fun _ => (count _).bind fun _ => mayCollect.bind fun _ => mayCollect.bind fun _ =>
    (count _).bind fun _ => make cls format fields len

theorem newArray (len : Nat) : (Spec.newArray len).Stays :=
  (ask _).bind fun core => allocate (core.cls .array) .array 0 len

theorem newString (text : String) : (Spec.newString text).Stays :=
  (ask _).bind fun _ => (allocate _ _ _ _).bind fun v =>
    (write fun _ _ => registers_storeBytes).bind fun _ => pure v

theorem newFloat (value : Binary64) : (Spec.newFloat value).Stays :=
  (ask _).bind fun _ => (allocate _ _ _ _).bind fun v =>
    (write fun _ _ => registers_setFloatValue).bind fun _ => pure v

theorem newInteger (value : Int) : (Spec.newInteger value).Stays := by
  unfold Spec.newInteger
  split
  · exact pure _
  · exact (ask _).bind fun _ => (allocate _ _ _ _).bind fun v =>
      (write fun _ _ => registers_setLargeInteger).bind fun _ => pure v

theorem instantiate (cls : Value) (len : Nat) : (Spec.instantiate cls len).Stays := by
  unfold Spec.instantiate
  refine ite ((read _).bind fun fields => ite (pure none) ((read _).bind fun spec => ?_)) (pure none)
  split
  · exact pure none
  · refine ite (pure none) ((count _).bind fun _ => mayCollect.bind fun _ => .either ?_ (pure none))
    exact (allocate _ _ _ _).bind fun v => pure (some v)

/-! ### Primitives -/

theorem smallOperands? : Spec.smallOperands?.Stays := by
  refine (peek 1).bind fun receiver => (peek 0).bind fun argument => ?_
  split <;> exact pure _

theorem integerOperands? : Spec.integerOperands?.Stays := by
  refine (peek 1).bind fun receiver => (read _).bind fun value => ?_
  split
  · exact pure _
  · exact (peek 0).bind fun argument => (read _).bind fun other => pure _

theorem floatOperands? : Spec.floatOperands?.Stays := by
  refine (peek 1).bind fun receiver => (read _).bind fun value => ?_
  split
  · exact pure _
  · exact (peek 0).bind fun argument => (read _).bind fun other => pure _

theorem number? (value : Option Machine.Numeral) : (Spec.number? value).Stays := by
  unfold Spec.number?
  split
  · exact (newInteger _).bind fun v => pure (some v)
  · exact (newFloat _).bind fun v => pure (some v)
  · exact pure none

theorem boolean? (value : Option Bool) : (Spec.boolean? value).Stays := by
  unfold Spec.boolean?
  split
  · exact (ask _).bind fun core => pure _
  · exact pure none

theorem string? (text : Option String) : (Spec.string? text).Stays := by
  unfold Spec.string?
  split
  · exact (newString _).bind fun v => pure (some v)
  · exact pure none

theorem readElement (v : Value) (format : Format) (place : Nat) :
    (Spec.readElement v format place).Stays := by
  unfold Spec.readElement
  split
  · exact (read _).bind fun w => pure (some w)
  · exact (read _).bind fun b => (ask _).bind fun isText => ite (pure _) (pure _)
  · exact (read _).bind fun x => pure _
  · exact (read _).bind fun x => (newFloat x).bind fun w => pure (some w)
  · exact pure none

theorem writeElement (v : Value) (format : Format) (place : Nat) (w : Value) :
    (Spec.writeElement v format place w).Stays := by
  unfold Spec.writeElement
  split
  · exact (write fun _ _ => registers_storeElement).bind fun _ => pure true
  · refine (ask _).bind fun code => ?_
    split
    · exact ite ((write fun _ _ => registers_storeRaw).bind fun _ => pure true) (pure false)
    · exact pure false
  · split
    · exact ite ((write fun _ _ => registers_storeRaw).bind fun _ => pure true) (pure false)
    · exact pure false
  · refine (read _).bind fun x => ?_
    split
    · exact (write fun _ _ => registers_storeRaw).bind fun _ => pure true
    · exact pure false
  · exact pure false

/-- What a primitive computes is computed in place. -/
theorem result (primitive : Primitive) : (Spec.result primitive).Stays := by
  cases primitive with
  | small op => exact smallOperands?.bind fun _ => pure _
  | smallCompare op => exact smallOperands?.bind fun _ => boolean? _
  | smallAsFloat => exact (peek 0).bind fun _ => number? _
  | smallAsCharacter => exact (peek 0).bind fun _ => pure _
  | smallAtRandom =>
    refine (peek 0).bind fun v => ?_
    split
    · exact ite ((choose _).bind fun k => pure _) (pure none)
    · exact pure none
  | integer op => exact integerOperands?.bind fun _ => number? _
  | integerCompare op => exact integerOperands?.bind fun _ => boolean? _
  | integerPrint => exact (peek 0).bind fun _ => (read _).bind fun _ => string? _
  | float op => exact floatOperands?.bind fun _ => number? _
  | floatCompare op => exact floatOperands?.bind fun _ => boolean? _
  | floatTruncated => exact (peek 0).bind fun _ => (read _).bind fun _ => number? _
  | floatPrint => exact (peek 0).bind fun _ => (read _).bind fun _ => string? _
  | elementAt =>
    refine (peek 1).bind fun receiver => (peek 0).bind fun index => (ask _).bind fun place => ?_
    split
    · exact readElement _ _ _
    · exact pure none
  | elementAtPut =>
    refine (peek 2).bind fun receiver => (peek 1).bind fun index => (ask _).bind fun place => ?_
    split
    · exact (peek 0).bind fun w => (writeElement _ _ _ w).bind fun taken => pure _
    · exact pure none
  | size =>
    refine (peek 0).bind fun receiver => (ask _).bind fun format => ?_
    split
    · exact (read _).bind fun len => pure _
    · exact pure none
  | basicNew => exact (peek 0).bind fun cls => instantiate cls 0
  | basicNewSized =>
    refine (peek 1).bind fun cls => (peek 0).bind fun v => ?_
    split
    · exact ite (instantiate _ _) (pure none)
    · exact pure none
  | fieldAt =>
    refine (peek 1).bind fun receiver => (peek 0).bind fun index => (ask _).bind fun place => ?_
    split
    · exact (read _).bind fun w => pure (some w)
    · exact pure none
  | fieldAtPut =>
    refine (peek 2).bind fun receiver => (peek 1).bind fun index => (ask _).bind fun place => ?_
    split
    · exact (peek 0).bind fun w =>
        (write fun _ _ => registers_storeField).bind fun _ => pure (some w)
    · exact pure none
  | identityHash => exact (peek 0).bind fun receiver => ask _
  | characterValue =>
    refine (peek 0).bind fun receiver => ?_
    split
    · exact pure _
    · exact pure none
  | notIdentical => exact (peek 1).bind fun _ => (peek 0).bind fun _ => boolean? _
  | identical => exact (peek 1).bind fun _ => (peek 0).bind fun _ => boolean? _
  | classOf => exact (peek 0).bind fun receiver => (read _).bind fun cls => pure (some cls)
  | fullCollection => exact collectGarbage.bind fun reclaimed => pure _
  | blockValue | blockValueWithArguments | exit => exact pure none

theorem answer? (argCount : Nat) (value : Option Value) : (Spec.answer? argCount value).Stays := by
  unfold Spec.answer?
  split
  · exact (replaceTop _ _).bind fun _ => pure _
  · exact pure _

end Spec.Stays

/-! ## Messages -/

namespace Spec.Stays

open ObjectMachine.Graph

theorem remembered (cls selector : Value) : (Spec.remembered cls selector).Stays := by
  rintro context pc - g hg _ ⟨method, -, rfl⟩
  exact hg

theorem search (cls selector : Value) : (Spec.search cls selector).Stays := by
  refine (read _).bind fun method => ?_
  split
  · refine bind (modify fun g => ?_) fun _ => pure _
    exact ⟨rfl, rfl⟩
  · exact pure none

theorem lookup (cls selector : Value) : (Spec.lookup cls selector).Stays :=
  either (remembered cls selector) (search cls selector)

theorem modifyRegisters {f : Graph.Registers → Graph.Registers}
    (hf : ∀ r, (f r).active = r.active ∧ (f r).pc = r.pc) : (Spec.modifyRegisters f).Stays :=
  modify fun g => hf g.registers

theorem copyTop (v : Value) (count : Nat) : (Spec.write (·.copyTop v count)).Stays :=
  write fun _ _ => registers_copyTop

theorem storeTwo {v w w' : Value} {index index' : Nat} :
    (Spec.write fun g => do
      let g ← g.storeField v index w
      g.storeField v index' w').Stays := by
  refine write fun g g' h => ?_
  obtain ⟨g₁, hfirst, h⟩ := Option.bind_eq_some_iff.mp h
  exact (registers_storeField h).trans (registers_storeField hfirst)

theorem reifyMessage : Spec.reifyMessage.Stays := by
  refine (ask _).bind fun r => (newArray _).bind fun arguments => (copyTop _ _).bind fun _ => ?_
  refine (pin _).bind fun _ => (ask _).bind fun core => (allocate _ _ _ _).bind fun message => ?_
  refine unpin.bind fun arguments => (ask _).bind fun r => storeTwo.bind fun _ => ?_
  exact (replaceTop _ _).bind fun _ => modifyRegisters fun _ => ⟨rfl, rfl⟩

theorem findMethod : Spec.findMethod.Stays := by
  refine (ask _).bind fun r => (lookup _ _).bind fun method => ?_
  split
  · refine bind (modifyRegisters fun r => ?_) fun _ => pure true
    exact ⟨rfl, rfl⟩
  · exact pure false

theorem failNotUnderstood {α : Type} : (Spec.failNotUnderstood : Spec α).Stays :=
  (ask _).bind fun _ => (peek _).bind fun _ => (read _).bind fun _ => (read _).bind fun _ =>
    (read _).bind fun _ => fail _

theorem findNewMethod : Spec.findNewMethod.Stays := by
  refine findMethod.bind fun found => ite (pure ()) ?_
  refine (ask _).bind fun core => (ask _).bind fun r => ite failNotUnderstood ?_
  refine reifyMessage.bind fun _ => (ask _).bind fun core => ?_
  refine bind (modifyRegisters fun r => ?_) fun _ => findMethod.bind fun found => ?_
  · exact ⟨rfl, rfl⟩
  · exact ite (pure ()) failNotUnderstood

theorem takeContext (size : Nat) : (Spec.takeContext size).Stays := by
  rintro context pc - g hg _ rfl
  exact hg.of_registers rfl

theorem newContext (needed : Nat) (cls : Value) : (Spec.newContext needed cls).Stays := by
  refine (takeContext _).bind fun taken => ?_
  split
  · exact (write fun _ _ => registers_storeClass).bind fun _ => pure _
  · exact allocate _ _ _ _

end Spec.Stays

/-! ## Activations -/

/-- What is left for another activation, a context at a position or one that held its position earlier,
holds that position. -/
def Graph.Suspends (earlier : Graph) (context : Value) (pc : Nat) (g : Graph) : Prop :=
  ∃ left leftPc, ((left = context ∧ leftPc = pc) ∨ earlier.heldPc left = some leftPc) ∧
    (left.isObject = true → g.heldPc left = some leftPc)

/-- What has become of the position of a context, compared with an earlier graph: the context is still
active and at it, or it is suspended and the activation of a method begins, or that of a block, or a
context goes on where it held earlier that it does, or no context is active any more. -/
inductive Graph.Advances (earlier : Graph) (context : Value) (pc : Nat) (g : Graph) : Prop
  | stays (h : g.IsAt context pc)
  | begins (hleft : earlier.Suspends context pc g) (h : g.registers.pc = 0)
  | enters (hleft : earlier.Suspends context pc g)
      (h : g.heldPc g.registers.active = some g.registers.pc)
  | resumes (h : earlier.heldPc g.registers.active = some g.registers.pc)
  | ends (h : g.registers.active = .immediate .null) (hpc : g.registers.pc = 0)

namespace Graph

variable {g g' : Graph} {v w : Value} {n : Nat} {o : Node} {fields elements : List Value}

theorem heldPc_congr (hnodes : g'.nodes = g.nodes) (v : Value) : g'.heldPc v = g.heldPc v := by
  unfold heldPc field node?
  rw [hnodes]

theorem heldPc_setNode_of_ne (hne : v ≠ .object n) : (g.setNode n o).heldPc v = g.heldPc v := by
  cases v with
  | immediate r => rfl
  | object k =>
    have hk : k ≠ n := fun heq => hne (congrArg Value.object heq)
    simp only [heldPc, field, node?_object, nodes_setNode, Function.update_of_ne hk]

/-- What another field is given does not show in the position. -/
theorem heldPc_storeField {index : Nat} (h : g.storeField w index v = some g')
    (hne : index ≠ Context.pcField) (u : Value) : g'.heldPc u = g.heldPc u := by
  obtain ⟨n, rfl, -, -, rfl⟩ := of_storeField h
  by_cases hu : u = .object n
  · subst hu
    simp [heldPc, field, hne.symm]
  · exact heldPc_setNode_of_ne hu

theorem heldPc_flush_of_ne (h : g.flush = some g') (hne : g.registers.active ≠ v) :
    g'.heldPc v = g.heldPc v := by
  unfold flush at h
  split at h
  · cases h
    rfl
  · rename_i c hc
    obtain ⟨g₁, hpc, hsp⟩ := Option.bind_eq_some_iff.mp h
    obtain ⟨n, heq, -, -, rfl⟩ := of_storeField hpc
    cases heq
    rw [heldPc_storeField hsp (by decide)]
    exact heldPc_setNode_of_ne (hc ▸ hne.symm)

/-- A context that is filled in for a method is at the beginning. -/
theorem heldPc_initMethod {sender method receiver : Value} {tempCount : Nat}
    (h : g.initMethod v sender method receiver tempCount = some g') :
    g'.heldPc v = some 0 ∧ g'.registers.active ≠ v := by
  obtain ⟨n, rfl, hactive, -, hfields, -, -, rfl⟩ := of_fill h
  refine ⟨?_, hactive⟩
  have hlt : Context.pcField < (g.nodes n).fields :=
    Nat.lt_of_lt_of_le (show Context.pcField < 6 by decide) hfields
  simp only [heldPc, field, node?_object, nodes_setNode, Function.update_self, Option.bind_eq_bind,
    Option.bind_some, Node.fields_filled, if_pos hlt, Node.field_filled, Option.map_some]
  rfl

/-- Arguments are copied to elements only. -/
theorem heldPc_copyTop {count : Nat} (h : g.copyTop w count = some g') (v : Value) :
    g'.heldPc v = g.heldPc v := by
  obtain ⟨values, -, h⟩ := Option.bind_eq_some_iff.mp h
  obtain ⟨n, rfl, -, -, -, -, -, rfl⟩ := of_fill h
  by_cases hv : v = .object n
  · subst hv
    simp [heldPc, field]
  · exact heldPc_setNode_of_ne hv

end Graph

namespace Spec

open ObjectMachine.Graph

/-- A computation that leaves the active context at its position, or begins another activation. -/
def Proceeds {α : Type} (x : Spec α) : Prop :=
  ∀ (earlier : Graph) context pc, Value.Holds pc →
    x.Leads (·.IsAt context pc) (earlier.Advances context pc)

theorem Stays.proceeds {α : Type} {x : Spec α} (hx : x.Stays) : x.Proceeds :=
  fun _ context pc hpc => Leads.mono (hx context pc hpc) (fun _ h => h) fun _ h => Advances.stays h

namespace Proceeds

variable {α β : Type} {x y : Spec α} {f : α → Spec β}

/-- After a computation that stays. -/
theorem after (hx : x.Stays) (hf : ∀ a, (f a).Proceeds) : (x >>= f).Proceeds :=
  fun earlier context pc hpc =>
    Leads.bind (hx context pc hpc) (fun _ h => Advances.stays h) fun a => hf a earlier context pc hpc

/-- Nothing happens afterwards. -/
theorem map (hx : x.Proceeds) (h : α → β) : (x >>= fun a => Pure.pure (h a)).Proceeds :=
  fun earlier context pc hpc =>
    (hx earlier context pc hpc).bind (fun _ h => h) fun _ => .pure _ fun _ h => h

theorem ite {P : Prop} [Decidable P] (hx : x.Proceeds) (hy : y.Proceeds) :
    (if P then x else y).Proceeds :=
  fun earlier context pc hpc => .ite (hx earlier context pc hpc) (hy earlier context pc hpc)

/-- A context that becomes active goes on where it says, and the one that is left will do so, too. -/
theorem leaveFor (v : Value) (argCount : Nat) : (Spec.leaveFor v argCount).Proceeds := by
  refine after (.popMany _) fun _ => fun earlier context pc hpc => ?_
  let Left : Graph → Prop := fun g =>
    g.IsAt context pc ∧ (context.isObject = true → g.heldPc context = some pc)
  refine Leads.bind (J := Left) (.write fun g g' hg h => ?_) (fun _ h => .stays h.1) fun _ => ?_
  · exact ⟨hg.flush h, fun hobject => hg.heldPc_flush hobject hpc h⟩
  · refine .write fun g g' hg h => ?_
    obtain ⟨hactive, hnodes, hheld⟩ := of_load_active h
    exact .enters ⟨context, pc, .inl ⟨rfl, rfl⟩, fun hobject => by
      rw [heldPc_congr hnodes, hg.2 hobject]⟩ (by rw [hactive, heldPc_congr hnodes, hheld])

theorem activateBlock (argCount : Nat) : (Spec.activateBlock argCount).Proceeds := by
  refine after (.peek _) fun block => after (.read _) fun frame => after (.ask _) fun core => ?_
  refine after (.newContext _ _) fun v => after (.peek _) fun block => after (.ask _) fun r => ?_
  refine after (.write fun g g' h => ?_) fun _ => leaveFor v argCount
  simp only [Graph.initBlock, Option.bind_eq_bind, Option.bind_eq_some_iff] at h
  obtain ⟨initialPc, -, blockArgs, -, home, -, values, -, h⟩ := h
  exact registers_fill h

/-- A context that was filled in for a method is entered at the beginning. -/
theorem enterMethod (v sender method receiver : Value) (tempCount argCount : Nat) :
    (Spec.write (·.initMethod v sender method receiver tempCount) >>= fun _ =>
      Spec.enterContext v argCount).Proceeds := by
  intro earlier context pc hpc
  let Ready : Graph → Prop := fun g =>
    g.IsAt context pc ∧ g.heldPc v = some 0 ∧ g.registers.active ≠ v
  have hstays : ∀ g, Ready g → earlier.Advances context pc g := fun g h => .stays h.1
  refine Leads.bind (J := Ready) (.write fun g g' hg h => ?_) hstays fun _ => ?_
  · exact ⟨hg.of_registers (registers_fill h), heldPc_initMethod h⟩
  refine Leads.bind (J := Ready) (.write fun g g' hg h => ?_) hstays fun _ => ?_
  · obtain ⟨hat, hheld, hne⟩ := hg
    have hregisters := registers_copyTop h
    exact ⟨hat.of_registers hregisters, by rw [heldPc_copyTop h, hheld], by rwa [hregisters]⟩
  refine Leads.bind (J := Ready) ?_ hstays fun _ => ?_
  · refine Keeps.bind (Keeps.ask _) fun _ => .ite (.modify fun g hg => ?_) (Keeps.stop _)
    exact ⟨⟨hg.1.active, hg.1.pc⟩, hg.2⟩
  refine Leads.bind (J := fun g => Ready g ∧ (context.isObject = true → g.heldPc context = some pc))
    (.write fun g g' hg h => ?_) (fun g h => hstays g h.1) fun _ => ?_
  · obtain ⟨hat, hheld, hne⟩ := hg
    refine ⟨⟨hat.flush h, by rw [heldPc_flush_of_ne h hne, hheld], ?_⟩, fun hobject =>
      hat.heldPc_flush hobject hpc h⟩
    rwa [of_flush h]
  refine .write fun g g' hg h => ?_
  obtain ⟨-, hnodes, hheld⟩ := of_load_active h
  exact .begins ⟨context, pc, .inl ⟨rfl, rfl⟩, fun hobject => by
    rw [heldPc_congr hnodes, hg.2 hobject]⟩ (Option.some.inj (hheld.symm.trans hg.1.2.1))

theorem activateNewMethod : Spec.activateNewMethod.Proceeds := by
  refine after (.ask _) fun r => after (.read _) fun header => ite ?_ ?_
  · refine after (.ask _) fun core => after (.newContext _ _) fun v => after (.peek _) fun receiver => ?_
    exact after (.ask _) fun r => enterMethod v _ _ _ _ _
  · exact ((Stays.read _).bind fun _ => .fail _).proceeds

end Proceeds

/-- A computation that answers whether it may have begun another activation; if not it has left the
position alone. -/
def Concludes {α : Type} (gone : α → Prop) (x : Spec α) : Prop :=
  ∀ (earlier : Graph) context pc, Value.Holds pc → ∀ g : Graph, g.IsAt context pc → ∀ out, x g out →
    match out with
    | .ok a g' => (gone a → earlier.Advances context pc g') ∧ (¬ gone a → g'.IsAt context pc)
    | .failed _ g' => earlier.Advances context pc g'
    | _ => True

namespace Concludes

variable {α β : Type} {gone : α → Prop} {x y : Spec α} {z : Spec β} {f : β → Spec α}

theorem of_stays (hx : x.Stays) : x.Concludes gone := by
  intro earlier context pc hpc g hg out hout
  have hkeep := hx context pc hpc g hg out hout
  cases out with
  | ok a g' => exact ⟨fun _ => .stays hkeep, fun _ => hkeep⟩
  | failed failure g' => exact .stays hkeep
  | _ => trivial

/-- After a computation that stays. -/
theorem after (hz : z.Stays) (hf : ∀ b, (f b).Concludes gone) : (z >>= f).Concludes gone := by
  rintro earlier context pc hpc g hg out ⟨r, hr, hout⟩
  have hfirst := hz context pc hpc g hg r hr
  cases r with
  | ok b g' => exact hf b earlier context pc hpc g' hfirst out hout
  | failed failure g' =>
    cases hout
    exact .stays hfirst
  | _ =>
    cases hout
    trivial

/-- A computation that answers that it is over. -/
theorem done (hz : z.Proceeds) {a : α} (ha : gone a) :
    (z >>= fun _ => Pure.pure a).Concludes gone := by
  rintro earlier context pc hpc g hg out ⟨r, hr, hout⟩
  have hfirst := hz earlier context pc hpc g hg r hr
  cases r with
  | ok b g' =>
    cases hout
    exact ⟨fun _ => hfirst, fun hnot => absurd ha hnot⟩
  | _ =>
    cases hout
    exact hfirst

theorem ite {P : Prop} [Decidable P] (hx : x.Concludes gone) (hy : y.Concludes gone) :
    (if P then x else y).Concludes gone := by
  split
  · exact hx
  · exact hy

/-- Nothing more happens where it is over. -/
theorem bind {h : α → Spec β} (hx : x.Concludes gone) (hover : ∀ a, gone a → ∃ b, h a = Pure.pure b)
    (hnot : ∀ a, ¬ gone a → (h a).Proceeds) : (x >>= h).Proceeds := by
  rintro earlier context pc hpc g hg out ⟨r, hr, hout⟩
  have hfirst := hx earlier context pc hpc g hg r hr
  cases r with
  | ok a g' =>
    by_cases ha : gone a
    · obtain ⟨b, hb⟩ := hover a ha
      have hout : h a g' out := hout
      rw [hb] at hout
      cases hout
      exact hfirst.1 ha
    · exact hnot a ha earlier context pc hpc g' (hfirst.2 ha) out hout
  | failed failure g' =>
    cases hout
    exact hfirst
  | _ =>
    cases hout
    trivial

theorem runPrimitive (primitive : Primitive) (argCount : Nat) :
    (Spec.runPrimitive primitive argCount).Concludes (· = .done) := by
  have hfailed : (Pure.pure Graph.Verdict.failed : Spec Graph.Verdict).Concludes (· = .done) :=
    of_stays (.pure _)
  unfold Spec.runPrimitive
  split
  · exact after (.peek _) fun block => after (.read _) fun isBlock =>
      ite (done (.activateBlock argCount) rfl) hfailed
  · refine ite (after (.peek _) fun block => after (.peek _) fun arguments => ?_) hfailed
    refine after (.read _) fun values => ?_
    split
    · exact after .pop fun _ => after (.pushAll _) fun _ => done (.activateBlock _) rfl
    · exact hfailed
  · exact ite (of_stays ((Stays.peek 0).bind fun v => .pure _)) hfailed
  · exact ite (of_stays ((Stays.result _).bind fun v => .answer? _ v)) hfailed

theorem invokeFor (header : MethodHeader) (argCount : Nat) :
    (Spec.invokeFor header argCount).Concludes (· = .done) := by
  refine ite (of_stays (.pure _)) ?_
  unfold Spec.invoke
  split
  · exact runPrimitive _ _
  · exact of_stays (.pure _)

end Concludes

namespace Proceeds

/-- The activation is over. -/
theorem clearRegisters : Spec.clearRegisters.Proceeds := fun _ _ _ _ =>
  .modify fun _ _ => .ends rfl rfl

/-- A primitive that has failed is followed by the method, at its beginning. -/
theorem afterPrimitive {x : Spec Graph.Verdict} (hx : x.Concludes (· = .done)) :
    (x >>= Spec.afterPrimitive).Proceeds := by
  refine hx.bind (fun verdict hdone => ?_) fun verdict hnot => ?_
  · rw [hdone]
    exact ⟨none, rfl⟩
  · cases verdict with
    | done => exact absurd rfl hnot
    | failed => exact activateNewMethod.map fun _ => none
    | exit v => exact clearRegisters.map fun _ => some v

end Proceeds

namespace Proceeds

theorem executeNewMethod : Spec.executeNewMethod.Proceeds := by
  refine after (.ask _) fun r => after (.read _) fun header => ?_
  split
  · exact afterPrimitive (.invokeFor header r.argCount)
  · exact after (.popMany _) fun _ => (Stays.pure none).proceeds
  · refine after (.peek _) fun receiver => after (.ask _) fun has => ite ?_ ?_
    · exact after (.read _) fun w => after (.replaceTop _ w) fun _ => (Stays.pure none).proceeds
    · exact after (.read _) fun _ => (Stays.fail _).proceeds
  · refine after (.read _) fun count => ite (Stays.fail _).proceeds ?_
    exact after (.read _) fun w => after (.replaceTop _ w) fun _ => (Stays.pure none).proceeds
  · exact (Stays.fail _).proceeds

theorem sendToClass (selector cls : Value) (argCount : Nat) :
    (Spec.sendToClass selector cls argCount).Proceeds := by
  refine after (.modifyRegisters fun r => ?_) fun _ => after .findNewMethod fun _ => executeNewMethod
  exact ⟨rfl, rfl⟩

/-- A message is answered in place, or an activation begins. -/
theorem send (selector : Value) (argCount : Nat) : (Spec.send selector argCount).Proceeds :=
  after (.peek _) fun _ => after (.read _) fun cls => sendToClass selector cls argCount

end Proceeds

/-! ## Shortcuts -/

namespace Stays

theorem replaceTop? (count : Nat) (value : Option Value) : (Spec.replaceTop? count value).Stays := by
  unfold Spec.replaceTop?
  split
  · exact (replaceTop _ _).bind fun _ => pure true
  · exact pure false

theorem smallShortcut (f : Graph.Core → Int → Int → Option Value) :
    (Spec.smallShortcut f).Stays := by
  refine smallOperands?.bind fun operands => ?_
  split
  · exact (ask _).bind fun core => replaceTop? _ _
  · exact pure false

end Stays

theorem Concludes.takeShortcut (shortcut : Shortcut) :
    (Spec.takeShortcut shortcut).Concludes (· = true) := by
  cases shortcut with
  | arithmetic op | comparison op | maximum | minimum => exact of_stays (.smallShortcut _)
  | identical =>
    exact after (.peek _) fun _ => after (.peek _) fun _ => after (.ask _) fun _ =>
      of_stays (.replaceTop? _ _)
  | classOf => exact after (.peek _) fun _ => after (.read _) fun _ => of_stays (.replaceTop? _ _)
  | nilTest expected =>
    exact after (.peek _) fun _ => after (.ask _) fun _ => of_stays (.replaceTop? _ _)
  | size =>
    refine after (.peek _) fun _ => after (.ask _) fun _ => ite ?_ (of_stays (.pure _))
    exact after (.read _) fun _ => of_stays (.replaceTop? _ _)
  | elementAt =>
    refine after (.peek _) fun _ => after (.peek _) fun _ => after (.read _) fun place => ?_
    split
    · exact after (.read _) fun _ => of_stays (.replaceTop? _ _)
    · exact of_stays (.pure _)
  | elementAtPut =>
    refine after (.peek _) fun _ => after (.peek _) fun _ => after (.peek _) fun _ => ?_
    refine after (.read _) fun place => ?_
    split
    · exact after (.write fun _ _ => registers_storeElement) fun _ => of_stays (.replaceTop? _ _)
    · exact of_stays (.pure _)
  | blockValue argCount =>
    refine after (.peek _) fun _ => after (.read _) fun _ => ite ?_ (of_stays (.pure _))
    exact done (.activateBlock argCount) rfl

namespace Proceeds

theorem sendInFull (index : Nat) : (Spec.sendInFull index).Proceeds := by
  refine after (.ask _) fun core => ?_
  split
  · exact send _ _
  · exact (Stays.stop _).proceeds

theorem sendSpecial (index : Nat) : (Spec.sendSpecial index).Proceeds := by
  have hrest : ∀ x : Spec Bool, x.Concludes (· = true) →
      (x >>= fun taken => if taken then Pure.pure none else Spec.sendInFull index :
        Spec (Option Value)).Proceeds :=
    fun x hx => hx.bind (fun taken h => ⟨none, by rw [h]; rfl⟩) fun taken h => by
      rw [Bool.eq_false_iff.mpr h]
      exact sendInFull index
  unfold Spec.sendSpecial
  split
  · exact hrest _ (.takeShortcut _)
  · exact hrest _ (.of_stays (.pure _))

end Proceeds

/-! ## Returns -/

end Spec

/-- A graph whose active context is at a position, while all contexts hold what they did earlier. -/
structure Graph.Waits (earlier : Graph) (context : Value) (pc : Nat) (g : Graph) : Prop
    extends g.IsAt context pc where
  held : ∀ v, g.heldPc v = earlier.heldPc v

namespace Graph

variable {earlier g g' : Graph} {context v w : Value} {pc : Nat}

/-- A context that is left forgets its position, and nothing else is forgotten. -/
theorem heldPc_kill_of_ne (h : g.kill v = some g') (hne : w ≠ v) :
    g'.heldPc w = g.heldPc w ∧ g'.registers = g.registers := by
  obtain ⟨g₁, hsender, hpc⟩ := Option.bind_eq_some_iff.mp h
  refine ⟨?_, (registers_storeField hpc).trans (registers_storeField hsender)⟩
  obtain ⟨n, rfl, -, -, rfl⟩ := of_storeField hpc
  rw [heldPc_setNode_of_ne hne, heldPc_storeField hsender (by decide)]

theorem heldPc_setCaptured {captured : Bool} (h : g.setCaptured v captured = some g') (w : Value) :
    g'.heldPc w = g.heldPc w ∧ g'.registers = g.registers := by
  cases v with
  | immediate r => cases h
  | object n =>
    cases h
    refine ⟨?_, rfl⟩
    by_cases hw : w = .object n
    · subst hw
      simp [heldPc, field]
    · exact heldPc_setNode_of_ne hw

end Graph

namespace Spec

open ObjectMachine.Graph

variable {α : Type} {earlier : Graph} {context target : Value} {pc : Nat}

namespace Keeps

theorem retire {I : Graph → Prop} {v : Value} (hkill : ∀ g g', I g → g.kill v = some g' → I g')
    (hpool : ∀ g pool, I g → I { g with pool }) : (Spec.retire v).Keeps I :=
  bind (.write hkill) fun _ => bind (read _) fun pool => .modify fun g => hpool g pool

/-- Leaving contexts does not change what their target holds. -/
theorem retireUpTo (v : Value) (fuel : Nat) :
    (Spec.retireUpTo target v fuel).Keeps fun g =>
      g.IsAt context pc ∧ g.heldPc target = earlier.heldPc target := by
  induction fuel generalizing v with
  | zero => exact stop _
  | succ fuel ih =>
    refine Leads.ask_bind fun goOn => ?_
    cases goOn with
    | false => exact .pure () fun _ h => h.1
    | true =>
      by_cases hv : v = target
      · -- The walk does not go on from its target.
        rintro g ⟨-, hgoOn⟩
        simp [hv] at hgoOn
      · refine Leads.mono ?_ (fun _ h => h.1) fun _ h => h
        refine bind (read _) fun sender => bind (retire ?_ fun g pool hg => ?_) fun _ => ih sender
        · rintro g g' ⟨hat, hheld⟩ hkill
          obtain ⟨hsame, hregisters⟩ := heldPc_kill_of_ne hkill (Ne.symm hv)
          exact ⟨hat.of_registers hregisters, hsame.trans hheld⟩
        · exact ⟨hg.1.of_registers rfl, hg.2⟩

theorem finish {I : Graph → Prop} {x : Nat → Spec α} (hx : ∀ fuel, (x fuel).Keeps I) :
    (Spec.finish x).Keeps I := by
  rintro g hg out ⟨-, fuel, hout⟩
  exact hx fuel g hg out hout

end Keeps

/-- After contexts were left their target is active, or there is none and nothing has become of the
position. -/
theorem leaveTo_bind {k : Bool → Spec α}
    (hthere : ∀ pc', Value.Holds pc' → earlier.heldPc target = some pc' →
      (k true).Leads (·.IsAt target pc') (earlier.Advances context pc))
    (hnone : (k false).Leads (·.IsAt context pc) (earlier.Advances context pc)) :
    (Spec.leaveTo target >>= k).Leads (earlier.Waits context pc) (earlier.Advances context pc) := by
  let Left : Graph → Prop := fun g => g.IsAt context pc ∧ g.heldPc target = earlier.heldPc target
  have hstays : ∀ g, Left g → earlier.Advances context pc g := fun g h => .stays h.1
  unfold Spec.leaveTo
  simp only [Spec.bind_assoc]
  refine Leads.bind (J := earlier.Waits context pc) (Keeps.ask _) (fun g h => .stays h.toIsAt)
    fun s => ?_
  refine Leads.bind (J := Left) ?_ hstays fun _ => ?_
  · exact Leads.mono (Keeps.finish fun fuel => Keeps.retireUpTo _ fuel)
      (fun g h => ⟨h.toIsAt, h.held target⟩) fun _ h => h
  refine Leads.bind (J := Left) (Keeps.ask _) hstays fun there => ?_
  cases there with
  | false =>
    rw [if_neg Bool.false_ne_true, Spec.pure_bind]
    exact Leads.mono hnone (fun _ h => h.1) fun _ h => h
  | true =>
    rw [if_pos rfl, Spec.bind_assoc]
    rintro g ⟨-, hheld⟩ out ⟨r, hload, hout⟩
    rw [Spec.pure_bind] at hout
    unfold Spec.loadContext Spec.write at hload
    split at hload <;> subst hload
    · obtain ⟨hactive, -, hpc⟩ := of_load_active ‹_›
      obtain ⟨v, -, hcount⟩ := Option.map_eq_some_iff.mp hpc
      exact hthere _ (hcount ▸ Value.holds_count v) (hheld.symm.trans hpc) _ ⟨hactive, rfl⟩ out hout
    · cases hout
      trivial

/-- A position at which a context goes on that held it earlier. -/
theorem Proceeds.resumed {x : Spec α} (hx : x.Proceeds) {pc' : Nat} (hpc' : Value.Holds pc')
    (hheld : earlier.heldPc target = some pc') :
    x.Leads (·.IsAt target pc') (earlier.Advances context pc) :=
  Leads.mono (hx earlier target pc' hpc') (fun _ h => h) fun g h => by
    have hleft : earlier.Suspends target pc' g → earlier.Suspends context pc g := by
      rintro ⟨left, leftPc, ⟨rfl, rfl⟩ | hearlier, hsuspended⟩
      · exact ⟨left, leftPc, .inr hheld, hsuspended⟩
      · exact ⟨left, leftPc, .inr hearlier, hsuspended⟩
    cases h with
    | stays h => exact .resumes (by rw [h.active, h.pc, hheld])
    | begins hsuspended h => exact .begins (hleft hsuspended) h
    | enters hsuspended h => exact .enters (hleft hsuspended) h
    | resumes h => exact .resumes h
    | ends h hpc => exact .ends h hpc

namespace Leads

theorem returnTo (target v : Value) :
    (Spec.returnTo target v).Leads (earlier.Waits context pc) (earlier.Advances context pc) := by
  refine leaveTo_bind (fun pc' hpc' hheld => ?_) ?_
  · exact Proceeds.resumed ((Stays.push v).bind fun _ => .pure none).proceeds hpc' hheld
  · exact bind (J := fun g => g.registers.active = .immediate .null ∧ g.registers.pc = 0)
      (.modify fun _ _ => ⟨rfl, rfl⟩) (fun _ h => .ends h.1 h.2) fun _ => .pure _ fun _ h => .ends h.1 h.2

theorem escapeBlock :
    Spec.escapeBlock.Leads (earlier.Waits context pc) (earlier.Advances context pc) := by
  have hstays : ∀ g, earlier.Waits context pc g → earlier.Advances context pc g :=
    fun g h => .stays h.toIsAt
  refine bind (J := earlier.Waits context pc) (Keeps.ask _) hstays fun s => ?_
  refine bind (J := earlier.Waits context pc) (Keeps.read _) hstays fun caller => ?_
  refine bind (J := earlier.Waits context pc) (.write fun g g' hg h => ?_) hstays fun _ => ?_
  · exact ⟨hg.toIsAt.of_registers (heldPc_setCaptured h default).2,
      fun v => (heldPc_setCaptured h v).1.trans (hg.held v)⟩
  refine leaveTo_bind (fun pc' hpc' hheld => ?_) ?_
  · refine Proceeds.resumed ?_ hpc' hheld
    exact .after (.push _) fun _ => .after (.push _) fun _ => .after (.ask _) fun core => .send _ _
  · exact mono (Keeps.fail _) (fun _ h => h) fun _ h => .stays h

/-- A return goes on with a context at the position that it held. -/
theorem methodReturn (v : Value) :
    (Spec.methodReturn v).Leads (earlier.Waits context pc) (earlier.Advances context pc) := by
  have hstays : ∀ g, earlier.Waits context pc g → earlier.Advances context pc g :=
    fun g h => .stays h.toIsAt
  have hreturn : ∀ of : Value, (do
      Spec.returnTo (← Spec.read (·.field of Context.senderField)) v).Leads
        (earlier.Waits context pc) (earlier.Advances context pc) := fun of =>
    bind (J := earlier.Waits context pc) (Keeps.read _) hstays fun target => returnTo target v
  refine bind (J := earlier.Waits context pc) (Keeps.ask _) hstays fun s => .ite (hreturn _) ?_
  exact bind (J := earlier.Waits context pc) (Keeps.read _) hstays fun alive =>
    .ite (hreturn _) escapeBlock

theorem pop : Spec.pop.Keeps (earlier.Waits context pc) := by
  refine Keeps.bind (Keeps.ask _) fun _ => .ite (Keeps.bind (Keeps.read _) fun v => ?_) (Keeps.stop _)
  refine Keeps.bind (.modify fun g hg => ?_) fun _ => .pure v fun _ h => h
  exact ⟨⟨hg.active, hg.pc⟩, hg.held⟩

theorem blockReturn :
    Spec.blockReturn.Leads (earlier.Waits context pc) (earlier.Advances context pc) := by
  have hstays : ∀ g, earlier.Waits context pc g → earlier.Advances context pc g :=
    fun g h => .stays h.toIsAt
  refine bind (J := earlier.Waits context pc) pop hstays fun v => ?_
  refine bind (J := earlier.Waits context pc) (Keeps.ask _) hstays fun s => ?_
  exact bind (J := earlier.Waits context pc) (Keeps.read _) hstays fun target => returnTo target v

end Leads

/-! ## Instructions -/

namespace Stays

theorem literalAt (index : Nat) : (Spec.literalAt index).Stays :=
  (ask _).bind fun _ => (read _).bind fun _ => ite (read _) (fail _)

theorem associationAt (index : Nat) : (Spec.associationAt index).Stays :=
  (literalAt index).bind fun v => (ask _).bind fun _ => ite (pure v) (fail _)

theorem receiverWithField (index : Nat) : (Spec.receiverWithField index).Stays :=
  (ask _).bind fun _ => (ask _).bind fun _ => ite (pure _) (fail _)

theorem checkTemporary (index : Nat) : (Spec.checkTemporary index).Stays :=
  (read _).bind fun _ => ite (pure ()) (fail _)

theorem variableValue (place : Variable) (index : Nat) :
    (Spec.variableValue place index).Stays := by
  cases place with
  | receiver => exact (receiverWithField index).bind fun _ => read _
  | temporary => exact (checkTemporary index).bind fun _ => read _
  | literal => exact (associationAt index).bind fun _ => read _

theorem setVariable (place : Variable) (index : Nat) (v : Value) :
    (Spec.setVariable place index v).Stays := by
  cases place with
  | receiver =>
    exact (receiverWithField index).bind fun _ => write fun _ _ => registers_storeField
  | temporary =>
    refine (checkTemporary index).bind fun _ => write fun g g' h => ?_
    obtain ⟨c, -, h⟩ := Option.bind_eq_some_iff.mp h
    exact registers_storeElement h
  | literal => exact (associationAt index).bind fun _ => write fun _ _ => registers_storeField

theorem setCaptured (v : Value) (captured : Bool) : (Spec.write (·.setCaptured v captured)).Stays :=
  write fun _ _ h => (heldPc_setCaptured h v).2

theorem flushRegisters : Spec.flushRegisters.Stays := write fun _ _ h => by rw [Graph.of_flush h]

theorem pushContext : Spec.pushContext.Stays :=
  flushRegisters.bind fun _ => (ask _).bind fun _ => (setCaptured _ _).bind fun _ => push _

theorem makeBlock (argCount : Nat) : (Spec.makeBlock argCount).Stays := by
  refine (read _).bind fun width => ?_
  split
  · exact (ask _).bind fun _ => fail _
  · refine (ask _).bind fun _ => (read _).bind fun _ => (setCaptured _ _).bind fun _ => ?_
    refine (ask _).bind fun _ => (allocate _ _ _ _).bind fun block => (ask _).bind fun _ => ?_
    exact (write fun _ _ => registers_fill).bind fun _ => push block

end Stays

theorem Proceeds.sendNamed (toSuper : Bool) (index argCount : Nat) :
    (Spec.sendNamed toSuper index argCount).Proceeds := by
  refine after (.literalAt index) fun selector => ite (send _ _) (after (.ask _) fun _ => ?_)
  refine after (.read _) fun cls => ?_
  split
  · exact after (.read _) fun _ => sendToClass _ _ _
  · exact after (.read _) fun _ => (Stays.fail _).proceeds

/-- Where an instruction may leave the position of its context: behind it, or where it jumps. -/
def Lands (i : Instruction) (len : Option Nat) (pc pc' : Nat) : Prop :=
  pc' = pc ∨ ∃ offset l, i.jumpOffset? = some offset ∧ len = some l ∧ (pc' : Int) = pc + offset ∧ pc' ≤ l

namespace Leads

variable {len : Option Nat} {i : Instruction}

theorem jumpBy (offset : Int) (hi : i.jumpOffset? = some offset) :
    (Spec.jumpBy offset).Leads (fun g => g.IsAt context pc ∧ g.codeLength = len)
      (fun g => ∃ pc', Lands i len pc pc' ∧ g.IsAt context pc') := by
  refine read_bind fun l => ask_bind fun s => ?_
  rintro g ⟨⟨⟨hat, hlen⟩, hl⟩, rfl⟩ out hout
  dsimp only at hout
  split at hout
  · rename_i hin
    cases hout
    have hpc := hat.pc
    exact ⟨((g.registers.pc : Int) + offset).toNat,
      .inr ⟨offset, l, hi, hlen.symm.trans hl, by omega, by omega⟩, hat.active, rfl⟩
  · obtain ⟨failure, -, rfl⟩ := hout
    exact ⟨pc, .inl rfl, hat⟩

theorem branch (condition : Bool) (offset : Int) (hpc : Value.Holds pc)
    (hi : i.jumpOffset? = some offset) :
    (Spec.branch condition offset).Leads (fun g => g.IsAt context pc ∧ g.codeLength = len)
      (fun g => ∃ pc', Lands i len pc pc' ∧ earlier.Advances context pc' g) := by
  let Before : Graph → Prop := fun g => g.IsAt context pc ∧ g.codeLength = len
  have hstays : ∀ g, Before g → ∃ pc', Lands i len pc pc' ∧ earlier.Advances context pc' g :=
    fun g h => ⟨pc, .inl rfl, .stays h.1⟩
  refine bind (J := Before) ?_ hstays fun v => bind (J := Before) (Keeps.ask _) hstays fun core => ?_
  · refine Keeps.bind (Keeps.ask _) fun _ => .ite (Keeps.bind (Keeps.read _) fun v => ?_) (Keeps.stop _)
    refine Keeps.bind (.modify fun g hg => ?_) fun _ => .pure v fun _ h => h
    exact ⟨⟨hg.1.active, hg.1.pc⟩, hg.2⟩
  refine ite ?_ (ite (.pure none hstays) ?_)
  · exact bind (jumpBy offset hi) (fun g ⟨pc', hland, hat⟩ => ⟨pc', hland, .stays hat⟩)
      fun _ => .pure none fun g ⟨pc', hland, hat⟩ => ⟨pc', hland, .stays hat⟩
  · refine mono (Proceeds.after (.push v) (fun _ => .send core.mustBeBoolean 0) earlier context pc hpc)
      (fun g h => h.1) fun g h => ⟨pc, .inl rfl, h⟩

/-- What an instruction does to the position: its context goes on behind it or where it jumps, if it
goes on, and otherwise another one does. -/
theorem effect (i : Instruction) (hpc : Value.Holds pc) :
    (Spec.effect i).Leads (fun g => earlier.Waits context pc g ∧ g.codeLength = len)
      (fun g => ∃ pc', Lands i len pc pc' ∧ earlier.Advances context pc' g) := by
  have hproceeds : ∀ x : Spec (Option Value), x.Proceeds →
      x.Leads (fun g => earlier.Waits context pc g ∧ g.codeLength = len)
        (fun g => ∃ pc', Lands i len pc pc' ∧ earlier.Advances context pc' g) := fun x hx =>
    mono (hx earlier context pc hpc) (fun g h => h.1.toIsAt) fun g h => ⟨pc, .inl rfl, h⟩
  have hstays : ∀ x : Spec Unit, x.Stays →
      (x >>= fun _ => Pure.pure none : Spec (Option Value)).Proceeds := fun x hx =>
    (hx.bind fun _ => .pure none).proceeds
  have hreturns : ∀ x : Spec (Option Value),
      x.Leads (earlier.Waits context pc) (earlier.Advances context pc) →
      x.Leads (fun g => earlier.Waits context pc g ∧ g.codeLength = len)
        (fun g => ∃ pc', Lands i len pc pc' ∧ earlier.Advances context pc' g) := fun x hx =>
    mono hx (fun g h => h.1) fun g h => ⟨pc, .inl rfl, h⟩
  have hjumps : ∀ b offset, i.jumpOffset? = some offset → (Spec.jumpAs b offset).Leads
      (fun g => earlier.Waits context pc g ∧ g.codeLength = len)
      (fun g => ∃ pc', Lands i len pc pc' ∧ earlier.Advances context pc' g) := by
    intro b offset hi
    suffices hat : (Spec.jumpAs b offset).Leads (fun g => g.IsAt context pc ∧ g.codeLength = len)
        (fun g => ∃ pc', Lands i len pc pc' ∧ earlier.Advances context pc' g) from
      mono hat (fun g h => ⟨h.1.toIsAt, h.2⟩) fun g h => h
    cases b with
    | always =>
      exact bind (jumpBy offset hi) (fun g ⟨pc', hland, hat⟩ => ⟨pc', hland, .stays hat⟩)
        fun _ => .pure none fun g ⟨pc', hland, hat⟩ => ⟨pc', hland, .stays hat⟩
    | ifTrue => exact branch true offset hpc hi
    | ifFalse => exact branch false offset hpc hi
  cases i with
  | push place index =>
    exact hproceeds _ (.after (.variableValue _ _) fun v =>
      hstays _ (.push v))
  | pushLiteral index =>
    exact hproceeds _ (.after (.literalAt _) fun v =>
      hstays _ (.push v))
  | store place index =>
    exact hproceeds _ (.after (.peek _) fun v =>
      hstays _ (.setVariable _ _ v))
  | popInto place index =>
    exact hproceeds _ (.after .pop fun v =>
      hstays _ (.setVariable _ _ v))
  | constant value =>
    exact hproceeds _ (.after (.ask _) fun v =>
      hstays _ (.push v))
  | thisContext => exact hproceeds _ (hstays _ .pushContext)
  | dup =>
    exact hproceeds _ (.after (.peek _) fun v =>
      hstays _ (.push v))
  | pop => exact hproceeds _ (.after .pop fun _ => (Stays.pure none).proceeds)
  | methodReturn answer =>
    refine hreturns _ (bind (J := earlier.Waits context pc) ?_ (fun g h => .stays h.toIsAt)
      fun v => methodReturn v)
    cases answer with
    | top => exact pop
    | _ => exact Keeps.ask _
  | blockReturn => exact hreturns _ blockReturn
  | jump b offset => exact hjumps b _ rfl
  | longJump b offset => exact hjumps b _ rfl
  | send index argCount => exact hproceeds _ (.sendNamed false _ _)
  | superSend index argCount => exact hproceeds _ (.sendNamed true _ _)
  | createBlock argCount => exact hproceeds _ (hstays _ (.makeBlock _))
  | special index => exact hproceeds _ (.sendSpecial _)

end Leads

end Spec

end ObjectMachine
