import ObjectMachine.Proofs.Graph.Contexts
import ObjectMachine.Proofs.Primitive.Results

/-!
# Primitives

The primitives as computations on graphs. All that a primitive reads is values and what objects hold,
so it answers the same wherever objects are.

## Main results

* `Simulates.result`: the value that a primitive computes.
* `Simulates.invoke`: the primitive with an index.
-/

namespace ObjectMachine

/-! ## What is read -/

/-- The place of an index, which counts from one, among a number of places. -/
def Value.indexInto? (v : Value) (count : Nat) : Option Nat :=
  match v.small? with
  | some index => if 1 ≤ index ∧ index ≤ count then some (index.toNat - 1) else none
  | none => none

theorem Placement.Shows.indexInto?_eq {p : Placement} {r : Ref} {v : Value} (hr : p.Shows r v)
    (count : Nat) : r.indexInto? count = v.indexInto? count := by
  cases hv : v.small? <;> simp only [Ref.indexInto?, Value.indexInto?, hr.small?_eq, hv]

namespace Graph

variable (g : Graph)

/-- The format of an object that programs may index. -/
def openFormat? : Value → Option Format
  | .immediate _ => none
  | .object n => if (g.nodes n).format.isOpen then some (g.nodes n).format else none

/-- The format of an object that programs may index, and the place of an index in it. -/
def elementPlace? (v index : Value) : Option (Format × Nat) :=
  match v with
  | .immediate _ => none
  | .object n =>
    if (g.nodes n).format.isOpen then
      (index.indexInto? (g.nodes n).len).map ((g.nodes n).format, ·)
    else none

/-- The place of an index among the fields of an object. -/
def fieldPlace? (v index : Value) : Option Nat :=
  match v with
  | .immediate _ => none
  | .object n => index.indexInto? (g.nodes n).fields

/-- The number that tells an object apart. -/
def identityHash? : Value → Option Value
  | .immediate r =>
    if r.isCharacter then some (.immediate (.ofNat r.charCode.toNat))
    else if r.isSmallInteger then some (.immediate r) else none
  | .object n => some (.immediate (.ofNat (g.nodes n).hash))

/-- The number that a byte object takes a value for. -/
def byteCode? (v value : Value) : Option Int :=
  if g.isInstance .symbol v then none
  else if g.isText v then
    match value with
    | .immediate r => if r.isCharacter then some r.charCode.toNat else none
    | .object _ => none
  else value.small?

/-- The number that an array of floating-point numbers takes a value for. -/
def floatCode? (value : Value) : Option (Option Binary64) := do
  match ← g.floatValue? value with
  | some x => some (some x)
  | none => some (value.small?.map .ofInt)

/-- Whether a value is a block that takes a number of arguments. -/
def isBlockOf (argCount : Nat) (v : Value) : Option Bool :=
  if g.isInstance .blockContext v then do
    let count ← (← g.field v Context.argCountField).bits?
    return count.toCount == argCount
  else some false

end Graph

namespace Reads

variable {p : Placement} {r s : Ref} {v w : Value}

theorem openFormat? (hr : p.Shows r v) :
    Reads p (fun m => m.openFormat? r) fun g => some (g.openFormat? v) := by
  refine .intro fun m g starts hm b hb => ?_
  cases hb
  unfold Machine.openFormat?
  rw [hr.isPointer_eq]
  cases v with
  | immediate r' => exact ⟨_, rfl, .none⟩
  | object n =>
    obtain ⟨_, hformat, rfl⟩ := (format hr).ok hm rfl
    show ∃ a, (m.heap.format r >>= fun format =>
      .ok (if format.isOpen then some format else none)) = .ok a ∧ _
    rw [hformat]
    refine ⟨_, rfl, ?_⟩
    show Option.Rel _ (if _ then _ else _) (if _ then _ else _)
    split
    · exact .some rfl
    · exact .none

theorem elementPlace? (hr : p.Shows r v) (hs : p.Shows s w) :
    Reads p (fun m => m.elementPlace? r s) fun g => some (g.elementPlace? v w) := by
  refine .intro fun m g starts hm b hb => ?_
  cases hb
  obtain ⟨found, hfound, hshows⟩ := (openFormat? hr).ok hm rfl
  unfold Machine.elementPlace?
  rw [hfound]
  cases v with
  | immediate r' =>
    cases hshows
    exact ⟨_, rfl, .none⟩
  | object n =>
    unfold Graph.openFormat? at hshows
    unfold Graph.elementPlace?
    dsimp only at hshows ⊢
    split at hshows
    · rename_i hopen
      cases hshows with
      | some heq =>
        cases heq
        obtain ⟨_, hlen, rfl⟩ := (length hr).ok hm rfl
        rw [if_pos hopen]
        show ∃ a, (m.heap.length r >>= fun len => .ok ((s.indexInto? len).map _)) = .ok a ∧ _
        rw [hlen]
        refine ⟨_, rfl, ?_⟩
        rw [hs.indexInto?_eq]
        cases w.indexInto? (g.nodes n).len with
        | none => exact .none
        | some place => exact .some ⟨rfl, rfl⟩
    · rename_i hopen
      cases hshows
      rw [if_neg hopen]
      exact ⟨_, rfl, .none⟩

theorem fieldPlace? (hr : p.Shows r v) (hs : p.Shows s w) :
    Reads p (fun m => m.fieldPlace? r s) fun g => some (g.fieldPlace? v w) := by
  refine .intro fun m g starts hm b hb => ?_
  cases hb
  unfold Machine.fieldPlace?
  rw [hr.isPointer_eq]
  cases v with
  | immediate r' => exact ⟨_, rfl, .none⟩
  | object n =>
    obtain ⟨_, hfields, rfl⟩ := (fixedFields hr).ok hm rfl
    show ∃ a, (m.heap.fixedFields r >>= fun count => .ok (s.indexInto? count)) = .ok a ∧ _
    rw [hfields]
    refine ⟨_, rfl, ?_⟩
    rw [hs.indexInto?_eq]
    show Option.Rel _ _ (w.indexInto? (g.nodes n).fields)
    cases w.indexInto? (g.nodes n).fields with
    | none => exact .none
    | some place => exact .some rfl

theorem identityHash? (hr : p.Shows r v) :
    Reads p (fun m => m.identityHash? r) fun g => some (g.identityHash? v) := by
  refine .intro fun m g starts hm b hb => ?_
  cases hb
  unfold Machine.identityHash?
  cases v with
  | immediate r' =>
    obtain ⟨rfl, hp⟩ := hr
    rw [if_neg (by rw [hp]; exact Bool.false_ne_true)]
    unfold Graph.identityHash?
    dsimp only
    split
    · exact ⟨_, rfl, .some (p.shows_ofNat _)⟩
    · refine ⟨_, rfl, ?_⟩
      split
      · exact .some ⟨rfl, hp⟩
      · exact .none
  | object n =>
    have hp : r.isPointer = true := hr.isPointer_eq
    rw [if_pos hp]
    obtain ⟨_, hhash, rfl⟩ := (hash hr).ok hm rfl
    show ∃ a, (m.heap.identityHash r >>= fun hash => .ok (some (Ref.ofNat hash))) = .ok a ∧ _
    rw [hhash]
    exact ⟨_, rfl, .some (p.shows_ofNat _)⟩

theorem byteCode? (hr : p.Shows r v) (hs : p.Shows s w) :
    Reads p (fun m => m.byteCode? r s) fun g => some (g.byteCode? v w) := by
  refine .intro fun m g starts hm b hb => ?_
  cases hb
  obtain ⟨_, hsymbol, rfl⟩ := (isInstance hr .symbol).ok hm rfl
  obtain ⟨_, htext, rfl⟩ := (isText hr).ok hm rfl
  show ∃ a, (m.isInstance .symbol r >>= fun symbol => if symbol then .ok none
    else m.isText r >>= fun text =>
      if text then .ok (if s.isCharacter then some (s.charCode.toNat : Int) else none)
      else .ok s.small?) = .ok a ∧ _
  rw [hsymbol]
  show ∃ a, (if g.isInstance .symbol v = true then .ok none
    else m.isText r >>= fun text =>
      if text then .ok (if s.isCharacter then some (s.charCode.toNat : Int) else none)
      else .ok s.small?) = .ok a ∧ _
  rw [htext]
  show ∃ a, (if g.isInstance .symbol v = true then .ok none
    else if g.isText v = true then .ok (if s.isCharacter then some (s.charCode.toNat : Int) else none)
      else .ok s.small?) = Except.ok a ∧ _
  unfold Graph.byteCode?
  split
  · exact ⟨_, rfl, .none⟩
  split
  · refine ⟨_, rfl, ?_⟩
    cases w with
    | immediate s' =>
      obtain ⟨rfl, -⟩ := hs
      dsimp only
      split
      · exact .some rfl
      · exact .none
    | object n =>
      rw [if_neg (by rw [hs.isCharacter_eq]; exact Bool.false_ne_true)]
      exact .none
  · refine ⟨_, rfl, ?_⟩
    rw [hs.small?_eq]
    cases w.small? with
    | none => exact .none
    | some value => exact .some rfl

theorem floatCode? (hs : p.Shows s w) : Reads p (fun m => m.floatCode? s) (·.floatCode? w) := by
  refine .intro fun m g starts hm b hb => ?_
  obtain ⟨x, hx, hb⟩ := Option.bind_eq_some_iff.mp hb
  obtain ⟨y, hy, hyx⟩ := (floatValue? hs).ok hm hx
  unfold Machine.floatCode?
  rw [hy]
  cases hyx with
  | some heq =>
    cases heq
    cases hb
    exact ⟨_, rfl, .some rfl⟩
  | none =>
    cases hb
    refine ⟨_, rfl, ?_⟩
    rw [hs.small?_eq]
    cases w.small? with
    | none => exact .none
    | some value => exact .some rfl

theorem isBlockOf (argCount : Nat) (hr : p.Shows r v) :
    Reads p (fun m => m.isBlockOf argCount r) (·.isBlockOf argCount v) := by
  refine .intro fun m g starts hm b hb => ?_
  obtain ⟨_, hblock, rfl⟩ := (isInstance hr .blockContext).ok hm rfl
  unfold Machine.isBlockOf
  rw [hblock]
  unfold Graph.isBlockOf at hb
  split at hb
  · rename_i hyes
    rw [hyes]
    obtain ⟨field, hfield, hb⟩ := Option.bind_eq_some_iff.mp hb
    obtain ⟨word, hword, hb⟩ := Option.bind_eq_some_iff.mp hb
    cases hb
    obtain ⟨a, ha, hshows⟩ := (Reads.field hr Context.argCountField).ok hm hfield
    show ∃ a, ((m.heap.fetchField r Context.argCountField >>= fun s => .ok s.toCount) >>= fun count =>
      .ok (count == argCount)) = .ok a ∧ _
    rw [ha]
    cases field with
    | object n => cases hword
    | immediate r' =>
      cases hword
      obtain ⟨rfl, -⟩ := hshows
      exact ⟨_, rfl, rfl⟩
  · rename_i hno
    cases hb
    rw [Bool.eq_false_iff.mpr hno]
    exact ⟨_, rfl, rfl⟩

end Reads

/-! ## What is computed -/

namespace Spec

/-- The receiver and the argument, if both are small integers. -/
def smallOperands? : Spec (Option (Int × Int)) := do
  let receiver ← peek 1
  let argument ← peek 0
  match receiver.small?, argument.small? with
  | some a, some b => return some (a, b)
  | _, _ => return none

/-- The receiver, if it is an integer, and the argument, if it is a number. -/
def integerOperands? : Spec (Option (Int × Machine.Numeral)) := do
  let receiver ← peek 1
  match ← read (·.integerValue? receiver) with
  | none => return none
  | some a =>
    let argument ← peek 0
    return (← read (·.numeral? argument)).map (a, ·)

/-- The receiver, if it is a floating-point number, and the argument as one, if it is a number. -/
def floatOperands? : Spec (Option (Binary64 × Binary64)) := do
  let receiver ← peek 1
  match ← read (·.floatValue? receiver) with
  | none => return none
  | some a =>
    let argument ← peek 0
    return (← read (·.numeral? argument)).map fun b => (a, b.toFloat)

/-- The object of a number, if there is one. -/
def number? : Option Machine.Numeral → Spec (Option Value)
  | some (.integer value) => do return some (← newInteger value)
  | some (.float value) => do return some (← newFloat value)
  | none => return none

/-- The object of a truth value, if there is one. -/
def boolean? : Option Bool → Spec (Option Value)
  | some value => do return some ((← getCore).boolean value)
  | none => return none

/-- A text, if there is one. -/
def string? : Option String → Spec (Option Value)
  | some text => do return some (← newString text)
  | none => return none

/-- What a program sees of an element. -/
def readElement (v : Value) (format : Format) (place : Nat) : Spec (Option Value) := do
  match format with
  | .array => return some (← read (·.element v place))
  | .byteArray =>
    let byte ← read (·.byte v place)
    if ← ask (·.isText v) then return some (.immediate (.ofChar (Char.ofNat byte.toNat)))
    else return some (.immediate (.ofNat byte.toNat))
  | .wordArray => return some (.immediate (.ofNat (← read (·.word v place)).toNat))
  | .floatArray =>
    let value ← read (·.floatElement v place)
    return some (← newFloat value)
  | _ => return none

/-- Makes a value an element. Answers whether the object takes it. -/
def writeElement (v : Value) (format : Format) (place : Nat) (value : Value) : Spec Bool := do
  match format with
  | .array =>
    write (·.storeElement v place value)
    return true
  | .byteArray =>
    match ← ask (·.byteCode? v value) with
    | some code =>
      if 0 ≤ code ∧ code < 256 then
        write (·.storeByte v place code.toNat.toUInt8)
        return true
      else return false
    | none => return false
  | .wordArray =>
    match value.small? with
    | some code =>
      if 0 ≤ code ∧ code < 4294967296 then
        write (·.storeWord v place code.toNat.toUInt32)
        return true
      else return false
    | none => return false
  | .floatArray =>
    match ← read (·.floatCode? value) with
    | some x =>
      write (·.storeFloat v place x)
      return true
    | none => return false
  | _ => return false

/-- The value that a primitive computes from its operands. There is none if it fails, or if it does
not answer a value. -/
def result : Primitive → Spec (Option Value)
  | .small op => do
    return (← smallOperands?).bind fun (a, b) => (Machine.smallResult? op a b).map .immediate
  | .smallCompare op => do boolean? ((← smallOperands?).map fun (a, b) => op.onIntegers a b)
  | .smallAsFloat => do number? ((← peek 0).small?.map fun value => .float (.ofInt value))
  | .smallAsCharacter => do
    return ((← peek 0).small?.bind Machine.characterOf?).map fun c => .immediate (.ofChar c)
  | .smallAtRandom => do
    match (← peek 0).small? with
    | some bound =>
      if 1 ≤ bound then
        let k ← choose (· < bound.toNat)
        return some (.immediate (.ofNat (k + 1)))
      else return none
    | none => return none
  | .integer op => do
    number? ((← integerOperands?).bind fun (a, b) => Machine.numberResult? op a b)
  | .integerCompare op => do
    boolean? ((← integerOperands?).map fun (a, b) => Machine.numberComparison op a b)
  | .integerPrint => do
    let receiver ← peek 0
    string? ((← read (·.integerValue? receiver)).map Text.decimal)
  | .float op => do
    number? ((← floatOperands?).bind fun (a, b) => (op.onFloats a b).map .float)
  | .floatCompare op => do boolean? ((← floatOperands?).map fun (a, b) => op.onFloats a b)
  | .floatTruncated => do
    let receiver ← peek 0
    number? (((← read (·.floatValue? receiver)).bind Binary64.truncate?).map .integer)
  | .floatPrint => do
    let receiver ← peek 0
    string? ((← read (·.floatValue? receiver)).map Binary64.text)
  | .elementAt => do
    let receiver ← peek 1
    let index ← peek 0
    match ← ask (·.elementPlace? receiver index) with
    | some (format, place) => readElement receiver format place
    | none => return none
  | .elementAtPut => do
    let receiver ← peek 2
    let index ← peek 1
    match ← ask (·.elementPlace? receiver index) with
    | some (format, place) =>
      let value ← peek 0
      return if ← writeElement receiver format place value then some value else none
    | none => return none
  | .size => do
    let receiver ← peek 0
    match ← ask (·.openFormat? receiver) with
    | some _ => return some (.immediate (.ofNat (← read (·.length receiver))))
    | none => return none
  | .basicNew => do instantiate (← peek 0) 0
  | .basicNewSized => do
    let cls ← peek 1
    match (← peek 0).small? with
    | some len => if 0 ≤ len then instantiate cls len.toNat else return none
    | none => return none
  | .fieldAt => do
    let receiver ← peek 1
    let index ← peek 0
    match ← ask (·.fieldPlace? receiver index) with
    | some place => return some (← read (·.field receiver place))
    | none => return none
  | .fieldAtPut => do
    let receiver ← peek 2
    let index ← peek 1
    match ← ask (·.fieldPlace? receiver index) with
    | some place =>
      let value ← peek 0
      write (·.storeField receiver place value)
      return some value
    | none => return none
  | .identityHash => do
    let receiver ← peek 0
    ask (·.identityHash? receiver)
  | .characterValue => do
    match ← peek 0 with
    | .immediate r =>
      return if r.isCharacter then some (.immediate (.ofNat r.charCode.toNat)) else none
    | .object _ => return none
  | .notIdentical => do
    let receiver ← peek 1
    let argument ← peek 0
    boolean? (some (decide (receiver = argument) == false))
  | .identical => do
    let receiver ← peek 1
    let argument ← peek 0
    boolean? (some (decide (receiver = argument) == true))
  | .classOf => do
    let receiver ← peek 0
    return some (← read (·.classOf receiver))
  | .fullCollection => do
    let reclaimed ← collectGarbage
    return some (.immediate ((Ref.ofInt? reclaimed).getD (.ofInt Ref.maxSmall)))
  | .blockValue | .blockValueWithArguments | .exit => return none

end Spec

/-- A small integer, if an integer is one. -/
theorem Placement.shows_ofInt? (p : Placement) (value : Int) :
    Option.Rel p.Shows (Ref.ofInt? value) ((Ref.ofInt? value).map .immediate) := by
  unfold Ref.ofInt?
  split
  · exact .some (p.shows_small _)
  · exact .none

namespace Simulates

variable {p : Placement} {r : Ref} {v : Value}

theorem smallOperands? :
    Simulates p (· = p) Machine.smallOperands? Spec.smallOperands? := by
  refine (peek 1).bind_still fun receiver receiverValue hr => ?_
  refine (peek 0).bind_still fun argument argumentValue ha => ?_
  rw [hr.small?_eq, ha.small?_eq]
  cases receiverValue.small? with
  | none => exact pure .none rfl
  | some a =>
    cases argumentValue.small? with
    | none => exact pure .none rfl
    | some b => exact pure (.some ⟨rfl, rfl⟩) rfl

theorem integerOperands? :
    Simulates p (· = p) Machine.integerOperands? Spec.integerOperands? := by
  refine (peek 1).bind_still fun receiver receiverValue hr => ?_
  refine (inspect (Reads.integerValue? hr)).bind_still fun a _ ha => ?_
  cases ha with
  | none => exact pure .none rfl
  | some heq =>
    cases heq
    refine (peek 0).bind_still fun argument argumentValue hargument => ?_
    refine (inspect (Reads.numeral? hargument)).bind_still fun b _ hb => ?_
    cases hb with
    | none => exact pure .none rfl
    | some heq =>
      cases heq
      exact pure (.some ⟨rfl, rfl⟩) rfl

theorem floatOperands? :
    Simulates p (· = p) Machine.floatOperands? Spec.floatOperands? := by
  refine (peek 1).bind_still fun receiver receiverValue hr => ?_
  refine (inspect (Reads.floatValue? hr)).bind_still fun a _ ha => ?_
  cases ha with
  | none => exact pure .none rfl
  | some heq =>
    cases heq
    refine (peek 0).bind_still fun argument argumentValue hargument => ?_
    refine (inspect (Reads.numeral? hargument)).bind_still fun b _ hb => ?_
    cases hb with
    | none => exact pure .none rfl
    | some heq =>
      cases heq
      exact pure (.some ⟨rfl, rfl⟩) rfl

theorem number? (value : Option Machine.Numeral) :
    Simulates p p.Steady (Primitive.number? value) (Spec.number? value) := by
  cases value with
  | none => exact pure .none (.refl p)
  | some value =>
    cases value with
    | integer value =>
      exact (newInteger value).bind_steady fun p' _ r v hr => pure (.some hr) (.refl p')
    | float value =>
      exact (newFloat value).bind_steady fun p' _ r v hr => pure (.some hr) (.refl p')

theorem boolean? (value : Option Bool) :
    Simulates p p.Steady (Primitive.boolean? value) (Spec.boolean? value) := by
  cases value with
  | none =>
    intro m g starts hm _
    exact ⟨none, g, p, starts, rfl, .refl p, .none, hm⟩
  | some value =>
    refine bind_core fun core c hcore => pure (.some ?_) (.refl p)
    cases value with
    | true => exact hcore.trueObject
    | false => exact hcore.falseObject

theorem string? (text : String) :
    Simulates p p.Steady (some <$> Machine.newString text : Action (Option Ref))
      (Spec.string? (some text)) :=
  (newString text).bind_steady fun p' _ _ _ hr => pure (.some hr) (.refl p')

/-- A look that always answers. -/
theorem look {α β : Type} [Depicted α β] {f : Machine → Except Fatal α} {φ : Graph → β}
    (hf : Reads p f fun g => some (φ g)) :
    Simulates p (· = p) (Action.inspect f) (Spec.ask φ) := by
  intro m g starts hm _
  obtain ⟨a, ha, hab⟩ := hf m g starts hm _ rfl
  unfold Action.inspect
  rw [ha]
  exact ⟨φ g, g, p, starts, rfl, rfl, hab, hm⟩

theorem lookAt {α β : Type} [Depicted α β] {f : Heap → Except Fatal α} {φ : Graph → β}
    (hf : Reads p (fun m => f m.heap) fun g => some (φ g)) :
    Simulates p (· = p) (Action.read f) (Spec.ask φ) := by
  intro m g starts hm _
  obtain ⟨a, ha, hab⟩ := hf m g starts hm _ rfl
  rw [Action.read_of_ok ha]
  exact ⟨φ g, g, p, starts, rfl, rfl, hab, hm⟩

theorem readElement (hr : p.Shows r v) (format : Format) (place : Nat) :
    Simulates p p.Steady (Machine.readElement r format place)
      (Spec.readElement v format place) := by
  cases format with
  | array =>
    exact (read (Reads.element hr place)).bind_still fun _ _ hs => pure (.some hs) (.refl p)
  | byteArray =>
    refine (read (Reads.byte hr place)).bind_still fun byte _ heq => ?_
    cases heq
    refine (look (Reads.isText hr)).bind_still fun text _ heq => ?_
    cases heq
    cases text with
    | true =>
      exact pure (.some (Placement.shows_immediate (Ref.not_isPointer_ofChar _))) (.refl p)
    | false => exact pure (.some (p.shows_ofNat _)) (.refl p)
  | wordArray =>
    refine (read (Reads.word hr place)).bind_still fun word _ heq => ?_
    cases heq
    exact pure (.some (p.shows_ofNat _)) (.refl p)
  | floatArray =>
    refine (read (Reads.floatElement hr place)).bind_still fun x _ heq => ?_
    cases heq
    exact (newFloat x).bind_steady fun p' _ _ _ hs => pure (.some hs) (.refl p')
  | plain | context | float | largeInteger => exact pure .none (.refl p)

theorem writeElement {value : Ref} {w : Value} (hr : p.Shows r v) (hw : p.Shows value w)
    (format : Format) (place : Nat) :
    Simulates p (· = p) (Machine.writeElement r format place value)
      (Spec.writeElement v format place w) := by
  cases format with
  | array => exact (write (Writes.storeElement hr hw)).bind_still fun _ _ _ => pure rfl rfl
  | byteArray =>
    refine (look (Reads.byteCode? hr hw)).bind_still fun code _ hcode => ?_
    cases hcode with
    | none => exact pure rfl rfl
    | some heq =>
      cases heq
      dsimp only
      split
      · exact (write (Writes.storeByte hr _)).bind_still fun _ _ _ => pure rfl rfl
      · exact pure rfl rfl
  | wordArray =>
    unfold Machine.writeElement Spec.writeElement
    dsimp only
    rw [hw.small?_eq]
    cases w.small? with
    | none => exact pure rfl rfl
    | some code =>
      dsimp only
      split
      · exact (write (Writes.storeWord hr _)).bind_still fun _ _ _ => pure rfl rfl
      · exact pure rfl rfl
  | floatArray =>
    refine (inspect (Reads.floatCode? hw)).bind_still fun x _ hx => ?_
    cases hx with
    | none => exact pure rfl rfl
    | some heq =>
      cases heq
      exact (write (Writes.storeFloat hr _)).bind_still fun _ _ _ => pure rfl rfl
  | plain | context | float | largeInteger => exact pure rfl rfl

/-- A random number is one of those it may be. -/
theorem atRandom {bound : Nat} (hbound : 0 < bound) :
    Simulates p (· = p) (do
      let state ← modifyGet fun m : Machine =>
        let state := Machine.nextRandom m.random
        (state, { m with random := state })
      return some (Ref.ofNat (state.toNat % bound + 1)))
    (do
      let k ← Spec.choose (· < bound)
      return some (Value.immediate (.ofNat (k + 1)))) := by
  intro m g starts hm _
  refine ⟨_, g, p, starts, ⟨_, ⟨(Machine.nextRandom m.random).toNat % bound, Nat.mod_lt _ hbound,
    rfl⟩, rfl⟩, rfl, .some (p.shows_ofNat _), ?_⟩
  exact { hm with
    roots := { hm.roots with }
    positions := fun c hc => (hm.positions c hc).congr (fun _ => .refl _) rfl }

theorem eq_of_shows {α : Type} {a b : Option α} (h : Option.Rel (fun x y : α => x = y) a b) :
    a = b := by
  cases h with
  | none => rfl
  | some hab => exact congrArg some hab

theorem eq_of_shows_pair {α β : Type} {a b : Option (α × β)}
    (h : Option.Rel (fun x y : α × β => x.1 = y.1 ∧ x.2 = y.2) a b) : a = b := by
  cases h with
  | none => rfl
  | some hab => exact congrArg some (Prod.ext hab.1 hab.2)

/-- The value that a primitive computes. -/
theorem result (primitive : Primitive) :
    Simulates p p.Steady primitive.result (Spec.result primitive) := by
  cases primitive with
  | small op =>
    refine smallOperands?.bind_still fun operands _ hoperands => ?_
    cases eq_of_shows_pair hoperands
    refine pure ?_ (.refl p)
    cases operands with
    | none => exact .none
    | some operands =>
      show Option.Rel p.Shows ((op.onSmall _ _).bind Ref.ofInt?)
        (((op.onSmall _ _).bind Ref.ofInt?).map _)
      cases op.onSmall operands.1 operands.2 with
      | none => exact .none
      | some value => exact p.shows_ofInt? value
  | smallCompare op =>
    refine smallOperands?.bind_still fun operands _ hoperands => ?_
    cases eq_of_shows_pair hoperands
    exact boolean? _
  | smallAsFloat =>
    refine (peek 0).bind_still fun receiver receiverValue hr => ?_
    rw [hr.small?_eq]
    exact number? _
  | smallAsCharacter =>
    refine (peek 0).bind_still fun receiver receiverValue hr => ?_
    rw [hr.small?_eq]
    cases receiverValue.small?.bind Machine.characterOf? with
    | none => exact pure .none (.refl p)
    | some c => exact pure (.some (Placement.shows_immediate (Ref.not_isPointer_ofChar c))) (.refl p)
  | smallAtRandom =>
    refine (peek 0).bind_still fun receiver receiverValue hr => ?_
    rw [hr.small?_eq]
    cases receiverValue.small? with
    | none => exact pure .none (.refl p)
    | some bound =>
      dsimp only
      split
      · exact (atRandom (by omega)).steady
      · exact pure .none (.refl p)
  | integer op =>
    refine integerOperands?.bind_still fun operands _ hoperands => ?_
    cases eq_of_shows_pair hoperands
    exact number? _
  | integerCompare op =>
    refine integerOperands?.bind_still fun operands _ hoperands => ?_
    cases eq_of_shows_pair hoperands
    exact boolean? _
  | integerPrint =>
    refine (peek 0).bind_still fun receiver receiverValue hr => ?_
    refine (inspect (Reads.integerValue? hr)).bind_still fun value _ hvalue => ?_
    cases eq_of_shows hvalue
    cases value with
    | none => exact pure .none (.refl p)
    | some value => exact string? _
  | float op =>
    refine floatOperands?.bind_still fun operands _ hoperands => ?_
    cases eq_of_shows_pair hoperands
    exact number? _
  | floatCompare op =>
    refine floatOperands?.bind_still fun operands _ hoperands => ?_
    cases eq_of_shows_pair hoperands
    exact boolean? _
  | floatTruncated =>
    refine (peek 0).bind_still fun receiver receiverValue hr => ?_
    refine (inspect (Reads.floatValue? hr)).bind_still fun value _ hvalue => ?_
    cases eq_of_shows hvalue
    exact number? _
  | floatPrint =>
    refine (peek 0).bind_still fun receiver receiverValue hr => ?_
    refine (inspect (Reads.floatValue? hr)).bind_still fun value _ hvalue => ?_
    cases eq_of_shows hvalue
    cases value with
    | none => exact pure .none (.refl p)
    | some value => exact string? _
  | elementAt =>
    refine (peek 1).bind_still fun receiver receiverValue hr => ?_
    refine (peek 0).bind_still fun index indexValue hi => ?_
    refine (look (Reads.elementPlace? hr hi)).bind_still fun place _ hplace => ?_
    cases eq_of_shows_pair hplace
    cases place with
    | none => exact pure .none (.refl p)
    | some place => exact readElement hr _ _
  | elementAtPut =>
    refine (peek 2).bind_still fun receiver receiverValue hr => ?_
    refine (peek 1).bind_still fun index indexValue hi => ?_
    refine (look (Reads.elementPlace? hr hi)).bind_still fun place _ hplace => ?_
    cases eq_of_shows_pair hplace
    cases place with
    | none => exact pure .none (.refl p)
    | some place =>
      refine (peek 0).bind_still fun value w hw => ?_
      refine (writeElement hr hw _ _).bind_still fun written _ heq => ?_
      cases heq
      cases written with
      | true => exact pure (.some hw) (.refl p)
      | false => exact pure .none (.refl p)
  | size =>
    refine (peek 0).bind_still fun receiver receiverValue hr => ?_
    refine (look (Reads.openFormat? hr)).bind_still fun format _ hformat => ?_
    cases eq_of_shows hformat
    cases format with
    | none => exact pure .none (.refl p)
    | some format =>
      refine (read (Reads.length hr)).bind_still fun len _ heq => ?_
      cases heq
      exact pure (.some (p.shows_ofNat _)) (.refl p)
  | basicNew => exact (peek 0).bind_still fun cls clsValue hcls => instantiate hcls
  | basicNewSized =>
    refine (peek 1).bind_still fun cls clsValue hcls => ?_
    refine (peek 0).bind_still fun len lenValue hlen => ?_
    rw [hlen.small?_eq]
    cases lenValue.small? with
    | none => exact pure .none (.refl p)
    | some len =>
      dsimp only
      split
      · exact instantiate hcls
      · exact pure .none (.refl p)
  | fieldAt =>
    refine (peek 1).bind_still fun receiver receiverValue hr => ?_
    refine (peek 0).bind_still fun index indexValue hi => ?_
    refine (look (Reads.fieldPlace? hr hi)).bind_still fun place _ hplace => ?_
    cases eq_of_shows hplace
    cases place with
    | none => exact pure .none (.refl p)
    | some place =>
      exact (read (Reads.field hr place)).bind_still fun _ _ hs => pure (.some hs) (.refl p)
  | fieldAtPut =>
    refine (peek 2).bind_still fun receiver receiverValue hr => ?_
    refine (peek 1).bind_still fun index indexValue hi => ?_
    refine (look (Reads.fieldPlace? hr hi)).bind_still fun place _ hplace => ?_
    cases eq_of_shows hplace
    cases place with
    | none => exact pure .none (.refl p)
    | some place =>
      refine (peek 0).bind_still fun value w hw => ?_
      exact (write (Writes.storeField hr hw)).bind_still fun _ _ _ => pure (.some hw) (.refl p)
  | identityHash =>
    exact (peek 0).bind_still fun receiver receiverValue hr =>
      (look (Reads.identityHash? hr)).steady
  | characterValue =>
    refine (peek 0).bind_still fun receiver receiverValue hr => ?_
    cases receiverValue with
    | immediate r' =>
      obtain ⟨rfl, -⟩ := hr
      dsimp only
      split
      · exact pure (.some (p.shows_ofNat _)) (.refl p)
      · exact pure .none (.refl p)
    | object n =>
      rw [if_neg (by rw [hr.isCharacter_eq]; exact Bool.false_ne_true)]
      exact pure .none (.refl p)
  | notIdentical =>
    refine (peek 1).bind_still fun receiver receiverValue hr => ?_
    refine (peek 0).bind_still fun argument argumentValue ha => ?_
    rw [decide_eq_decide.mpr (hr.eq_iff ha)]
    exact boolean? _
  | identical =>
    refine (peek 1).bind_still fun receiver receiverValue hr => ?_
    refine (peek 0).bind_still fun argument argumentValue ha => ?_
    rw [decide_eq_decide.mpr (hr.eq_iff ha)]
    exact boolean? _
  | classOf =>
    refine (peek 0).bind_still fun receiver receiverValue hr => ?_
    exact (inspect (Reads.classOf hr)).bind_still fun _ _ hs => pure (.some hs) (.refl p)
  | fullCollection =>
    refine collectGarbage.bind_steady fun p' _ reclaimed _ heq => ?_
    cases heq
    refine pure (.some ?_) (.refl p')
    cases hint : Ref.ofInt? (reclaimed : Int) with
    | none => exact p'.shows_small _
    | some r =>
      unfold Ref.ofInt? at hint
      split at hint
      · cases hint
        exact p'.shows_small _
      · cases hint
  | blockValue | blockValueWithArguments | exit => exact pure .none (.refl p)

end Simulates

/-! ## Verdicts -/

/-- What a primitive comes to, wherever objects are. -/
inductive Graph.Verdict where
  | done
  | failed
  | exit (v : Value)

/-- A primitive comes to the same. -/
inductive Placement.ShowsVerdict (p : Placement) : Verdict → Graph.Verdict → Prop where
  | done : ShowsVerdict p .done .done
  | failed : ShowsVerdict p .failed .failed
  | exit {r : Ref} {v : Value} (hr : p.Shows r v) : ShowsVerdict p (.exit r) (.exit v)

instance : Depicted Verdict Graph.Verdict := ⟨fun p a b => p.ShowsVerdict a b⟩

/-- The elements of an object at some indices. -/
def Graph.elementsAt (g : Graph) (v : Value) : List Nat → Option (List Value)
  | [] => some []
  | i :: rest => do
    let w ← g.element v i
    return w :: (← elementsAt g v rest)

/-- The arguments that an array holds for a block, if they are as many as it takes and there is room
for them on the stack. -/
def Graph.spreadArguments? (g : Graph) (block arguments : Value) : Option (Option (List Value)) :=
  if g.isInstance .blockContext block then do
    let arity ← (← g.field block Context.argCountField).bits?
    if g.isInstance .array arguments then do
      if (← g.length arguments) = arity.toCount then do
        if (← g.stackRoom) + 1 < arity.toCount then some none
        else (g.elementsAt arguments (List.range arity.toCount)).map some
      else some none
    else some none
  else some none

namespace Spec

/-- Replaces the receiver and the arguments by a value if there is one, and fails otherwise. -/
def answer? (argCount : Nat) : Option Value → Spec Graph.Verdict
  | some v => do
    replaceTop (argCount + 1) v
    return .done
  | none => return .failed

/-- Goes on only with the right number of arguments. -/
def expecting (expected argCount : Nat) (x : Spec Graph.Verdict) : Spec Graph.Verdict :=
  if argCount = expected then x else return .failed

/-- Evaluates a block with the arguments on the stack, if they are as many as it takes. -/
def blockValue (argCount : Nat) : Spec Graph.Verdict := do
  let block ← peek argCount
  if ← read (·.isBlockOf argCount block) then
    activateBlock argCount
    return .done
  else return .failed

/-- Evaluates a block with the arguments in an array. -/
def blockValueWithArguments : Spec Graph.Verdict := do
  let block ← peek 1
  let arguments ← peek 0
  match ← read (·.spreadArguments? block arguments) with
  | some values =>
    let _ ← pop
    pushAll values
    activateBlock values.length
    return .done
  | none => return .failed

/-- Ends the run. -/
def exit : Spec Graph.Verdict := return .exit (← peek 0)

/-- Does what a primitive stands for. -/
def runPrimitive (primitive : Primitive) (argCount : Nat) : Spec Graph.Verdict :=
  match primitive with
  | .blockValue => blockValue argCount
  | .blockValueWithArguments => expecting 1 argCount blockValueWithArguments
  | .exit => expecting 1 argCount exit
  | primitive =>
    expecting primitive.arity argCount (result primitive >>= answer? primitive.arity)

/-- Does what the primitive with an index stands for. -/
def invoke (index argCount : Nat) : Spec Graph.Verdict :=
  match Primitive.ofIndex? index with
  | some primitive => runPrimitive primitive argCount
  | none => return .failed

end Spec

namespace Reads

variable {p : Placement} {r s : Ref} {v w : Value}

theorem elementsAt (hr : p.Shows r v) (indices : List Nat) :
    Reads p (fun m => indices.mapM (m.heap.fetchElement r ·)) (·.elementsAt v indices) := by
  refine .intro fun m g starts hm => ?_
  induction indices with
  | nil =>
    intro b hb
    cases hb
    exact ⟨_, rfl, .nil⟩
  | cons i rest ih =>
    intro b hb
    obtain ⟨x, hx, hb⟩ := Option.bind_eq_some_iff.mp hb
    obtain ⟨others, hothers, hb⟩ := Option.bind_eq_some_iff.mp hb
    cases hb
    obtain ⟨a, ha, hax⟩ := (element hr i).ok hm hx
    obtain ⟨refs, hrefs, hall⟩ := ih others hothers
    rw [List.mapM_cons, ha]
    show ∃ a, (rest.mapM _ >>= fun bs => _) = Except.ok a ∧ _
    rw [hrefs]
    exact ⟨_, rfl, .cons hax hall⟩

theorem spreadArguments? (hr : p.Shows r v) (hs : p.Shows s w) :
    Reads p (fun m => m.spreadArguments? r s) (·.spreadArguments? v w) := by
  refine .intro fun m g starts hm b hb => ?_
  obtain ⟨_, hblock, rfl⟩ := (isInstance hr .blockContext).ok hm rfl
  obtain ⟨_, harray, rfl⟩ := (isInstance hs .array).ok hm rfl
  show ∃ a, (m.isInstance .blockContext r >>= fun block => if !block then .ok none
    else Context.blockArgCount m.heap r >>= fun arity =>
      m.isInstance .array s >>= fun array => if !array then .ok none
      else m.heap.length s >>= fun len => if len ≠ arity then .ok none
      else m.stackRoom >>= fun room => if room + 1 < arity then .ok none
      else (List.range arity).mapM (m.heap.fetchElement s ·) >>= fun values => .ok (some values)) =
    .ok a ∧ _
  rw [hblock]
  unfold Graph.spreadArguments? at hb
  split at hb
  · rename_i hyes
    rw [hyes]
    obtain ⟨field, hfield, hb⟩ := Option.bind_eq_some_iff.mp hb
    obtain ⟨word, hword, hb⟩ := Option.bind_eq_some_iff.mp hb
    obtain ⟨a, ha, hshows⟩ := (Reads.field hr Context.argCountField).ok hm hfield
    cases field with
    | object n => cases hword
    | immediate r' =>
      cases hword
      obtain ⟨rfl, -⟩ := hshows
      have harity : Context.blockArgCount m.heap r = .ok a.toCount := by
        unfold Context.blockArgCount
        rw [ha]
        rfl
      show ∃ a, (Context.blockArgCount m.heap r >>= fun arity => _) = Except.ok a ∧ _
      rw [harity]
      show ∃ a, (m.isInstance .array s >>= fun array => _) = Except.ok a ∧ _
      rw [harray]
      replace hb : (if g.isInstance .array w = true then _ else _) = some b := hb
      split at hb
      · rename_i hyes
        rw [hyes]
        obtain ⟨len, hlen, hb⟩ := Option.bind_eq_some_iff.mp hb
        obtain ⟨_, hread, rfl⟩ := (length hs).ok hm hlen
        show ∃ a, (m.heap.length s >>= fun len => _) = Except.ok a ∧ _
        rw [hread]
        split at hb
        · rename_i hsame
          obtain ⟨room, hroom, hb⟩ := Option.bind_eq_some_iff.mp hb
          obtain ⟨_, hstack, rfl⟩ := stackRoom.ok hm hroom
          show ∃ b, (if _ ≠ a.toCount then _ else m.stackRoom >>= fun room => _) = Except.ok b ∧ _
          rw [if_neg (not_not_intro hsame), hstack]
          split at hb
          · rename_i hlt
            cases hb
            exact ⟨none, if_pos hlt, .none⟩
          · rename_i hlt
            obtain ⟨values, hvalues, rfl⟩ := Option.map_eq_some_iff.mp hb
            obtain ⟨refs, hrefs, hall⟩ := (elementsAt hs _).ok hm hvalues
            refine ⟨some refs, ?_, .some hall⟩
            refine (if_neg hlt).trans ?_
            rw [hrefs]
            rfl
        · rename_i hdiffer
          cases hb
          exact ⟨none, if_pos hdiffer, .none⟩
      · rename_i hno
        cases hb
        rw [Bool.eq_false_iff.mpr hno]
        exact ⟨_, rfl, .none⟩
  · rename_i hno
    cases hb
    rw [Bool.eq_false_iff.mpr hno]
    exact ⟨_, rfl, .none⟩

end Reads

namespace Simulates

variable {p : Placement}

theorem answer? (argCount : Nat) {value : Option Ref} {w : Option Value}
    (hvalue : Option.Rel p.Shows value w) :
    Simulates p (· = p) (Machine.answer? argCount value) (Spec.answer? argCount w) := by
  cases hvalue with
  | none => exact pure .failed rfl
  | some hr => exact (replaceTop _ hr).bind_still fun _ _ _ => pure .done rfl

theorem expecting {x : Action Verdict} {y : Spec Graph.Verdict} (expected argCount : Nat)
    (hx : Simulates p p.Steady x y) :
    Simulates p p.Steady (Machine.expecting expected argCount x)
      (Spec.expecting expected argCount y) := by
  unfold Machine.expecting Spec.expecting
  split
  · exact hx
  · exact pure .failed (.refl p)

theorem blockValue (argCount : Nat) :
    Simulates p p.Steady (Machine.blockValue argCount) (Spec.blockValue argCount) := by
  refine (peek argCount).bind_still fun block blockValue hblock => ?_
  refine (inspect (Reads.isBlockOf argCount hblock)).bind_still fun isBlock _ heq => ?_
  cases heq
  cases isBlock with
  | true =>
    exact (activateBlock argCount).bind_steady fun p' _ _ _ _ => pure .done (.refl p')
  | false => exact pure .failed (.refl p)

theorem blockValueWithArguments :
    Simulates p p.Steady Machine.blockValueWithArguments Spec.blockValueWithArguments := by
  refine (peek 1).bind_still fun block blockValue hblock => ?_
  refine (peek 0).bind_still fun arguments argumentsValue harguments => ?_
  refine (inspect (Reads.spreadArguments? hblock harguments)).bind_still fun spread _ hspread => ?_
  cases hspread with
  | none => exact pure .failed (.refl p)
  | @some refs values hall =>
    refine pop.bind_still fun _ _ _ => ?_
    refine (pushAll hall).bind_still fun _ _ _ => ?_
    rw [show refs.length = values.length from List.Forall₂.length_eq hall]
    exact (activateBlock _).bind_steady fun p' _ _ _ _ => pure .done (.refl p')

theorem exit : Simulates p (· = p) Machine.exit Spec.exit :=
  (peek 0).bind_still fun _ _ hr => pure (.exit hr) rfl

theorem runPrimitive (primitive : Primitive) (argCount : Nat) :
    Simulates p p.Steady (primitive.run argCount) (Spec.runPrimitive primitive argCount) := by
  by_cases hflow : primitive.changesFlow = true
  · cases primitive <;> first
      | exact blockValue argCount
      | exact expecting 1 argCount blockValueWithArguments
      | exact expecting 1 argCount exit.steady
      | cases hflow
  · have hanswer : Simulates p p.Steady (primitive.result >>= Machine.answer? primitive.arity)
        (Spec.result primitive >>= Spec.answer? primitive.arity) :=
      (result primitive).bind_steady fun _ _ _ _ hvalue => (answer? _ hvalue).steady
    rw [Primitive.run_eq primitive (Bool.eq_false_iff.mpr hflow)]
    cases primitive <;> first
      | exact expecting _ argCount hanswer
      | exact absurd rfl hflow

/-- The primitive with an index. -/
theorem invoke (index argCount : Nat) :
    Simulates p p.Steady (Machine.invoke index argCount) (Spec.invoke index argCount) := by
  unfold Machine.invoke Spec.invoke
  cases Primitive.ofIndex? index with
  | none => exact pure .failed (.refl p)
  | some primitive => exact runPrimitive primitive argCount

end Simulates

end ObjectMachine
