import ObjectMachine.Proofs.Machine.Operands
import ObjectMachine.Proofs.Primitive.Results

/-!
# Computing leaves the stack alone

While a primitive computes its result it may allocate, and so collect, and two primitives store to
their receiver. Objects are allocated behind all others, and no store goes to an element of a
context, so what is on the stack of the active context stays, or moves with it. Where there is no
result nothing was stored, and at most one collection has run.

## Main results

* `Machine.Working.instantiate`: making an instance, or not, leaves the stack alone.
* `Machine.Working.result`: so does every primitive that does not change the flow.
-/

namespace ObjectMachine

theorem Ref.lt_of_indexInto? {index : Ref} {count place : Nat}
    (h : index.indexInto? count = some place) : place < count := by
  unfold Ref.indexInto? at h
  split at h
  · split at h
    · cases h
      omega
    · cases h
  · cases h

/-! ## Words below a position -/

namespace Heap

/-- Memory of the same size in which no word below a position changed. -/
structure Spares (p : Nat) (h h' : Heap) : Prop where
  size : h'.memory.size = h.memory.size
  below : ∀ q < p, h'.cell q = h.cell q

namespace Spares

variable {p q : Nat} {h h' h'' : Heap} {r : Ref}

theorem refl (p : Nat) (h : Heap) : h.Spares p h :=
  ⟨rfl, fun _ _ => rfl⟩

theorem trans (hs : h.Spares p h') (hs' : h'.Spares p h'') : h.Spares p h'' :=
  ⟨hs'.size.trans hs.size, fun q hq => (hs'.below q hq).trans (hs.below q hq)⟩

theorem setWord {value : UInt64} (hok : h.setWord q value = .ok h') (hq : p ≤ q) :
    h.Spares p h' := by
  by_cases hlt : q < h.memory.size
  · rw [setWord_eq hlt] at hok
    cases hok
    exact ⟨size_poke .., fun l hl => cell_poke_ne (by omega) _⟩
  · simp [Heap.setWord, hlt] at hok

theorem setFloatValue {value : Binary64} (hok : h.setFloatValue r value = .ok h') :
    h.Spares r.wordIndex h' := by
  unfold Heap.setFloatValue at hok
  obtain ⟨-, -, hok⟩ := bind_eq_ok.mp hok
  exact setWord hok (by omega)

theorem onLargeIntegers {α : Type} {f : LargeIntegers → Except Fatal (α × LargeIntegers)} {x : α}
    (hok : h.onLargeIntegers f = .ok (x, h')) : h.Spares p h' := by
  unfold Heap.onLargeIntegers at hok
  split at hok
  split at hok
  · cases hok
    exact ⟨rfl, fun _ _ => rfl⟩
  · cases hok

theorem setLargeInteger {value : Int} (hok : h.setLargeInteger r value = .ok h') :
    h.Spares r.wordIndex h' := by
  unfold Heap.setLargeInteger at hok
  obtain ⟨-, -, hok⟩ := bind_eq_ok.mp hok
  obtain ⟨slot, -, hok⟩ := bind_eq_ok.mp hok
  split at hok
  · obtain ⟨⟨slot', h₁⟩, htable, hok⟩ := bind_eq_ok.mp hok
    exact (onLargeIntegers htable).trans (setWord hok (by omega))
  · obtain ⟨x, htable, hok⟩ := bind_eq_ok.mp hok
    cases hok
    exact onLargeIntegers htable

theorem setByteAtOffset {offset : Nat} {value : UInt8}
    (hok : h.setByteAtOffset offset value = .ok h') (hoffset : p * 8 ≤ offset) :
    h.Spares p h' := by
  unfold Heap.setByteAtOffset at hok
  split at hok
  · exact setWord hok (by omega)
  · cases hok

theorem setBytesFrom {offset : Nat} {values : List UInt8}
    (hok : h.setBytesFrom offset values = .ok h') (hoffset : p * 8 ≤ offset) : h.Spares p h' := by
  induction values generalizing h offset with
  | nil =>
    cases hok
    exact refl ..
  | cons value rest ih =>
    obtain ⟨h₁, hbyte, hrest⟩ := bind_eq_ok.mp hok
    exact (setByteAtOffset hbyte hoffset).trans (ih hrest (by omega))

theorem storeBytes {values : List UInt8} (hok : h.storeBytes r values = .ok h') :
    h.Spares r.wordIndex h' := by
  unfold Heap.storeBytes at hok
  obtain ⟨len, -, hok⟩ := bind_eq_ok.mp hok
  obtain ⟨-, -, hok⟩ := bind_eq_ok.mp hok
  obtain ⟨offset, hoffset, hok⟩ := bind_eq_ok.mp hok
  refine setBytesFrom hok ?_
  unfold Heap.bytesOffset Heap.elementsIndex at hoffset
  split at hoffset
  · rename_i index hindex
    split at hindex
    · cases hindex
      cases hoffset
      simp only [wordBytes]
      omega
    · cases hindex
  · cases hoffset

end Spares

theorem slot_congr {h h' : Heap} {p : Nat} (hp : p < h.memory.size)
    (hsize : h.memory.size ≤ h'.memory.size) (hcell : h'.cell p = h.cell p) :
    h'.slot p = h.slot p := by
  rw [slot_eq hp, slot_eq (Nat.lt_of_lt_of_le hp hsize), hcell]

end Heap

/-! ## The stack while a primitive computes -/

namespace Machine

open ObjectMachine.Action

variable {m n m' : Machine} {starts : List Nat} {i k : Nat} {f g : Ref → Ref} {r cls : Ref}
  {format : Format} {fields len : Nat}

/-- A machine with the same stack as another one, after some collections that take the objects to
where `f` says. -/
def KeepsStack (m : Machine) (f : Ref → Ref) (m' : Machine) : Prop :=
  ∃ n, Collections m f n ∧ m'.registers = n.registers ∧ ∀ k < m.registers.sp,
    m'.heap.slot (n.registers.stackBase + k) = n.heap.slot (n.registers.stackBase + k)

/-- A machine that is what it was, or what a collection made of it. -/
def Idles (m m' : Machine) : Prop :=
  m' = m ∨ ∃ f starts, m.CollectsTo m' f ∧ m'.Working starts ∧ m'.heap.sinceCollection = 0

/-- What a primitive may leave behind once it has a value, or has none. -/
def Computes (m : Machine) (value : Option Ref) (m' : Machine) : Prop :=
  match value with
  | some _ => ∃ f, m.KeepsStack f m'
  | none => m.Idles m'

theorem Collections.keepsStack (hf : Collections m f n) : m.KeepsStack f n :=
  ⟨n, hf, rfl, fun _ _ => rfl⟩

theorem Computes.same (m : Machine) (value : Option Ref) : m.Computes value m := by
  cases value with
  | none => exact .inl rfl
  | some value => exact ⟨id, (Collections.none m).keepsStack⟩

/-- The slots of the stack lie inside memory that is in use. -/
theorem Activated.slot_lt_top (hm : m.Activated starts) (hk : k < m.registers.sp) :
    m.registers.stackBase + k < m.heap.top := by
  obtain ⟨a, ha, hactive, -⟩ := hm.context
  obtain ⟨hin, hbase, -⟩ := hm.slot_operand ha hactive (Nat.lt_of_lt_of_le hk hm.sp_le)
  have := hm.laidOut.fits ha
  omega

/-- An object that is allocated, and what is stored to it, leaves the stack alone. -/
theorem Places.keepsStack {h : Heap} (hp : n.Places cls format fields len r m')
    (hf : Collections m f n) (hs : m'.heap.Spares r.wordIndex h) :
    ∃ g, m.KeepsStack g { m' with heap := h } := by
  obtain ⟨n', g, starts', h', hg, hn, -, ha, rfl, rfl⟩ := hp
  have hindex : (Ref.ofWordIndex n'.heap.top).wordIndex = n'.heap.top := by
    apply Ref.wordIndex_ofWordIndex
    have haddr := ha.addressable hn.laidOut hn.reserved
    have hcommitted := ha.committed
    have htop := ha.top
    have hsize := format.two_le_sizeInWords fields len
    omega
  rw [hindex] at hs
  refine ⟨_, n', hf.trans hg, rfl, ?_⟩
  intro k hk
  have hlt := hn.slot_lt_top (k := k) (by rw [hg.sp_eq, hf.sp_eq]; exact hk)
  refine Heap.slot_congr (Nat.lt_of_lt_of_le hlt hn.laidOut.committed) ?_ ?_
  · exact ha.grown.trans_eq hs.size.symm
  · exact (hs.below _ hlt).trans (ha.below _ hlt)

/-! ## Values -/

/-- An action that changes nothing. -/
def LooksOnly {α : Type} (x : Action α) : Prop :=
  ∀ m, (x m).Meets (fun _ m' => m' = m) fun _ => False

namespace LooksOnly

variable {α β : Type}

theorem pure (a : α) : LooksOnly (Pure.pure a) := fun _ => rfl

theorem getCore : LooksOnly Action.getCore := fun _ => rfl

theorem inspect (f : Machine → Except Fatal α) : LooksOnly (Action.inspect f) := by
  intro m
  unfold Action.inspect
  cases f m with
  | ok a => rfl
  | error cause => trivial

theorem read (f : Heap → Except Fatal α) : LooksOnly (Action.read f) :=
  inspect fun m => f m.heap

theorem bind {x : Action α} {f : α → Action β} (hx : LooksOnly x) (hf : ∀ a, LooksOnly (f a)) :
    LooksOnly (x >>= f) := by
  intro m
  refine .bind (hx m) ?_
  rintro a _ rfl
  exact hf a _

theorem computes {x : Action (Option Ref)} (hx : LooksOnly x) (m : Machine) :
    (x m).Meets m.Computes fun _ => False := by
  refine (hx m).mono ?_ fun _ h => h
  rintro value _ rfl
  exact .same _ value

/-- What is only looked at is there for what comes next. -/
theorem then_ {x : Action α} {f : α → Action β} {Q : β → Machine → Prop} (hx : LooksOnly x)
    (hf : ∀ a, (f a m).Meets Q fun _ => False) : ((x >>= f) m).Meets Q fun _ => False := by
  refine .bind (hx m) ?_
  rintro a _ rfl
  exact hf a

end LooksOnly

theorem looksOnly_smallOperands? : LooksOnly smallOperands? := by
  refine .bind (.inspect _) fun receiver => .bind (.inspect _) fun argument => ?_
  cases receiver.small? <;> cases argument.small? <;> exact .pure _

theorem looksOnly_integerOperands? : LooksOnly integerOperands? := by
  refine .bind (.inspect _) fun receiver => .bind (.inspect _) fun value => ?_
  cases value with
  | none => exact .pure _
  | some a => exact .bind (.inspect _) fun _ => .bind (.inspect _) fun _ => .pure _

theorem looksOnly_floatOperands? : LooksOnly floatOperands? := by
  refine .bind (.inspect _) fun receiver => .bind (.inspect _) fun value => ?_
  cases value with
  | none => exact .pure _
  | some a => exact .bind (.inspect _) fun _ => .bind (.inspect _) fun _ => .pure _

theorem looksOnly_boolean? (value : Option Bool) : LooksOnly (Primitive.boolean? value) :=
  .bind .getCore fun _ => .pure _

namespace Working

theorem newFloat (hm : m.Working starts) (value : Binary64) :
    (m.newFloat value).Meets (fun r => m.Computes (some r)) fun _ => False := by
  unfold Machine.newFloat
  refine .step rfl (.bind_of_never (hm.allocate (hm.known (root_cls m .float))) ?_)
  intro r n hp
  exact .write fun h hok => hp.keepsStack (.none m) (.setFloatValue hok)

theorem newBytes (hm : m.Working starts) (hcls : Known starts cls) (bytes : List UInt8) :
    (m.newBytes cls bytes).Meets (fun r => m.Computes (some r)) fun _ => False := by
  unfold Machine.newBytes
  refine .bind_of_never (hm.allocate hcls) ?_
  intro r n hp
  exact .write fun h hok => hp.keepsStack (.none m) (.storeBytes hok)

theorem newString (hm : m.Working starts) (text : String) :
    (m.newString text).Meets (fun r => m.Computes (some r)) fun _ => False := by
  unfold Machine.newString
  exact .step rfl (hm.newBytes (hm.known (root_cls m .string)) _)

theorem newInteger (hm : m.Working starts) (value : Int) :
    (m.newInteger value).Meets (fun r => m.Computes (some r)) fun _ => False := by
  unfold Machine.newInteger
  cases Ref.ofInt? value with
  | some r => exact Computes.same m (some r)
  | none =>
    refine .step rfl (.bind_of_never (hm.allocate (hm.known (root_cls m .largeInteger))) ?_)
    intro r n hp
    exact .write fun h hok => hp.keepsStack (.none m) (.setLargeInteger hok)

theorem number? (hm : m.Working starts) (value : Option Numeral) :
    (Primitive.number? value m).Meets m.Computes fun _ => False := by
  cases value with
  | none => exact .inl rfl
  | some value =>
    refine .bind_of_never (R := fun r => m.Computes (some r)) ?_ fun r n h => h
    cases value with
    | integer value => exact hm.newInteger value
    | float value => exact hm.newFloat value

theorem text (hm : m.Working starts) (value : String) :
    ((some <$> Machine.newString value : Action (Option Ref)) m).Meets m.Computes
      fun _ => False :=
  .bind_of_never (hm.newString value) fun _ _ h => h

/-- An instance is made, or there is none after at most one collection. -/
theorem instantiate (hm : m.Working starts) (hcls : Known starts cls) (len : Nat) :
    (m.instantiate cls len).Meets m.Computes fun _ => False := by
  have hmade : ∀ {n f starts' cls'} (spec : InstanceSpec), Collections m f n → n.Working starts' →
      Known starts' cls' →
      ((do return some (← Machine.allocate cls' spec.format spec.fields len) :
        Action (Option Ref)) n).Meets m.Computes fun _ => False := by
    intro n f starts' cls' spec hf hn hcls'
    refine .bind_of_never (hn.allocate hcls') ?_
    intro r n' hp
    exact hp.keepsStack hf (.refl _ _)
  have hnone : Outcome.Meets (.ok none m) m.Computes fun _ => False := .inl rfl
  unfold Machine.instantiate
  split
  · exact hnone
  refine .read fun fields _ => ?_
  split
  · exact hnone
  refine .read fun spec? hok => ?_
  cases spec? with
  | none => exact hnone
  | some spec =>
    dsimp only
    split
    · exact hnone
    refine .lift fun words _ => .read fun room _ => ?_
    split
    · exact hmade spec (.none m) hm hcls
    · rcases hm.collectKeeping hcls with hstopped | ⟨n, f, starts', hok, hstep, hn, hcls'⟩
      · rw [Action.bind_of_stopped hstopped]
        trivial
      · refine .step hok (.read fun room _ => ?_)
        split
        · exact hmade spec (.after (.none m) hm hstep) hn hcls'
        · exact .inr ⟨f, starts', hstep, hn, (collectKeeping_counts m cls).of_ok hok⟩

end Working

/-! ## Stores -/

/-- A store to an object leaves the stack alone if it leaves the elements of the active context
alone. -/
theorem Activated.keepsStack (hm : m.Activated starts) {h : Heap} {first last : Nat}
    (hw : m.heap.Within first last h)
    (hapart : ∀ k < m.registers.sp,
      m.registers.stackBase + k < first ∨ last ≤ m.registers.stackBase + k) :
    m.KeepsStack id { m with heap := h } := by
  refine ⟨m, .none m, rfl, ?_⟩
  intro k hk
  have hlt := Nat.lt_of_lt_of_le (hm.slot_lt_top hk) hm.laidOut.committed
  exact Heap.slot_congr hlt hw.size.ge (hw.outside _ (hapart k hk))

/-- The stack lies outside all objects but the active context. -/
theorem Activated.slot_apart (hm : m.Activated starts) (hi : i ∈ starts)
    (hne : m.registers.activeContext ≠ .ofWordIndex i) (hk : k < m.registers.sp) :
    m.registers.stackBase + k < i ∨ i + (m.heap.view i).size ≤ m.registers.stackBase + k := by
  obtain ⟨a, ha, hactive, -⟩ := hm.context
  obtain ⟨hin, hbase, -⟩ := hm.slot_operand ha hactive (Nat.lt_of_lt_of_le hk hm.sp_le)
  rcases Nat.lt_trichotomy a i with hlt | heq | hlt
  · have hend : a + (m.heap.view a).size ≤ i := hm.laidOut.tiles.apart ha hi hlt
    omega
  · exact absurd (heq ▸ hactive) hne
  · have hend : i + (m.heap.view i).size ≤ a := hm.laidOut.tiles.apart hi ha hlt
    omega

theorem Activated.slot_outside (hm : m.Activated starts) (hi : i ∈ starts)
    (hcontext : (m.heap.view i).format ≠ .context) (hk : k < m.registers.sp) :
    m.registers.stackBase + k < i ∨ i + (m.heap.view i).size ≤ m.registers.stackBase + k :=
  hm.slot_apart hi (fun hactive => hcontext (hm.format_active hi hactive)) hk

/-- An index that has a place among the elements of an object that programs may index. -/
theorem Activated.elementPlace? (hm : m.Activated starts) (hr : Known starts r) {index : Ref}
    {place : Nat} (hok : m.elementPlace? r index = .ok (some (format, place))) :
    ∃ i ∈ starts, r = .ofWordIndex i ∧ (m.heap.view i).format = format ∧
      format.isOpen = true ∧ place < (m.heap.view i).len := by
  obtain ⟨open?, hopen, hok⟩ := ObjectMachine.bind_eq_ok.mp hok
  cases open? with
  | none => cases hok
  | some format' =>
    obtain ⟨len, hlen, hok⟩ := ObjectMachine.bind_eq_ok.mp hok
    obtain ⟨place', hplace, heq⟩ := Option.map_eq_some_iff.mp (Except.ok.inj hok)
    cases heq
    unfold Machine.openFormat? at hopen
    split at hopen
    · cases hopen
    rename_i hpointer
    obtain ⟨i, hi, rfl⟩ := hr (by simpa using hpointer)
    rw [hm.laidOut.format hi] at hopen
    rw [hm.laidOut.length hi] at hlen
    cases hlen
    refine ⟨i, hi, rfl, ?_⟩
    by_cases hisOpen : (m.heap.view i).format.isOpen = true
    · simp only [pure, Except.pure, bind, Except.bind, hisOpen, if_true, Except.ok.injEq,
        Option.some.injEq] at hopen
      exact ⟨hopen, hopen ▸ hisOpen, Ref.lt_of_indexInto? hplace⟩
    · simp [pure, Except.pure, bind, Except.bind, hisOpen] at hopen

/-- An element is stored outside the stack, or not at all. -/
theorem Activated.writeElement (hm : m.Activated starts) (hi : i ∈ starts)
    (hopen : (m.heap.view i).format.isOpen = true) {place : Nat}
    (hplace : place < (m.heap.view i).len) (value : Ref) :
    (Machine.writeElement (.ofWordIndex i) (m.heap.view i).format place value m).Meets
      (fun taken => m.Computes (if taken then some value else none)) fun _ => False := by
  have hcontext : (m.heap.view i).format ≠ .context := by
    intro hf
    rw [hf] at hopen
    cases hopen
  have hindexable : (m.heap.view i).format.isIndexable = true := by
    revert hopen
    cases (m.heap.view i).format <;> decide
  have hsize := View.size_of_isIndexable hindexable
  have hkeeps : ∀ {h}, m.heap.Within (i + (m.heap.view i).elements) (i + (m.heap.view i).size) h →
      m.Computes (some value) { m with heap := h } := by
    intro h hw
    refine ⟨id, hm.keepsStack hw fun k hk => ?_⟩
    have := hm.slot_outside hi hcontext hk
    omega
  have hnone : m.Computes none m := .inl rfl
  cases hf : (m.heap.view i).format with
  | plain => simp [hf, Format.isOpen] at hopen
  | context => exact absurd hf hcontext
  | float => simp [hf, Format.isOpen] at hopen
  | largeInteger => simp [hf, Format.isOpen] at hopen
  | array =>
    simp only [hf, Format.tailWords] at hsize
    refine .write fun h hok => ?_
    rw [Heap.storeElement_eq hm.laidOut hi hplace (by omega)] at hok
    cases hok
    exact hkeeps (.poke (by omega) (by omega) _)
  | byteArray =>
    simp only [hf, Format.tailWords] at hsize
    refine .inspect fun code? _ => ?_
    cases code? with
    | none => exact hnone
    | some code =>
      dsimp only
      split
      · refine .write fun h hok => ?_
        obtain ⟨h', hok', hw⟩ := Heap.storeByte_within hm.laidOut hi hplace (by omega) _
        rw [hok'] at hok
        cases hok
        exact hkeeps hw
      · exact hnone
  | wordArray =>
    simp only [hf, Format.tailWords] at hsize
    unfold Machine.writeElement
    cases value.small? with
    | none => exact hnone
    | some code =>
      dsimp only
      split
      · refine .write fun h hok => ?_
        obtain ⟨h', hok', hw⟩ := Heap.storeWordElement_within hm.laidOut hi hplace (by omega) _
        rw [hok'] at hok
        cases hok
        exact hkeeps hw
      · exact hnone
  | floatArray =>
    simp only [hf, Format.tailWords] at hsize
    refine .inspect fun code? _ => ?_
    cases code? with
    | none => exact hnone
    | some x =>
      refine .write fun h hok => ?_
      rw [Heap.storeFloatElement_eq hm.laidOut hi hplace (by omega)] at hok
      cases hok
      exact hkeeps (.poke (by omega) (by omega) _)

/-- A field is stored outside the stack, even to the active context. -/
theorem Working.storeField (hm : m.Working starts) (hr : Known starts r) {index value : Ref}
    {place : Nat} {h : Heap} (hplace : m.fieldPlace? r index = .ok (some place))
    (hok : m.heap.storeField r place value = .ok h) :
    m.Computes (some value) { m with heap := h } := by
  unfold Machine.fieldPlace? at hplace
  split at hplace
  · rename_i hpointer
    obtain ⟨i, hi, rfl⟩ := hr hpointer
    rw [hm.laidOut.fixedFields hi] at hplace
    have hlt := Ref.lt_of_indexInto? (Except.ok.inj hplace)
    have hallows : (m.heap.view i).format.allowsFields = true :=
      (hm.allowed i hi).resolve_left (by omega)
    have hin := View.fields_lt_size hallows (Nat.add_lt_add_left hlt headerWords)
    rw [Heap.storeField_eq hm.laidOut hi hlt hin] at hok
    cases hok
    refine ⟨id, hm.keepsStack (.poke (Nat.le_refl _) (Nat.lt_succ_self _) _) fun k hk => ?_⟩
    by_cases hactive : m.registers.activeContext = .ofWordIndex i
    · obtain ⟨-, hbase, -⟩ := hm.slot_operand hi hactive (Nat.lt_of_lt_of_le hk hm.sp_le)
      simp only [View.elements] at hbase
      omega
    · have := hm.slot_apart hi hactive hk
      omega
  · cases hplace

/-! ## Results -/

namespace Working

theorem readElement (hm : m.Working starts) (r : Ref) (format : Format) (place : Nat) :
    (Machine.readElement r format place m).Meets m.Computes fun _ => False := by
  cases format with
  | array => exact (LooksOnly.read _).bind (fun _ => .pure _) |>.computes m
  | byteArray =>
    refine LooksOnly.computes (.bind (.read _) fun byte => .bind (.inspect _) fun text => ?_) m
    split <;> exact .pure _
  | wordArray => exact (LooksOnly.read _).bind (fun _ => .pure _) |>.computes m
  | floatArray =>
    refine .read fun value _ => ?_
    exact .bind_of_never (hm.newFloat value) fun _ _ h => h
  | plain => exact .inl rfl
  | context => exact .inl rfl
  | float => exact .inl rfl
  | largeInteger => exact .inl rfl

/-- Computing the result of a primitive leaves the stack alone. -/
theorem result (hm : m.Working starts) (p : Primitive) (hargs : p.arity < m.registers.sp) :
    (p.result m).Meets m.Computes fun _ => False := by
  have hnone : Outcome.Meets (.ok none m) m.Computes fun _ => False := .inl rfl
  cases p with
  | small op => exact (looksOnly_smallOperands?.bind fun _ => .pure _).computes m
  | smallCompare op =>
    exact (looksOnly_smallOperands?.bind fun _ => looksOnly_boolean? _).computes m
  | smallAsFloat => exact .inspect fun receiver _ => hm.number? _
  | smallAsCharacter => exact (LooksOnly.inspect _).bind (fun _ => .pure _) |>.computes m
  | smallAtRandom =>
    refine .inspect fun receiver _ => ?_
    cases receiver.small? with
    | none => exact hnone
    | some bound =>
      dsimp only
      split
      · exact ⟨id, m, .none m, rfl, fun _ _ => rfl⟩
      · exact hnone
  | integer op => exact looksOnly_integerOperands?.then_ fun _ => hm.number? _
  | integerCompare op =>
    exact (looksOnly_integerOperands?.bind fun _ => looksOnly_boolean? _).computes m
  | integerPrint =>
    refine .inspect fun receiver _ => .inspect fun value _ => ?_
    cases value with
    | none => exact hnone
    | some value => exact hm.text _
  | float op => exact looksOnly_floatOperands?.then_ fun _ => hm.number? _
  | floatCompare op =>
    exact (looksOnly_floatOperands?.bind fun _ => looksOnly_boolean? _).computes m
  | floatTruncated => exact .inspect fun receiver _ => .inspect fun value _ => hm.number? _
  | floatPrint =>
    refine .inspect fun receiver _ => .inspect fun value _ => ?_
    cases value with
    | none => exact hnone
    | some value => exact hm.text _
  | elementAt =>
    refine .inspect fun receiver _ => .inspect fun index _ => .inspect fun place _ => ?_
    cases place with
    | none => exact hnone
    | some place => exact hm.readElement ..
  | elementAtPut =>
    refine .inspect fun receiver hreceiver => .inspect fun index _ => .inspect fun place hplace => ?_
    cases place with
    | none => exact hnone
    | some place =>
      obtain ⟨i, hi, rfl, hformat, hopen, hlt⟩ :=
        hm.elementPlace? (hm.known_stackValue hargs hreceiver) hplace
      refine .inspect fun value _ => ?_
      rw [← hformat] at hopen ⊢
      exact .bind_of_never (hm.writeElement hi hopen hlt value) fun _ _ h => h
  | size =>
    refine .inspect fun receiver _ => .inspect fun format _ => ?_
    cases format with
    | none => exact hnone
    | some format => exact (LooksOnly.read _).bind (fun _ => .pure _) |>.computes m
  | basicNew =>
    exact .inspect fun cls hcls => hm.instantiate (hm.known_stackValue hargs hcls) 0
  | basicNewSized =>
    refine .inspect fun cls hcls => .inspect fun len _ => ?_
    cases len.small? with
    | none => exact hnone
    | some len =>
      dsimp only
      split
      · exact hm.instantiate (hm.known_stackValue hargs hcls) _
      · exact hnone
  | fieldAt =>
    refine .inspect fun receiver _ => .inspect fun index _ => .inspect fun place _ => ?_
    cases place with
    | none => exact hnone
    | some place => exact (LooksOnly.read _).bind (fun _ => .pure _) |>.computes m
  | fieldAtPut =>
    refine .inspect fun receiver hreceiver => .inspect fun index _ => .inspect fun place hplace => ?_
    cases place with
    | none => exact hnone
    | some place =>
      refine .inspect fun value _ => .write fun h hok => ?_
      exact hm.storeField (hm.known_stackValue hargs hreceiver) hplace hok
  | identityHash => exact (LooksOnly.inspect _).bind (fun _ => .inspect _) |>.computes m
  | characterValue => exact (LooksOnly.inspect _).bind (fun _ => .pure _) |>.computes m
  | notIdentical =>
    exact (LooksOnly.inspect _).bind (fun _ => (LooksOnly.inspect _).bind fun _ =>
      looksOnly_boolean? _) |>.computes m
  | identical =>
    exact (LooksOnly.inspect _).bind (fun _ => (LooksOnly.inspect _).bind fun _ =>
      looksOnly_boolean? _) |>.computes m
  | classOf =>
    exact (LooksOnly.inspect _).bind (fun _ => (LooksOnly.inspect _).bind fun _ => .pure _)
      |>.computes m
  | fullCollection =>
    rcases hm.collectGarbage with hstopped | ⟨reclaimed, n, f, starts', hok, hstep, -⟩
    · show Outcome.Meets ((Machine.collectGarbage >>= _) m) _ _
      rw [Action.bind_of_stopped hstopped]
      trivial
    · exact .step hok ⟨_, (Collections.after (.none m) hm hstep).keepsStack⟩
  | blockValue => exact hnone
  | blockValueWithArguments => exact hnone
  | exit => exact hnone

end Working

end Machine

end ObjectMachine
