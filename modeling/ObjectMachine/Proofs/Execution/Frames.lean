import ObjectMachine.Execution.Send
import ObjectMachine.Proofs.Collection.Reservation
import ObjectMachine.Proofs.Graph.Contexts
import ObjectMachine.Proofs.Primitive.Atomicity

/-!
# Contexts for activations

The context of an activation comes from the pool, is allocated, or is allocated after collections. It
is filled in before anything leads to it, so nothing else changes, and what a recycled frame held does
not show. Only memory may run out.

## Main results

* `Machine.Working.allocateContext`: a context is allocated unless memory runs out.
* `Machine.Stocked.newContext`: the context of a new activation.
* `Context.initMethod_fills`: a context is filled in, whatever it held.
* `Machine.Working.enterMethod`: the arguments are moved to it, and it becomes the active one.
-/

namespace ObjectMachine

/-! ## Outcomes -/

/-- An outcome with a value and a machine for which `Q` holds, unless memory ran out. -/
def Outcome.Reaches {α : Type} (x : Outcome α) (Q : α → Machine → Prop) : Prop :=
  match x with
  | .ok a m => Q a m
  | .failed _ _ => False
  | .stopped cause => cause.IsMemory
  | .unfinished => False

namespace Outcome.Reaches

variable {α β : Type} {m m' : Machine} {R : α → Machine → Prop} {Q : β → Machine → Prop}

theorem mono {x : Outcome α} {R' : α → Machine → Prop} (hx : x.Reaches R)
    (hR : ∀ a m', R a m' → R' a m') : x.Reaches R' := by
  cases x with
  | ok a m' => exact hR a m' hx
  | failed failure m' => exact hx
  | stopped cause => exact hx
  | unfinished => exact hx

/-- One action after another. -/
theorem bind {x : Action α} {f : α → Action β} (hx : (x m).Reaches R)
    (hf : ∀ a m', R a m' → (f a m').Reaches Q) : ((x >>= f) m).Reaches Q := by
  show (Action.bind x f m).Reaches Q
  unfold Action.bind
  cases hxm : x m with
  | ok a m' =>
    rw [hxm] at hx
    exact hf a m' hx
  | failed failure m' =>
    rw [hxm] at hx
    exact hx.elim
  | stopped cause =>
    rw [hxm] at hx
    exact hx
  | unfinished =>
    rw [hxm] at hx
    exact hx.elim

/-- An action whose outcome is known. -/
theorem step {x : Action α} {f : α → Action β} {a : α} (hx : x m = .ok a m')
    (hf : (f a m').Reaches Q) : ((x >>= f) m).Reaches Q := by
  rw [Action.bind_of_ok hx]
  exact hf

/-- What is known of an action that answers is known of one that cannot fail. -/
theorem and_meets {x : Outcome α} {E : Machine → Prop} {R' : α → Machine → Prop} (hx : x.Reaches R)
    (hx' : x.Meets R' E) : x.Reaches fun a m => R a m ∧ R' a m := by
  cases x with
  | ok a m' => exact ⟨hx, hx'⟩
  | failed failure m' => exact hx
  | stopped cause => exact hx
  | unfinished => exact hx

end Outcome.Reaches

/-! ## Methods -/

/-- A reference to a method with a header, which takes no more arguments than temporaries, and with
its instructions. -/
structure Heap.IsMethod (h : Heap) (starts : List Nat) (r : Ref) (header : MethodHeader)
    (literals code : Ref) : Prop where
  plain : h.IsOf starts .plain r
  header : ∃ word, h.fetchField r Method.headerField = .ok word ∧ word.isPointer = false ∧
    .ofRef word = header
  literals : Method.literals h r = .ok literals
  instructions : Method.code h r = .ok code
  bytes : h.IsOf starts .byteArray code

namespace CoreObjects

@[simp] theorem cls_mapRefs (f : Ref → Ref) (c : CoreObjects) (k : KernelClass) :
    (c.mapRefs f).cls k = f (c.cls k) :=
  Vector.getElem_map ..

theorem cls_mem_refs (c : CoreObjects) (k : KernelClass) : c.cls k ∈ c.refs := by
  have hmem : c.cls k ∈ c.classes.toList := Vector.mem_toList_iff.mpr (Vector.getElem_mem ..)
  simp [refs, hmem]

end CoreObjects

namespace Machine

open ObjectMachine.Action

variable {m n m' : Machine} {starts starts' : List Nat} {c i k argCount : Nat} {f : Ref → Ref}
  {r v cls literals code : Ref} {h h' : Heap} {header : MethodHeader} {format : Format}

/-- What a field of an object holds can be reached if the object can. -/
theorem Working.reachable_field (hm : m.Working starts) (hr : m.settled.Reachable m.roots r)
    (hformat : m.heap.IsOf starts format r) (hallows : format.allowsFields = true) {index : Nat}
    (hne : format = .context → index ≠ Context.pcField ∧ index ≠ Context.spField)
    (hok : m.heap.fetchField r index = .ok v) (hp : v.isPointer = true) :
    m.settled.Reachable m.roots v := by
  obtain ⟨i, hi, rfl, rfl⟩ := hformat
  have hlayout := hm.layout_settled hi
  obtain ⟨hlt, rfl⟩ := Heap.fetchField_ok hm.laidOut hi hallows hok
  have hin := View.fields_lt_size hallows (Nat.add_lt_add_left hlt headerWords)
  refine .step hr ((hm.wellFormed.toLaidOut.refers_iff hi).mpr ⟨hp, headerWords + index, ?_, ?_⟩)
  · refine .inr (.inl ⟨?_, by omega, ?_⟩)
    · rw [hlayout.format_eq]
      exact hallows
    · rw [hlayout.fields_eq]
      exact Nat.add_lt_add_left hlt headerWords
  · unfold View.ref
    rw [hm.view_settled hi hin fun hactive => ?_]
    have hapart := hne (hm.format_active hi hactive)
    exact ⟨by omega, by omega⟩

theorem reachable_root (hr : r ∈ m.registers.refs ∨ r ∈ m.core.refs)
    (hp : r.isPointer = true) : m.settled.Reachable m.roots r := by
  refine .root ?_ hp
  rw [roots_eq]
  rcases hr with hr | hr
  · exact List.mem_append_left _ hr
  · exact List.mem_append_right _ (List.mem_append_left _ hr)

/-- A method that can be reached is the same method after a collection. -/
theorem CollectsTo.isMethod (hstep : m.CollectsTo n f) (hm : m.Working starts)
    (hn : n.Working starts') (hr : m.settled.Reachable m.roots r)
    (hmethod : m.heap.IsMethod starts r header literals code) :
    n.heap.IsMethod starts' (f r) header (literals.image f) (f code) := by
  obtain ⟨l, hl, hcode, -⟩ := hmethod.bytes
  have hp : code.isPointer = true := hcode ▸ hm.laidOut.isPointer hl
  have hreach := hm.reachable_field hr hmethod.plain rfl (by decide) hmethod.instructions hp
  obtain ⟨word, hword, himmediate, heq⟩ := hmethod.header
  have hfield := @CollectsTo.fetchField _ _ _ _ _ _ hstep hm hn hr _ hmethod.plain rfl
  constructor
  · exact hstep.isOf hm hn hr hmethod.plain
  · refine ⟨word, ?_, himmediate, heq⟩
    rw [hfield (by decide) hword, Ref.image, if_neg (by rw [himmediate]; decide)]
  · exact hfield (by decide) hmethod.literals
  · rw [Method.code, hfield (by decide) hmethod.instructions, Ref.image, if_pos hp]
  · exact hstep.isOf hm hn hreach hmethod.bytes

/-- The method found is the same method after collections. -/
theorem Collections.isMethod (hf : Collections m f n) (hm : m.Working starts)
    (hn : n.Working starts')
    (hmethod : m.heap.IsMethod starts m.registers.newMethod header literals code) :
    ∃ literals code, n.heap.IsMethod starts' n.registers.newMethod header literals code := by
  induction hf generalizing starts' with
  | none =>
    refine ⟨literals, code, { hmethod with plain := ?_, bytes := ?_ }⟩
    · obtain ⟨i, hi, hr, hformat⟩ := hmethod.plain
      exact ⟨i, hm.laidOut.mem_of_laidOut hn.laidOut hi, hr, hformat⟩
    · obtain ⟨i, hi, hr, hformat⟩ := hmethod.bytes
      exact ⟨i, hm.laidOut.mem_of_laidOut hn.laidOut hi, hr, hformat⟩
  | after hf hw hstep ih =>
    obtain ⟨literals, code, hmethod⟩ := ih hw
    obtain ⟨i, hi, hnew, -⟩ := hmethod.plain
    have hmoved := hstep.isMethod hw hn (reachable_root (.inl (by simp [Registers.refs]))
      (hnew ▸ hw.laidOut.isPointer hi)) hmethod
    obtain ⟨-, -, -, hresumes⟩ := hstep
    have himage := congrArg Registers.newMethod hresumes.registers
    rw [show _ = Ref.image _ _ from himage, Ref.image, if_pos (hnew ▸ hw.laidOut.isPointer hi)]
    exact ⟨_, _, hmoved⟩

/-! ## Allocating a context -/

/-- A context of a class that the machine knows is allocated unless memory runs out, if the bytes that
it takes can be counted. -/
theorem Working.allocateContext (hm : m.Working starts) {known : KernelClass} {len : Nat}
    (hcls : m.heap.IsOf starts format (m.core.cls known))
    (hcount : m.heap.sinceCollection + Format.context.sizeInWords contextFields len * wordBytes <
      countLimit) :
    (m.allocate (m.core.cls known) .context contextFields len).Reaches
      (m.Places (m.core.cls known) .context contextFields len) := by
  obtain ⟨i, hi, hclass, -⟩ := id hcls
  have hknown : Known starts (m.core.cls known) := fun _ => ⟨i, hi, hclass⟩
  refine (Outcome.Reaches.and_meets (R := fun _ _ => True) ?_ (hm.allocate hknown)).mono
    fun _ _ h => h.2
  have hwords : Format.context.sizeInWords contextFields len ≤ Ref.addressLimit := by
    simp only [countLimit, wordBytes, Ref.addressLimit] at hcount ⊢
    omega
  -- What is known of the class and the machine before each attempt.
  obtain ⟨P, hP⟩ : ∃ P : Ref → Machine → Prop, P = fun r n => ∃ f starts', Collections m f n ∧
    n.Working starts' ∧ r = n.core.cls known ∧ n.heap.IsOf starts' format r ∧
    n.heap.sinceCollection + Format.context.sizeInWords contextFields len * wordBytes <
      countLimit := ⟨_, rfl⟩
  have hcollect : ∀ r n, P r n → (n.collectKeeping r).Reaches P := by
    subst hP
    rintro _ n ⟨f, starts', hf, hn, rfl, hr, -⟩
    obtain ⟨j, hj, hclass, -⟩ := id hr
    have hp : (n.core.cls known).isPointer = true := hclass ▸ hn.laidOut.isPointer hj
    have hcounts := collectKeeping_counts n (n.core.cls known)
    rcases hn.collectKeeping (fun _ => ⟨j, hj, hclass⟩) with
      hstopped | ⟨n', g, starts'', hok, hstep, hn', -⟩
    · rw [hstopped]
      trivial
    · rw [hok] at hcounts ⊢
      have hcore : n'.core = n.core.mapRefs (·.image g) := by
        obtain ⟨-, -, -, hresumes⟩ := hstep
        exact hresumes.core
      refine ⟨_, starts'', .after hf hn hstep, hn', ?_, ?_, ?_⟩
      · rw [hcore, CoreObjects.cls_mapRefs]
      · rw [Ref.image, if_pos hp]
        exact hstep.isOf hn hn' (reachable_root (.inr (CoreObjects.cls_mem_refs ..)) hp) hr
      · rw [show n'.heap.sinceCollection = 0 from hcounts]
        omega
  have hattempt : ∀ r n (next : Option Ref → Action Ref), P r n → (∀ x, next (some x) = pure x) →
      ((next none n).Reaches fun _ _ => True) →
      ((Action.onHeap (·.tryAllocate r .context contextFields len) >>= next) n).Reaches
        fun _ _ => True := by
    subst hP
    rintro _ n next ⟨f, starts', -, hn, rfl, hr, -⟩ hfound hnext
    obtain ⟨j, hj, hclass, -⟩ := id hr
    have htop := hn.laidOut.committed.trans hn.laidOut.addressable
    cases htry : n.heap.tryAllocate (n.core.cls known) .context contextFields len with
    | error e =>
      obtain rfl | ⟨-, hfields⟩ := Heap.tryAllocate_error (by
        exact Ref.not_isImmediate_of_isPointer (hclass ▸ hn.laidOut.isPointer hj)) (.inr rfl) htry
      · refine absurd htry (Heap.tryAllocate_ne_overflow (Heap.checkedSize_eq hwords) ?_)
        simp only [countLimit, Ref.addressLimit] at *
        omega
      · exact absurd hfields (by decide)
    | ok found =>
      obtain ⟨found, h⟩ := found
      refine .step (Action.onHeap_eq_ok.mpr ⟨h, htry, rfl⟩) ?_
      rcases Heap.tryAllocate_cases htry with ⟨rfl, rfl⟩ | ⟨rfl, ha⟩
      · exact hnext
      · rw [hfound]
        trivial
  -- With and without a collection beforehand there are two attempts.
  have hbefore : ∀ (crossed : Bool) (next : Ref → Action Ref),
      (∀ r n, P r n → (next r n).Reaches fun _ _ => True) →
      ((if crossed = true then Machine.collectKeeping (m.core.cls known) >>= next
        else pure (m.core.cls known) >>= next : Action Ref) m).Reaches fun _ _ => True := by
    have hfirst : P (m.core.cls known) m := by
      rw [hP]
      exact ⟨id, starts, .none m, hm, rfl, hcls, hcount⟩
    intro crossed next hnext
    cases crossed with
    | true => exact (hcollect _ m hfirst).bind hnext
    | false => exact .step rfl (hnext _ m hfirst)
  have hsize : Format.context.checkedSize contextFields len =
      .ok (Format.context.sizeInWords contextFields len) := Heap.checkedSize_eq hwords
  obtain ⟨crossed, hcrossed⟩ : ∃ crossed, m.heap.shouldCollect
      (Format.context.sizeInWords contextFields len) = .ok crossed := by
    cases hshould : m.heap.shouldCollect (Format.context.sizeInWords contextFields len) with
    | ok crossed => exact ⟨crossed, rfl⟩
    | error e => exact absurd (Heap.shouldCollect_error hshould).2 (by omega)
  unfold Machine.allocate
  rw [hsize]
  refine .step rfl (.step (Action.read_of_ok hcrossed) ?_)
  refine hbefore crossed _ fun r n hr => hattempt r n _ hr (fun _ => rfl) ?_
  refine (hcollect r n hr).bind fun r' n' hr' => hattempt r' n' _ hr' (fun _ => rfl) ?_
  show (Action.read _ n').Reaches _
  rw [Action.read_of_error rfl]
  have hbytes : Format.context.sizeInWords contextFields len * wordBytes < countLimit := by omega
  show Fatal.IsMemory (Heap.reservationExhausted _ _)
  unfold Heap.reservationExhausted
  rw [if_pos hbytes]
  trivial

end Machine

/-! ## A context for an activation -/

/-- A context with a frame of some size that nothing captured begins at a position. -/
structure Heap.IsFrame (h : Heap) (c size : Nat) : Prop where
  context : (h.view c).format = .context
  fields : (h.view c).fields = contextFields
  len : (h.view c).len = size
  captured : (h.view c).header.isCaptured = false

theorem ContextPool.frameSizeFor_le {needed : Nat} : needed ≤ frameSizeFor needed := by
  unfold frameSizeFor
  split
  · assumption
  · split
    · assumption
    · exact Nat.le_refl _

/-- What is taken from the pool was kept for its size. -/
theorem ContextPool.take_eq_some {p rest : ContextPool} {size : Nat} {r : Ref}
    (h : p.take size = (some r, rest)) :
    (size = smallFrame ∧ r ∈ p.small) ∨ (size = largeFrame ∧ r ∈ p.large) := by
  unfold take at h
  split at h
  · rename_i hsize
    split at h
    · cases h
    · rename_i hpool
      cases h
      exact .inl ⟨hsize, hpool ▸ List.mem_cons_self ..⟩
  · split at h
    · rename_i hsize
      split at h
      · cases h
      · rename_i hpool
        cases h
        exact .inr ⟨hsize, hpool ▸ List.mem_cons_self ..⟩
    · cases h

namespace Machine

open ObjectMachine.Action

variable {m n m' : Machine} {starts starts' : List Nat} {c i k argCount : Nat} {f : Ref → Ref}
  {r v cls literals code : Ref} {h h' : Heap} {header : MethodHeader} {format : Format}

/-- A context with a frame of some size, other than the active one. -/
def IsSpare (m : Machine) (starts : List Nat) (size : Nat) (r : Ref) : Prop :=
  ∃ i ∈ starts, r = .ofWordIndex i ∧ r ≠ m.registers.activeContext ∧ m.heap.IsFrame i size

/-- A machine in the middle of an activation whose pool keeps contexts of the two sizes, the active
one not among them. -/
structure Stocked (m : Machine) (starts : List Nat) : Prop extends Working m starts where
  small : ∀ r ∈ m.contexts.small, m.IsSpare starts ContextPool.smallFrame r
  large : ∀ r ∈ m.contexts.large, m.IsSpare starts ContextPool.largeFrame r

theorem Working.stocked (hm : m.Working starts) (hsmall : m.contexts.small = [])
    (hlarge : m.contexts.large = []) : m.Stocked starts where
  toWorking := hm
  small r hr := by
    rw [hsmall] at hr
    cases hr
  large r hr := by
    rw [hlarge] at hr
    cases hr

/-- A machine with a context of some class for an activation, after some collections of `m` that
led to `n`. All other objects of `n` are as they were. -/
structure Frames (m : Machine) (cls : Ref) (size : Nat) (f : Ref → Ref) (n : Machine)
    (starts : List Nat) (c : Nat) (m' : Machine) : Prop where
  collections : Collections m f n
  working : n.Working starts
  retains : ∃ starts', n.heap.Retains starts c starts' m'.heap
  apart : n.registers.activeContext ≠ .ofWordIndex c
  taken : c ∈ starts → (n.heap.view c).format = .context
  frame : m'.heap.IsFrame c size
  cls : (m'.heap.view c).ref 1 = f cls
  nil : m'.heap.nil = n.heap.nil
  registers : m'.registers = n.registers
  core : m'.core = n.core

/-- The bytes of a context with a frame of some size can be added to those that were allocated since
the last collection. -/
def Counts (m : Machine) (size : Nat) : Prop :=
  m.heap.sinceCollection + Format.context.sizeInWords contextFields size * wordBytes < countLimit

theorem Stocked.newContext (hm : m.Stocked starts) {known : KernelClass}
    (hcls : m.heap.IsOf starts format (m.core.cls known)) {needed : Nat}
    (hcount : m.Counts (ContextPool.frameSizeFor needed)) :
    (m.newContext needed (m.core.cls known)).Reaches fun r m' => ∃ f n starts' c,
      r = .ofWordIndex c ∧
        m.Frames (m.core.cls known) (ContextPool.frameSizeFor needed) f n starts' c m' := by
  unfold Machine.newContext
  cases htaken : m.contexts.take (ContextPool.frameSizeFor needed) with
  | mk taken rest =>
    have htake : (modifyGet fun m : Machine =>
        (((m.contexts.take (ContextPool.frameSizeFor needed)).1),
          { m with contexts := (m.contexts.take (ContextPool.frameSizeFor needed)).2 }) :
        Action (Option Ref)) m = .ok taken { m with contexts := rest } := by
      show Outcome.ok _ _ = _
      rw [htaken]
    refine .step htake ?_
    cases taken with
    | none =>
      have hrest : rest = m.contexts := by
        rcases m.contexts.take_cases (ContextPool.frameSizeFor needed) with hnone | ⟨_, _, hsome, -⟩
        · rw [htaken] at hnone
          exact congrArg Prod.snd hnone
        · rw [htaken] at hsome
          cases hsome
      subst hrest
      refine (hm.allocateContext hcls hcount).mono ?_
      rintro r m' ⟨n, f, starts', h, hf, hn, hcls', ha, rfl, rfl⟩
      have hl := ha.laidOut hn.laidOut hn.reserved fun _ => by decide
      have haddr := ha.addressable hn.laidOut hn.reserved
      obtain ⟨hash, hheader⟩ := ha.fresh_header
      refine ⟨f, n, starts', n.heap.top, rfl, ?_⟩
      constructor
      · exact hf
      · exact hn
      · exact ⟨starts' ++ [n.heap.top], hl, by simp, ha.fresh_format, fun i hi _ => by simp [hi],
          fun i hi _ k hk => ha.view_eq hn.laidOut hi hk⟩
      · obtain ⟨a, ha, hactive, -⟩ := hn.context
        intro heq
        rw [hactive] at heq
        have hlt := hn.laidOut.lt_top ha
        have := Ref.ofWordIndex_inj (hn.laidOut.lt_addressLimit ha) (hl.lt_addressLimit (by simp)) heq
        omega
      · intro hmem
        exact absurd (hn.laidOut.lt_top hmem) (Nat.lt_irrefl _)
      · exact ⟨ha.fresh_format, ha.fresh_fields, ha.fresh_len haddr rfl,
          by rw [hheader]; exact Header.isCaptured_pack hash ha.countable⟩
      · rw [ha.fresh_ref haddr (.inl rfl), if_pos rfl]
      · exact ha.nil
      · rfl
      · rfl
    | some r =>
      have hspare : m.IsSpare starts (ContextPool.frameSizeFor needed) r := by
        rcases ContextPool.take_eq_some htaken with ⟨hsize, hr⟩ | ⟨hsize, hr⟩
        · rw [hsize]
          exact hm.small r hr
        · rw [hsize]
          exact hm.large r hr
      obtain ⟨i, hi, rfl, hne, hframe⟩ := hspare
      have htwo := (m.heap.view i).two_le_size
      have hfit := hm.laidOut.fits_memory hi
      have hthree := (hm.laidOut.readable i hi).context hframe.context
      have hset : m.heap.setClassOf (.ofWordIndex i) (m.core.cls known) = .ok _ :=
        Heap.setClassOf_eq hm.laidOut hi ..
      refine .step (Action.write_ok hset) ?_
      have ht := Heap.touches_poke (h := m.heap) (i := i) (k := 1) (by omega) hfit (by decide)
        (by simp only [headerWords]; omega) (m.core.cls known).bits
      have hheader : ((m.heap.poke (i + 1) (m.core.cls known).bits).view i) 0 = m.heap.view i 0 := by
        rw [Heap.view_poke (by omega), if_neg (by decide)]
      refine ⟨id, m, starts, i, rfl, ?_⟩
      constructor
      · exact .none m
      · exact hm.toWorking
      · exact ⟨starts, ht.laidOut hm.laidOut hi, hi, ht.layout.format_eq.trans hframe.context,
          fun _ h _ => h, fun j hj hne k hk => ht.view_eq hm.laidOut hi hj hne hk⟩
      · exact fun h => hne h.symm
      · exact fun _ => hframe.context
      · refine ⟨ht.layout.format_eq.trans hframe.context, ht.layout.fields_eq.trans hframe.fields,
          ht.layout.len_eq.trans hframe.len, ?_⟩
        rw [View.header, hheader]
        exact hframe.captured
      · unfold View.ref
        rw [Heap.view_poke (by omega), if_pos rfl]
        rfl
      · rfl
      · rfl
      · rfl

end Machine

/-! ## Methods in memory that changes elsewhere -/

namespace Heap

variable {h h' : Heap} {starts starts' : List Nat} {c : Nat} {r literals code : Ref}
  {header : MethodHeader} {format : Format}

/-- A store to a context leaves all other objects as they were. -/
theorem Touches.retains (ht : Touches c h h') (hl : h.LaidOut starts) (hc : c ∈ starts)
    (hcontext : (h.view c).format = .context) : h.Retains starts c starts h' where
  laidOut := ht.laidOut hl hc
  mem := hc
  context := ht.layout.format_eq.trans hcontext
  kept _ hi _ := hi
  same _ hi hne _ hk := ht.view_eq hl hc hi hne hk

theorem Retains.isOf (hr : h.Retains starts c starts' h')
    (hc : c ∈ starts → (h.view c).format = .context) (hformat : format ≠ .context)
    (ho : h.IsOf starts format r) :
    ∃ i ∈ starts, i ≠ c ∧ r = .ofWordIndex i ∧ (h.view i).format = format ∧
      h'.IsOf starts' format r := by
  obtain ⟨i, hi, rfl, rfl⟩ := ho
  have hne : i ≠ c := by
    rintro rfl
    exact hformat (hc hi)
  exact ⟨i, hi, hne, rfl, rfl, i, hr.kept i hi hne, rfl, (hr.layout hi hne).format_eq⟩

/-- A method stays what it is while a context is written to. -/
theorem IsMethod.retained (hm : h.IsMethod starts r header literals code)
    (hr : h.Retains starts c starts' h') (hl : h.LaidOut starts)
    (hc : c ∈ starts → (h.view c).format = .context) :
    h'.IsMethod starts' r header literals code := by
  obtain ⟨i, hi, hne, rfl, hplain, hplain'⟩ := hr.isOf hc (by decide) hm.plain
  obtain ⟨-, -, -, -, -, hbytes⟩ := hr.isOf hc (by decide) hm.bytes
  have hfield : ∀ {index v}, h.fetchField (.ofWordIndex i) index = .ok v →
      h'.fetchField (.ofWordIndex i) index = .ok v :=
    fun hok => hr.fetchField hl hi hne (by rw [hplain]; rfl) hok
  obtain ⟨word, hword, himmediate, heq⟩ := hm.header
  exact ⟨hplain', ⟨word, hfield hword, himmediate, heq⟩, hfield hm.literals, hfield hm.instructions,
    hbytes⟩

end Heap

/-- The registers that are loaded from a context whose home runs a method. -/
theorem Registers.load_home {h : Heap} {starts : List Nat} {c i pc sp : Nat}
    {method receiver literals code : Ref} {header : MethodHeader} (hl : h.LaidOut starts)
    (hc : c ∈ starts) (hi : i ∈ starts) (hhome : Context.home h (.ofWordIndex c) = .ok (.ofWordIndex i))
    (hword : h.fetchField (.ofWordIndex i) Context.methodField = .ok method)
    (hreceiver : h.fetchField (.ofWordIndex i) Context.receiverField = .ok receiver)
    (hmethod : h.IsMethod starts method header literals code)
    (hpc : Context.pc? h (.ofWordIndex c) = .ok (some pc))
    (hsp : Context.sp? h (.ofWordIndex c) = .ok (some sp)) (r : Registers) :
    ∃ r', r.load h (.ofWordIndex c) = .ok r' ∧ r'.activeContext = .ofWordIndex c ∧
      r'.homeContext = .ofWordIndex i ∧ r'.method = method ∧ r'.receiver = receiver ∧ r'.pc = pc ∧
      r'.sp = sp ∧ r'.stackBase = c + (h.view c).elements ∧ r'.stackLimit = (h.view c).len := by
  obtain ⟨l, hl', rfl, hbytes⟩ := hmethod.bytes
  obtain ⟨word, hheader, -, heq⟩ := hmethod.header
  let r' : Registers := { r with
    activeContext := .ofWordIndex c
    homeContext := .ofWordIndex i
    method, receiver, literals, pc, sp
    stackBase := c + (h.view c).elements
    stackLimit := (h.view c).len
    tempBase := i + (h.view i).elements
    tempLimit := min header.tempCount (h.view i).len
    codeBase := (l + (h.view l).elements) * 8
    codeLength := (h.view l).len }
  have hreads : r'.Reads h := by
    constructor
    · exact hhome
    · exact hword
    · exact hreceiver
    · exact hmethod.literals
    · exact ⟨_, hmethod.instructions, Heap.bytesOffset_eq hl hl', hl.length hl'⟩
    · exact Heap.elementsIndex_eq hl hc
    · exact hl.length hc
    · exact Heap.elementsIndex_eq hl hi
    · refine ⟨header, _, ?_, hl.length hi, rfl⟩
      unfold Method.header
      rw [hheader]
      exact congrArg Except.ok heq
  exact ⟨r', Registers.load_ok_iff.mpr ⟨rfl, hreads, ⟨some pc, hpc, rfl⟩, ⟨some sp, hsp, rfl⟩, rfl,
    rfl, rfl, rfl⟩, rfl, rfl, rfl, rfl, rfl, rfl, rfl, rfl⟩

/-- The registers that are loaded from a context that is filled in for a method. -/
theorem Registers.load_method {h : Heap} {starts : List Nat} {c pc sp : Nat}
    {method literals code : Ref} {header : MethodHeader} (hl : h.LaidOut starts) (hc : c ∈ starts)
    (hcontext : (h.view c).format = .context) (hfields : Context.homeField < (h.view c).fields)
    (hmethod : h.IsMethod starts method header literals code)
    (hword : (h.view c).ref (headerWords + Context.methodField) = method)
    (hpc : (h.view c).ref (headerWords + Context.pcField) = .ofNat pc) (hpclt : pc < Ref.addressLimit)
    (hsp : (h.view c).ref (headerWords + Context.spField) = .ofNat sp) (hsplt : sp < Ref.addressLimit)
    (r : Registers) :
    ∃ r', r.load h (.ofWordIndex c) = .ok r' ∧ r'.activeContext = .ofWordIndex c ∧
      r'.homeContext = .ofWordIndex c ∧ r'.method = method ∧
      r'.receiver = (h.view c).ref (headerWords + Context.receiverField) ∧ r'.pc = pc ∧ r'.sp = sp ∧
      r'.stackBase = c + (h.view c).elements := by
  obtain ⟨i, hi, rfl, hplain⟩ := hmethod.plain
  have hallows : (h.view c).format.allowsFields = true := by
    rw [hcontext]
    rfl
  have hfield : ∀ k ≤ Context.homeField, h.fetchField (.ofWordIndex c) k =
      .ok ((h.view c).ref (headerWords + k)) := fun k hk =>
    Heap.fetchField_eq hl hc (Nat.lt_of_le_of_lt hk hfields)
      (View.fields_lt_size hallows (Nat.add_lt_add_left (Nat.lt_of_le_of_lt hk hfields) _))
  have hhome : Context.home h (.ofWordIndex c) = .ok (.ofWordIndex c) := by
    have hpointer := hl.isPointer hi
    have hblock : Context.isBlock h (.ofWordIndex c) = .ok false := by
      unfold Context.isBlock
      rw [hfield Context.argCountField (by decide)]
      show Except.ok ((h.view c).ref (headerWords + Context.methodField)).isSmallInteger = _
      rw [hword, Ref.not_isSmallInteger_of_isPointer hpointer]
    unfold Context.home
    rw [hblock]
    rfl
  have hmethod' : h.fetchField (.ofWordIndex c) Context.methodField = .ok (.ofWordIndex i) :=
    (hfield Context.methodField (by decide)).trans (congrArg Except.ok hword)
  obtain ⟨r', hload, hactive, hhome', hmethod', hreceiver', hpc', hsp', hbase, -⟩ :=
    Registers.load_home hl hc hc hhome hmethod' (hfield Context.receiverField (by decide)) hmethod
      (Machine.register?_eq hl hc hcontext (by decide) hpclt hpc)
      (Machine.register?_eq hl hc hcontext (by decide) hsplt hsp) r
  exact ⟨r', hload, hactive, hhome', hmethod', hreceiver', hpc', hsp', hbase⟩

/-! ## Filling in the context -/

namespace Heap

variable {h : Heap} {c j lo : Nat} {refs : List Ref} {r : Ref}

/-- A word of a run. -/
theorem cell_pokeRun_of_getElem? (hr : refs[j]? = some r) (hfit : lo + refs.length ≤ h.memory.size) :
    (h.pokeRun lo refs).cell (lo + j) = r.bits := by
  induction refs generalizing h lo j with
  | nil => cases hr
  | cons first rest ih =>
    rw [List.length_cons] at hfit
    cases j with
    | zero =>
      cases hr
      show ((h.poke lo r.bits).pokeRun (lo + 1) rest).cell (lo + 0) = r.bits
      rw [cell_pokeRun _ (.inl (by omega))]
      exact cell_poke_self (by omega) _
    | succ j =>
      rw [show lo + (j + 1) = lo + 1 + j by omega]
      exact ih hr (by rw [size_poke]; omega)

/-- A run inside an object that leaves its header and the number of its elements alone. -/
theorem touches_pokeRun (hfit : c + (h.view c).size ≤ h.memory.size) (hpos : 0 < lo)
    (hsize : lo + refs.length ≤ (h.view c).size)
    (hcount : lo + refs.length ≤ headerWords + (h.view c).fields ∨ headerWords + (h.view c).fields < lo) :
    h.Touches c (h.pokeRun (c + lo) refs) := by
  induction refs generalizing h lo with
  | nil => exact .refl c h
  | cons r rest ih =>
    rw [List.length_cons] at hsize hcount
    have ht := touches_poke (h := h) (i := c) (k := lo) (by omega) hfit (by omega) (by omega) r.bits
    refine ht.trans ?_
    have hfit' : c + ((h.poke (c + lo) r.bits).view c).size ≤ (h.poke (c + lo) r.bits).memory.size := by
      rw [ht.layout.size_eq, size_poke]
      exact hfit
    have hrest := ih hfit' (Nat.succ_pos lo)
      (by rw [ht.layout.size_eq]; omega) (by rw [ht.layout.fields_eq]; omega)
    exact hrest

end Heap

/-- What a context holds that is filled in for a method. -/
structure Heap.IsFilled (h : Heap) (c : Nat) (sender method receiver : Ref) (temps : Nat) : Prop where
  sender : (h.view c).ref (headerWords + Context.senderField) = sender
  pc : (h.view c).ref (headerWords + Context.pcField) = .ofNat 0
  sp : (h.view c).ref (headerWords + Context.spField) = .ofNat temps
  method : (h.view c).ref (headerWords + Context.methodField) = method
  receiver : (h.view c).ref (headerWords + Context.receiverField) = receiver
  temporaries : ∀ k < temps, (h.view c).ref ((h.view c).elements + k) = h.nil

/-- A context is filled in for a method, whatever it held. -/
theorem Context.initMethod_fills {h : Heap} {starts : List Nat} {c size temps : Nat}
    (hl : h.LaidOut starts) (hc : c ∈ starts) (hframe : h.IsFrame c size) (htemps : temps ≤ size)
    (sender method receiver : Ref) :
    ∃ h', initMethod h (.ofWordIndex c) sender method receiver temps = .ok h' ∧ h.Touches c h' ∧
      h'.IsFrame c size ∧ h'.nil = h.nil ∧ h'.IsFilled c sender method receiver temps := by
  have hfields : (h.view c).fields = 6 := hframe.fields
  have hfit := hl.fits_memory hc
  have hroom : (h.view c).elements + (h.view c).len ≤ (h.view c).size := by
    have hsize : (h.view c).size = Format.sizeInWords .context (h.view c).fields (h.view c).len := by
      rw [View.size, hframe.context]
    rw [hsize]
    have htail : Format.context.tailWords (h.view c).len = (h.view c).len := rfl
    simp only [Format.sizeInWords, View.elements, htail]
    omega
  have helements : (h.view c).elements = headerWords + (h.view c).fields + 1 := rfl
  rw [← hframe.len] at htemps
  obtain ⟨h₁, hh₁⟩ : ∃ h₁, h₁ = h.pokeRun (c + (h.view c).elements) (List.replicate temps h.nil) :=
    ⟨_, rfl⟩
  have ht₁ : h.Touches c h₁ := by
    rw [hh₁]
    exact Heap.touches_pokeRun hfit (by omega) (by rw [List.length_replicate]; omega) (.inr (by omega))
  have hsize₁ : h₁.memory.size = h.memory.size := by rw [hh₁, Heap.size_pokeRun]
  have hnil₁ : h₁.nil = h.nil := by rw [hh₁, Heap.nil_pokeRun]
  obtain ⟨fields, hlist⟩ : ∃ fields : List Ref,
      fields = [sender, .zero, .ofNat temps, method, h.nil, receiver] := ⟨_, rfl⟩
  have hlength : fields.length = 6 := by rw [hlist]; rfl
  have ht₂ : h₁.Touches c (h₁.pokeRun (c + headerWords) fields) := by
    refine Heap.touches_pokeRun ?_ (by decide) ?_ (.inl ?_)
    · rw [ht₁.layout.size_eq, hsize₁]
      exact hfit
    · rw [ht₁.layout.size_eq, hlength]
      omega
    · rw [ht₁.layout.fields_eq, hlength, hfields]
  have ht := ht₁.trans ht₂
  have hcell : ∀ j r, fields[j]? = some r →
      (((h₁.pokeRun (c + headerWords) fields).view c).ref (headerWords + j)) = r := by
    intro j r hr
    have hroom : c + headerWords + fields.length ≤ h₁.memory.size := by
      rw [hlength, hsize₁]
      omega
    have hword := Heap.cell_pokeRun_of_getElem? hr hroom
    rw [Nat.add_assoc] at hword
    exact congrArg Ref.mk hword
  refine ⟨h₁.pokeRun (c + headerWords) fields, ?_, ht, ?_, ?_, ?_⟩
  · rw [hh₁, hlist]
    exact initMethod_eq hl hc hframe.context (by rw [hfields]; decide) htemps ..
  · refine ⟨ht.layout.format_eq.trans hframe.context, ht.layout.fields_eq.trans hframe.fields,
      ht.layout.len_eq.trans hframe.len, ?_⟩
    have hheader : ((h₁.pokeRun (c + headerWords) fields).view c).header = (h.view c).header := by
      refine congrArg Header.mk ?_
      show (h₁.pokeRun (c + headerWords) fields).cell (c + 0) = h.cell (c + 0)
      rw [Heap.cell_pokeRun h₁ (.inl (by simp only [headerWords]; omega)), hh₁,
        Heap.cell_pokeRun h (.inl (by omega))]
    rw [hheader]
    exact hframe.captured
  · rw [Heap.nil_pokeRun, hnil₁]
  · have hfield : ∀ j r, [sender, .zero, .ofNat temps, method, h.nil, receiver][j]? = some r →
        ((h₁.pokeRun (c + headerWords) fields).view c).ref (headerWords + j) = r :=
      fun j r hr => hcell j r (by rw [hlist]; exact hr)
    refine ⟨hfield Context.senderField _ rfl, hfield Context.pcField _ rfl,
      hfield Context.spField _ rfl, hfield Context.methodField _ rfl,
      hfield Context.receiverField _ rfl, ?_⟩
    intro k hk
    rw [ht.layout.elements_eq, Heap.nil_pokeRun, hnil₁]
    refine congrArg Ref.mk ?_
    show (h₁.pokeRun (c + headerWords) _).cell (c + ((h.view c).elements + k)) = h.nil.bits
    rw [Heap.cell_pokeRun h₁ (.inr (by rw [hlength]; omega)), hh₁, ← Nat.add_assoc]
    exact Heap.cell_pokeRun_of_getElem? (by rw [List.getElem?_replicate, if_pos hk])
      (by rw [List.length_replicate]; omega)

namespace Machine

open ObjectMachine.Action

variable {m n m' : Machine} {starts starts' : List Nat} {c k argCount size temps : Nat}
  {literals code method receiver : Ref} {h : Heap} {header : MethodHeader}

/-! ## Entering the context -/

/-- The values on top of the stack, the lowest first. -/
theorem Activated.topSlots (hn : n.Activated starts) (hr : n.heap.Retains starts c starts' h)
    (hne : n.registers.activeContext ≠ .ofWordIndex c) (hargs : argCount < n.registers.sp) :
    ∃ refs : List Ref, refs.length = argCount ∧ ∀ k r, refs[k]? = some r →
      n.heap.slot (n.registers.stackBase + (n.registers.sp - argCount + k)) = .ok r ∧
      h.slot (n.registers.stackBase + (n.registers.sp - argCount + k)) = .ok r := by
  obtain ⟨a, ha, hactive, -⟩ := hn.context
  have hac : a ≠ c := by
    rintro rfl
    exact hne hactive
  have hle := hn.sp_le
  refine ⟨(List.range argCount).map fun k => (n.heap.view a).ref
    ((n.heap.view a).elements + (n.registers.sp - argCount + k)), by simp, ?_⟩
  intro k r hk
  rw [List.getElem?_map, Option.map_eq_some_iff] at hk
  obtain ⟨k', hk', rfl⟩ := hk
  obtain ⟨hlt, rfl⟩ := List.getElem?_eq_some_iff.mp hk'
  rw [List.length_range] at hlt
  rw [List.getElem_range]
  obtain ⟨hin, hbase, hslot⟩ := hn.slot_operand ha hactive
    (show n.registers.sp - argCount + k < n.registers.stackLimit by omega)
  refine ⟨hslot, ?_⟩
  rw [← hslot, hbase, Nat.add_assoc]
  exact hr.slot hn.laidOut ha hac hin

/-- The stack of the active context lies outside a context apart. -/
theorem Activated.stack_apart (hn : n.Activated starts) (hr : n.heap.Retains starts c starts' h)
    (hne : n.registers.activeContext ≠ .ofWordIndex c) (hk : k < n.registers.stackLimit) :
    n.registers.stackBase + k < c ∨ c + (h.view c).size ≤ n.registers.stackBase + k := by
  obtain ⟨a, ha, hactive, -⟩ := hn.context
  have hac : a ≠ c := by
    rintro rfl
    exact hne hactive
  obtain ⟨hin, hbase, -⟩ := hn.slot_operand ha hactive hk
  have hsize := (hr.layout ha hac).size_eq
  rcases Nat.lt_or_gt_of_ne hac with hlt | hlt
  · have hend : a + (h.view a).size ≤ c := hr.laidOut.tiles.apart (hr.kept a ha hac) hr.mem hlt
    omega
  · have hend : c + (h.view c).size ≤ a := hr.laidOut.tiles.apart hr.mem (hr.kept a ha hac) hlt
    omega

/-- A machine that entered a context apart with arguments from the stack of `n`, on behalf of a
method. -/
structure Entered (n : Machine) (starts : List Nat) (c : Nat) (h : Heap) (argCount : Nat) (m' : Machine) :
    Prop extends Leaves n c h argCount m' where
  memory : m'.heap.LaidOut starts
  mem : c ∈ starts
  others : ∀ k, argCount ≤ k → k < (h.view c).len →
    (m'.heap.view c).ref ((h.view c).elements + k) = (h.view c).ref ((h.view c).elements + k)
  nil : m'.heap.nil = h.nil
  sender : ∃ a ∈ starts, n.registers.activeContext = .ofWordIndex a ∧
    (m'.heap.view a).format = .context ∧ (m'.heap.view a).len = n.registers.stackLimit ∧
    n.registers.stackBase = a + (m'.heap.view a).elements
  active : m'.registers.activeContext = .ofWordIndex c
  home : m'.registers.homeContext = .ofWordIndex c
  method : m'.registers.method = (h.view c).ref (headerWords + Context.methodField)
  receiver : m'.registers.receiver = (h.view c).ref (headerWords + Context.receiverField)

/-- The machine once the arguments were copied from its stack: memory is what it is then, and the
receiver and the arguments are popped. -/
def leaving (m : Machine) (h : Heap) (argCount : Nat) : Machine :=
  { m with heap := h, registers := { m.registers with sp := m.registers.sp - (argCount + 1) } }

/-- What it comes to to enter a context apart: the arguments are copied to it, the registers are
written back to the active context, and the context is loaded. -/
theorem Working.enterContext_eq (hn : n.Working starts) (hr : n.heap.Retains starts c starts' h)
    (hne : n.registers.activeContext ≠ .ofWordIndex c) (hargs : argCount < n.registers.sp)
    (hlen : argCount ≤ (h.view c).len) (hregisters : m.registers = n.registers)
    (hheap : m.heap = h) :
    ∃ a h' refs, a ∈ starts ∧ a ≠ c ∧ n.registers.activeContext = .ofWordIndex a ∧
      (h'.view a).format = .context ∧ refs.length = argCount ∧
      h' = h.pokeRun (c + (h.view c).elements) refs ∧ h.Refills c h' ∧
      h'.Touches a ((m.leaving h' argCount).flushedHeap a) ∧
      m.enterContext (.ofWordIndex c) argCount = (loadContext (.ofWordIndex c))
        { m.leaving h' argCount with heap := (m.leaving h' argCount).flushedHeap a } := by
  obtain ⟨a, ha, hactive, hcontext⟩ := hn.context
  have hac : a ≠ c := by
    rintro rfl
    exact hne hactive
  have ha' := hr.kept a ha hac
  obtain ⟨refs, hcount, hslots⟩ := hn.topSlots hr hne hargs
  have htail : (h.view c).format.hasReferenceTail = true := by
    rw [hr.context]
    rfl
  have hlimit := hn.sp_le
  have hapart : ∀ k < refs.length, n.registers.stackBase + (n.registers.sp - argCount) + k < c ∨
      c + (h.view c).size ≤ n.registers.stackBase + (n.registers.sp - argCount) + k := by
    intro k hk
    rw [Nat.add_assoc]
    exact hn.stack_apart hr hne (by omega)
  have hcopy := Context.copySlots_eq (Heap.Touches.refl c h) hr.laidOut hr.mem htail
    (show 0 + refs.length ≤ (h.view c).len by omega) hapart fun k r hk => by
      rw [Nat.add_assoc]
      exact (hslots k r hk).2
  rw [hcount, Nat.add_zero] at hcopy
  rw [hcount] at hapart
  obtain ⟨h₂, hh₂⟩ : ∃ h₂, h₂ = h.pokeRun (c + (h.view c).elements) refs := ⟨_, rfl⟩
  rw [← hh₂] at hcopy
  obtain ⟨hrefill, -, -⟩ := Context.copySlots_ok hr.laidOut hr.mem hr.context hapart hcopy
  have hr₂ := hr.touches hrefill.touches
  have hcontext₂ : (h₂.view a).format = .context := (hr₂.layout ha hac).format_eq.trans hcontext
  have hflush : (m.leaving h₂ argCount).flushRegisters =
      .ok () { m.leaving h₂ argCount with heap := (m.leaving h₂ argCount).flushedHeap a } :=
    flushRegisters_eq hr₂.laidOut ha' (by
      rw [← hactive, ← hregisters]
      rfl) hcontext₂
  refine ⟨a, h₂, refs, ha, hac, hactive, hcontext₂, hcount, hh₂, hrefill,
    touches_flushedHeap (m := m.leaving h₂ argCount) hr₂.laidOut ha' hcontext₂, ?_⟩
  have hcopy' : Context.copySlots m.heap (.ofWordIndex c)
      (m.registers.stackBase + m.registers.sp - argCount) 0 argCount = .ok h₂ := by
    rw [hheap, hregisters, Nat.add_sub_assoc (Nat.le_of_lt hargs)]
    exact hcopy
  have hpop : popMany (argCount + 1) { m with heap := h₂ } = .ok () (m.leaving h₂ argCount) :=
    popMany_eq (by rw [hregisters]; exact hargs)
  rw [Machine.enterContext_eq, Action.bind_of_ok (copyTop_eq (by rw [hregisters]; omega) hcopy'),
    leaveFor, Action.bind_of_ok hpop, Action.bind_of_ok hflush]

/-- The arguments are moved to a context that is filled in for a method, and the context is entered. -/
theorem Working.enterMethod {sender : Ref} (hn : n.Working starts)
    (hr : n.heap.Retains starts c starts' h) (hne : n.registers.activeContext ≠ .ofWordIndex c)
    (hargs : argCount < n.registers.sp) (hlen : argCount ≤ (h.view c).len)
    (hfields : Context.homeField < (h.view c).fields)
    (hmethod : h.IsMethod starts' method header literals code)
    (hfilled : h.IsFilled c sender method receiver temps) (htemps : temps < Ref.addressLimit)
    (hregisters : m.registers = n.registers) (hheap : m.heap = h) :
    ∃ m', m.enterContext (.ofWordIndex c) argCount = .ok () m' ∧ n.Entered starts' c h argCount m' ∧
      m'.registers.pc = 0 ∧ m'.registers.sp = temps := by
  obtain ⟨a, h₂, refs, ha, hac, hactive, hcontext₂, hcount, hh₂, hrefill, htouch, heq⟩ :=
    hn.enterContext_eq hr hne hargs hlen hregisters hheap
  have ha' := hr.kept a ha hac
  have hr₂ := hr.touches hrefill.touches
  have hl₃ := htouch.laidOut hr₂.laidOut ha'
  have hlayout := hrefill.touches.layout.trans (htouch.sameLayout hr₂.laidOut ha' hr₂.mem)
  have hword₃ : ∀ k < (h.view c).elements,
      (((m.leaving h₂ argCount).flushedHeap a).view c).ref k = (h.view c).ref k := by
    intro k hk
    have hsize : (h.view c).elements ≤ (h.view c).size :=
      View.count_lt_size (o := h.view c) (by rw [hr.context]; rfl)
    unfold View.ref
    rw [htouch.view_eq hr₂.laidOut ha' hr₂.mem hac.symm
      (by rw [hrefill.touches.layout.size_eq]; omega)]
    exact congrArg Ref.mk (hrefill.view_eq hr.laidOut hr.mem hr.mem (by omega) fun _ => hk)
  have hmethod₃ : ((m.leaving h₂ argCount).flushedHeap a).IsMethod starts' method header literals
      code :=
    (hmethod.retained (hrefill.touches.retains hr.laidOut hr.mem hr.context) hr.laidOut
      fun _ => hr.context).retained (htouch.retains hr₂.laidOut ha' hcontext₂) hr₂.laidOut
        fun _ => hcontext₂
  have hin : ∀ field ≤ Context.homeField, headerWords + field < (h.view c).elements := by
    intro field hfield
    have helements : (h.view c).elements = headerWords + (h.view c).fields + 1 := rfl
    omega
  obtain ⟨registers, hload, hregister⟩ := Registers.load_method hl₃ hr₂.mem
    (hlayout.format_eq.trans hr.context) (by rw [hlayout.fields_eq]; exact hfields) hmethod₃
    ((hword₃ _ (hin _ (by decide))).trans hfilled.method)
    ((hword₃ _ (hin _ (by decide))).trans hfilled.pc) (by decide)
    ((hword₃ _ (hin _ (by decide))).trans hfilled.sp) htemps (m.leaving h₂ argCount).registers
  rw [hword₃ _ (hin _ (by decide))] at hregister
  obtain ⟨hnow, hhome, hrun, hself, hpc, hsp, -⟩ := hregister
  have hok : m.enterContext (.ofWordIndex c) argCount = .ok () { m.leaving h₂ argCount with
      heap := (m.leaving h₂ argCount).flushedHeap a, registers } := by
    rw [heq]
    unfold Machine.loadContext
    dsimp only
    rw [hload]
  refine ⟨_, hok, ?_, hpc, hsp⟩
  exact
    { toLeaves := (hn.enterContext hr hne hargs hregisters hheap).of_ok hok
      memory := hl₃
      mem := hr₂.mem
      others := fun k hk hlt => by
        have htail : (h.view c).format.hasReferenceTail = true := by
          rw [hr.context]
          rfl
        have hsize := View.elements_lt_size htail (Nat.add_lt_add_left hlt (h.view c).elements)
        unfold View.ref
        rw [htouch.view_eq hr₂.laidOut ha' hr₂.mem hac.symm
          (by rw [hrefill.touches.layout.size_eq]; omega), hh₂]
        exact congrArg Ref.mk (Heap.cell_pokeRun h (.inr (by omega)))
      nil := by
        rw [show ((m.leaving h₂ argCount).flushedHeap a).nil = h₂.nil from rfl, hh₂]
        exact Heap.nil_pokeRun ..
      sender := by
        have hsame := (hr₂.layout ha hac).trans htouch.layout
        have hbase := hn.reads.stackBase
        have hlength := hn.reads.stackLimit
        rw [hactive, Heap.elementsIndex_eq hn.laidOut ha] at hbase
        rw [hactive, hn.laidOut.length ha] at hlength
        refine ⟨a, ha', hactive, htouch.layout.format_eq.trans hcontext₂, ?_, ?_⟩
        · exact hsame.len_eq.trans (Except.ok.inj hlength)
        · exact (Except.ok.inj hbase).symm.trans (congrArg (a + ·) hsame.elements_eq.symm)
      active := hnow
      home := hhome
      method := hrun.trans hfilled.method.symm
      receiver := hself }

end Machine

end ObjectMachine
