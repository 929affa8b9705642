import ObjectMachine.Primitive.Control
import ObjectMachine.Proofs.Machine.Operands

/-!
# Evaluating blocks

A block is evaluated in a context of its own, taken from the pool or allocated. Nothing leads to
that context before, so filling it in does not show elsewhere: the caller is left with its stack,
less the block and its arguments, and the arguments are found in the new context in their order.

## Main results

* `Machine.Collections.isBlock`: a block on the stack is the same block after collections.
* `Machine.Ready.newContext`: a new context is one that nothing leads to.
* `Machine.Ready.activateBlock`: the activation of a block.
-/

namespace ObjectMachine

/-- Memory is laid out in one way only. -/
theorem Heap.LaidOut.mem_of_laidOut {h : Heap} {starts starts' : List Nat} {i : Nat}
    (hl : h.LaidOut starts) (hl' : h.LaidOut starts') (hi : i ∈ starts) : i ∈ starts' := by
  have hmap := Except.ok.inj (hl.objects_eq.symm.trans hl'.objects_eq)
  have hmem : Ref.ofWordIndex i ∈ starts'.map Ref.ofWordIndex :=
    hmap ▸ List.mem_map_of_mem (f := Ref.ofWordIndex) hi
  obtain ⟨j, hj, heq⟩ := List.mem_map.mp hmem
  exact Ref.ofWordIndex_inj (hl'.lt_addressLimit hj) (hl.lt_addressLimit hi) heq ▸ hj

/-! ## Blocks -/

/-- A reference to a block that takes a number of arguments, begins at a position, and was made in a
method context. -/
structure Heap.IsBlock (h : Heap) (starts : List Nat) (r : Ref) (argCount initialPc : Nat)
    (home : Ref) : Prop where
  context : h.IsOf starts .context r
  argCount_lt : argCount < Ref.addressLimit
  initialPc_lt : initialPc < Ref.addressLimit
  argCount : h.fetchField r Context.argCountField = .ok (.ofNat argCount)
  initialPc : h.fetchField r Context.initialPcField = .ok (.ofNat initialPc)
  home : h.fetchField r Context.homeField = .ok home

namespace Machine

open ObjectMachine.Action

variable {m n m' : Machine} {starts starts' : List Nat} {c i k argCount initialPc : Nat}
  {f g : Ref → Ref} {r home cls : Ref} {h h' : Heap}

theorem image_ofNat {k : Nat} (hk : k < Ref.addressLimit) : (Ref.ofNat k).image f = .ofNat k := by
  unfold Ref.image
  rw [if_neg (by simp [Ref.isPointer_ofNat hk])]

/-- An object that can be reached is one of its format after a collection. -/
theorem CollectsTo.isOf (hstep : m.CollectsTo n f) (hm : m.Working starts)
    (hn : n.Working starts') (hr : m.settled.Reachable m.roots r) {format : Format}
    (hformat : m.heap.IsOf starts format r) : n.heap.IsOf starts' format (f r) := by
  obtain ⟨c, hheap, hcarries, -⟩ := hstep
  obtain ⟨i, hi, rfl, rfl⟩ := hformat
  obtain ⟨objects, hobjects, hmem⟩ := hcarries.objects
  rw [← hheap, hn.laidOut.objects_eq] at hobjects
  cases hobjects
  obtain ⟨j, hj, heq⟩ := List.mem_map.mp (hmem _ hr)
  obtain ⟨format, hbefore, hafter⟩ := (hcarries.same _ hr).format
  rw [hm.wellFormed.toLaidOut.format hi, (hm.layout_settled hi).format_eq] at hbefore
  rw [← hheap, ← heq, hn.laidOut.format hj] at hafter
  cases hbefore
  exact ⟨j, hj, heq.symm, Except.ok.inj hafter⟩

/-- A field of an object that can be reached, other than the position or the stack pointer of a
context, holds the image of what it held. -/
theorem CollectsTo.fetchField (hstep : m.CollectsTo n f) (hm : m.Working starts)
    (hn : n.Working starts') (hr : m.settled.Reachable m.roots r) {format : Format}
    (hformat : m.heap.IsOf starts format r) (hallows : format.allowsFields = true)
    {index : Nat} {v : Ref}
    (hne : format = .context → index ≠ Context.pcField ∧ index ≠ Context.spField)
    (hok : m.heap.fetchField r index = .ok v) :
    n.heap.fetchField (f r) index = .ok (v.image f) := by
  obtain ⟨j, hj, heq, hformat'⟩ := hstep.isOf hm hn hr hformat
  obtain ⟨c, hheap, hcarries, -⟩ := hstep
  obtain ⟨i, hi, rfl, rfl⟩ := hformat
  have hl := hm.wellFormed.toLaidOut
  have hlayout := hm.layout_settled hi
  have hsame := hcarries.same _ hr
  obtain ⟨hlt, rfl⟩ := Heap.fetchField_ok hm.laidOut hi hallows hok
  have hin := View.fields_lt_size hallows (Nat.add_lt_add_left hlt headerWords)
  have hslot : (m.settled.view i).IsSlot (headerWords + index) := by
    refine .inl ⟨?_, by omega, ?_⟩
    · rw [hlayout.format_eq]
      exact hallows
    · rw [hlayout.fields_eq]
      exact Nat.add_lt_add_left hlt headerWords
  obtain ⟨fields, hbefore, hafter⟩ := hsame.fixedFields
  rw [hl.fixedFields hi, hlayout.fields_eq] at hbefore
  rw [← hheap, heq, hn.laidOut.fixedFields hj] at hafter
  cases hbefore
  have hlt' : index < (n.heap.view j).fields := Except.ok.inj hafter ▸ hlt
  have hin' := View.fields_lt_size (o := n.heap.view j) (by rw [hformat']; exact hallows)
    (Nat.add_lt_add_left hlt' headerWords)
  obtain ⟨v, hv, hv'⟩ := hsame.slots _ (hl.referenceSlots hi) (headerWords + index) (by
    rw [hm.laidOut.wordIndex hi]
    exact Heap.mem_slotsAt_positions.mpr ⟨_, rfl, hslot⟩)
  rw [hm.laidOut.wordIndex hi, hl.slot_offset hi (hlayout.size_eq ▸ hin)] at hv
  rw [← hheap, heq, hn.laidOut.wordIndex hj, hn.laidOut.slot_offset hj hin'] at hv'
  have hword : (m.settled.view i).ref (headerWords + index) =
      (m.heap.view i).ref (headerWords + index) := by
    unfold View.ref
    rw [hm.view_settled hi hin fun hactive => ?_]
    have hapart := hne (hm.format_active hi hactive)
    exact ⟨by omega, by omega⟩
  rw [heq, Heap.fetchField_eq hn.laidOut hj hlt' hin', hv', ← Except.ok.inj hv, hword]

/-- A block on the stack is the same block after a collection. -/
theorem CollectsTo.isBlock (hstep : m.CollectsTo n f) (hm : m.Working starts)
    (hn : n.Working starts') (hk : k < m.registers.sp)
    (hslot : m.heap.slot (m.registers.stackBase + k) = .ok r)
    (hb : m.heap.IsBlock starts r argCount initialPc home) :
    n.heap.IsBlock starts' (r.image f) argCount initialPc (home.image f) := by
  have hp : r.isPointer = true := by
    obtain ⟨i, hi, rfl, -⟩ := hb.context
    exact hm.laidOut.isPointer hi
  have hr := hm.reachable_operand hk hslot hp
  have hfield := @CollectsTo.fetchField _ _ _ _ _ _ hstep hm hn hr _ hb.context rfl
  unfold Ref.image
  rw [if_pos hp]
  constructor
  · exact hstep.isOf hm hn hr hb.context
  · exact hb.argCount_lt
  · exact hb.initialPc_lt
  · rw [hfield (fun _ => by decide) hb.argCount, image_ofNat hb.argCount_lt]
  · rw [hfield (fun _ => by decide) hb.initialPc, image_ofNat hb.initialPc_lt]
  · exact hfield (fun _ => by decide) hb.home

/-- A block on the stack is the same block after collections. -/
theorem Collections.isBlock (hf : Collections m f n) (hm : m.Working starts)
    (hn : n.Working starts') (hk : k < m.registers.sp)
    (hslot : m.heap.slot (m.registers.stackBase + k) = .ok r)
    (hb : m.heap.IsBlock starts r argCount initialPc home) :
    n.heap.IsBlock starts' (f r) argCount initialPc (f home) := by
  induction hf generalizing starts' with
  | none =>
    refine { hb with context := ?_ }
    obtain ⟨i, hi, rfl, hformat⟩ := hb.context
    exact ⟨i, hm.laidOut.mem_of_laidOut hn.laidOut hi, rfl, hformat⟩
  | after hf hw hstep ih =>
    obtain ⟨v, hv, hv'⟩ := hf.operands hm.toActivated hk
    rw [hslot] at hv
    cases hv
    exact hstep.isBlock hw hn (by rw [hf.registers]; exact hk) hv' (ih hw)

end Machine

/-! ## A context apart -/

namespace Heap

/-- Memory in which all objects are still what they were, a context at a position apart. -/
structure Retains (h : Heap) (starts : List Nat) (c : Nat) (starts' : List Nat) (h' : Heap) :
    Prop where
  laidOut : h'.LaidOut starts'
  mem : c ∈ starts'
  context : (h'.view c).format = .context
  kept : ∀ i ∈ starts, i ≠ c → i ∈ starts'
  same : ∀ i ∈ starts, i ≠ c → ∀ k < (h.view i).size, h'.view i k = h.view i k

namespace Retains

variable {h h' h'' : Heap} {starts starts' : List Nat} {c i k : Nat}

theorem layout (hr : h.Retains starts c starts' h') (hi : i ∈ starts) (hne : i ≠ c) :
    View.SameLayout (h.view i) (h'.view i) := by
  have htwo := (h.view i).two_le_size
  constructor
  · unfold View.header
    rw [hr.same i hi hne 0 (by omega)]
    exact .refl _
  · intro hindexable
    exact hr.same i hi hne _ (View.count_lt_size hindexable)

theorem touches (hr : h.Retains starts c starts' h') (ht : h'.Touches c h'') :
    h.Retains starts c starts' h'' where
  laidOut := ht.laidOut hr.laidOut hr.mem
  mem := hr.mem
  context := ht.layout.format_eq.trans hr.context
  kept := hr.kept
  same i hi hne k hk := by
    rw [ht.view_eq hr.laidOut hr.mem (hr.kept i hi hne) hne
      ((hr.layout hi hne).size_eq ▸ hk)]
    exact hr.same i hi hne k hk

theorem slot (hr : h.Retains starts c starts' h') (hl : h.LaidOut starts) (hi : i ∈ starts)
    (hne : i ≠ c) (hk : k < (h.view i).size) : h'.slot (i + k) = h.slot (i + k) := by
  rw [hl.slot_offset hi hk, hr.laidOut.slot_offset (hr.kept i hi hne)
    ((hr.layout hi hne).size_eq ▸ hk)]
  unfold View.ref
  rw [hr.same i hi hne k hk]

theorem fetchField (hr : h.Retains starts c starts' h') (hl : h.LaidOut starts) (hi : i ∈ starts)
    (hne : i ≠ c) (hallows : (h.view i).format.allowsFields = true) {index : Nat} {v : Ref}
    (hok : h.fetchField (.ofWordIndex i) index = .ok v) :
    h'.fetchField (.ofWordIndex i) index = .ok v := by
  obtain ⟨hlt, rfl⟩ := fetchField_ok hl hi hallows hok
  have hlayout := hr.layout hi hne
  have hin := View.fields_lt_size hallows (Nat.add_lt_add_left hlt headerWords)
  rw [fetchField_eq hr.laidOut (hr.kept i hi hne) (hlayout.fields_eq ▸ hlt)
    (hlayout.size_eq ▸ hin)]
  unfold View.ref
  rw [hr.same i hi hne _ hin]

end Retains

end Heap

theorem ContextPool.take_cases (p : ContextPool) (frameSize : Nat) :
    p.take frameSize = (none, p) ∨
      ∃ r rest, p.take frameSize = (some r, rest) ∧ (r ∈ p.small ∨ r ∈ p.large) := by
  unfold ContextPool.take
  split
  · cases p.small with
    | nil => exact .inl rfl
    | cons r rest => exact .inr ⟨r, _, rfl, .inl (by simp)⟩
  · split
    · cases p.large with
      | nil => exact .inl rfl
      | cons r rest => exact .inr ⟨r, _, rfl, .inr (by simp)⟩
    · exact .inl rfl

namespace Machine

open ObjectMachine.Action

variable {m n m' : Machine} {starts starts' : List Nat} {c i k argCount initialPc : Nat}
  {f g : Ref → Ref} {r home cls : Ref} {h h' : Heap}

/-- A machine that can activate: the contexts it keeps for reuse are contexts, and nothing leads to
them. -/
structure Ready (m : Machine) (starts : List Nat) : Prop extends Working m starts where
  spare : ∀ r, r ∈ m.contexts.small ∨ r ∈ m.contexts.large →
    m.heap.IsOf starts .context r ∧ ¬ m.settled.Reachable m.roots r

/-- A context of some class that nothing leads to is there after some collections. -/
structure Provides (m : Machine) (cls : Ref) (f : Ref → Ref) (n : Machine) (starts : List Nat)
    (c : Nat) (m' : Machine) : Prop where
  collections : Collections m f n
  working : n.Working starts
  fresh : ¬ n.settled.Reachable n.roots (.ofWordIndex c)
  taken : c ∈ starts → (n.heap.view c).format = .context
  retains : ∃ starts', n.heap.Retains starts c starts' m'.heap
  cls : (m'.heap.view c).ref 1 = f cls
  registers : m'.registers = n.registers
  core : m'.core = n.core

theorem Ready.newContext (hm : m.Ready starts) (hcls : Known starts cls) (needed : Nat) :
    (m.newContext needed cls).Meets
      (fun r m' => ∃ f n starts' c, r = .ofWordIndex c ∧ m.Provides cls f n starts' c m')
      fun _ => False := by
  unfold Machine.newContext
  rcases m.contexts.take_cases (ContextPool.frameSizeFor needed) with
    hnone | ⟨r, rest, htaken, hmem⟩
  · have htake : (modifyGet fun m : Machine =>
        (((m.contexts.take (ContextPool.frameSizeFor needed)).1),
          { m with contexts := (m.contexts.take (ContextPool.frameSizeFor needed)).2 }) :
        Action (Option Ref)) m = .ok none m := by
      show Outcome.ok _ _ = _
      rw [hnone]
    refine .step htake ?_
    refine (hm.allocate hcls).mono ?_ fun _ h => h
    rintro r m' ⟨n, f, starts', h, hf, hn, hcls', ha, rfl, rfl⟩
    have hl := ha.laidOut hn.laidOut hn.reserved fun _ => by decide
    refine ⟨f, n, starts', n.heap.top, rfl, hf, hn, ?_,
      fun hmem => absurd (hn.laidOut.lt_top hmem) (Nat.lt_irrefl _),
      ⟨starts' ++ [n.heap.top], ?_⟩, ?_, rfl, rfl⟩
    · intro hreach
      obtain ⟨i, hi, heq⟩ := hn.wellFormed.designates_of_reachable hn.rootsIn hreach
      have hlt := hn.laidOut.lt_top hi
      have heq' := Ref.ofWordIndex_inj (hl.lt_addressLimit (by simp))
        (hn.laidOut.lt_addressLimit hi) heq
      omega
    · exact ⟨hl, by simp, ha.fresh_format, fun i hi _ => by simp [hi],
        fun i hi _ k hk => ha.view_eq hn.laidOut hi hk⟩
    · rw [ha.fresh_ref (ha.addressable hn.laidOut hn.reserved) (.inl rfl), if_pos rfl]
  · have htake : (modifyGet fun m : Machine =>
        (((m.contexts.take (ContextPool.frameSizeFor needed)).1),
          { m with contexts := (m.contexts.take (ContextPool.frameSizeFor needed)).2 }) :
        Action (Option Ref)) m = .ok (some r) { m with contexts := rest } := by
      show Outcome.ok _ _ = _
      rw [htaken]
    refine .step htake (.write fun h hok => ?_)
    obtain ⟨⟨i, hi, rfl, hcontext⟩, hspare⟩ := hm.spare r hmem
    have htwo := (m.heap.view i).two_le_size
    have hfit := hm.laidOut.fits_memory hi
    have hthree := (hm.laidOut.readable i hi).context hcontext
    have hok' : m.heap.setClassOf (.ofWordIndex i) cls = .ok h := hok
    rw [Heap.setClassOf_eq hm.laidOut hi] at hok'
    cases hok'
    have ht := Heap.touches_poke (h := m.heap) (i := i) (k := 1) (by omega) hfit (by decide)
      (by simp only [headerWords]; omega) cls.bits
    refine ⟨id, m, starts, i, rfl, .none m, hm.toWorking, hspare, fun _ => hcontext, ⟨starts, ?_⟩,
      ?_, rfl, rfl⟩
    · exact ⟨ht.laidOut hm.laidOut hi, hi, ht.layout.format_eq.trans hcontext, fun _ h _ => h,
        fun j hj hne k hk => ht.view_eq hm.laidOut hi hj hne hk⟩
    · unfold View.ref
      rw [Heap.view_poke (by omega), if_pos rfl]
      rfl

namespace Provides

/-- What can be reached is another object. -/
theorem apart (hp : m.Provides cls f n starts' c m') (hr : n.settled.Reachable n.roots r) :
    r ≠ .ofWordIndex c := by
  rintro rfl
  exact hp.fresh hr

/-- The fields of what can be reached are what they were. -/
theorem fetchField (hp : m.Provides cls f n starts' c m')
    (hr : n.settled.Reachable n.roots r) {format : Format} (hformat : n.heap.IsOf starts' format r)
    (hallows : format.allowsFields = true) {index : Nat} {v : Ref}
    (hok : n.heap.fetchField r index = .ok v) : m'.heap.fetchField r index = .ok v := by
  obtain ⟨starts₂, hretains⟩ := hp.retains
  have hapart := hp.apart hr
  obtain ⟨i, hi, rfl, rfl⟩ := hformat
  have hne : i ≠ c := by
    rintro rfl
    exact hapart rfl
  exact hretains.fetchField hp.working.laidOut hi hne hallows hok

/-- A block on the stack is found there again. -/
theorem block (hp : m.Provides cls f n starts' c m') (hm : m.Working starts)
    (hargs : argCount < m.registers.sp)
    (hblock : m.heap.slot (m.registers.stackBase + (m.registers.sp - 1 - argCount)) = .ok r)
    (hb : m.heap.IsBlock starts r argCount initialPc home) :
    m'.stackValue argCount = .ok (f r) ∧ n.heap.IsBlock starts' (f r) argCount initialPc (f home) ∧
      n.settled.Reachable n.roots (f r) := by
  obtain ⟨starts₂, hretains⟩ := hp.retains
  have hn := hp.working
  have hl := hn.laidOut
  have hsp := hp.collections.sp_eq
  obtain ⟨a, ha, hactive, -⟩ := hn.context
  have hac := hp.apart hn.reachable_active
  obtain ⟨v, hv, hslot⟩ := hp.collections.operands hm.toActivated
    (k := m.registers.sp - 1 - argCount) (by omega)
  rw [hblock] at hv
  cases hv
  have hb' := hp.collections.isBlock hm hn (by omega) hblock hb
  refine ⟨?_, hb', ?_⟩
  · obtain ⟨hin, hbase, -⟩ := hn.slot_operand ha hactive
      (k := m.registers.sp - 1 - argCount) (by have := hn.sp_le; omega)
    unfold Machine.stackValue
    rw [hp.registers, if_pos (by omega), show n.registers.stackBase + n.registers.sp - 1 - argCount =
      a + ((n.heap.view a).elements + (m.registers.sp - 1 - argCount)) by omega,
      hretains.slot hl ha (fun heq => hac (heq ▸ hactive)) hin, ← Nat.add_assoc, ← hbase, hslot]
  · obtain ⟨b, hbmem, hbeq, -⟩ := hb'.context
    exact hn.reachable_operand (by omega) hslot (hbeq ▸ hl.isPointer hbmem)

end Provides

end Machine

/-! ## Filling in a context -/

namespace Heap

variable {h h' : Heap} {starts : List Nat} {c index : Nat} {v : Ref}

/-- A store to a field that succeeds changes that field. -/
theorem storeField_ok (hl : h.LaidOut starts) (hc : c ∈ starts)
    (hallows : (h.view c).format.allowsFields = true)
    (hok : h.storeField (.ofWordIndex c) index v = .ok h') :
    index < (h.view c).fields ∧ h.Touches c h' ∧
      ∀ k, (h'.view c).ref k = if k = headerWords + index then v else (h.view c).ref k := by
  by_cases hlt : index < (h.view c).fields
  · have hin := View.fields_lt_size hallows (Nat.add_lt_add_left hlt headerWords)
    have hfit := hl.fits_memory hc
    rw [storeField_eq hl hc hlt hin] at hok
    cases hok
    refine ⟨hlt, touches_poke hin hfit (by simp [headerWords]) (by omega) _, ?_⟩
    intro k
    unfold View.ref
    rw [view_poke (by omega)]
    split <;> rfl
  · unfold storeField fieldIndex at hok
    rw [hl.header hc] at hok
    unfold View.fields at hlt
    dsimp only at hok
    rw [if_neg hlt] at hok
    cases hok

/-- A store to an element that succeeds changes that element. -/
theorem storeElement_ok (hl : h.LaidOut starts) (hc : c ∈ starts)
    (htail : (h.view c).format.hasReferenceTail = true)
    (hok : h.storeElement (.ofWordIndex c) index v = .ok h') :
    index < (h.view c).len ∧ h.Refills c h' ∧
      ∀ k, (h'.view c).ref k = if k = (h.view c).elements + index then v else (h.view c).ref k := by
  obtain ⟨position, hposition, hset⟩ := bind_eq_ok.mp hok
  obtain ⟨_, hcheck, -⟩ := bind_eq_ok.mp hposition
  have hlt : index < (h.view c).len := by
    unfold checkElement at hcheck
    rw [hl.length hc] at hcheck
    by_contra hge
    dsimp only at hcheck
    rw [if_neg hge] at hcheck
    cases hcheck
  have hin := View.elements_lt_size htail (Nat.add_lt_add_left hlt (h.view c).elements)
  have hfit := hl.fits_memory hc
  rw [storeElement_eq hl hc hlt hin] at hok
  cases hok
  refine ⟨hlt, .poke hin _, ?_⟩
  intro k
  unfold View.ref
  rw [view_poke (by omega)]
  split <;> rfl

end Heap

namespace Context

variable {h h' : Heap} {starts : List Nat} {c : Nat} {caller initialPc home argCount : Ref} {sp : Nat}

/-- What a block context holds once it is filled in. -/
theorem initBlock_ok (hl : h.LaidOut starts) (hc : c ∈ starts)
    (hcontext : (h.view c).format = .context)
    (hok : initBlock h (.ofWordIndex c) caller initialPc home argCount sp = .ok h') :
    h.Touches c h' ∧ homeField < (h'.view c).fields ∧ (h'.view c).ref 1 = (h.view c).ref 1 ∧
      (h'.view c).ref (headerWords + senderField) = caller ∧
      (h'.view c).ref (headerWords + pcField) = initialPc ∧
      (h'.view c).ref (headerWords + spField) = .ofNat sp ∧
      (h'.view c).ref (headerWords + argCountField) = argCount ∧
      (h'.view c).ref (headerWords + homeField) = home := by
  have hallows : ∀ {x : Heap}, h.Touches c x → (x.view c).format.allowsFields = true := by
    intro x ht
    rw [ht.layout.format_eq, hcontext]
    rfl
  have hallows₀ : (h.view c).format.allowsFields = true := by
    rw [hcontext]
    rfl
  obtain ⟨h₁, hok₁, hok⟩ := bind_eq_ok.mp hok
  obtain ⟨-, ht₁, hv₁⟩ := Heap.storeField_ok hl hc hallows₀ hok₁
  obtain ⟨h₂, hok₂, hok⟩ := bind_eq_ok.mp hok
  obtain ⟨-, ht₂, hv₂⟩ := Heap.storeField_ok (ht₁.laidOut hl hc) hc (hallows ht₁) hok₂
  replace ht₂ := ht₁.trans ht₂
  obtain ⟨h₃, hok₃, hok⟩ := bind_eq_ok.mp hok
  obtain ⟨-, ht₃, hv₃⟩ := Heap.storeField_ok (ht₂.laidOut hl hc) hc (hallows ht₂) hok₃
  replace ht₃ := ht₂.trans ht₃
  obtain ⟨h₄, hok₄, hok⟩ := bind_eq_ok.mp hok
  obtain ⟨-, ht₄, hv₄⟩ := Heap.storeField_ok (ht₃.laidOut hl hc) hc (hallows ht₃) hok₄
  replace ht₄ := ht₃.trans ht₄
  obtain ⟨h₅, hok₅, hok⟩ := bind_eq_ok.mp hok
  obtain ⟨-, ht₅, hv₅⟩ := Heap.storeField_ok (ht₄.laidOut hl hc) hc (hallows ht₄) hok₅
  replace ht₅ := ht₄.trans ht₅
  obtain ⟨hlt, ht₆, hv₆⟩ := Heap.storeField_ok (ht₅.laidOut hl hc) hc (hallows ht₅) hok
  refine ⟨ht₅.trans ht₆, ht₆.layout.fields_eq ▸ hlt, ?_⟩
  simp only [hv₆, hv₅, hv₄, hv₃, hv₂, hv₁]
  simp [headerWords, senderField, pcField, spField, contextStackPointer, argCountField,
    initialPcField, homeField]

/-- The slots that are copied to a context are found among its elements, in their order. -/
theorem copySlots_ok {position index count : Nat} (hl : h.LaidOut starts) (hc : c ∈ starts)
    (hcontext : (h.view c).format = .context)
    (hapart : ∀ k < count, position + k < c ∨ c + (h.view c).size ≤ position + k)
    (hok : copySlots h (.ofWordIndex c) position index count = .ok h') :
    h.Refills c h' ∧
      (∀ k < index, (h'.view c).ref ((h.view c).elements + k) =
        (h.view c).ref ((h.view c).elements + k)) ∧
      ∀ k < count, index + k < (h.view c).len ∧ h.slot (position + k) =
        .ok ((h'.view c).ref ((h.view c).elements + (index + k))) := by
  induction count generalizing h position index with
  | zero =>
    cases hok
    exact ⟨.refl .., fun _ _ => rfl, fun k hk => absurd hk (Nat.not_lt_zero k)⟩
  | succ count ih =>
    have htail : (h.view c).format.hasReferenceTail = true := by
      rw [hcontext]
      rfl
    obtain ⟨v, hslot, hok⟩ := bind_eq_ok.mp hok
    obtain ⟨h₁, hstore, hrest⟩ := bind_eq_ok.mp hok
    obtain ⟨hlt, hw, hview⟩ := Heap.storeElement_ok hl hc htail hstore
    have hlayout := hw.touches.layout
    obtain ⟨hw', hbelow, habove⟩ := ih (hw.touches.laidOut hl hc)
      (hlayout.format_eq.trans hcontext) (by
        intro k hk
        rw [hlayout.size_eq]
        have := hapart (k + 1) (by omega)
        omega) hrest
    rw [hlayout.elements_eq] at hbelow habove
    rw [hlayout.len_eq] at habove
    refine ⟨hw.trans hw' hlayout, ?_, ?_⟩
    · intro k hk
      rw [hbelow k (by omega), hview, if_neg (by omega)]
    · intro k hk
      cases k with
      | zero =>
        refine ⟨hlt, ?_⟩
        rw [Nat.add_zero, Nat.add_zero, hbelow index (by omega), hview, if_pos rfl]
        exact hslot
      | succ k =>
        obtain ⟨hlt', hslot'⟩ := habove k (by omega)
        rw [show index + (k + 1) = index + 1 + k by omega,
          show position + (k + 1) = position + 1 + k by omega]
        refine ⟨hlt', ?_⟩
        -- What is read lies outside the context, so the store before does not show.
        rw [← hslot', hw.slot_outside]
        have := hapart (k + 1) (by omega)
        omega

end Context

/-! ## Entering a context -/

namespace Machine

open ObjectMachine.Action

variable {m n m' : Machine} {starts starts' : List Nat} {c k argCount initialPc : Nat}
  {f : Ref → Ref} {r home : Ref} {h : Heap}

/-- What is found in memory once a context apart is entered with arguments from the stack of `n`. -/
structure Leaves (n : Machine) (c : Nat) (h : Heap) (argCount : Nat) (m' : Machine) : Prop where
  loaded : ∃ (r : Registers), r.load m'.heap (.ofWordIndex c) = .ok m'.registers
  laidOut : ∃ starts, m'.heap.LaidOut starts ∧ c ∈ starts
  layout : View.SameLayout (h.view c) (m'.heap.view c)
  fields : ∀ k < (h.view c).elements, (m'.heap.view c).ref k = (h.view c).ref k
  arguments : ∀ k < argCount, m'.heap.slot (c + ((h.view c).elements + k)) =
    n.heap.slot (n.registers.stackBase + (n.registers.sp - argCount + k))
  callerPc : Context.pc? m'.heap n.registers.activeContext = .ok (some n.registers.pc)
  callerSp : Context.sp? m'.heap n.registers.activeContext =
    .ok (some (n.registers.sp - (argCount + 1)))
  callerStack : ∀ k < n.registers.sp - (argCount + 1),
    m'.heap.slot (n.registers.stackBase + k) = n.heap.slot (n.registers.stackBase + k)

theorem popMany_eq {count : Nat} (hle : count ≤ m.registers.sp) :
    m.popMany count =
      .ok () { m with registers := { m.registers with sp := m.registers.sp - count } } := by
  refine (Action.bind_of_ok rfl).trans ?_
  rw [if_pos hle]
  rfl

/-- What is written back to a context is read from it. -/
theorem register?_eq {field value : Nat} (hl : h.LaidOut starts) (hc : c ∈ starts)
    (hcontext : (h.view c).format = .context) (hfield : field < 3) (hlt : value < Ref.addressLimit)
    (hword : (h.view c).ref (headerWords + field) = .ofNat value) :
    Context.register? h (.ofWordIndex c) field = .ok (some value) := by
  obtain ⟨hindex, hin⟩ := contextField_bounds hl hc hcontext hfield
  unfold Context.register?
  rw [Heap.fetchField_eq hl hc hindex hin, hword]
  show Except.ok (if (Ref.ofNat value).isSmallInteger then _ else _) = _
  rw [if_pos (Ref.isSmallInteger_ofNat hlt), Ref.toCount_ofNat hlt]

theorem Working.enterContext (hn : n.Working starts) (hr : n.heap.Retains starts c starts' h)
    (hne : n.registers.activeContext ≠ .ofWordIndex c) (hargs : argCount < n.registers.sp)
    (hregisters : m.registers = n.registers) (hheap : m.heap = h) :
    (m.enterContext (.ofWordIndex c) argCount).Meets (fun _ m' => n.Leaves c h argCount m')
      fun _ => False := by
  obtain ⟨a, ha, hactive, hcontext⟩ := hn.context
  have hac : a ≠ c := by
    rintro rfl
    exact hne hactive
  have hle := hn.sp_le
  obtain ⟨-, hbase, -⟩ := hn.slot_operand ha hactive (Nat.lt_of_lt_of_le hargs hle)
  have hslotIn : ∀ k < n.registers.sp, (n.heap.view a).elements + k < (n.heap.view a).size :=
    fun k hk => (hn.slot_operand ha hactive (Nat.lt_of_lt_of_le hk hle)).1
  have hlayout := hr.layout ha hac
  have ha' := hr.kept a ha hac
  unfold Machine.enterContext
  refine .step rfl ?_
  rw [hregisters]
  refine .lift fun _ _ => .write fun h₂ hcopy => ?_
  rw [hheap, Nat.add_sub_assoc (Nat.le_of_lt hargs)] at hcopy
  -- The stack of the caller lies in another object than the context.
  have houtside : ∀ k < n.registers.sp,
      n.registers.stackBase + k < c ∨ c + (h.view c).size ≤ n.registers.stackBase + k := by
    intro k hk
    have hin := hslotIn k hk
    rcases Nat.lt_or_gt_of_ne hac with hlt | hlt
    · have hend : a + (h.view a).size ≤ c := hr.laidOut.tiles.apart ha' hr.mem hlt
      rw [hlayout.size_eq] at hend
      omega
    · have hend : c + (h.view c).size ≤ a := hr.laidOut.tiles.apart hr.mem ha' hlt
      omega
  obtain ⟨hw, -, hcopied⟩ := Context.copySlots_ok hr.laidOut hr.mem hr.context
    (fun k hk => by
      rw [Nat.add_assoc]
      exact houtside _ (by omega)) hcopy
  have hr₂ := hr.touches hw.touches
  have ha₂ := hr₂.layout ha hac
  have hcontext₂ : (h₂.view a).format = .context := ha₂.format_eq.trans hcontext
  refine .step (popMany_eq (by rw [show _ = n.registers from hregisters]; omega)) ?_
  refine .step (flushRegisters_eq hr₂.laidOut ha' (by
    rw [show _ = n.registers from hregisters]
    exact hactive) hcontext₂) ?_
  refine loadContext_meets fun registers hload => ?_
  -- Memory as it is now, and the registers that were written back.
  obtain ⟨w, hwdef⟩ : ∃ w : Machine, w = { m with
    heap := h₂, registers := { m.registers with sp := m.registers.sp - (argCount + 1) } } := ⟨_, rfl⟩
  rw [← hwdef] at hload ⊢
  have hwheap : w.heap = h₂ := by rw [hwdef]
  have hwpc : w.registers.pc = n.registers.pc := by rw [hwdef, ← hregisters]
  have hwsp : w.registers.sp = n.registers.sp - (argCount + 1) := by rw [hwdef, ← hregisters]
  have htouch : h₂.Touches a (w.flushedHeap a) :=
    hwheap ▸ touches_flushedHeap (m := w) (hwheap ▸ hr₂.laidOut) ha' (hwheap ▸ hcontext₂)
  have hl₃ := htouch.laidOut hr₂.laidOut ha'
  have hcontext₃ : ((w.flushedHeap a).view a).format = .context :=
    htouch.layout.format_eq.trans hcontext₂
  have hword : ∀ k < (h.view c).size, ((w.flushedHeap a).view c).ref k = (h₂.view c).ref k := by
    intro k hk
    unfold View.ref
    rw [htouch.view_eq hr₂.laidOut ha' hr₂.mem hac.symm (hw.touches.layout.size_eq ▸ hk)]
  have hstack : ∀ k < n.registers.sp, (w.flushedHeap a).slot (n.registers.stackBase + k) =
      n.heap.slot (n.registers.stackBase + k) := by
    intro k hk
    have hin := hslotIn k hk
    have hthree := (hn.laidOut.readable a ha).context hcontext
    have hsize : (h₂.view a).size = (n.heap.view a).size := ha₂.size_eq
    rw [hbase, Nat.add_assoc, ← hr₂.slot hn.laidOut ha hac hin,
      hl₃.slot_offset ha' (by rw [htouch.layout.size_eq, hsize]; exact hin),
      hr₂.laidOut.slot_offset ha' (hsize ▸ hin)]
    unfold View.ref
    have helements : (n.heap.view a).elements = headerWords + (n.heap.view a).fields + 1 := rfl
    rw [view_flushedHeap (by simp only [Context.pcField]; omega)
      (by simp only [Context.spField, contextStackPointer]; omega), hwheap]
  have hlayoutc : View.SameLayout (h.view c) ((w.flushedHeap a).view c) :=
    hw.touches.layout.trans (htouch.sameLayout hr₂.laidOut ha' hr₂.mem)
  constructor
  · exact ⟨_, hload⟩
  · exact ⟨starts', hl₃, hr₂.mem⟩
  · exact hlayoutc
  · intro k hk
    have hsize : (h.view c).elements ≤ (h.view c).size :=
      View.count_lt_size (o := h.view c) (by rw [hr.context]; rfl)
    rw [hword k (by omega)]
    exact congrArg Ref.mk (hw.view_eq hr.laidOut hr.mem hr.mem (by omega) fun _ => hk)
  · intro k hk
    obtain ⟨hlt, hslot⟩ := hcopied k hk
    rw [Nat.zero_add] at hlt hslot
    have htail : (h.view c).format.hasReferenceTail = true := by
      rw [hr.context]
      rfl
    have hin := View.elements_lt_size htail (Nat.add_lt_add_left hlt (h.view c).elements)
    have hin' := hslotIn (n.registers.sp - argCount + k) (by omega)
    rw [hl₃.slot_offset hr.mem (hlayoutc.size_eq ▸ hin), hword _ hin, ← hslot, hbase, Nat.add_assoc,
      Nat.add_assoc, hr.slot hn.laidOut ha hac hin']
  · rw [hactive]
    refine register?_eq hl₃ ha' hcontext₃ pcField_lt hn.pc_lt ?_
    rw [← hwpc]
    exact position_flushedHeap (m := w) (hwheap ▸ hr₂.laidOut) ha' (hwheap ▸ hcontext₂)
  · rw [hactive]
    refine register?_eq hl₃ ha' hcontext₃ spField_lt (by have := hn.sp_lt; omega) ?_
    rw [← hwsp]
    exact stackPointer_flushedHeap (m := w) (hwheap ▸ hr₂.laidOut) ha' (hwheap ▸ hcontext₂)
  · intro k hk
    exact hstack k (by omega)

/-! ## Activating a block -/

/-- A machine that goes on with a fresh activation of the block below the arguments on the stack of
`n`, which is left without both. -/
structure Enters (n : Machine) (argCount initialPc : Nat) (home : Ref) (m' : Machine) : Prop where
  fresh : ¬ n.settled.Reachable n.roots m'.registers.activeContext
  cls : m'.heap.classOf m'.registers.activeContext = .ok (n.core.cls .blockContext)
  sender : Context.sender m'.heap m'.registers.activeContext = .ok n.registers.activeContext
  home : m'.registers.homeContext = home
  pc : m'.registers.pc = initialPc
  sp : m'.registers.sp = argCount
  arguments : ∀ k < argCount, m'.heap.slot (m'.registers.stackBase + k) =
    n.heap.slot (n.registers.stackBase + (n.registers.sp - argCount + k))
  callerPc : Context.pc? m'.heap n.registers.activeContext = .ok (some n.registers.pc)
  callerSp : Context.sp? m'.heap n.registers.activeContext =
    .ok (some (n.registers.sp - (argCount + 1)))
  callerStack : ∀ k < n.registers.sp - (argCount + 1),
    m'.heap.slot (n.registers.stackBase + k) = n.heap.slot (n.registers.stackBase + k)

/-- A context that was filled in for a block and entered is an activation of it. -/
theorem Leaves.enters (hm : n.Leaves c h argCount m')
    (hfresh : ¬ n.settled.Reachable n.roots (.ofWordIndex c))
    (hcontext : (h.view c).format = .context) (hfields : Context.homeField < (h.view c).fields)
    (hcls : (h.view c).ref 1 = n.core.cls .blockContext)
    (hsender : (h.view c).ref (headerWords + Context.senderField) = n.registers.activeContext)
    (hpc : (h.view c).ref (headerWords + Context.pcField) = .ofNat initialPc)
    (hsp : (h.view c).ref (headerWords + Context.spField) = .ofNat argCount)
    (hargs : (h.view c).ref (headerWords + Context.argCountField) = .ofNat argCount)
    (hhome : (h.view c).ref (headerWords + Context.homeField) = home)
    (hpclt : initialPc < Ref.addressLimit) (hargslt : argCount < Ref.addressLimit) :
    n.Enters argCount initialPc home m' := by
  obtain ⟨starts, hl, hc⟩ := hm.laidOut
  obtain ⟨r, hload⟩ := hm.loaded
  obtain ⟨hactive, hreads, ⟨pc, hpc', hpceq⟩, ⟨sp, hsp', hspeq⟩, -⟩ := Registers.load_ok_iff.mp hload
  have hcontext' : (m'.heap.view c).format = .context := hm.layout.format_eq.trans hcontext
  have hfield : ∀ field ≤ Context.homeField, m'.heap.fetchField (.ofWordIndex c) field =
      .ok ((h.view c).ref (headerWords + field)) := by
    intro field hle
    have hlt : field < (h.view c).fields := Nat.lt_of_le_of_lt hle hfields
    have hin := View.fields_lt_size (o := h.view c) (by rw [hcontext]; rfl)
      (Nat.add_lt_add_left hlt headerWords)
    rw [Heap.fetchField_eq hl hc (hm.layout.fields_eq ▸ hlt) (hm.layout.size_eq ▸ hin),
      hm.fields _ (by simp only [View.elements]; omega)]
  have hregister : ∀ field < 3, ∀ value < Ref.addressLimit,
      (h.view c).ref (headerWords + field) = .ofNat value →
      Context.register? m'.heap (.ofWordIndex c) field = .ok (some value) := by
    intro field hlt value hvalue hword
    refine register?_eq hl hc hcontext' hlt hvalue ?_
    rw [hm.fields _ (by simp only [View.elements, Context.homeField] at *; omega)]
    exact hword
  have hbase := hreads.stackBase
  rw [hactive, Heap.elementsIndex_eq hl hc, hm.layout.elements_eq] at hbase
  constructor
  · rw [hactive]
    exact hfresh
  · rw [hactive, hl.classOf hc, hm.fields 1 (by simp only [View.elements, headerWords]; omega), hcls]
  · rw [hactive]
    exact (hfield _ (by decide)).trans (congrArg Except.ok hsender)
  · have hhome' := hreads.home
    rw [hactive] at hhome'
    unfold Context.home Context.isBlock at hhome'
    rw [hfield _ (by decide), hfield _ (by decide), hargs, hhome] at hhome'
    change (if (Ref.ofNat argCount).isSmallInteger = true then Except.ok home else _) = _ at hhome'
    rw [if_pos (Ref.isSmallInteger_ofNat hargslt)] at hhome'
    exact (Except.ok.inj hhome').symm
  · rw [hpceq]
    have heq := (hregister _ pcField_lt _ hpclt hpc).symm.trans hpc'
    rw [← Except.ok.inj heq]
    rfl
  · rw [hspeq]
    have heq := (hregister _ spField_lt _ hargslt hsp).symm.trans hsp'
    rw [← Except.ok.inj heq]
    rfl
  · intro k hk
    rw [← Except.ok.inj hbase, Nat.add_assoc]
    exact hm.arguments k hk
  · exact hm.callerPc
  · exact hm.callerSp
  · exact hm.callerStack

/-- The activation of a block: after some collections, the machine goes on with a fresh context. -/
theorem Ready.activateBlock (hm : m.Ready starts) (hargs : argCount < m.registers.sp)
    (hblock : m.heap.slot (m.registers.stackBase + (m.registers.sp - 1 - argCount)) = .ok r)
    (hb : m.heap.IsBlock starts r argCount initialPc home) :
    (m.activateBlock argCount).Meets
      (fun _ m' => ∃ f n, Collections m f n ∧ n.Enters argCount initialPc (f home) m')
      fun _ => False := by
  unfold Machine.activateBlock
  refine .inspect fun r' hr' => .read fun frame _ => .step rfl ?_
  refine .bind_of_never (hm.newContext (hm.known (root_cls m .blockContext)) frame) ?_
  rintro _ m₁ ⟨f, n, starts', c, rfl, hp⟩
  obtain ⟨starts₂, hr⟩ := hp.retains
  have hn := hp.working
  have hsp := hp.collections.sp_eq
  obtain ⟨hvalue', hb', hreach⟩ := hp.block hm.toWorking hargs hblock hb
  have hfield := @Provides.fetchField _ _ _ _ _ _ _ _ hp hreach _ hb'.context rfl
  refine .inspect fun block hvalue => .step rfl (.write fun h₁ hinit => ?_)
  rw [hvalue'] at hvalue
  cases hvalue
  rw [hfield hb'.initialPc, hfield hb'.argCount, hfield hb'.home] at hinit
  obtain ⟨ht, hfields, hcls, hsender, hpc, hspWord, hargsWord, hhome⟩ :=
    Context.initBlock_ok hr.laidOut hr.mem hr.context hinit
  refine (hn.enterContext (m := { m₁ with heap := h₁ }) (hr.touches ht)
    (hp.apart hn.reachable_active) (by omega) hp.registers rfl).mono ?_ fun _ h => h
  intro _ m' hleaves
  refine ⟨f, n, hp.collections, hleaves.enters hp.fresh (hr.touches ht).context hfields ?_ ?_ hpc
    hspWord hargsWord hhome hb'.initialPc_lt hb'.argCount_lt⟩
  · rw [hcls, hp.cls, hp.collections.core]
    exact (Vector.getElem_map ..).symm
  · rw [hsender, hp.registers]

end Machine

end ObjectMachine
