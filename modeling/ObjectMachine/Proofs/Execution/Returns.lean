import ObjectMachine.Execution.Step
import ObjectMachine.Proofs.Execution.Chains

/-!
# Returns

A return from a method leaves every context from the active one up to the context of the method, and
the sender of the method goes on with the value. From a block whose method has returned there is
nothing to return from: only the block is left, and its caller is told so. In both cases the contexts
that are left are dead, those that nothing captured are kept for other activations, and of everything
else one or two slots of the stack that goes on are written.

## Main results

* `Machine.retireUpTo_eq`: the contexts that a return leaves.
* `Machine.step_unwinds`: a return from a method in progress.
* `Machine.step_escapes`: a return from a method that is not in progress.
-/

namespace ObjectMachine

/-! ## Contexts that are kept -/

namespace ContextPool

variable {h h' : Heap} {p : ContextPool} {i size : Nat} {kept new killed : List Nat}

/-- The pool once the context at a position may be kept. -/
def keep (p : ContextPool) (h : Heap) (i : Nat) : ContextPool :=
  if (h.view i).header.isCaptured then p else p.put (.ofWordIndex i) (h.view i).len

/-- The pool once the contexts at some positions may be kept, one after the other. -/
def keepAll (p : ContextPool) (h : Heap) (killed : List Nat) : ContextPool :=
  killed.foldl (fun p i => p.keep h i) p

/-- The contexts among some that nothing captured and that have frames of a size. -/
def spare (h : Heap) (size : Nat) (killed : List Nat) : List Ref :=
  (killed.filter fun i => !(h.view i).header.isCaptured && (h.view i).len == size).map .ofWordIndex

/-- Contexts kept on top of others, as far as there is room. -/
def stacked (kept new : List Ref) : List Ref :=
  (new.take (limit - kept.length)).reverse ++ kept

theorem stacked_cons (kept new : List Ref) (r : Ref) :
    stacked kept (r :: new) = stacked (if kept.length < limit then r :: kept else kept) new := by
  unfold stacked
  by_cases hroom : kept.length < limit
  · obtain ⟨room, hlimit⟩ : ∃ room, limit - kept.length = room + 1 :=
      Nat.exists_eq_succ_of_ne_zero (by omega)
    rw [if_pos hroom, hlimit, List.length_cons, show limit - (kept.length + 1) = room by omega]
    simp
  · rw [if_neg hroom, show limit - kept.length = 0 by omega]
    rfl

/-- What is kept of one frame size, if a context that is put in is kept when it has that size. -/
theorem kept_keepAll {get : ContextPool → List Ref}
    (hput : ∀ (p : ContextPool) (r : Ref) (len : Nat), get (p.put r len) =
      if len = size then if (get p).length < limit then r :: get p else get p else get p)
    (p : ContextPool) (h : Heap) (killed : List Nat) :
    get (p.keepAll h killed) = stacked (get p) (spare h size killed) := by
  induction killed generalizing p with
  | nil => simp [keepAll, spare, stacked]
  | cons i killed ih =>
    refine (ih (p.keep h i)).trans ?_
    by_cases hspare : (h.view i).header.isCaptured = false ∧ (h.view i).len = size
    · have hcons : spare h size (i :: killed) = .ofWordIndex i :: spare h size killed := by
        simp [spare, hspare.1, hspare.2]
      rw [hcons, stacked_cons]
      unfold keep
      rw [hspare.1, if_neg Bool.false_ne_true, hput, if_pos hspare.2]
    · have hcons : spare h size (i :: killed) = spare h size killed := by
        simp only [spare]
        rw [List.filter_cons_of_neg]
        simpa using hspare
      have hkeep : get (p.keep h i) = get p := by
        unfold keep
        split
        · rfl
        · rename_i hcaptured
          rw [hput, if_neg fun hlen => hspare ⟨by simpa using hcaptured, hlen⟩]
      rw [hcons, hkeep]

/-- Exactly the contexts with small frames that nothing captured are kept, up to the limit. -/
theorem small_keepAll (p : ContextPool) (h : Heap) (killed : List Nat) :
    (p.keepAll h killed).small = stacked p.small (spare h smallFrame killed) := by
  refine kept_keepAll (fun p r len => ?_) p h killed
  unfold put
  split
  · split <;> rfl
  · split
    · split <;> rfl
    · rfl

/-- Exactly the contexts with large frames that nothing captured are kept, up to the limit. -/
theorem large_keepAll (p : ContextPool) (h : Heap) (killed : List Nat) :
    (p.keepAll h killed).large = stacked p.large (spare h largeFrame killed) := by
  refine kept_keepAll (fun p r len => ?_) p h killed
  unfold put
  by_cases hsmall : len = smallFrame
  · rw [if_pos hsmall, if_neg (show len ≠ largeFrame by rw [hsmall]; decide)]
    split <;> rfl
  · rw [if_neg hsmall]
    split
    · split <;> rfl
    · rfl

theorem reused_keepAll (p : ContextPool) (h : Heap) (killed : List Nat) :
    (p.keepAll h killed).reused = p.reused := by
  induction killed generalizing p with
  | nil => rfl
  | cons i killed ih =>
    refine (ih (p.keep h i)).trans ?_
    unfold keep put
    repeat' split
    all_goals rfl

theorem keepAll_congr (hsame : ∀ i ∈ killed, (h'.view i).header = (h.view i).header ∧
    (h'.view i).len = (h.view i).len) (p : ContextPool) : p.keepAll h' killed = p.keepAll h killed := by
  induction killed generalizing p with
  | nil => rfl
  | cons i killed ih =>
    obtain ⟨hheader, hlen⟩ := hsame i (.head _)
    have hkeep : p.keep h' i = p.keep h i := by
      unfold keep
      rw [hheader, hlen]
    show keepAll (p.keep h' i) h' killed = keepAll (p.keep h i) h killed
    rw [hkeep]
    exact ih (fun j hj => hsame j (.tail _ hj)) _

end ContextPool

namespace Machine

open ObjectMachine.Action

variable {m n : Machine} {starts killed rest : List Nat} {c i home pc sp : Nat} {r target value : Ref}
  {answer : Answer}

/-! ## Contexts that are left -/

/-- The machine once the contexts at some positions returned. -/
def retired (m : Machine) (killed : List Nat) : Machine :=
  { m with heap := m.heap.buryAll killed, contexts := m.contexts.keepAll m.heap killed }

theorem isCaptured_eq (hl : m.heap.LaidOut starts) (hi : i ∈ starts) :
    m.heap.isCaptured (.ofWordIndex i) = .ok (m.heap.view i).header.isCaptured := by
  unfold Heap.isCaptured
  rw [hl.header hi]

theorem kill_eq {h : Heap} (hl : h.LaidOut starts) (hi : i ∈ starts)
    (hcontext : (h.view i).format = .context) :
    Context.kill h (.ofWordIndex i) = .ok (h.bury i) := by
  have hfit := hl.fits_memory hi
  have hthree := (hl.readable i hi).context hcontext
  obtain ⟨hsender, hsenderIn⟩ := contextField_bounds hl hi hcontext (show Context.senderField < 3 by decide)
  obtain ⟨hpc, hpcIn⟩ := contextField_bounds hl hi hcontext (show Context.pcField < 3 by decide)
  have ht := Heap.touches_poke hsenderIn hfit (by decide)
    (by simp only [headerWords, Context.senderField]; omega) h.nil.bits
  show (h.storeField (.ofWordIndex i) Context.senderField h.nil >>= fun g =>
    g.storeField (.ofWordIndex i) Context.pcField h.nil) = _
  rw [Heap.storeField_eq hl hi hsender hsenderIn]
  exact Heap.storeField_eq (ht.laidOut hl hi) hi (by rwa [ht.layout.fields_eq])
    (by rwa [ht.layout.size_eq]) _

theorem retire_eq (hl : m.heap.LaidOut starts) (hi : i ∈ starts)
    (hcontext : (m.heap.view i).format = .context) :
    m.retire (.ofWordIndex i) = .ok () (m.retired [i]) := by
  have ht := Heap.touches_bury hl hi hcontext
  have hl' := ht.laidOut hl hi
  have hcontexts : m.heap.AreContexts starts [i] := fun j hj => by
    cases List.mem_singleton.mp hj
    exact ⟨hi, hcontext⟩
  have hheader : ((m.heap.bury i).view i).header = (m.heap.view i).header :=
    Heap.header_buryAll hl hcontexts hi
  have hrecycle : m.contexts.recycle (m.heap.bury i) (.ofWordIndex i) =
      .ok (m.contexts.keep m.heap i) := by
    unfold ContextPool.recycle Context.frameSize Heap.isCaptured ContextPool.keep
    rw [hl'.header hi, hl'.length hi, hheader, ht.layout.len_eq]
    show (if (m.heap.view i).header.isCaptured then _ else _) = _
    split <;> rfl
  unfold Machine.retire
  rw [bind_of_ok (write_of_ok (kill_eq hl hi hcontext))]
  have hinspect : Action.inspect (fun m => m.contexts.recycle m.heap (.ofWordIndex i))
      { m with heap := m.heap.bury i } =
        .ok (m.contexts.keep m.heap i) { m with heap := m.heap.bury i } := by
    unfold Action.inspect
    dsimp only
    rw [hrecycle]
  rw [bind_of_ok hinspect]
  rfl

/-- The contexts of a chain are left until the one where the rest of the chain begins. -/
theorem retireUpTo_eq (hl : m.heap.LaidOut starts) (hchain : m.heap.Chain starts r (killed ++ rest))
    (htarget : m.heap.Chain starts target rest) {fuel : Nat} (hfuel : killed.length < fuel) :
    m.retireUpTo target r fuel = .ok () (m.retired killed) := by
  induction killed generalizing m r fuel with
  | nil =>
    obtain ⟨fuel, rfl⟩ := Nat.exists_eq_succ_of_ne_zero (Nat.ne_of_gt hfuel)
    have heq : r = target := hchain.ref_unique htarget
    unfold Machine.retireUpTo
    refine (bind_of_ok rfl).trans ?_
    rw [if_neg fun h => h.1 heq]
    rfl
  | cons i killed ih =>
    obtain ⟨fuel, rfl⟩ := Nat.exists_eq_succ_of_ne_zero
      (Nat.ne_of_gt (Nat.lt_of_le_of_lt (Nat.zero_le _) hfuel))
    have hnodup := hchain.nodup hl
    obtain ⟨rfl, hi, hcontext, hne, hrest⟩ := Heap.Chain.cons_iff.mp hchain
    have hfar : Ref.ofWordIndex i ≠ target := fun heq => by
      have hlength := congrArg List.length (hchain.unique hl (heq ▸ htarget))
      simp only [List.length_append, List.length_cons] at hlength
      omega
    have hcontexts : m.heap.AreContexts starts [i] := fun j hj => by
      cases List.mem_singleton.mp hj
      exact ⟨hi, hcontext⟩
    have hkills := Heap.kills_buryAll hl hcontexts
    have hapart : ∀ j ∈ killed ++ rest, j ∉ [i] := fun j hj hji => by
      cases List.mem_singleton.mp hji
      exact (List.nodup_cons.mp hnodup).1 hj
    unfold Machine.retireUpTo
    refine (bind_of_ok rfl).trans ?_
    rw [if_pos ⟨hfar, hl.isPointer hi, hne⟩, bind_of_ok (read_of_ok (Heap.sender_eq hl hi hcontext)),
      bind_of_ok (retire_eq hl hi hcontext)]
    refine (ih hkills.laidOut (hkills.chain hrest hapart)
      (hkills.chain htarget fun j hj => hapart j (List.mem_append_right _ hj))
      (by simpa using hfuel)).trans ?_
    -- The headers and the frames of the others are what they were.
    have hkeep : (m.contexts.keep m.heap i).keepAll (m.heap.bury i) killed =
        (m.contexts.keep m.heap i).keepAll m.heap killed := by
      refine ContextPool.keepAll_congr (fun j hj => ?_) _
      obtain ⟨hj', -⟩ := hchain.mem (List.mem_cons_of_mem i (List.mem_append_left rest hj))
      exact ⟨Heap.header_buryAll hl hcontexts hj', (hkills.layout j hj').len_eq⟩
    exact congrArg (fun p => Outcome.ok () { m with heap := m.heap.buryAll (i :: killed), contexts := p })
      hkeep

theorem areContexts (hchain : m.heap.Chain starts r (killed ++ rest)) :
    m.heap.AreContexts starts killed :=
  fun _ hi => hchain.mem (List.mem_append_left rest hi)

theorem apart_rest (hl : m.heap.LaidOut starts) (hchain : m.heap.Chain starts r (killed ++ rest))
    (hi : i ∈ rest) : i ∉ killed :=
  fun hi' => (List.nodup_append.mp (hchain.nodup hl)).2.2 i hi' i hi rfl

/-- Leaving contexts retires them. Then the target goes on, if there is one. -/
theorem leaveTo_eq (hl : m.heap.LaidOut starts)
    (hchain : m.heap.Chain starts m.registers.activeContext (killed ++ rest))
    (htarget : m.heap.Chain starts target rest) :
    m.leaveTo target = (if target.isPointer && target != m.heap.nil then
      loadContext target >>= fun _ => pure true else pure false : Action Bool) (m.retired killed) := by
  have hlength := hchain.length_le hl
  simp only [List.length_append] at hlength
  unfold Machine.leaveTo
  rw [bind_of_ok (show Action.ask _ m = .ok _ m from rfl),
    bind_of_ok (show Action.getRegisters m = .ok _ m from rfl),
    bind_of_ok (retireUpTo_eq hl hchain htarget (by omega)),
    bind_of_ok (show Action.ask _ (m.retired killed) = .ok _ (m.retired killed) from rfl)]
  simp only [retired, Heap.nil_buryAll]

/-! ## The stack that goes on -/

/-- A machine that is `m` but for the activation: the context at `c` is active, with some values above
those on its stack. -/
structure GoesOn (m : Machine) (c pc sp : Nat) (values : List Ref) (n : Machine) : Prop where
  active : n.registers.activeContext = .ofWordIndex c
  position : n.registers.pc = pc
  depth : n.registers.sp = sp + values.length
  base : n.registers.stackBase = c + (m.heap.view c).elements
  limit : n.registers.stackLimit = (m.heap.view c).len
  touches : m.heap.Touches c n.heap
  pushed : ∀ k v, values[k]? = some v →
    (n.heap.view c).ref ((m.heap.view c).elements + (sp + k)) = v
  unchanged : ∀ p, p < c + ((m.heap.view c).elements + sp) ∨
    c + ((m.heap.view c).elements + sp + values.length) ≤ p → n.heap.cell p = m.heap.cell p
  large : n.heap.largeIntegers = m.heap.largeIntegers
  rest : { n with heap := m.heap, registers := m.registers } = m

theorem leaveTo_suspended (hl : m.heap.LaidOut starts)
    (hchain : m.heap.Chain starts m.registers.activeContext (killed ++ c :: rest))
    (htarget : m.heap.Chain starts target (c :: rest)) (hc : m.heap.IsSuspended starts c pc sp) :
    ∃ n, m.leaveTo target = .ok true n ∧ (m.retired killed).GoesOn c pc sp [] n := by
  have hcontexts := areContexts hchain
  have hkills := Heap.kills_buryAll hl hcontexts
  have hc' := (hkills.keepsContext (apart_rest hl hchain (.head _))).isSuspended hc
  obtain ⟨r', hload, hactive, hpc, hsp, hbase, hlimit⟩ := hc'.load hkills.laidOut m.registers
  obtain ⟨rfl, hmem, -, hne, -⟩ := Heap.Chain.cons_iff.mp htarget
  have hcondition : ((Ref.ofWordIndex c).isPointer && Ref.ofWordIndex c != m.heap.nil) = true := by
    simp [hl.isPointer hmem, hne]
  have hloaded : loadContext (.ofWordIndex c) (m.retired killed) =
      .ok () { m.retired killed with registers := r' } := by
    unfold loadContext
    rw [show (m.retired killed).registers.load (m.retired killed).heap (.ofWordIndex c) = .ok r'
      from hload]
  refine ⟨{ m.retired killed with registers := r' }, ?_, ?_⟩
  · rw [leaveTo_eq hl hchain htarget, if_pos hcondition, bind_of_ok hloaded]
    rfl
  · exact ⟨hactive, hpc, hsp, hbase, hlimit, .refl _ _, fun _ _ h => by simp at h, fun _ _ => rfl, rfl,
      rfl⟩

/-- A value is pushed if there is a free slot. -/
theorem GoesOn.push {values : List Ref} (hn : m.GoesOn c pc sp values n) (hl : m.heap.LaidOut starts)
    (hc : c ∈ starts) (hcontext : (m.heap.view c).format = .context)
    (hroom : sp + values.length < (m.heap.view c).len) (v : Ref) :
    ∃ n', n.push v = .ok () n' ∧ m.GoesOn c pc sp (values ++ [v]) n' := by
  have hfit := hl.fits_memory hc
  have hsize := hn.touches.size
  have hin := View.elements_lt_size (o := m.heap.view c) (by rw [hcontext]; rfl)
    (Nat.add_lt_add_left hroom _)
  have hposition : n.registers.stackBase + n.registers.sp =
      c + ((m.heap.view c).elements + (sp + values.length)) := by
    rw [hn.base, hn.depth]
    omega
  have hwrite : n.heap.setSlot (n.registers.stackBase + n.registers.sp) v =
      .ok (n.heap.poke (c + ((m.heap.view c).elements + (sp + values.length))) v.bits) := by
    rw [hposition]
    exact Heap.setSlot_eq (by omega) v
  refine ⟨n.restacked (n.heap.poke (c + ((m.heap.view c).elements + (sp + values.length))) v.bits)
    n.registers.pc (n.registers.sp + 1), ?_, ?_⟩
  · unfold Machine.push
    rw [bind_of_ok (show Action.getRegisters n = .ok _ n from rfl),
      if_pos (by rw [hn.depth, hn.limit]; exact hroom), bind_of_ok (write_of_ok hwrite)]
    rfl
  · have hview := Heap.view_poke (h := n.heap) (i := c)
      (k := (m.heap.view c).elements + (sp + values.length)) (by omega) v.bits
    have hpoke := Heap.touches_poke (h := n.heap) (i := c)
      (k := (m.heap.view c).elements + (sp + values.length)) (by rw [hn.touches.layout.size_eq]; exact hin)
      (by rw [hn.touches.layout.size_eq]; omega) (by simp only [View.elements, headerWords]; omega)
      (by rw [hn.touches.layout.fields_eq]; simp only [View.elements]; omega) v.bits
    refine ⟨hn.active, hn.position, ?_, hn.base, hn.limit, hn.touches.trans hpoke, ?_, ?_, hn.large, hn.rest⟩
    · show n.registers.sp + 1 = _
      rw [hn.depth, List.length_append, List.length_singleton]
      omega
    · intro k w hw
      show ((n.heap.poke _ v.bits).view c).ref _ = w
      by_cases hk : k < values.length
      · rw [List.getElem?_append_left hk] at hw
        rw [← hn.pushed k w hw]
        exact congrArg Ref.mk ((hview _).trans (if_neg (by omega)))
      · rw [List.getElem?_append_right (by omega)] at hw
        obtain ⟨hlt, rfl⟩ := List.getElem?_eq_some_iff.mp hw
        simp only [List.length_singleton] at hlt
        obtain rfl : k = values.length := by omega
        simp only [Nat.sub_self, List.getElem_cons_zero]
        exact congrArg Ref.mk ((hview _).trans (if_pos rfl))
    · intro p hp
      rw [List.length_append, List.length_singleton] at hp
      refine (Heap.cell_poke_ne (by omega) _).trans (hn.unchanged p (by omega))

/-! ## What a return leaves -/

/-- A machine in which some contexts returned: their senders and positions are nil. Apart from that at
most some words of memory, the registers and the contexts kept for reuse are not those of `m`. -/
structure Retires (m : Machine) (killed : List Nat) (written : Nat → Prop) (m' : Machine) : Prop where
  sender : ∀ i ∈ killed, Context.sender m'.heap (.ofWordIndex i) = .ok m'.heap.nil
  position : ∀ i ∈ killed, m'.heap.fetchField (.ofWordIndex i) Context.pcField = .ok m'.heap.nil
  unchanged : ∀ p, ¬ Heap.IsBuried killed p → ¬ written p → m'.heap.cell p = m.heap.cell p
  heap : { m'.heap with memory := m.heap.memory } = m.heap
  rest : { m' with heap := m.heap, registers := m.registers, contexts := m.contexts } = m

/-- The contexts that were retired stay dead while words elsewhere are written. -/
theorem dead_of_buried {h h' : Heap} (hl : h.LaidOut starts) (hl' : h'.LaidOut starts)
    (hcontexts : h.AreContexts starts killed) (hi : i ∈ killed)
    (hlayout : View.SameLayout (h.view i) (h'.view i)) (hnil : h'.nil = h.nil)
    (hwords : ∀ k < (h.view i).size, h'.view i k = (h.buryAll killed).view i k) :
    Context.sender h' (.ofWordIndex i) = .ok h'.nil ∧
      h'.fetchField (.ofWordIndex i) Context.pcField = .ok h'.nil := by
  obtain ⟨hmem, hcontext⟩ := hcontexts i hi
  have hfit := hl.fits_memory hmem
  have hfield : ∀ index, index < 3 → Heap.IsBuried killed (i + (headerWords + index)) →
      h'.fetchField (.ofWordIndex i) index = .ok h'.nil := by
    intro index hindex hburied
    obtain ⟨hlt, hin⟩ := contextField_bounds hl hmem hcontext hindex
    rw [Heap.fetchField_eq hl' hmem (by rwa [hlayout.fields_eq]) (by rwa [hlayout.size_eq]), hnil]
    exact congrArg (Except.ok ∘ Ref.mk) ((hwords _ hin).trans (Heap.buried hburied (by omega)))
  exact ⟨hfield Context.senderField (by decide) ⟨i, hi, .inl rfl⟩,
    hfield Context.pcField (by decide) ⟨i, hi, .inr rfl⟩⟩

theorem GoesOn.retires {values : List Ref} (hn : (m.retired killed).GoesOn c pc sp values n)
    (hl : m.heap.LaidOut starts) (hcontexts : m.heap.AreContexts starts killed) (hc : c ∈ starts)
    (hapart : c ∉ killed) :
    m.Retires killed (fun p => ∃ k < values.length, p = c + ((m.heap.view c).elements + (sp + k))) n := by
  have hkills := Heap.kills_buryAll hl hcontexts
  have hl' := hn.touches.laidOut hkills.laidOut hc
  have hnil : n.heap.nil = m.heap.nil := hn.touches.nil.trans hkills.nil
  have hdead : ∀ i ∈ killed, Context.sender n.heap (.ofWordIndex i) = .ok n.heap.nil ∧
      n.heap.fetchField (.ofWordIndex i) Context.pcField = .ok n.heap.nil := by
    intro i hi
    obtain ⟨hmem, -⟩ := hcontexts i hi
    have hlayout := hkills.layout i hmem
    refine dead_of_buried hl hl' hcontexts hi
      (hlayout.trans (hn.touches.sameLayout hkills.laidOut hc hmem)) hnil fun k hk => ?_
    exact hn.touches.view_eq hkills.laidOut hc hmem (fun heq => hapart (heq ▸ hi))
      (by show k < ((m.heap.buryAll killed).view i).size; rwa [hlayout.size_eq])
  refine ⟨fun i hi => (hdead i hi).1, fun i hi => (hdead i hi).2, fun p hp hp' => ?_, ?_, ?_⟩
  · refine (hn.unchanged p ?_).trans (Heap.unchanged_buryAll hp)
    have helements : ((m.retired killed).heap.view c).elements = (m.heap.view c).elements :=
      (hkills.layout c hc).elements_eq
    rw [helements]
    by_contra hinside
    exact hp' ⟨p - (c + ((m.heap.view c).elements + sp)), by omega, by omega⟩
  · have hrest := hn.touches.rest
    rw [← hn.large] at hrest
    exact (congrArg (fun g : Heap => { g with memory := m.heap.memory }) hrest).trans
      (Heap.rest_buryAll m.heap killed)
  · exact congrArg (fun n : Machine =>
      { n with heap := m.heap, registers := m.registers, contexts := m.contexts }) hn.rest

theorem retires_ended (hl : m.heap.LaidOut starts) (hcontexts : m.heap.AreContexts starts killed)
    (registers : Registers) :
    m.Retires killed (fun _ => False) { m.retired killed with registers } := by
  have hkills := Heap.kills_buryAll hl hcontexts
  have hdead : ∀ i ∈ killed, _ := fun i hi =>
    dead_of_buried hl hkills.laidOut hcontexts hi (hkills.layout i (hcontexts i hi).1) hkills.nil
      fun _ _ => rfl
  exact ⟨fun i hi => (hdead i hi).1, fun i hi => (hdead i hi).2,
    fun p hp _ => Heap.unchanged_buryAll hp, Heap.rest_buryAll m.heap killed, rfl⟩

/-! ## Returns from a method in progress -/

/-- The sender of a method in progress. -/
theorem methodReturn_eq (hl : m.heap.LaidOut starts)
    (hchain : m.heap.Chain starts m.registers.activeContext (killed ++ rest))
    (hlast : killed.getLast? = some home) (hhome : m.registers.homeContext = .ofWordIndex home)
    (hlive : Context.isDead m.heap (.ofWordIndex home) = .ok false) (value : Ref) :
    ∃ target, m.heap.Chain starts target rest ∧ m.methodReturn value = m.returnTo target value := by
  obtain ⟨before, rfl⟩ := List.getLast?_eq_some_iff.mp hlast
  have hnodup := hchain.nodup hl
  rw [List.append_assoc] at hchain hnodup
  obtain ⟨-, hi, hcontext, -, hrest⟩ := Heap.Chain.cons_iff.mp hchain.suffix
  refine ⟨_, hrest, ?_⟩
  unfold Machine.methodReturn
  rw [bind_of_ok (show Action.getRegisters m = .ok _ m from rfl)]
  dsimp only
  cases before with
  | nil =>
    have hactive : m.registers.activeContext = .ofWordIndex home := (Heap.Chain.cons_iff.mp hchain).1
    rw [if_pos (hactive.trans hhome.symm), hactive,
      bind_of_ok (read_of_ok (Heap.sender_eq hl hi hcontext))]
  | cons a before =>
    have hactive : m.registers.activeContext = .ofWordIndex a := (Heap.Chain.cons_iff.mp hchain).1
    have ha := (Heap.Chain.cons_iff.mp hchain).2.1
    have hne : m.registers.activeContext ≠ m.registers.homeContext := by
      rw [hactive, hhome]
      intro heq
      cases hl.ofWordIndex_inj ha hi heq
      exact (List.nodup_cons.mp hnodup).1 (by simp)
    have hsender : Context.hasSender m.heap m.registers.activeContext m.registers.homeContext =
        .ok true := by
      rw [hactive] at hchain ⊢
      rw [hchain.hasSender_eq hl, hhome]
      exact congrArg Except.ok (decide_eq_true ⟨home, by simp, rfl⟩)
    have halive : (do
        if ← Context.isDead m.heap m.registers.homeContext then return false
        else Context.hasSender m.heap m.registers.activeContext m.registers.homeContext) =
          (.ok true : Except Fatal Bool) := by
      rw [hhome, hlive, ← hhome]
      exact hsender
    rw [if_neg hne, bind_of_ok (read_of_ok halive), if_pos rfl, hhome,
      bind_of_ok (read_of_ok (Heap.sender_eq hl hi hcontext))]

theorem returnTo_ended (hl : m.heap.LaidOut starts)
    (hchain : m.heap.Chain starts m.registers.activeContext killed)
    (htarget : m.heap.Chain starts target []) :
    m.returnTo target value =
      .ok (some value) { m.retired killed with registers := m.registers.clear } := by
  rw [← List.append_nil killed] at hchain
  have hnil : target = m.heap.nil := htarget.ref_unique .done
  unfold Machine.returnTo
  have hleave : m.leaveTo target = .ok false (m.retired killed) := by
    rw [leaveTo_eq hl hchain htarget, hnil, if_neg (by simp)]
    rfl
  rw [bind_of_ok hleave, if_neg Bool.false_ne_true]
  rfl

theorem returnTo_suspended (hl : m.heap.LaidOut starts)
    (hchain : m.heap.Chain starts m.registers.activeContext (killed ++ c :: rest))
    (htarget : m.heap.Chain starts target (c :: rest)) (hc : m.heap.IsSuspended starts c pc sp)
    (hroom : sp < (m.heap.view c).len) (value : Ref) :
    ∃ n, m.returnTo target value = .ok none n ∧ (m.retired killed).GoesOn c pc sp [value] n := by
  have hkills := Heap.kills_buryAll hl (areContexts hchain)
  have hlayout := hkills.layout c hc.mem
  obtain ⟨n, hleave, hn⟩ := leaveTo_suspended hl hchain htarget hc
  obtain ⟨n', hpush, hn'⟩ := hn.push hkills.laidOut hc.mem (hlayout.format_eq.trans hc.context)
    (by rw [show ((m.retired killed).heap.view c).len = _ from hlayout.len_eq]; exact hroom) value
  refine ⟨n', ?_, hn'⟩
  unfold Machine.returnTo
  rw [bind_of_ok hleave, if_pos rfl, bind_of_ok hpush]
  rfl

/-! ## The instruction -/

/-- The instruction that a machine comes to next. -/
def Faces (m : Machine) (opcode : Opcode) : Prop :=
  m.registers.pc < m.registers.codeLength ∧ ∃ b,
    m.heap.byteAtOffset (m.registers.codeBase + m.registers.pc) = .ok b ∧
      Opcode.ofByte? b = some opcode

/-- The value that a method answers: the top of the stack, unless the instruction names it. -/
def Answers (m : Machine) (answer : Answer) (value : Ref) : Prop :=
  match answer with
  | .top => 0 < m.registers.sp ∧ m.stackValue 0 = .ok value
  | .self => value = m.registers.receiver
  | .nil => value = m.core.nil
  | .true => value = m.core.trueObject
  | .false => value = m.core.falseObject

theorem step_of_faces {opcode : Opcode} (hfaces : m.Faces opcode) :
    m.step = perform opcode (m.restacked m.heap (m.registers.pc + 1) m.registers.sp) := by
  obtain ⟨hlt, b, hbyte, hopcode⟩ := hfaces
  have hfetch : m.fetchByte = .ok b (m.restacked m.heap (m.registers.pc + 1) m.registers.sp) := by
    unfold Machine.fetchByte
    rw [bind_of_ok (show Action.getRegisters m = .ok _ m from rfl), if_pos hlt,
      bind_of_ok (read_of_ok hbyte)]
    rfl
  unfold Machine.step
  rw [bind_of_ok hfetch, hopcode]

theorem answerValue_eq (hvalue : m.Answers answer value) :
    ∃ sp, answerValue answer m = .ok value (m.restacked m.heap m.registers.pc sp) := by
  cases answer with
  | top => exact ⟨_, pop_eq hvalue.1 hvalue.2⟩
  | self | nil | true | false =>
    cases hvalue
    exact ⟨m.registers.sp, rfl⟩

/-- An instruction that returns from the method, once the value is there. -/
theorem step_methodReturn (hfaces : m.Faces (.methodReturn answer)) (hvalue : m.Answers answer value) :
    ∃ pc sp, m.step = methodReturn value (m.restacked m.heap pc sp) := by
  have hvalue' : (m.restacked m.heap (m.registers.pc + 1) m.registers.sp).Answers answer value := by
    cases answer <;> exact hvalue
  obtain ⟨sp, hanswer⟩ := answerValue_eq hvalue'
  exact ⟨_, sp, (step_of_faces hfaces).trans (bind_of_ok hanswer)⟩

/-- The pool keeps of some contexts exactly those that nothing captured and that have frames of one of
the two sizes, as far as there is room. -/
structure Recycles (m : Machine) (killed : List Nat) (m' : Machine) : Prop where
  small : m'.contexts.small = ContextPool.stacked m.contexts.small
    (ContextPool.spare m.heap ContextPool.smallFrame killed)
  large : m'.contexts.large = ContextPool.stacked m.contexts.large
    (ContextPool.spare m.heap ContextPool.largeFrame killed)
  reused : m'.contexts.reused = m.contexts.reused

theorem recycles_retired (h : n.contexts = (m.retired killed).contexts) : m.Recycles killed n where
  small := by rw [h]; exact ContextPool.small_keepAll ..
  large := by rw [h]; exact ContextPool.large_keepAll ..
  reused := by rw [h]; exact ContextPool.reused_keepAll ..

/-- A machine that goes on with the context at `c`, at the position where it waited in `h`, with some
values above those that were on its stack. The rest of the chain waits as before. -/
structure Continues (h : Heap) (starts : List Nat) (c pc sp : Nat) (rest : List Nat)
    (values : List Ref) (m' : Machine) : Prop where
  active : m'.registers.activeContext = .ofWordIndex c
  position : m'.registers.pc = pc
  depth : m'.registers.sp = sp + values.length
  stack : ∀ k < sp, m'.heap.fetchElement (.ofWordIndex c) k = h.fetchElement (.ofWordIndex c) k
  values : ∀ k v, values[k]? = some v → m'.heap.fetchElement (.ofWordIndex c) (sp + k) = .ok v
  chain : m'.heap.Chain starts (.ofWordIndex c) (c :: rest)

/-- What was on the stack of the context was there when it began to wait. -/
theorem GoesOn.continues {values : List Ref} (hn : m.GoesOn c pc sp values n) {h : Heap}
    (hkills : h.Kills starts killed m.heap) (hchain : h.Chain starts (.ofWordIndex c) (c :: rest))
    (hapart : ∀ i ∈ c :: rest, i ∉ killed) (hroom : sp + values.length ≤ (h.view c).len) :
    Continues h starts c pc sp rest values n := by
  obtain ⟨-, hc, hcontext, -, -⟩ := Heap.Chain.cons_iff.mp hchain
  have hl := hkills.laidOut
  have hl' := hn.touches.laidOut hl hc
  have hlayout := hn.touches.layout
  have hlen := (hkills.layout c hc).len_eq
  have hformat := (hkills.layout c hc).format_eq.trans hcontext
  have htail : (m.heap.view c).format.hasReferenceTail = true := by
    rw [hformat]
    rfl
  have helement : ∀ k < (h.view c).len, n.heap.fetchElement (.ofWordIndex c) k =
      .ok ((n.heap.view c).ref ((m.heap.view c).elements + k)) := fun k hk => by
    rw [Heap.fetchElement_eq hl' hc (by rwa [hlayout.format_eq]) (by rwa [hlayout.len_eq, hlen]),
      hlayout.elements_eq]
  refine ⟨hn.active, hn.position, hn.depth, fun k hk => ?_, fun k v hv => ?_, ?_⟩
  · rw [helement k (by omega), ← hkills.fetchElement hc hcontext (by omega),
      Heap.fetchElement_eq hl hc htail (by omega)]
    exact congrArg (Except.ok ∘ Ref.mk) (hn.unchanged _ (.inl (by omega)))
  · have hk : k < values.length := (List.getElem?_eq_some_iff.mp hv).1
    rw [helement _ (by omega)]
    exact congrArg Except.ok (hn.pushed k v hv)
  · refine (hkills.chain hchain hapart).congr hn.touches.nil fun i hi => ?_
    obtain ⟨hmem, hcontext'⟩ := (hkills.chain hchain hapart).mem hi
    refine ⟨hn.touches.sameLayout hl hc hmem, ?_⟩
    obtain ⟨hindex, hin⟩ := contextField_bounds hl hmem hcontext' (show Context.senderField < 3 by decide)
    by_cases hic : i = c
    · subst hic
      exact congrArg Ref.mk (hn.unchanged _ (.inl (by simp only [View.elements]; omega)))
    · exact congrArg Ref.mk (hn.touches.view_eq hl hc hmem hic hin)

theorem Retires.of_restacked {written written' : Nat → Prop}
    (h : (m.restacked m.heap pc sp).Retires killed written n) (hw : ∀ p, written p → written' p) :
    m.Retires killed written' n where
  sender := h.sender
  position := h.position
  unchanged p hp hp' := h.unchanged p hp fun hwritten => hp' (hw p hwritten)
  heap := h.heap
  rest := congrArg (fun n : Machine => { n with registers := m.registers }) h.rest

/-- A return from a method whose context is in the chain of the active one, however many contexts of
methods and blocks are in between. -/
theorem step_unwinds (hl : m.heap.LaidOut starts) (hreads : m.registers.Reads m.heap)
    (hfaces : m.Faces (.methodReturn answer)) (hvalue : m.Answers answer value)
    (hchain : m.heap.Chain starts m.registers.activeContext (killed ++ rest))
    (hhome : Context.home m.heap m.registers.activeContext = .ok (.ofWordIndex home))
    (hlast : killed.getLast? = some home)
    (hlive : Context.isDead m.heap (.ofWordIndex home) = .ok false) :
    (rest = [] → ∃ m', m.step = .ok (some value) m' ∧ m.Retires killed (fun _ => False) m' ∧
      m.Recycles killed m' ∧ m'.registers.activeContext = .null) ∧
    ∀ c beyond pc sp, rest = c :: beyond → m.heap.IsSuspended starts c pc sp →
      sp < (m.heap.view c).len →
      ∃ m', m.step = .ok none m' ∧
        m.Retires killed (· = c + ((m.heap.view c).elements + sp)) m' ∧ m.Recycles killed m' ∧
        Continues m.heap starts c pc sp beyond [value] m' := by
  have hregister : m.registers.homeContext = .ofWordIndex home :=
    Except.ok.inj (hreads.home.symm.trans hhome)
  have hcontexts := areContexts hchain
  obtain ⟨pc', sp', hstep⟩ := step_methodReturn hfaces hvalue
  let n := m.restacked m.heap pc' sp'
  obtain ⟨target, htarget, hreturn⟩ := methodReturn_eq (m := n) hl hchain hlast hregister hlive value
  rw [hstep, hreturn]
  refine ⟨fun hrest => ?_, fun c beyond pc sp hrest hc hroom => ?_⟩
  · subst hrest
    rw [List.append_nil] at hchain
    exact ⟨_, returnTo_ended (m := n) hl hchain htarget, retires_ended hl hcontexts _,
      recycles_retired rfl, rfl⟩
  · subst hrest
    have hkills := Heap.kills_buryAll hl hcontexts
    have hapart := apart_rest hl hchain (List.mem_cons_self (a := c) (l := beyond))
    obtain ⟨m', hok, hn⟩ := returnTo_suspended (m := n) hl hchain htarget hc hroom value
    have hcontexts' : m'.contexts = (m.retired killed).contexts :=
      (congrArg Machine.contexts hn.rest :)
    refine ⟨m', hok, ?_, recycles_retired hcontexts',
      hn.continues hkills hchain.suffix (fun i hi => apart_rest hl hchain hi) hroom⟩
    refine (hn.retires (m := n) hl hcontexts hc.mem hapart).of_restacked fun p hp => ?_
    obtain ⟨k, hk, rfl⟩ := hp
    cases Nat.lt_one_iff.mp hk
    rfl

/-- A machine whose next instruction returns 5 from the method of a block. The method was sent by the
context at 13 and is in progress, and evaluates the block itself, or else it has returned, and the
context at 13 evaluates the block. -/
def returningBlock (alive : Bool) : Machine :=
  let heap : Heap :=
    { memory := #[0,
        (Header.pack .byteArray 0 3).bits, Ref.null.bits, 1, 0x20,
        (Header.pack .array 0 4).bits, Ref.null.bits, 0,
        (Header.pack .plain 3 5).bits, Ref.null.bits, (Ref.ofNat 0).bits, (Ref.ofWordIndex 5).bits,
        (Ref.ofWordIndex 1).bits,
        (Header.pack .context 6 6).bits, Ref.null.bits, Ref.null.bits, (Ref.ofNat 0).bits,
        (Ref.ofNat 0).bits, (Ref.ofWordIndex 8).bits, Ref.null.bits, (Ref.ofNat 3).bits, 2, 0, 0,
        (Header.pack .context 6 7).bits, Ref.null.bits, (Ref.ofWordIndex 13).bits,
        (if alive then (Ref.ofNat 0).bits else Ref.null.bits), (Ref.ofNat 0).bits,
        (Ref.ofWordIndex 8).bits, Ref.null.bits, (Ref.ofNat 7).bits, 0,
        (Header.pack .context 6 8).bits, Ref.null.bits,
        (Ref.ofWordIndex (if alive then 24 else 13)).bits, (Ref.ofNat 0).bits, (Ref.ofNat 0).bits,
        (Ref.ofNat 0).bits, (Ref.ofNat 0).bits, (Ref.ofWordIndex 24).bits, 1, (Ref.ofNat 5).bits]
      top := 43
      reservedWords := 64
      sinceCollection := 0
      config := {}
      hashState := 1
      nil := .null
      largeIntegers := .empty
      stats := {} }
  { ofHeap heap ⟨#[], 0, 0⟩ with
    registers := { Registers.empty with
      activeContext := .ofWordIndex 33
      homeContext := .ofWordIndex 24
      method := .ofWordIndex 8
      receiver := .ofNat 7
      literals := .ofWordIndex 5
      sp := 1
      stackBase := 42
      stackLimit := 1
      tempBase := 33
      codeBase := 32
      codeLength := 1 } }

theorem returningBlock_laidOut (alive : Bool) :
    (returningBlock alive).heap.LaidOut [1, 5, 8, 13, 24, 33] where
  committed := by cases alive <;> decide
  addressable := by cases alive <;> decide
  tiles := by
    cases alive <;> exact .cons (.cons (.cons (.cons (.cons (.cons (.nil 43))))))
  readable i hi := by
    have hall : ∀ i ∈ [1, 5, 8, 13, 24, 33],
        ((returningBlock alive).heap.view i).header.isValid = true ∧
        Format.ofCode? ((returningBlock alive).heap.view i).header.formatCode =
          some ((returningBlock alive).heap.view i).format ∧
        (((returningBlock alive).heap.view i).format = .context →
          3 ≤ ((returningBlock alive).heap.view i).fields) := by
      cases alive <;> decide
    obtain ⟨hvalid, hknown, hcontext⟩ := hall i hi
    exact ⟨hvalid, hknown, hcontext⟩

theorem returningBlock_reads (alive : Bool) :
    (returningBlock alive).registers.Reads (returningBlock alive).heap := by
  cases alive <;>
    exact ⟨rfl, rfl, rfl, rfl, ⟨.ofWordIndex 1, rfl, rfl, rfl⟩, rfl, rfl, rfl, ⟨_, _, rfl, rfl, rfl⟩⟩

theorem returningBlock_faces (alive : Bool) : (returningBlock alive).Faces (.methodReturn .top) := by
  cases alive <;> exact ⟨by decide, 0x20, rfl, rfl⟩

theorem returningBlock_answers (alive : Bool) : (returningBlock alive).Answers .top (.ofNat 5) := by
  cases alive <;> exact ⟨by decide, rfl⟩

theorem returningBlock_suspended (alive : Bool) :
    (returningBlock alive).heap.IsSuspended [1, 5, 8, 13, 24, 33] 13 0 0 := by
  have hmethod : (returningBlock alive).heap.IsMethod [1, 5, 8, 13, 24, 33] (.ofWordIndex 8)
      (.ofRef (.ofNat 0)) (.ofWordIndex 5) (.ofWordIndex 1) := by
    cases alive <;> exact ⟨⟨8, by decide, rfl, by decide⟩, ⟨.ofNat 0, rfl, by decide, rfl⟩, rfl, rfl,
      ⟨1, by decide, rfl, by decide⟩⟩
  cases alive <;> exact ⟨by decide, by decide, ⟨13, .ofWordIndex 8, .ofNat 3, _, _, _, rfl, by decide,
    by decide, rfl, rfl, hmethod⟩, rfl, rfl⟩

/-- The block returns 5 to the sender of the method, across the context of the method. -/
theorem returningBlock_unwinds : ∃ m', (returningBlock true).step = .ok none m' ∧
    (returningBlock true).Retires [33, 24] (· = 22) m' ∧ (returningBlock true).Recycles [33, 24] m' ∧
    Continues (returningBlock true).heap [1, 5, 8, 13, 24, 33] 13 0 0 [] [.ofNat 5] m' := by
  have hchain : (returningBlock true).heap.Chain [1, 5, 8, 13, 24, 33]
      (returningBlock true).registers.activeContext ([33, 24] ++ [13]) :=
    .step (by decide) (by decide) (by decide) (.step (by decide) (by decide) (by decide)
      (.step (by decide) (by decide) (by decide) .done))
  exact (step_unwinds (returningBlock_laidOut true) (returningBlock_reads true)
    (returningBlock_faces true) (returningBlock_answers true) hchain rfl
    (show [33, 24].getLast? = some 24 from rfl) rfl).2 13 [] 0 0 rfl (returningBlock_suspended true)
    (by decide)

/-! ## Returns from a method that is gone -/

/-- The machine once the object at a position is captured. -/
def captured (m : Machine) (i : Nat) : Machine :=
  { m with heap := m.heap.poke (i + 0) (m.heap.view i).header.captured.bits }

/-- A method is gone if its context is dead, or if the active context does not lead back to it. -/
theorem methodReturn_gone {dead : Bool} (hl : m.heap.LaidOut starts)
    (hchain : m.heap.Chain starts m.registers.activeContext (i :: rest))
    (hne : m.registers.activeContext ≠ m.registers.homeContext)
    (hdead : Context.isDead m.heap m.registers.homeContext = .ok dead)
    (hgone : dead = true ∨ ∀ j ∈ rest, m.registers.homeContext ≠ .ofWordIndex j) :
    m.methodReturn value = m.escapeBlock := by
  have hactive : m.registers.activeContext = .ofWordIndex i := (Heap.Chain.cons_iff.mp hchain).1
  have halive : (do
      if ← Context.isDead m.heap m.registers.homeContext then return false
      else Context.hasSender m.heap m.registers.activeContext m.registers.homeContext) =
        (.ok false : Except Fatal Bool) := by
    rw [hdead]
    cases dead with
    | true => rfl
    | false =>
      have hapart := hgone.resolve_left Bool.false_ne_true
      rw [hactive] at hchain ⊢
      refine (hchain.hasSender_eq hl).trans (congrArg Except.ok (decide_eq_false ?_))
      rintro ⟨j, hj, heq⟩
      exact hapart j hj heq
  unfold Machine.methodReturn
  rw [bind_of_ok (show Action.getRegisters m = .ok _ m from rfl)]
  dsimp only
  rw [if_neg hne, bind_of_ok (read_of_ok halive), if_neg Bool.false_ne_true]

theorem escapeBlock_eq (hl : m.heap.LaidOut starts)
    (hchain : m.heap.Chain starts m.registers.activeContext (i :: c :: rest))
    (hc : m.heap.IsSuspended starts c pc sp) (hroom : sp + 2 ≤ (m.heap.view c).len) :
    ∃ n, m.escapeBlock = send m.core.escapedBlock 1 n ∧
      ((m.captured i).retired [i]).GoesOn c pc sp [m.registers.receiver, .ofWordIndex i] n := by
  obtain ⟨hactive, hi, hcontext, hne, hrest⟩ := Heap.Chain.cons_iff.mp hchain
  have hcaptured := Heap.kills_captured hl hi
  have hchain' : (m.captured i).heap.Chain starts m.registers.activeContext ([i] ++ c :: rest) :=
    hcaptured.chain hchain fun _ _ => List.not_mem_nil
  have hrest' := hcaptured.chain hrest fun _ _ => List.not_mem_nil
  have hc' := (hcaptured.keepsContext List.not_mem_nil).isSuspended hc
  obtain ⟨n, hleave, hn⟩ := leaveTo_suspended (m := m.captured i) hcaptured.laidOut hchain' hrest' hc'
  have hkills := Heap.kills_buryAll hcaptured.laidOut (areContexts (m := m.captured i) hchain')
  have hformat := (hkills.layout c hc.mem).format_eq.trans hc'.context
  have hlen := (hkills.layout c hc.mem).len_eq.trans (hcaptured.layout c hc.mem).len_eq
  have hlen' : (((m.captured i).retired [i]).heap.view c).len = (m.heap.view c).len := hlen
  obtain ⟨n₁, hpush, hn₁⟩ := hn.push hkills.laidOut hc.mem hformat
    (by rw [hlen', List.length_nil]; omega) m.registers.receiver
  obtain ⟨n₂, hpush', hn₂⟩ := hn₁.push hkills.laidOut hc.mem hformat
    (by rw [hlen', List.nil_append, List.length_singleton]; omega) (.ofWordIndex i)
  refine ⟨n₂, ?_, hn₂⟩
  have hcore : n₂.core = m.core := (congrArg Machine.core hn₂.rest :)
  have hwrite : Action.write (·.setCaptured (.ofWordIndex i) true) m = .ok () (m.captured i) :=
    write_of_ok (Heap.setCaptured_eq hl hi true)
  unfold Machine.escapeBlock
  rw [bind_of_ok (show Action.getRegisters m = .ok _ m from rfl)]
  dsimp only
  rw [hactive, bind_of_ok (read_of_ok (Heap.sender_eq hl hi hcontext)),
    bind_of_ok hwrite, bind_of_ok hleave, if_pos rfl, bind_of_ok hpush, bind_of_ok hpush',
    bind_of_ok (show Action.getCore n₂ = .ok _ n₂ from rfl), hcore]

/-- A return, by a block, from a method that is gone: its context is dead, or is not in the chain of
the active context. -/
theorem step_escapes {home receiver : Ref} {dead : Bool} (hl : m.heap.LaidOut starts)
    (hreads : m.registers.Reads m.heap) (hfaces : m.Faces (.methodReturn answer))
    (hvalue : m.Answers answer value)
    (hchain : m.heap.Chain starts m.registers.activeContext (i :: c :: rest))
    (hhome : Context.home m.heap m.registers.activeContext = .ok home)
    (hblock : m.registers.activeContext ≠ home)
    (hreceiver : Context.receiver m.heap m.registers.activeContext = .ok receiver)
    (hdead : Context.isDead m.heap home = .ok dead)
    (hgone : dead = true ∨ ∀ j ∈ c :: rest, home ≠ .ofWordIndex j)
    (hc : m.heap.IsSuspended starts c pc sp) (hroom : sp + 2 ≤ (m.heap.view c).len) :
    ∃ m', m.step = send m.core.escapedBlock 1 m' ∧
      m.Retires [i] (fun p => p = i ∨ p = c + ((m.heap.view c).elements + sp) ∨
        p = c + ((m.heap.view c).elements + (sp + 1))) m' ∧
      m'.contexts = m.contexts ∧ m'.heap.isCaptured (.ofWordIndex i) = .ok true ∧
      Continues m.heap starts c pc sp rest [receiver, .ofWordIndex i] m' ∧
      m'.registers.activeContext ≠ home := by
  have hregister : m.registers.homeContext = home := Except.ok.inj (hreads.home.symm.trans hhome)
  have hfound : m.registers.receiver = receiver := by
    unfold Context.receiver at hreceiver
    rw [hhome, ← hregister] at hreceiver
    exact Except.ok.inj (hreads.receiver.symm.trans hreceiver)
  obtain ⟨hactive, hi, hcontext, -, hrest⟩ := Heap.Chain.cons_iff.mp hchain
  have hsplit : m.heap.Chain starts m.registers.activeContext ([i] ++ c :: rest) := hchain
  have hapart : ∀ j ∈ c :: rest, j ∉ [i] := fun j hj => apart_rest hl hsplit hj
  have hci : c ≠ i := fun heq => hapart c (.head _) (List.mem_singleton.mpr heq)
  obtain ⟨pc', sp', hstep⟩ := step_methodReturn hfaces hvalue
  let n := m.restacked m.heap pc' sp'
  have hreturn : n.methodReturn value = n.escapeBlock :=
    methodReturn_gone (m := n) hl hchain (hregister ▸ hblock) (hregister ▸ hdead) (hregister ▸ hgone)
  obtain ⟨m', hsend, hn⟩ := escapeBlock_eq (m := n) hl hchain hc hroom
  have hcaptured := Heap.kills_captured hl hi
  have hchain' : (n.captured i).heap.Chain starts m.registers.activeContext ([i] ++ c :: rest) :=
    hcaptured.chain hchain fun _ _ => List.not_mem_nil
  have hcontexts := areContexts (m := n.captured i) hchain'
  have hkills := Heap.kills_buryAll hcaptured.laidOut hcontexts
  have hretires := hn.retires (m := n.captured i) hcaptured.laidOut hcontexts hc.mem
    (hapart c (.head _))
  have hcapturedHeader := Heap.header_captured hl hi
  have hheader : (m'.heap.view i).header = (m.heap.view i).header.captured :=
    ((hn.touches.header_eq hkills.laidOut hc.mem hi (Ne.symm hci)).trans
      (Heap.header_buryAll hcaptured.laidOut hcontexts hi)).trans hcapturedHeader
  have hnext : m.heap.Chain starts (.ofWordIndex c) (c :: rest) := hrest.head
  refine ⟨m', hstep.trans (hreturn.trans hsend), ?_, ?_, ?_, ?_, ?_⟩
  · refine ⟨hretires.sender, hretires.position, fun p hp hp' => ?_, ?_, ?_⟩
    · refine (hretires.unchanged p hp fun ⟨k, hk, heq⟩ => hp' ?_).trans (Heap.cell_poke_ne ?_ _)
      · rw [show ((n.captured i).heap.view c).elements = (m.heap.view c).elements from
          (hcaptured.layout c hc.mem).elements_eq] at heq
        have hk' : k < 2 := hk
        obtain rfl | rfl : k = 0 ∨ k = 1 := by omega
        · exact .inr (.inl heq)
        · exact .inr (.inr heq)
      · exact fun heq => hp' (.inl heq)
    · exact congrArg (fun g : Heap => { g with memory := m.heap.memory }) hretires.heap
    · exact congrArg (fun n : Machine =>
        { n with heap := m.heap, registers := m.registers, contexts := m.contexts }) hretires.rest
  · have hkeep : m.contexts.keep (n.captured i).heap i = m.contexts := by
      unfold ContextPool.keep
      rw [show ((n.captured i).heap.view i).header = _ from hcapturedHeader, Header.isCaptured_captured, if_pos rfl]
    exact (congrArg Machine.contexts hn.rest :).trans hkeep
  · rw [isCaptured_eq (m := m') (hn.touches.laidOut hkills.laidOut hc.mem) hi, hheader,
      Header.isCaptured_captured]
  · rw [← hfound]
    exact hn.continues (hcaptured.after_captured hkills) hnext hapart hroom
  · rw [hn.active]
    intro heq
    rcases hgone with rfl | hgone
    · -- A context that waits is not dead.
      rw [← heq] at hdead
      unfold Context.isDead at hdead
      rw [hc.pc] at hdead
      cases hdead
    · exact hgone c (.head _) heq.symm

/-- The block is left, and the context that evaluates it tells 7 that the block escaped. -/
theorem returningBlock_escapes : ∃ m',
    (returningBlock false).step = send (returningBlock false).core.escapedBlock 1 m' ∧
    (returningBlock false).Retires [33] (fun p => p = 33 ∨ p = 22 ∨ p = 23) m' ∧
    m'.contexts = (returningBlock false).contexts ∧
    m'.heap.isCaptured (.ofWordIndex 33) = .ok true ∧
    Continues (returningBlock false).heap [1, 5, 8, 13, 24, 33] 13 0 0 []
      [.ofNat 7, .ofWordIndex 33] m' ∧
    m'.registers.activeContext ≠ .ofWordIndex 24 := by
  have hchain : (returningBlock false).heap.Chain [1, 5, 8, 13, 24, 33]
      (returningBlock false).registers.activeContext [33, 13] :=
    .step (by decide) (by decide) (by decide) (.step (by decide) (by decide) (by decide) .done)
  exact step_escapes (returningBlock_laidOut false) (returningBlock_reads false)
    (returningBlock_faces false) (returningBlock_answers false) hchain rfl (by decide) rfl rfl
    (.inl rfl) (returningBlock_suspended false) (by decide)

end Machine

end ObjectMachine
