import ObjectMachine.Execution.Return
import ObjectMachine.Proofs.Execution.Frames

/-!
# Chains of contexts

A context that returns gives control to its sender, so the contexts in progress form a chain that ends
with nil. A chain has no ring: from a context in it the rest of the chain is always the same, and it is
never as long as the whole. Leaving contexts writes nil to two words of each of them, and what the
other contexts of the chain go on with is not among these words.

## Main results

* `Heap.Chain.nodup`: no context is twice in a chain.
* `Heap.Chain.hasSender_eq`: the senders of a context are the rest of its chain.
* `Heap.unchanged_buryAll`, `Heap.buried`: the words that are written when contexts die.
* `Heap.KeepsContext.isSuspended`, `Heap.Kills.keepsContext`: a context that waits is not affected by
  the death of others.
-/

namespace ObjectMachine

namespace Heap

variable {h : Heap} {starts frames rest killed : List Nat} {i j k c p pc sp : Nat} {r target : Ref}

/-! ## Chains -/

/-- The contexts that are resumed one after another, from a reference on, until there is none. -/
inductive Chain (h : Heap) (starts : List Nat) : Ref → List Nat → Prop
  | done : Chain h starts h.nil []
  | step {i : Nat} {rest : List Nat} (mem : i ∈ starts) (context : (h.view i).format = .context)
      (ne : .ofWordIndex i ≠ h.nil)
      (chain : Chain h starts ((h.view i).ref (headerWords + Context.senderField)) rest) :
      Chain h starts (.ofWordIndex i) (i :: rest)

theorem sender_eq (hl : h.LaidOut starts) (hi : i ∈ starts) (hcontext : (h.view i).format = .context) :
    Context.sender h (.ofWordIndex i) =
      .ok ((h.view i).ref (headerWords + Context.senderField)) := by
  obtain ⟨hindex, hin⟩ := Machine.contextField_bounds hl hi hcontext (show Context.senderField < 3 by decide)
  exact fetchField_eq hl hi hindex hin

namespace Chain

theorem mem (hchain : h.Chain starts r frames) (hi : i ∈ frames) :
    i ∈ starts ∧ (h.view i).format = .context := by
  induction hchain with
  | done => cases hi
  | step hmem hcontext _ _ ih =>
    cases hi with
    | head => exact ⟨hmem, hcontext⟩
    | tail _ hi => exact ih hi

theorem cons_iff : h.Chain starts r (i :: rest) ↔ r = .ofWordIndex i ∧ i ∈ starts ∧
    (h.view i).format = .context ∧ .ofWordIndex i ≠ h.nil ∧
    h.Chain starts ((h.view i).ref (headerWords + Context.senderField)) rest := by
  constructor
  · rintro (_ | ⟨hi, hcontext, hne, hrest⟩)
    exact ⟨rfl, hi, hcontext, hne, hrest⟩
  · rintro ⟨rfl, hi, hcontext, hne, hrest⟩
    exact .step hi hcontext hne hrest

/-- From a reference on there is one chain. -/
theorem unique (hl : h.LaidOut starts) {frames' : List Nat} (hchain : h.Chain starts r frames)
    (hchain' : h.Chain starts r frames') : frames = frames' := by
  induction hchain generalizing frames' with
  | done =>
    generalize hnil : h.nil = r at hchain'
    cases hchain' with
    | done => rfl
    | step _ _ hne _ => exact absurd hnil.symm hne
  | @step i rest hi _ hne _ ih =>
    generalize hr : Ref.ofWordIndex i = r at hchain'
    cases hchain' with
    | done => exact absurd hr hne
    | @step j rest' hj _ _ hrest' =>
      cases hl.ofWordIndex_inj hi hj hr
      rw [ih hrest']

/-- A chain begins at one reference. -/
theorem ref_unique {r' : Ref} (hchain : h.Chain starts r frames) (hchain' : h.Chain starts r' frames) :
    r = r' := by
  cases hchain with
  | done =>
    cases hchain'
    rfl
  | step _ _ _ _ => exact (cons_iff.mp hchain').1.symm

theorem head (hchain : h.Chain starts r (i :: rest)) : h.Chain starts (.ofWordIndex i) (i :: rest) :=
  (cons_iff.mp hchain).1 ▸ hchain

/-- A chain goes on from each of its contexts. -/
theorem suffix {before : List Nat} (hchain : h.Chain starts r (before ++ i :: rest)) :
    h.Chain starts (.ofWordIndex i) (i :: rest) := by
  induction before generalizing r with
  | nil => exact hchain.head
  | cons _ _ ih =>
    cases hchain with
    | step _ _ _ hrest => exact ih hrest

/-- A context in its own rest would begin a shorter chain. -/
theorem nodup (hl : h.LaidOut starts) (hchain : h.Chain starts r frames) : frames.Nodup := by
  induction hchain with
  | done => exact .nil
  | @step i rest hi hcontext hne hrest ih =>
    refine List.nodup_cons.mpr ⟨fun hmem => ?_, ih⟩
    obtain ⟨before, after, rfl⟩ := List.append_of_mem hmem
    have heq := (hrest.suffix).unique hl (.step hi hcontext hne hrest)
    have hlength := congrArg List.length heq
    simp only [List.length_cons, List.length_append] at hlength
    omega

/-- There are not more contexts than words. -/
theorem length_le (hl : h.LaidOut starts) (hchain : h.Chain starts r frames) :
    frames.length ≤ h.memory.size := by
  have hsub : frames ⊆ starts := fun i hi => (hchain.mem hi).1
  have hlength := ((hchain.nodup hl).subperm hsub).length_le
  have htiles := hl.tiles.two_mul_length_le fun i => (h.view i).two_le_size
  have hcommitted := hl.committed
  omega

/-- Looking for a context among senders finds it if it is in their chain. -/
theorem sentFrom_eq (hl : h.LaidOut starts) (hchain : h.Chain starts r frames) {fuel : Nat}
    (hfuel : frames.length < fuel) :
    Context.sentFrom h target r fuel = .ok (decide (∃ i ∈ frames, target = .ofWordIndex i)) := by
  induction hchain generalizing fuel with
  | done =>
    obtain ⟨fuel, rfl⟩ := Nat.exists_eq_succ_of_ne_zero (Nat.ne_of_gt hfuel)
    unfold Context.sentFrom
    simp
  | @step i rest hi hcontext hne hrest ih =>
    obtain ⟨fuel, rfl⟩ := Nat.exists_eq_succ_of_ne_zero (Nat.ne_of_gt (Nat.lt_of_le_of_lt (Nat.zero_le _) hfuel))
    unfold Context.sentFrom
    have hcondition : ((Ref.ofWordIndex i).isPointer && Ref.ofWordIndex i != h.nil) = true := by
      simp [hl.isPointer hi, hne]
    rw [if_pos hcondition]
    by_cases heq : Ref.ofWordIndex i = target
    · rw [if_pos heq]
      simp [heq]
    · rw [if_neg heq, sender_eq hl hi hcontext]
      refine (ih (by simpa using hfuel)).trans ?_
      have hne' : target ≠ .ofWordIndex i := fun h => heq h.symm
      simp [hne']

theorem hasSender_eq (hl : h.LaidOut starts) (hchain : h.Chain starts (.ofWordIndex i) (i :: frames)) :
    Context.hasSender h (.ofWordIndex i) target =
      .ok (decide (∃ j ∈ frames, target = .ofWordIndex j)) := by
  have hlength := hchain.length_le hl
  obtain ⟨-, hi, hcontext, -, hrest⟩ := cons_iff.mp hchain
  unfold Context.hasSender
  rw [sender_eq hl hi hcontext]
  exact hrest.sentFrom_eq hl (by simp only [List.length_cons] at hlength; omega)

/-- A chain is the same in memory that has the same senders. -/
theorem congr {h' : Heap} (hchain : h.Chain starts r frames) (hnil : h'.nil = h.nil)
    (hsame : ∀ i ∈ frames, View.SameLayout (h.view i) (h'.view i) ∧
      (h'.view i).ref (headerWords + Context.senderField) =
        (h.view i).ref (headerWords + Context.senderField)) :
    h'.Chain starts r frames := by
  induction hchain with
  | done => exact hnil ▸ .done
  | @step i rest hi hcontext hne hrest ih =>
    obtain ⟨hlayout, hsender⟩ := hsame i List.mem_cons_self
    refine .step hi (hlayout.format_eq.trans hcontext) (hnil ▸ hne) ?_
    rw [hsender]
    exact ih fun j hj => hsame j (.tail _ hj)

end Chain

/-! ## Contexts that die -/

/-- Memory in which the context at a position is dead. -/
def bury (h : Heap) (i : Nat) : Heap :=
  (h.poke (i + (headerWords + Context.senderField)) h.nil.bits).poke
    (i + (headerWords + Context.pcField)) h.nil.bits

/-- Memory in which the contexts at some positions are dead. -/
def buryAll (h : Heap) (killed : List Nat) : Heap :=
  killed.foldl bury h

/-- A word that is written when contexts die. -/
def IsBuried (killed : List Nat) (p : Nat) : Prop :=
  ∃ i ∈ killed, p = i + (headerWords + Context.senderField) ∨ p = i + (headerWords + Context.pcField)

@[simp] theorem nil_bury (h : Heap) (i : Nat) : (h.bury i).nil = h.nil := rfl

theorem touches_bury (hl : h.LaidOut starts) (hi : i ∈ starts)
    (hcontext : (h.view i).format = .context) : h.Touches i (h.bury i) := by
  have hfit := hl.fits_memory hi
  have hthree := (hl.readable i hi).context hcontext
  obtain ⟨-, hsender⟩ := Machine.contextField_bounds hl hi hcontext (show Context.senderField < 3 by decide)
  obtain ⟨-, hpc⟩ := Machine.contextField_bounds hl hi hcontext (show Context.pcField < 3 by decide)
  have hfirst := touches_poke hsender hfit (by decide)
    (by simp only [headerWords, Context.senderField]; omega) h.nil.bits
  refine hfirst.trans (touches_poke ?_ ?_ (by decide) ?_ _)
  · rwa [hfirst.layout.size_eq]
  · rwa [hfirst.layout.size_eq, size_poke]
  · rw [hfirst.layout.fields_eq]
    simp only [headerWords, Context.pcField]
    omega

theorem cell_bury (hp : p ≠ i + (headerWords + Context.senderField))
    (hp' : p ≠ i + (headerWords + Context.pcField)) : (h.bury i).cell p = h.cell p := by
  unfold bury
  rw [cell_poke_ne hp', cell_poke_ne hp]

/-- Whatever is not a sender or a position of a context that dies stays. -/
theorem unchanged_buryAll (hp : ¬ IsBuried killed p) : (h.buryAll killed).cell p = h.cell p := by
  induction killed generalizing h with
  | nil => rfl
  | cons i killed ih =>
    have hrest : ¬ IsBuried killed p := fun ⟨j, hj, hp'⟩ => hp ⟨j, .tail _ hj, hp'⟩
    refine (ih (h := h.bury i) hrest).trans (cell_bury ?_ ?_)
    · exact fun hp' => hp ⟨i, .head _, .inl hp'⟩
    · exact fun hp' => hp ⟨i, .head _, .inr hp'⟩

@[simp] theorem nil_buryAll (h : Heap) (killed : List Nat) : (h.buryAll killed).nil = h.nil := by
  induction killed generalizing h with
  | nil => rfl
  | cons i killed ih => exact ih (h.bury i)

theorem rest_buryAll (h : Heap) (killed : List Nat) :
    { h.buryAll killed with memory := h.memory } = h := by
  induction killed generalizing h with
  | nil => rfl
  | cons i killed ih => exact congrArg (fun g : Heap => { g with memory := h.memory }) (ih (h.bury i))

/-- Nil is written to the sender and the position of a context that dies. -/
theorem buried (hp : IsBuried killed p) (hfit : p < h.memory.size) :
    (h.buryAll killed).cell p = h.nil.bits := by
  induction killed generalizing h with
  | nil => exact absurd hp fun ⟨_, hi, _⟩ => List.not_mem_nil hi
  | cons i killed ih =>
    have hfit' : p < (h.bury i).memory.size := by simpa [bury] using hfit
    by_cases hrest : IsBuried killed p
    · exact ih hrest hfit'
    · refine (unchanged_buryAll (h := h.bury i) hrest).trans ?_
      obtain ⟨j, hj, hp⟩ := hp
      cases hj with
      | head =>
        unfold bury
        by_cases hpc : p = i + (headerWords + Context.pcField)
        · rw [hpc] at hfit ⊢
          rw [cell_poke_self (by rwa [size_poke])]
        · have hsender := hp.resolve_right hpc
          rw [cell_poke_ne hpc, hsender]
          rw [hsender] at hfit
          exact cell_poke_self hfit _
      | tail _ hj => exact absurd ⟨j, hj, hp⟩ hrest

/-- Contexts at some positions where objects begin. -/
def AreContexts (h : Heap) (starts killed : List Nat) : Prop :=
  ∀ i ∈ killed, i ∈ starts ∧ (h.view i).format = .context

theorem AreContexts.bury (hcontexts : h.AreContexts starts (i :: killed)) (hl : h.LaidOut starts) :
    (h.bury i).LaidOut starts ∧ (h.bury i).AreContexts starts killed := by
  obtain ⟨hi, hcontext⟩ := hcontexts i (.head _)
  have ht := touches_bury hl hi hcontext
  refine ⟨ht.laidOut hl hi, fun j hj => ?_⟩
  obtain ⟨hj', hcontext'⟩ := hcontexts j (.tail _ hj)
  exact ⟨hj', (ht.sameLayout hl hi hj').format_eq.trans hcontext'⟩

theorem laidOut_buryAll (hl : h.LaidOut starts) (hcontexts : h.AreContexts starts killed) :
    (h.buryAll killed).LaidOut starts := by
  induction killed generalizing h with
  | nil => exact hl
  | cons i killed ih => exact ih (hcontexts.bury hl).1 (hcontexts.bury hl).2

theorem layout_buryAll (hl : h.LaidOut starts) (hcontexts : h.AreContexts starts killed)
    (hj : j ∈ starts) : View.SameLayout (h.view j) ((h.buryAll killed).view j) := by
  induction killed generalizing h with
  | nil => exact .refl _
  | cons i killed ih =>
    obtain ⟨hi, hcontext⟩ := hcontexts i (.head _)
    exact ((touches_bury hl hi hcontext).sameLayout hl hi hj).trans
      (ih (hcontexts.bury hl).1 (hcontexts.bury hl).2)

/-- The words of an object that are not the sender or the position of a context that dies. -/
theorem view_buryAll (hl : h.LaidOut starts) (hcontexts : h.AreContexts starts killed)
    (hj : j ∈ starts) (hk : k < (h.view j).size)
    (hapart : j ∉ killed ∨ k ≠ headerWords + Context.senderField ∧ k ≠ headerWords + Context.pcField) :
    (h.buryAll killed).view j k = h.view j k := by
  refine unchanged_buryAll ?_
  rintro ⟨i, hi, hp⟩
  obtain ⟨hi', hcontext⟩ := hcontexts i hi
  obtain ⟨-, hsender⟩ := Machine.contextField_bounds hl hi' hcontext (show Context.senderField < 3 by decide)
  obtain ⟨-, hpc⟩ := Machine.contextField_bounds hl hi' hcontext (show Context.pcField < 3 by decide)
  -- A word inside two objects is the same word of one object.
  have hword : j = i ∧ (k = headerWords + Context.senderField ∨ k = headerWords + Context.pcField) := by
    rcases hp with hp | hp
    · obtain ⟨hji, hk'⟩ := hl.tiles.offset_inj hj hi' hk hsender hp
      exact ⟨hji, .inl hk'⟩
    · obtain ⟨hji, hk'⟩ := hl.tiles.offset_inj hj hi' hk hpc hp
      exact ⟨hji, .inr hk'⟩
  obtain ⟨rfl, hk'⟩ := hword
  rcases hapart with hapart | ⟨hne, hne'⟩
  · exact hapart hi
  · exact hk'.elim hne hne'

theorem header_buryAll (hl : h.LaidOut starts) (hcontexts : h.AreContexts starts killed)
    (hj : j ∈ starts) : ((h.buryAll killed).view j).header = (h.view j).header :=
  congrArg Header.mk (view_buryAll hl hcontexts hj (h.sizeOf_pos j) (.inr (by decide)))

/-- Memory in which some contexts may have died and objects may have been captured, and in which
everything else is as it was. -/
structure Kills (h : Heap) (starts killed : List Nat) (h' : Heap) : Prop where
  before : h.LaidOut starts
  laidOut : h'.LaidOut starts
  contexts : h.AreContexts starts killed
  nil : h'.nil = h.nil
  layout : ∀ j ∈ starts, View.SameLayout (h.view j) (h'.view j)
  words : ∀ j ∈ starts, ∀ k, 0 < k → k < (h.view j).size →
    j ∉ killed ∨ k ≠ headerWords + Context.senderField ∧ k ≠ headerWords + Context.pcField →
    h'.view j k = h.view j k

theorem kills_buryAll (hl : h.LaidOut starts) (hcontexts : h.AreContexts starts killed) :
    h.Kills starts killed (h.buryAll killed) where
  before := hl
  laidOut := laidOut_buryAll hl hcontexts
  contexts := hcontexts
  nil := nil_buryAll h killed
  layout _ hj := layout_buryAll hl hcontexts hj
  words _ hj _ _ hk hapart := view_buryAll hl hcontexts hj hk hapart

theorem header_captured (hl : h.LaidOut starts) (hi : i ∈ starts) :
    ((h.poke (i + 0) (h.view i).header.captured.bits).view i).header = (h.view i).header.captured := by
  have hin : i + 0 < h.memory.size := Nat.lt_of_lt_of_le (hl.lt_top hi) hl.committed
  exact congrArg Header.mk ((view_poke hin _ 0).trans (if_pos rfl))

/-- Capturing an object kills nothing. -/
theorem kills_captured (hl : h.LaidOut starts) (hi : i ∈ starts) :
    h.Kills starts [] (h.poke (i + 0) (h.view i).header.captured.bits) := by
  have htwo := (h.view i).two_le_size
  have hfit := hl.fits_memory hi
  have hview := view_poke (h := h) (i := i) (k := 0) (by omega) (h.view i).header.captured.bits
  have hwords : ∀ k, 0 < k →
      (h.poke (i + 0) (h.view i).header.captured.bits).view i k = h.view i k := fun k hk => by
    rw [hview, if_neg (by omega)]
  have hshape : Header.SameShape
      ((h.poke (i + 0) (h.view i).header.captured.bits).view i).header (h.view i).header := by
    rw [header_captured hl hi]
    exact Header.sameShape_captured _
  have hagrees := View.agrees_of_words (hl.readable i hi) hshape fun k hk _ => hwords k hk
  have hwithin : Within i (i + 1) h (h.poke (i + 0) (h.view i).header.captured.bits) :=
    .poke (Nat.le_refl _) (Nat.lt_succ_self _) _
  have ht := hwithin.touches (Nat.le_refl _) (by omega) hagrees.toSameLayout
  refine ⟨hl, ht.laidOut hl hi, fun _ hj => absurd hj List.not_mem_nil, rfl, fun j hj => ht.sameLayout hl hi hj,
    fun j hj k hk hsize _ => ?_⟩
  by_cases hne : j = i
  · rw [hne]
    exact hwords k hk
  · exact ht.view_eq hl hi hj hne hsize

/-! ## Contexts that wait -/

namespace Kills

variable {h' : Heap}

/-- Capturing an object first makes no difference. -/
theorem after_captured {h'' : Heap} (hk : h.Kills starts [] h') (hk' : h'.Kills starts killed h'') :
    h.Kills starts killed h'' where
  before := hk.before
  laidOut := hk'.laidOut
  contexts i hi := by
    obtain ⟨hi', hcontext⟩ := hk'.contexts i hi
    exact ⟨hi', (hk.layout i hi').format_eq.symm.trans hcontext⟩
  nil := hk'.nil.trans hk.nil
  layout j hj := (hk.layout j hj).trans (hk'.layout j hj)
  words j hj k hpos hlt hapart :=
    (hk'.words j hj k hpos (by rwa [(hk.layout j hj).size_eq]) hapart).trans
      (hk.words j hj k hpos hlt (.inl List.not_mem_nil))

theorem chain (hk : h.Kills starts killed h') (hchain : h.Chain starts r frames)
    (hapart : ∀ i ∈ frames, i ∉ killed) : h'.Chain starts r frames := by
  refine hchain.congr hk.nil fun i hi => ?_
  obtain ⟨hmem, hcontext⟩ := hchain.mem hi
  obtain ⟨-, hin⟩ :=
    Machine.contextField_bounds hk.before hmem hcontext (show Context.senderField < 3 by decide)
  exact ⟨hk.layout i hmem,
    congrArg Ref.mk (hk.words i hmem _ (by decide) hin (.inl (hapart i hi)))⟩

/-- A field that is not written when contexts die. -/
theorem fetchField (hk : h.Kills starts killed h') (hj : j ∈ starts)
    (hallows : (h.view j).format.allowsFields = true) {index : Nat}
    (hapart : j ∉ killed ∨ index ≠ Context.senderField ∧ index ≠ Context.pcField) :
    h'.fetchField (.ofWordIndex j) index = h.fetchField (.ofWordIndex j) index := by
  refine hk.before.fetchField_congr hk.laidOut hj hj (hk.layout j hj) hallows fun hlt => ?_
  refine hk.words j hj _ (by simp [headerWords])
    (View.fields_lt_size hallows (Nat.add_lt_add_left hlt headerWords)) ?_
  exact hapart.imp id fun hne =>
    ⟨fun heq => hne.1 (Nat.add_left_cancel heq), fun heq => hne.2 (Nat.add_left_cancel heq)⟩

/-- The elements of a context are not written. -/
theorem fetchElement (hk : h.Kills starts killed h') (hj : j ∈ starts)
    (hcontext : (h.view j).format = .context) {index : Nat} (hlt : index < (h.view j).len) :
    h'.fetchElement (.ofWordIndex j) index = h.fetchElement (.ofWordIndex j) index := by
  have hlayout := hk.layout j hj
  have hthree := (hk.before.readable j hj).context hcontext
  have htail : (h.view j).format.hasReferenceTail = true := by
    rw [hcontext]
    rfl
  rw [fetchElement_eq hk.before hj htail hlt, fetchElement_eq hk.laidOut hj
    (by rwa [hlayout.format_eq]) (by rwa [hlayout.len_eq]), hlayout.elements_eq]
  refine congrArg (Except.ok ∘ Ref.mk) (hk.words j hj _ ?_ ?_ (.inr ⟨?_, ?_⟩))
  · simp only [View.elements]
    omega
  · exact View.elements_lt_size htail (Nat.add_lt_add_left hlt _)
  · simp only [View.elements, Context.senderField]
    omega
  · simp only [View.elements, Context.pcField]
    omega

end Kills

/-- A context that waits at a position of a method, with some values on its stack. -/
structure IsSuspended (h : Heap) (starts : List Nat) (c pc sp : Nat) : Prop where
  mem : c ∈ starts
  context : (h.view c).format = .context
  method : ∃ home method receiver header literals code,
    Context.home h (.ofWordIndex c) = .ok (.ofWordIndex home) ∧ home ∈ starts ∧
    (h.view home).format = .context ∧
    h.fetchField (.ofWordIndex home) Context.methodField = .ok method ∧
    h.fetchField (.ofWordIndex home) Context.receiverField = .ok receiver ∧
    h.IsMethod starts method header literals code
  pc : Context.pc? h (.ofWordIndex c) = .ok (some pc)
  sp : Context.sp? h (.ofWordIndex c) = .ok (some sp)

/-- What a context that waits goes on with. -/
theorem IsSuspended.load (hc : h.IsSuspended starts c pc sp) (hl : h.LaidOut starts) (r : Registers) :
    ∃ r', r.load h (.ofWordIndex c) = .ok r' ∧ r'.activeContext = .ofWordIndex c ∧ r'.pc = pc ∧
      r'.sp = sp ∧ r'.stackBase = c + (h.view c).elements ∧ r'.stackLimit = (h.view c).len := by
  obtain ⟨i, method, receiver, header, literals, code, hhome, hi, -, hword, hreceiver, hmethod⟩ :=
    hc.method
  obtain ⟨r', hload, hactive, -, -, -, hpc, hsp, hbase, hlimit⟩ :=
    Registers.load_home hl hc.mem hi hhome hword hreceiver hmethod hc.pc hc.sp r
  exact ⟨r', hload, hactive, hpc, hsp, hbase, hlimit⟩

/-- Memory in which a context goes on as before: of the other contexts only what they write when they
give up control may have changed. -/
structure KeepsContext (h : Heap) (starts : List Nat) (c : Nat) (h' : Heap) : Prop where
  layout : ∀ j ∈ starts, View.SameLayout (h.view j) (h'.view j)
  fields : ∀ j ∈ starts, (h.view j).format.allowsFields = true → ∀ index,
    j = c ∨ (h.view j).format ≠ .context ∨ Context.spField < index →
    h'.fetchField (.ofWordIndex j) index = h.fetchField (.ofWordIndex j) index

namespace KeepsContext

variable {h' h'' : Heap}

theorem trans (hs : h.KeepsContext starts c h') (hs' : h'.KeepsContext starts c h'') :
    h.KeepsContext starts c h'' where
  layout j hj := (hs.layout j hj).trans (hs'.layout j hj)
  fields j hj hallows index hindex :=
    (hs'.fields j hj (by rwa [(hs.layout j hj).format_eq]) index
      (by rwa [(hs.layout j hj).format_eq])).trans (hs.fields j hj hallows index hindex)

theorem isMethod {header : MethodHeader} {literals code : Ref} (hs : h.KeepsContext starts c h')
    (hmethod : h.IsMethod starts r header literals code) :
    h'.IsMethod starts r header literals code := by
  obtain ⟨j, hj, rfl, hplain⟩ := hmethod.plain
  obtain ⟨l, hl, rfl, hbytes⟩ := hmethod.bytes
  have hfield := fun index => hs.fields j hj (by rw [hplain]; rfl) index
    (.inr (.inl (by rw [hplain]; decide)))
  constructor
  · exact ⟨j, hj, rfl, (hs.layout j hj).format_eq.trans hplain⟩
  · rw [hfield]
    exact hmethod.header
  · exact (hfield _).trans hmethod.literals
  · exact (hfield _).trans hmethod.instructions
  · exact ⟨l, hl, rfl, (hs.layout l hl).format_eq.trans hbytes⟩

theorem isSuspended (hs : h.KeepsContext starts c h') (hc : h.IsSuspended starts c pc sp) :
    h'.IsSuspended starts c pc sp := by
  obtain ⟨i, method, receiver, header, literals, code, hhome, hi, hcontext, hword, hreceiver,
    hmethod⟩ := hc.method
  have hallows : ∀ j, (h.view j).format = .context → (h.view j).format.allowsFields = true :=
    fun j hj => by rw [hj]; rfl
  have hfield := fun index => hs.fields c hc.mem (hallows c hc.context) index (.inl rfl)
  have hregister : ∀ field, Context.register? h' (.ofWordIndex c) field =
      Context.register? h (.ofWordIndex c) field := fun field => by
    unfold Context.register?
    rw [hfield]
  refine ⟨hc.mem, (hs.layout c hc.mem).format_eq.trans hc.context,
    ⟨i, method, receiver, header, literals, code, ?_, hi, ?_, ?_, ?_, hs.isMethod hmethod⟩,
    (hregister _).trans hc.pc, (hregister _).trans hc.sp⟩
  · rw [← hhome]
    unfold Context.home Context.isBlock
    rw [hfield, hfield]
  · exact (hs.layout i hi).format_eq.trans hcontext
  · rw [hs.fields i hi (hallows i hcontext) _ (.inr (.inr (by decide)))]
    exact hword
  · rw [hs.fields i hi (hallows i hcontext) _ (.inr (.inr (by decide)))]
    exact hreceiver

end KeepsContext

/-- Other contexts may die. -/
theorem Kills.keepsContext {h' : Heap} (hk : h.Kills starts killed h') (hapart : c ∉ killed) :
    h.KeepsContext starts c h' where
  layout := hk.layout
  fields j hj hallows index hindex := by
    refine hk.fetchField hj hallows ?_
    rcases hindex with rfl | hne | hlt
    · exact .inl hapart
    · exact .inl fun hmem => hne (hk.contexts j hmem).2
    · simp only [Context.spField, contextStackPointer] at hlt
      exact .inr ⟨by simp only [Context.senderField]; omega, by simp only [Context.pcField]; omega⟩

/-- The elements of an object may change. -/
theorem Refills.keepsContext {h' : Heap} {a : Nat} (hw : h.Refills a h') (hl : h.LaidOut starts)
    (ha : a ∈ starts) : h.KeepsContext starts c h' where
  layout _ hj := hw.touches.sameLayout hl ha hj
  fields _ hj hallows index _ := hw.fetchField hl ha hj hallows index

/-- Another context may write its position and its stack pointer. -/
theorem Touches.keepsContext {h' : Heap} {a : Nat} (ht : h.Touches a h') (hl : h.LaidOut starts)
    (ha : a ∈ starts) (hac : a ≠ c) (hcontext : (h.view a).format = .context)
    (hwords : ∀ k, k ≠ headerWords + Context.pcField → k ≠ headerWords + Context.spField →
      h'.view a k = h.view a k) : h.KeepsContext starts c h' where
  layout _ hj := ht.sameLayout hl ha hj
  fields j hj hallows index hindex := by
    refine hl.fetchField_congr (ht.laidOut hl ha) hj hj (ht.sameLayout hl ha hj) hallows
      fun hlt => ?_
    by_cases hne : j = a
    · subst hne
      rcases hindex with rfl | hne | hlt'
      · exact absurd rfl hac
      · exact absurd hcontext hne
      · simp only [Context.spField, contextStackPointer] at hlt'
        exact hwords _ (by simp only [Context.pcField]; omega)
          (by simp only [Context.spField, contextStackPointer]; omega)
    · exact ht.view_eq hl ha hj hne
        (View.fields_lt_size hallows (Nat.add_lt_add_left hlt headerWords))

end Heap

end ObjectMachine
