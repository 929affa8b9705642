import ObjectMachine.Execution.Return
import ObjectMachine.Proofs.Graph.Sends

/-!
# Returns

Returns as computations on graphs. A return leaves contexts until it comes to its target, or to where
there is no sender. A context that was left has no sender, so a return comes to an end after as many
contexts as memory holds, whatever a program made of their senders.

## Main results

* `Simulates.leaveTo`: the contexts that a return leaves.
* `Simulates.methodReturn`, `Simulates.blockReturn`: the returns.
-/

namespace ObjectMachine

/-! ## Contexts that return -/

namespace Graph

variable (g : Graph)

/-- Marks a context as returned. -/
def kill (context : Value) : Option Graph := do
  let g' ← g.storeField context Context.senderField g.nil
  g'.storeField context Context.pcField g.nil

/-- The pool once a context may be used for another activation, unless it was captured. -/
def recycled (context : Value) : Option Pool := do
  let o ← g.node? context
  return if o.captured then g.pool else g.pool.put context o.len

/-- Whether a context has returned. -/
def isDead (context : Value) : Option Bool :=
  (g.field context Context.pcField).map fun pc => !pc.isSmallInteger

/-- The step from a context to its sender, in search of another context. -/
def visitSender (target context : Value) : Option (Bool ⊕ Value × (Bool → Bool)) :=
  if g.isLink context then
    if context = target then some (.inl true)
    else (g.field context Context.senderField).map fun v => .inr (v, id)
  else some (.inl false)

/-- Whether a context is among the senders of another one. -/
noncomputable def hasSender (context target : Value) : Option Bool := do
  walked (g.visitSender target) (← g.field context Context.senderField)

/-- Whether a block can return from the method that it was made in. -/
noncomputable def canUnwind (active home : Value) : Option Bool := do
  if ← g.isDead home then some false else g.hasSender active home

variable {g} {v v' w : Value}

theorem of_onward_visitSender (h : onward (g.visitSender w) v = some v') :
    g.field v Context.senderField = some v' := by
  unfold onward visitSender at h
  cases hlink : g.isLink v with
  | false => simp [hlink] at h
  | true =>
    by_cases heq : v = w
    · subst heq
      simp [hlink] at h
    · cases hsender : g.field v Context.senderField with
      | none => simp [hlink, heq, hsender] at h
      | some u => simpa [hlink, heq, hsender] using h

/-- A context that returned has nil for a sender. -/
theorem sender_kill {g' : Graph} (h : g.kill v = some g') :
    g'.nil = g.nil ∧ g'.field v Context.senderField = some g.nil ∧
      ∀ u, u ≠ v → g'.field u Context.senderField = g.field u Context.senderField := by
  obtain ⟨g₁, hsender, hpc⟩ := Option.bind_eq_some_iff.mp h
  obtain ⟨n, rfl, hn, -, rfl⟩ := of_storeField hsender
  obtain ⟨n', heq, -, -, rfl⟩ := of_storeField hpc
  cases heq
  refine ⟨rfl, ?_, fun u hu => ?_⟩
  · unfold field
    rw [node?_object, nodes_setNode, Function.update_self, nodes_setNode, Function.update_self]
    exact if_pos hn
  · cases u with
    | immediate r => rfl
    | object k =>
      have hne : k ≠ n := fun heq => hu (congrArg Value.object heq)
      simp only [field, node?_object, nodes_setNode, Function.update_of_ne hne]

end Graph

namespace Spec

/-- Marks a context as returned, and keeps it for another activation if nothing refers to it. -/
def retire (context : Value) : Spec Unit := do
  write (·.kill context)
  let pool ← read (·.recycled context)
  modify fun g => { g with pool }

/-- Retires the contexts from one up to a target, as far as `fuel` of them. -/
def retireUpTo (target current : Value) : Nat → Spec Unit
  | 0 => stop (· = .fault .endless)
  | fuel + 1 => do
    if ← ask fun g => decide (current ≠ target) && g.isLink current then
      let sender ← read (·.field current Context.senderField)
      retire current
      retireUpTo target sender fuel

/-- What a computation comes to that is given as much fuel as it takes. -/
def finish {α : Type} (x : Nat → Spec α) : Spec α := fun g r =>
  r ≠ .stopped (.fault .endless) ∧ ∃ fuel, x fuel g r

/-- Retires the contexts from the active one up to a target, which becomes active. Answers whether
there is a target to go on with. -/
def leaveTo (target : Value) : Spec Bool := do
  let active := (← getRegisters).active
  finish (retireUpTo target active)
  if ← ask (·.isLink target) then
    loadContext target
    return true
  else return false

/-- Goes on with a context and a value on its stack. Without a context the run is over with the
value. -/
def returnTo (target v : Value) : Spec (Option Value) := do
  if ← leaveTo target then
    push v
    return none
  else
    clearRegisters
    return some v

/-- Leaves a block whose home has returned as if it had answered, and has its caller tell the
receiver of the home. -/
noncomputable def escapeBlock : Spec (Option Value) := do
  let s ← getRegisters
  let caller ← read (·.field s.active Context.senderField)
  write (·.setCaptured s.active true)
  if ← leaveTo caller then
    push s.receiver
    push s.active
    send (← getCore).escapedBlock 1
  else fail (· = .execution .escapedWithoutCaller)

/-- Returns from the method of the active context. -/
noncomputable def methodReturn (v : Value) : Spec (Option Value) := do
  let s ← getRegisters
  if s.active = s.home then returnTo (← read (·.field s.active Context.senderField)) v
  else if ← read (·.canUnwind s.active s.home) then
    returnTo (← read (·.field s.home Context.senderField)) v
  else escapeBlock

/-- Returns from a block to whoever evaluates it. -/
def blockReturn : Spec (Option Value) := do
  let v ← pop
  let active := (← getRegisters).active
  returnTo (← read (·.field active Context.senderField)) v

end Spec

/-! ## What is read and written -/

namespace Machine

variable {m : Machine} {g : Graph} {p : Placement} {starts : List Nat} {r s : Ref} {v w : Value}

/-- There are no more objects than words. -/
theorem Holds.length_le {known : Nat → Nat} (hm : m.Holds g p starts known) {names : List Nat}
    (hnodup : names.Nodup) (hplaced : ∀ n ∈ names, ∃ i, p.find? n = some i) :
    2 * names.length ≤ m.heap.memory.size := by
  choose! place hplace using hplaced
  have hcount : names.length ≤ starts.length := by
    have hcard := Finset.card_le_card_of_injOn (s := names.toFinset) (t := starts.toFinset) place
      (fun n hn => List.mem_toFinset.mpr (hm.depicts.placed (hplace n (List.mem_toFinset.mp hn))))
      fun n hn n' hn' heq => p.injective (hplace n (List.mem_toFinset.mp hn))
        (heq ▸ hplace n' (List.mem_toFinset.mp hn'))
    rw [List.toFinset_card_of_nodup hnodup] at hcard
    exact hcard.trans (List.toFinset_card_le starts)
  have htiles := hm.depicts.laidOut.tiles.two_mul_length_le fun i => View.two_le_size _
  have hcommitted := hm.depicts.laidOut.committed
  omega

namespace Realizes

theorem isLink_eq (hm : m.Realizes g p starts) (hr : p.Shows r v) :
    (r.isPointer && r != m.heap.nil) = g.isLink v := by
  rw [hr.isPointer_eq]
  show (v.isObject && !decide (r = m.heap.nil)) = (v.isObject && decide ¬ v = g.nil)
  rw [decide_not, decide_eq_decide.mpr (hr.eq_iff hm.nil)]

/-- A walk along senders, step by step. -/
theorem sentFrom (hm : m.Realizes g p starts) (hr : p.Shows r v) (hs : p.Shows s w) {fuel : Nat}
    {answer : Bool} (hwalk : walk (g.visitSender w) fuel v = some answer) :
    Context.sentFrom m.heap s r fuel = .ok answer := by
  induction fuel generalizing r v answer with
  | zero => cases hwalk
  | succ fuel ih =>
    unfold walk at hwalk
    unfold Context.sentFrom
    rw [hm.isLink_eq hr]
    cases hlinked : g.isLink v with
    | false =>
      simp only [Graph.visitSender, hlinked, Bool.false_eq_true, if_false] at hwalk
      cases hwalk
      rfl
    | true =>
      rw [if_pos rfl]
      simp only [Graph.visitSender, hlinked, if_true] at hwalk
      by_cases heq : v = w
      · rw [if_pos ((hr.eq_iff hs).mpr heq)]
        rw [if_pos heq] at hwalk
        cases hwalk
        rfl
      · rw [if_neg fun h => heq ((hr.eq_iff hs).mp h)]
        rw [if_neg heq] at hwalk
        cases hsender : g.field v Context.senderField with
        | none =>
          rw [hsender] at hwalk
          cases hwalk
        | some sender =>
          obtain ⟨senderRef, hsenderRef, hshows⟩ := (Reads.field hr _).ok hm hsender
          rw [hsender] at hwalk
          obtain ⟨answer', hanswer, rfl⟩ := Option.map_eq_some_iff.mp hwalk
          rw [show Context.sender m.heap r = _ from hsenderRef]
          exact ih hshows hanswer

end Realizes

end Machine

instance : Depicted ContextPool Graph.Pool := ⟨fun p c pool => p.ShowsPool c pool⟩

namespace Reads

variable {p : Placement} {r s : Ref} {v w : Value}

theorem isDead (hr : p.Shows r v) : Reads p (fun m => Context.isDead m.heap r) (·.isDead v) := by
  refine .intro fun m g starts hm b hb => ?_
  obtain ⟨pc, hpc, rfl⟩ := Option.map_eq_some_iff.mp hb
  obtain ⟨word, hword, hshows⟩ := (field hr _).ok hm hpc
  refine ⟨!word.isSmallInteger, ?_, by rw [hshows.isSmallInteger_eq]; rfl⟩
  unfold Context.isDead Context.pc? Context.register?
  rw [show m.heap.fetchField r Context.pcField = .ok word from hword]
  show Except.ok (Option.isNone (if word.isSmallInteger then some word.toCount else none)) = _
  cases word.isSmallInteger <;> rfl

theorem recycled (hr : p.Shows r v) :
    Reads p (fun m => m.contexts.recycle m.heap r) (·.recycled v) := by
  refine .intro fun m g starts hm b hb => ?_
  obtain ⟨o, ho, heq⟩ := Option.bind_eq_some_iff.mp hb
  obtain ⟨n, rfl, rfl⟩ := Graph.of_node? ho
  cases heq
  obtain ⟨captured, hcaptured, hsame⟩ := (isCaptured hr).ok hm rfl
  obtain ⟨len, hlen, hsame'⟩ := (length hr).ok hm rfl
  cases hsame
  cases hsame'
  refine ⟨if (g.nodes n).captured then m.contexts else m.contexts.put r (g.nodes n).len, ?_, ?_⟩
  · unfold ContextPool.recycle Context.frameSize
    rw [show m.heap.isCaptured r = _ from hcaptured, show m.heap.length r = _ from hlen]
    cases (g.nodes n).captured <;> rfl
  · show p.ShowsPool _ _
    split
    · exact hm.pool
    · exact hm.pool.put hr _

theorem hasSender (hr : p.Shows r v) (hs : p.Shows s w) :
    Reads p (fun m => Context.hasSender m.heap r s) (·.hasSender v w) := by
  refine .intro fun m g starts hm b hb => ?_
  obtain ⟨sender, hsender, hb⟩ := Option.bind_eq_some_iff.mp hb
  obtain ⟨senderRef, hsenderRef, hshows⟩ := (field hr _).ok hm hsender
  refine ⟨b, ?_, rfl⟩
  show (Context.sender m.heap r >>= fun sender =>
    Context.sentFrom m.heap s sender (m.heap.memory.size + 1)) = _
  rw [show Context.sender m.heap r = _ from hsenderRef]
  refine hm.sentFrom hshows hs (hm.walk_of_walked (fun u u' hu hnext => ?_) ⟨_, hshows⟩ hb
    (Nat.lt_succ_self _))
  have hfield := Graph.of_onward_visitSender hnext
  exact ⟨Graph.isObject_of_field hfield, hm.shown_field hu hfield⟩

theorem canUnwind (hr : p.Shows r v) (hs : p.Shows s w) :
    Reads p (fun m => do
        if ← Context.isDead m.heap s then return false else Context.hasSender m.heap r s)
      (·.canUnwind v w) := by
  refine (isDead hs).bind fun dead _ heq => ?_
  cases heq
  cases dead with
  | true => exact pure rfl
  | false => exact hasSender hr hs

end Reads

theorem Writes.kill {p : Placement} {r : Ref} {v : Value} (hr : p.Shows r v) :
    Writes p (Context.kill · r) (·.kill v) := by
  intro m g starts hm g' hg'
  exact ((storeField hr hm.nil).bind (storeField hr hm.nil)) m g starts hm g' hg'

/-! ## The actions -/

theorem Spec.of_retire {g : Graph} {v : Value} {r : Result Unit} (hr : Spec.retire v g r) :
    r = .wrong ∨ ∃ g' pool, g.kill v = some g' ∧ r = .ok () { g' with pool } := by
  obtain ⟨r₁, hkill, hr⟩ := hr
  cases hg : g.kill v with
  | none =>
    rw [Spec.write_of_none hg] at hkill
    subst hkill
    exact .inl hr
  | some g' =>
    rw [Spec.write_of_some hg] at hkill
    subst hkill
    obtain ⟨r₂, hread, hr⟩ := hr
    cases hpool : g'.recycled v with
    | none =>
      rw [Spec.read_of_none hpool] at hread
      subst hread
      exact .inl hr
    | some pool =>
      rw [Spec.read_of_some hpool] at hread
      subst hread
      exact .inr ⟨g', pool, rfl, hr⟩

namespace Spec

variable {g : Graph} {v w : Value} {fuel : Nat} {out : Result Unit}

theorem read_bind_none {α β : Type} {φ : Graph → Option α} {f : α → Spec β} (hφ : φ g = none) :
    (read φ >>= f) g .wrong :=
  ⟨.wrong, by rw [read_of_none hφ], rfl⟩

theorem retireUpTo_step (hcond : v ≠ w ∧ g.isLink v = true)
    (hout : (do
      let sender ← read (·.field v Context.senderField)
      retire v
      retireUpTo w sender fuel) g out) : retireUpTo w v (fuel + 1) g out := by
  refine ⟨_, rfl, ?_⟩
  show (if (decide (v ≠ w) && g.isLink v) = true then _ else _ : Spec Unit) g out
  rw [if_pos (by simpa using hcond)]
  exact hout

theorem retireUpTo_stop (hcond : ¬ (v ≠ w ∧ g.isLink v = true)) :
    retireUpTo w v (fuel + 1) g (.ok () g) := by
  refine ⟨_, rfl, ?_⟩
  show (if (decide (v ≠ w) && g.isLink v) = true then _ else _ : Spec Unit) g _
  rw [if_neg (by simpa using hcond)]
  rfl

end Spec

namespace Machine.Realizes

variable {m : Machine} {g : Graph} {p : Placement} {starts : List Nat} {r s : Ref} {v w : Value}
  {fuel : Nat}

theorem isPointer_and_ne_iff (hm : m.Realizes g p starts) (hs : p.Shows s w) (hr : p.Shows r v) :
    (r ≠ s ∧ r.isPointer ∧ r ≠ m.heap.nil) ↔ (v ≠ w ∧ g.isLink v = true) := by
  rw [← hm.isLink_eq hr, Bool.and_eq_true, bne_iff_ne]
  exact and_congr (not_congr (hr.eq_iff hs)) Iff.rfl

theorem retireUpTo_step (hm : m.Realizes g p starts) (hs : p.Shows s w) (hr : p.Shows r v)
    (hcond : v ≠ w ∧ g.isLink v = true) :
    m.retireUpTo s r (fuel + 1) = (do
      let sender ← Action.read (Context.sender · r)
      Machine.retire r
      Machine.retireUpTo s sender fuel : Action Unit) m := by
  show (if r ≠ s ∧ r.isPointer ∧ r ≠ m.heap.nil then _ else _ : Action Unit) m = _
  rw [if_pos ((hm.isPointer_and_ne_iff hs hr).mpr hcond)]

theorem retireUpTo_stop (hm : m.Realizes g p starts) (hs : p.Shows s w) (hr : p.Shows r v)
    (hcond : ¬ (v ≠ w ∧ g.isLink v = true)) : m.retireUpTo s r (fuel + 1) = .ok () m := by
  show (if r ≠ s ∧ r.isPointer ∧ r ≠ m.heap.nil then _ else _ : Action Unit) m = _
  rw [if_neg (mt (hm.isPointer_and_ne_iff hs hr).mp hcond)]
  rfl

end Machine.Realizes

namespace Simulates

variable {p : Placement} {r s : Ref} {v w : Value}

theorem retire (hr : p.Shows r v) :
    Simulates p (· = p) (Machine.retire r) (Spec.retire v) := by
  refine (write (Writes.kill hr)).bind_still fun _ _ _ => ?_
  refine (inspect (Reads.recycled hr)).bind_still fun contexts pool hpool => ?_
  exact modify fun m g starts hm => hm.withPool hpool

/-- An action that leaves objects where they are, followed by another one. -/
theorem fits_bind {α β γ δ : Type} [Depicted α β] [Depicted γ δ] {x : Action α} {y : Spec β}
    {f : α → Action γ} {R : Result δ → Prop} {m : Machine} {g : Graph} {starts : List Nat}
    (hx : Simulates p (· = p) x y) (hm : m.Realizes g p starts) (hright : ¬ y g .wrong)
    (hno : ∀ out, y g out → ¬ ∀ b g', out ≠ .ok b g')
    (hf : ∀ a b m' g' starts', y g (.ok b g') → Depicted.shows p a b → m'.Realizes g' p starts' →
      (f a m').Fits R p (· = p)) : ((x >>= f) m).Fits R p (· = p) := by
  have hfits := hx m g starts hm hright
  show (Action.bind x f m).Fits R p (· = p)
  unfold Action.bind
  cases hrun : x m with
  | ok a m' =>
    rw [hrun] at hfits
    obtain ⟨b, g', p', starts', hout, rfl, hab, hm'⟩ := hfits
    exact hf a b m' g' starts' hout hab hm'
  | failed failure m' =>
    rw [hrun] at hfits
    obtain ⟨g', p', starts', hout, -⟩ := hfits
    exact absurd (fun _ _ h => nomatch h) (hno _ hout)
  | stopped cause =>
    rw [hrun] at hfits
    obtain hmemory | hout := hfits
    · exact .inl hmemory
    · exact absurd (fun _ _ h => nomatch h) (hno _ hout)
  | unfinished =>
    rw [hrun] at hfits
    exact absurd (fun _ _ h => nomatch h) (hno _ hfits)

/-- The contexts that were left so far have no senders, so that one of them ends the walk; the others
are objects of their own. -/
theorem retireUpTo {size fuel : Nat} {left : List Nat} {m : Machine} {g : Graph} {starts : List Nat}
    (hs : p.Shows s w) (hr : p.Shows r v) (hm : m.Realizes g p starts)
    (hsize : ∀ names : List Nat, names.Nodup → (∀ n ∈ names, ∃ i, p.find? n = some i) →
      2 * names.length ≤ size)
    (hnodup : left.Nodup) (hplaced : ∀ n ∈ left, ∃ i, p.find? n = some i)
    (hsenders : ∀ n ∈ left, g.field (.object n) Context.senderField = some g.nil)
    (hfuel : size + 2 ≤ fuel + left.length) (hright : ¬ Spec.retireUpTo w v fuel g .wrong) :
    (Machine.retireUpTo s r fuel m).Fits
      (fun out => out ≠ .stopped (.fault .endless) ∧ Spec.retireUpTo w v fuel g out) p (· = p) := by
  induction fuel generalizing r v m g starts left with
  | zero =>
    have := hsize left hnodup hplaced
    omega
  | succ fuel ih =>
    by_cases hcond : v ≠ w ∧ g.isLink v = true
    · rw [hm.retireUpTo_step hs hr hcond]
      cases hfield : g.field v Context.senderField with
      | none => exact absurd (Spec.retireUpTo_step hcond (Spec.read_bind_none hfield)) hright
      | some u =>
        obtain ⟨q, hq, hshows⟩ := (Reads.field hr _).ok hm hfield
        have hrest : ∀ out, (Spec.retire v >>= fun _ => Spec.retireUpTo w u fuel) g out →
            Spec.retireUpTo w v (fuel + 1) g out :=
          fun out hout => Spec.retireUpTo_step hcond ⟨.ok u g, by rw [Spec.read_of_some hfield], hout⟩
        rw [Action.bind_of_ok (Action.read_of_ok (show Context.sender m.heap r = .ok q from hq))]
        refine (retire hr).fits_bind hm (fun hwrong => hright (hrest _ ⟨_, hwrong, rfl⟩)) ?_ ?_
        · intro out hout hnot
          obtain heq | ⟨_, _, -, heq⟩ := Spec.of_retire hout
          · exact hright (hrest _ ⟨.wrong, heq ▸ hout, rfl⟩)
          · exact hnot _ _ heq
        intro _ _ m' g' starts' hout _ hm'
        obtain heq | ⟨g₁, pool, hkill, heq⟩ := Spec.of_retire hout
        · cases heq
        cases heq
        obtain ⟨hnil, hself, hothers⟩ := Graph.sender_kill hkill
        obtain ⟨n, rfl, -, rfl⟩ := Graph.of_field hfield
        obtain ⟨i, hi, -⟩ := id hr
        have hmore : ∀ out, Spec.retireUpTo w ((g.nodes n).field Context.senderField) fuel
            { g₁ with pool } out → Spec.retireUpTo w (.object n) (fuel + 1) g out :=
          fun out h => hrest out ⟨_, hout, h⟩
        by_cases hin : n ∈ left
        · -- The context was left before, so that nil is where the walk goes on.
          have hu := Option.some.inj (hfield.symm.trans (hsenders n hin))
          obtain ⟨fuel, rfl⟩ := Nat.exists_eq_succ_of_ne_zero (show fuel ≠ 0 by
            have := hsize left hnodup hplaced
            omega)
          have hnot : ¬ ((g.nodes n).field Context.senderField ≠ w ∧
              ({ g₁ with pool } : Graph).isLink ((g.nodes n).field Context.senderField) = true) := by
            rw [hu, ← hnil]
            simp [Graph.isLink]
          rw [hm'.retireUpTo_stop hs hshows hnot]
          exact ⟨(), _, _, starts', ⟨by simp, hmore _ (Spec.retireUpTo_stop hnot)⟩, rfl, trivial, hm'⟩
        · refine (ih hshows hm' (List.nodup_cons.mpr ⟨hin, hnodup⟩) ?_ ?_ ?_
            fun hwrong => hright (hmore _ hwrong)).mono (fun out h => ⟨h.1, hmore out h.2⟩) (.refl _)
            fun _ h => h
          · intro k hk
            rcases List.mem_cons.mp hk with rfl | hk
            · exact ⟨i, hi⟩
            · exact hplaced k hk
          · intro k hk
            show g₁.field (.object k) Context.senderField = some g₁.nil
            rw [hnil]
            rcases List.mem_cons.mp hk with rfl | hk
            · exact hself
            · rw [hothers _ fun heq => hin (Value.object.inj heq ▸ hk)]
              exact hsenders k hk
          · rw [List.length_cons]
            omega
    · rw [hm.retireUpTo_stop hs hr hcond]
      exact ⟨(), g, p, starts, ⟨by simp, Spec.retireUpTo_stop hcond⟩, rfl, trivial, hm⟩

/-- There are fewer contexts to leave than words in memory. -/
theorem finishRetiring (hs : p.Shows s w) (hr : p.Shows r v) :
    Simulates p (· = p) (Action.ask (·.heap.memory.size + 2) >>= Machine.retireUpTo s r)
      (Spec.finish (Spec.retireUpTo w v)) := by
  intro m g starts hm hright
  have hfuel : m.heap.memory.size + 2 ≤ m.heap.memory.size + 2 + ([] : List Nat).length := Nat.le_refl _
  have hfits := retireUpTo hs hr hm (fun names => hm.length_le) List.nodup_nil
    (fun _ h => nomatch h) (fun _ h => nomatch h) hfuel fun hwrong => hright ⟨by simp, _, hwrong⟩
  exact hfits.mono (fun out h => ⟨h.1, _, h.2⟩) (.refl p) fun _ h => h

/-- Whether there is a context to go on with. -/
theorem bind_isLink {α β : Type} [Depicted α β] {K : Placement → Prop} {x x' : Action α} {y y' : Spec β}
    (hr : p.Shows r v) (hx : Simulates p K x y) (hx' : Simulates p K x' y') :
    Simulates p K (Action.ask (·.heap.nil) >>= fun nil => if r.isPointer && r != nil then x else x')
      (Spec.ask (·.isLink v) >>= fun link => if link then y else y') := by
  have hlook : ∀ (m : Machine) (g : Graph) starts, m.Realizes g p starts →
      (r.isPointer && r != m.heap.nil) = g.isLink v := fun m g starts hm => hm.isLink_eq hr
  have hask : Simulates p (· = p) (Action.ask fun m => r.isPointer && r != m.heap.nil)
      (Spec.ask (·.isLink v)) := ask hlook
  refine hask.bind_still (f := fun link => if link then x else x')
    (h := fun link => if link then y else y') fun link _ heq => ?_
  cases heq
  cases link with
  | true => exact hx
  | false => exact hx'

theorem leaveTo (hr : p.Shows r v) :
    Simulates p (· = p) (Machine.leaveTo r) (Spec.leaveTo v) := by
  intro m g starts hm hright
  have hactive := hm.roots.registers.active
  have hyes : Simulates p (· = p) (Pure.pure true : Action Bool) (Pure.pure true : Spec Bool) :=
    pure rfl rfl
  have hno : Simulates p (· = p) (Pure.pure false : Action Bool) (Pure.pure false : Spec Bool) :=
    pure rfl rfl
  have hrest := (finishRetiring hr hactive).bind_still fun _ _ _ => bind_isLink hr
    ((loadContext hr).bind_still fun _ _ _ => hyes) hno
  exact (hrest m g starts hm fun hwrong => hright ⟨_, rfl, hwrong⟩).mono
    (fun out hout => ⟨_, rfl, hout⟩) (.refl p) fun _ h => h

theorem returnTo {target : Ref} {targetValue : Value} (ht : p.Shows target targetValue)
    (hr : p.Shows r v) :
    Simulates p (· = p) (Machine.returnTo target r) (Spec.returnTo targetValue v) := by
  refine (leaveTo ht).bind_still fun goesOn _ heq => ?_
  cases heq
  cases goesOn with
  | true => exact (push hr).bind_still fun _ _ _ => pure .none rfl
  | false => exact clearRegisters.bind_still fun _ _ _ => pure (.some hr) rfl

theorem escapeBlock : Simulates p p.Steady Machine.escapeBlock Spec.escapeBlock := by
  refine bind_registers fun r s hs => ?_
  refine (read (Reads.field hs.active _)).bind_still fun caller callerValue hcaller => ?_
  refine (write (Writes.setCaptured hs.active true)).bind_still fun _ _ _ => ?_
  refine (leaveTo hcaller).bind_still fun goesOn _ heq => ?_
  cases heq
  cases goesOn with
  | true =>
    refine (push hs.receiver).bind_still fun _ _ _ => ?_
    refine (push hs.active).bind_still fun _ _ _ => ?_
    exact bind_core fun core c hcore => send hcore.escapedBlock 1
  | false => exact fail rfl

theorem methodReturn (hr : p.Shows r v) :
    Simulates p p.Steady (Machine.methodReturn r) (Spec.methodReturn v) := by
  refine bind_registers fun r s hs => ?_
  dsimp only
  by_cases hmethod : r.activeContext = r.homeContext
  · rw [if_pos hmethod, if_pos ((hs.active.eq_iff hs.home).mp hmethod)]
    refine (read (Reads.field hs.active _)).bind_still fun sender senderValue hsender => ?_
    exact (returnTo hsender hr).steady
  · rw [if_neg hmethod, if_neg (mt (hs.active.eq_iff hs.home).mpr hmethod)]
    refine (read (Reads.canUnwind hs.active hs.home)).bind_still fun alive _ heq => ?_
    cases heq
    cases alive with
    | true =>
      refine (read (Reads.field hs.home _)).bind_still fun sender senderValue hsender => ?_
      exact (returnTo hsender hr).steady
    | false => exact escapeBlock

theorem blockReturn : Simulates p p.Steady Machine.blockReturn Spec.blockReturn := by
  refine pop.bind_still fun r v hr => ?_
  refine bind_registers fun s s' hs => ?_
  refine (read (Reads.field hs.active _)).bind_still fun sender senderValue hsender => ?_
  exact (returnTo hsender hr).steady

end Simulates

end ObjectMachine
