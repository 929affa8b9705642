import ObjectMachine.Proofs.Machine.Continuation

/-!
# Collections at any time

A collection may come in the middle of an activation or between runs. Either way it succeeds unless
its work list overflows, which takes a work list shorter than the roots and the words in use, and it
leaves a machine that can be collected again: with as many roots and no less room, so that a work list
that was long enough once stays so.

## Main results

* `Machine.InOrder.collectGarbage`: a collection in the middle of an activation or between runs.
* `Machine.InOrder.collectKeeping`: one that keeps one more object.
-/

namespace ObjectMachine

namespace Machine

variable {m n : Machine} {starts : List Nat} {r : Ref}

/-! ## Machines that can allocate -/

/-- Memory as a collection finds it, with the registers of an activation written back. -/
def saved (m : Machine) : Heap :=
  if m.registers.activeContext.isPointer then m.settled else m.heap

/-- Writing the registers back changes words only. -/
theorem saved_rest (m : Machine) : { m.saved with memory := m.heap.memory } = m.heap := by
  unfold saved
  split <;> rfl

/-- A machine between runs. -/
structure Resting (m : Machine) (starts : List Nat) : Prop where
  idle : m.registers.activeContext.isPointer = false
  wellFormed : m.heap.WellFormed starts
  rootsIn : m.heap.RootsIn starts m.roots
  /-- Fields are where the format allows them. -/
  allowed : ∀ i ∈ starts, (m.heap.view i).fields = 0 ∨ (m.heap.view i).format.allowsFields = true

/-- A machine in the middle of an activation or between runs. No more bytes were allocated since the
last collection than are in use, and the bytes that are reserved can be counted. -/
structure InOrder (m : Machine) (starts : List Nat) : Prop where
  mode : m.Working starts ∨ m.Resting starts
  counted : m.heap.sinceCollection ≤ m.heap.usedBytes
  reserved : m.heap.reservedWords < Ref.addressLimit

/-- A machine that has no less room than another one, and no more roots to begin with. -/
structure Recedes (m n : Machine) : Prop where
  top : n.heap.top ≤ m.heap.top
  reservedWords : n.heap.reservedWords = m.heap.reservedWords
  config : n.heap.config = m.heap.config
  roots : n.roots.length = m.roots.length

theorem Recedes.refl (m : Machine) : m.Recedes m := ⟨Nat.le_refl _, rfl, rfl, rfl⟩

/-! ## Outcomes up to a short work list -/

/-- An outcome that is as `Q` says, unless the work list of a collection overflows, which is then too
short for the roots, one more reference and the words in use. -/
inductive Fulfils {α : Type} (m : Machine) (Q : α → Machine → Prop) : Outcome α → Prop
  | ok {a : α} {m' : Machine} : Q a m' → Fulfils m Q (.ok a m')
  | overflow : m.heap.config.markLimit ≤ m.roots.length + m.heap.top →
      Fulfils m Q (.stopped (.markStackOverflow m.heap.config.markLimit))

namespace Fulfils

variable {α β : Type} {Q : β → Machine → Prop} {R : α → Machine → Prop} {x : Action α}
  {k : α → Action β}

theorem step {a : α} {m' n : Machine} (hx : x n = .ok a m') (hk : m.Fulfils Q (k a m')) :
    m.Fulfils Q ((x >>= k) n) := by
  rw [Action.bind_of_ok hx]
  exact hk

theorem bind (hx : m.Fulfils R (x n)) (hk : ∀ a n', R a n' → m.Fulfils Q (k a n')) :
    m.Fulfils Q ((x >>= k) n) := by
  generalize hy : x n = y at hx
  cases hx with
  | ok ha => exact step hy (hk _ _ ha)
  | overflow hlimit =>
    rw [Action.bind_of_stopped hy]
    exact .overflow hlimit

/-- With no less room and no more roots an overflow says as much of the first machine. -/
theorem of_recedes {x : Outcome α} (hn : m.Recedes n) (hx : n.Fulfils R x) : m.Fulfils R x := by
  cases hx with
  | ok ha => exact .ok ha
  | overflow hlimit =>
    have htop := hn.top
    rw [hn.config, hn.roots] at hlimit
    rw [hn.config]
    exact .overflow (by omega)

end Fulfils

namespace InOrder

theorem laidOut (hm : m.InOrder starts) : m.heap.LaidOut starts := by
  rcases hm.mode with hw | hr
  · exact hw.laidOut
  · exact hr.wellFormed.toLaidOut

theorem allowed (hm : m.InOrder starts) :
    ∀ i ∈ starts, (m.heap.view i).fields = 0 ∨ (m.heap.view i).format.allowsFields = true := by
  rcases hm.mode with hw | hr
  · exact hw.allowed
  · exact hr.allowed

theorem saved_working (hw : m.Working starts) : m.saved = m.settled := by
  obtain ⟨a, ha, hactive, -⟩ := hw.context
  unfold saved
  rw [hactive, if_pos (hw.laidOut.isPointer ha)]

theorem saved_resting (hr : m.Resting starts) : m.saved = m.heap := by
  unfold saved
  rw [hr.idle]
  rfl

theorem wellFormed (hm : m.InOrder starts) : m.saved.WellFormed starts := by
  rcases hm.mode with hw | hr
  · exact saved_working hw ▸ hw.wellFormed
  · exact saved_resting hr ▸ hr.wellFormed

theorem rootsIn (hm : m.InOrder starts) : m.saved.RootsIn starts m.roots := by
  rcases hm.mode with hw | hr
  · exact saved_working hw ▸ hw.rootsIn
  · exact saved_resting hr ▸ hr.rootsIn

theorem known (hm : m.InOrder starts) (hr : r ∈ m.roots) : Known starts r :=
  hm.rootsIn.roots r hr

theorem flushRegisters (hm : m.InOrder starts) :
    m.flushRegisters = .ok () { m with heap := m.saved } := by
  rcases hm.mode with hw | hr
  · obtain ⟨a, ha, hactive, hformat⟩ := hw.context
    rw [saved_working hw, hw.settled_eq ha hactive]
    exact flushRegisters_eq hw.laidOut ha hactive hformat
  · rw [saved_resting hr]
    exact flushRegisters_idle hr.idle

/-- Other references may be pinned. -/
theorem withPinned (hm : m.InOrder starts) {pinned : Array Ref}
    (hknown : ∀ r ∈ pinned.toList, Known starts r) :
    ({ m with pinned } : Machine).InOrder starts := by
  refine { mode := ?_, counted := hm.counted, reserved := hm.reserved }
  rcases hm.mode with hw | hr
  · exact .inl (hw.withPinned hknown)
  · refine .inr { hr with rootsIn := ⟨?_, hr.rootsIn.nil⟩ }
    intro r hmem
    rcases mem_roots.mp hmem with h | h | h | h | h
    · exact hr.rootsIn.roots r (mem_roots.mpr (.inl h))
    · exact hr.rootsIn.roots r (mem_roots.mpr (.inr (.inl h)))
    · exact hr.rootsIn.roots r (mem_roots.mpr (.inr (.inr (.inl h))))
    · exact hr.rootsIn.roots r (mem_roots.mpr (.inr (.inr (.inr (.inl h)))))
    · exact hknown r h

/-! ## Collections -/

theorem collectGarbage_mode (hm : m.InOrder starts) :
    (m.collectGarbage = .stopped (.markStackOverflow m.heap.config.markLimit) ∧
        m.saved.mark m.roots = .error (.markStackOverflow m.saved.config.markLimit)) ∨
      ∃ reclaimed n starts' c f, m.collectGarbage = .ok reclaimed n ∧ n.heap = c.heap ∧
        m.saved.Carries m.roots c f ∧ n.roots = m.roots.map (·.image f) ∧
        n.pinned = m.pinned.map (·.image f) ∧ (n.Working starts' ∨ n.Resting starts') := by
  rcases hm.mode with hw | hr
  · rw [saved_working hw]
    rcases hw.collectGarbage_cases with hstopped |
      ⟨c, f, stackBase, tempBase, codeBase, starts', hcarries, hok, -, hworking⟩
    · refine .inl ⟨hstopped, ?_⟩
      by_contra hmark
      obtain ⟨_, _, _, _, hok, -⟩ := collectGarbage_resumes hw.toActivated hmark
      rw [hstopped] at hok
      cases hok
    · exact .inr ⟨_, _, starts', c, f, hok, rfl, hcarries, roots_resumed .., rfl, .inl hworking⟩
  · rw [saved_resting hr]
    rcases collectGarbage_idle hr.idle hr.wellFormed hr.rootsIn with ⟨hmark, hstopped⟩ |
      ⟨live, c, hk, hc, hok⟩
    · exact .inl ⟨hstopped, hmark⟩
    · have hroots : (m.Moved starts live c).roots = m.roots.map (m.heap.moveRef starts live) := by
        rw [← roots_mapRoots, roots_eq, roots_eq]
        rfl
      refine .inr ⟨_, _, m.heap.survivors starts live, c, m.heap.moveRef starts live, hok, rfl,
        hc.carries hr.wellFormed hr.rootsIn hk, ?_, ?_, .inr ?_⟩
      · simp only [Heap.Collects.image_moveRef]
        exact hroots
      · simp only [Heap.Collects.image_moveRef]
        rfl
      · exact
          { idle := by
              show (m.heap.moveRef starts live m.registers.activeContext).isPointer = false
              rw [Heap.moveRef, if_neg (by simp [hr.idle])]
              exact hr.idle
            wellFormed := hc.wellFormed hr.wellFormed hr.rootsIn hk
            rootsIn := by
              rw [hroots, ← hc.roots]
              exact hc.rootsIn hr.wellFormed hr.rootsIn hk
            allowed := by
              intro j hj
              obtain ⟨i, hi, hlive, rfl⟩ := Heap.mem_survivors.mp hj
              have hagree := hc.agrees hr.wellFormed hi hlive
              show (c.heap.view _).fields = 0 ∨ (c.heap.view _).format.allowsFields = true
              rw [hagree.fields_eq, hagree.format_eq]
              exact hr.allowed i hi }

/-- A collection succeeds unless its work list is too short for the roots and the words in use. It
leaves no less room, and has no bytes counted. -/
theorem collectGarbage (hm : m.InOrder starts) :
    (m.collectGarbage = .stopped (.markStackOverflow m.heap.config.markLimit) ∧
        m.heap.config.markLimit < m.roots.length + m.heap.top) ∨
      ∃ reclaimed n starts' c f, m.collectGarbage = .ok reclaimed n ∧ n.heap = c.heap ∧
        m.saved.Carries m.roots c f ∧ n.roots = m.roots.map (·.image f) ∧
        n.pinned = m.pinned.map (·.image f) ∧ n.InOrder starts' ∧ m.Recedes n := by
  have hconfig : m.saved.config = m.heap.config := (congrArg Heap.config m.saved_rest :)
  have htop : m.saved.top = m.heap.top := (congrArg Heap.top m.saved_rest :)
  have hreserved : m.saved.reservedWords = m.heap.reservedWords :=
    (congrArg Heap.reservedWords m.saved_rest :)
  rcases hm.collectGarbage_mode with ⟨hstopped, hmark⟩ |
    ⟨reclaimed, n, starts', c, f, hok, hheap, hcarries, hroots, hpinned, hmode⟩
  · refine .inl ⟨hstopped, ?_⟩
    rw [← hconfig, ← htop]
    exact Heap.lt_of_mark_overflow hm.wellFormed hm.rootsIn hmark
  · have hsame : ({ m with heap := m.saved } : Machine).roots = m.roots := by
      rw [roots_eq, roots_eq]
    obtain ⟨c', live, registers, -, hc, heq, -⟩ := collectGarbage_cases hm.flushRegisters
      hm.wellFormed (by rw [hsame]; exact hm.rootsIn) hok
    have hheap' : n.heap = c'.heap := by
      rw [heq]
    have hle := liveWords_le_sum m.saved.sizeOf live starts
    have hsum := hm.wellFormed.tiles.sum_eq
    have hrecedes : m.Recedes n :=
      { top := by
          rw [hheap', hc.top, ← htop]
          show firstWord + liveWords m.saved.sizeOf live starts ≤ m.saved.top
          omega
        reservedWords := by
          rw [hheap', hc.reservedWords]
          exact hreserved
        config := by
          rw [hheap', hc.config]
          exact hconfig
        roots := by
          rw [hroots, List.length_map] }
    refine .inr ⟨reclaimed, n, starts', c, f, hok, hheap, hcarries, hroots, hpinned, ?_, hrecedes⟩
    exact
      { mode := hmode
        counted := by
          rw [hheap', hc.sinceCollection]
          exact Nat.zero_le _
        reserved := hrecedes.reservedWords.trans_lt hm.reserved }

end InOrder

/-- A collection that keeps one more object takes it to a new reference, and all else that can be
reached as well. -/
def CollectsKeeping (m : Machine) (r : Ref) (n : Machine) (s : Ref) : Prop :=
  m.collectKeeping r = .ok s n ∧
    ∃ c f, s = r.image f ∧ n.heap = c.heap ∧ m.saved.Carries (m.roots ++ [r]) c f

/-- Some collections, one after the other, take an object to a new reference. -/
inductive Relocates : Machine → Ref → Machine → Ref → Prop
  | refl (m : Machine) (r : Ref) : Relocates m r m r
  | step {m n n' : Machine} {r s s' : Ref} :
      Relocates m r n s → n.CollectsKeeping s n' s' → Relocates m r n' s'

theorem Relocates.trans {m' : Machine} {s s' : Ref} (h : m.Relocates r n s)
    (h' : n.Relocates s m' s') : m.Relocates r m' s' := by
  induction h' with
  | refl => exact h
  | step _ hstep ih => exact .step (ih h) hstep

/-- After a collection, the references of what could be reached lead to objects. -/
theorem InOrder.image_carried {h : Heap} {c : Collected} {f : Ref → Ref} {roots : List Ref}
    (hn : n.InOrder starts) (hheap : n.heap = c.heap) (hcarries : h.Carries roots c f)
    (hr : h.Reachable roots r) : Designates starts (f r) := by
  obtain ⟨objects, hobjects, hmem⟩ := hcarries.objects
  rw [← hheap, hn.laidOut.objects_eq] at hobjects
  cases hobjects
  obtain ⟨i, hi, heq⟩ := List.mem_map.mp (hmem r hr)
  exact ⟨i, hi, heq.symm⟩

/-- A collection that keeps one more object. -/
theorem InOrder.collectKeeping (hm : m.InOrder starts) (hr : Designates starts r) :
    m.Fulfils (fun s n => m.CollectsKeeping r n s ∧ m.Recedes n ∧
      ∃ starts', n.InOrder starts' ∧ Designates starts' s) (m.collectKeeping r) := by
  let p : Machine := { m with pinned := m.pinned.push r }
  have hp : p.InOrder starts := by
    apply hm.withPinned
    intro x hx
    rcases List.mem_append.mp (Array.toList_push ▸ hx) with hold | hnew
    · exact hm.known (mem_roots.mpr (.inr (.inr (.inr (.inr hold)))))
    · rw [List.mem_singleton.mp hnew]
      exact fun _ => hr
  have hroots : p.roots = m.roots ++ [r] := by
    simp only [roots_eq, p, Array.toList_push, List.append_assoc]
  have hpointer : r.isPointer = true := by
    obtain ⟨i, hi, rfl⟩ := hr
    exact hm.laidOut.isPointer hi
  rcases hp.collectGarbage with ⟨hstopped, hlimit⟩ |
    ⟨reclaimed, n, starts', c, f, hok, hheap, hcarries, hroots', hpinned, hn, hrecedes⟩
  · have hkeeping : m.collectKeeping r = .stopped (.markStackOverflow m.heap.config.markLimit) :=
      (Action.bind_of_ok rfl).trans (Action.bind_of_stopped hstopped)
    rw [hroots, List.length_append, List.length_singleton] at hlimit
    change m.heap.config.markLimit < m.roots.length + 1 + m.heap.top at hlimit
    rw [hkeeping]
    exact .overflow (by omega)
  · rw [hroots] at hcarries hroots'
    have hback : n.pinned = (m.pinned.map (·.image f)).push (r.image f) := by
      rw [hpinned]
      exact Array.map_push ..
    have hknown : ∀ x ∈ (m.pinned.map (·.image f)).toList, Known starts' x := by
      intro x hx
      refine hn.known (mem_roots.mpr (.inr (.inr (.inr (.inr ?_)))))
      rw [hback, Array.toList_push]
      exact List.mem_append_left _ hx
    have hreach : m.saved.Reachable (m.roots ++ [r]) r := .root (by simp) hpointer
    have himage : r.image f = f r := if_pos hpointer
    have hkeeping : m.collectKeeping r =
        .ok (r.image f) { n with pinned := m.pinned.map (·.image f) } := by
      refine (Action.bind_of_ok rfl).trans ((Action.bind_of_ok hok).trans ?_)
      unfold unpin
      rw [hback, Array.back?_push, Array.pop_push]
    rw [hkeeping]
    refine .ok ⟨⟨hkeeping, c, f, rfl, hheap, hcarries⟩, ?_, starts', hn.withPinned hknown,
      himage ▸ hn.image_carried hheap hcarries hreach⟩
    · have hcount : n.roots.length = m.roots.length + 1 := by
        rw [hroots', List.length_map, List.length_append, List.length_singleton]
      have hcount' : n.roots.length =
          ({ n with pinned := m.pinned.map (·.image f) } : Machine).roots.length + 1 := by
        simp only [roots_eq, hback, Array.toList_push, List.length_append, List.length_singleton,
          Nat.add_assoc]
      exact
        { top := hrecedes.top
          reservedWords := hrecedes.reservedWords
          config := hrecedes.config
          roots := by omega }

end Machine

end ObjectMachine
