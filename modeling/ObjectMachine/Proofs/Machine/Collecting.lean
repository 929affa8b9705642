import ObjectMachine.Machine.Collect
import ObjectMachine.Proofs.Collection.Collecting
import ObjectMachine.Proofs.Interface.Stores
import ObjectMachine.Proofs.Machine.Roots

/-!
# Collections by the machine

A machine writes its registers back to the active context, collects with its roots, and takes up the
images of these. All that is left of the collection is the map from old to new references; the
registers that hold positions are computed again from the active context.

## Main results

* `Machine.flushRegisters_eq`: what is written back.
* `Machine.collectGarbage_cases`: the machine after a collection.
-/

namespace ObjectMachine

theorem Action.bind_eq_ok {α β : Type} {x : Action α} {f : α → Action β} {m m' : Machine} {b : β} :
    (x >>= f) m = .ok b m' ↔ ∃ a m₁, x m = .ok a m₁ ∧ f a m₁ = .ok b m' := by
  show Action.bind x f m = .ok b m' ↔ _
  unfold Action.bind
  cases hx : x m with
  | ok a m₁ =>
    constructor
    · intro hf
      exact ⟨a, m₁, rfl, hf⟩
    · rintro ⟨_, _, heq, hf⟩
      cases heq
      exact hf
  | _ => simp

theorem Action.write_ok {f : Heap → Except Fatal Heap} {m : Machine} {h : Heap}
    (hf : f m.heap = .ok h) : Action.write f m = .ok () { m with heap := h } := by
  unfold Action.write
  simp only [hf]

theorem Action.onHeap_eq_ok {α : Type} {f : Heap → Except Fatal (α × Heap)} {m m' : Machine}
    {a : α} : Action.onHeap f m = .ok a m' ↔
      ∃ h, f m.heap = .ok (a, h) ∧ m' = { m with heap := h } := by
  cases m
  unfold Action.onHeap
  dsimp only
  split
  · rename_i a₀ h₀ hf
    rw [hf]
    constructor
    · intro heq
      cases heq
      exact ⟨h₀, rfl, rfl⟩
    · rintro ⟨h, heq, rfl⟩
      cases heq
      rfl
  · rename_i e hf
    rw [hf]
    simp

theorem Action.read_eq_ok {α : Type} {f : Heap → Except Fatal α} {m m' : Machine} {a : α} :
    Action.read f m = .ok a m' ↔ f m.heap = .ok a ∧ m = m' := by
  unfold Action.read
  cases f m.heap with
  | error e => simp
  | ok b =>
    constructor
    · intro heq
      cases heq
      exact ⟨rfl, rfl⟩
    · rintro ⟨heq, rfl⟩
      cases heq
      rfl

namespace Machine

variable {m m₁ m' : Machine} {starts : List Nat} {i : Nat}

/-! ## Registers -/

section Field

variable {h : Heap} {field : Nat}

theorem pcField_lt : Context.pcField < 3 := by decide

theorem spField_lt : Context.spField < 3 := by decide

/-- A context has the fields that the registers are kept in. -/
theorem contextField_bounds (hl : h.LaidOut starts) (hi : i ∈ starts)
    (hcontext : (h.view i).format = .context) (hfield : field < 3) :
    field < (h.view i).fields ∧ headerWords + field < (h.view i).size := by
  have hthree := (hl.readable i hi).context hcontext
  have hallows : (h.view i).format.allowsFields = true := by
    rw [hcontext]
    rfl
  have hin : field < (h.view i).fields := by omega
  exact ⟨hin, View.fields_lt_size hallows (Nat.add_lt_add_left hin headerWords)⟩

theorem contextField_touches (hl : h.LaidOut starts) (hi : i ∈ starts)
    (hcontext : (h.view i).format = .context) (hfield : field < 3) (value : UInt64) :
    Heap.Touches i h (h.poke (i + (headerWords + field)) value) := by
  obtain ⟨hin, hsize⟩ := contextField_bounds hl hi hcontext hfield
  exact Heap.touches_poke hsize (hl.fits_memory hi) (by simp [headerWords]) (by omega) value

theorem contextField_store (hl : h.LaidOut starts) (hi : i ∈ starts)
    (hcontext : (h.view i).format = .context) (hfield : field < 3) (value : Ref) :
    h.storeField (.ofWordIndex i) field value =
      .ok (h.poke (i + (headerWords + field)) value.bits) := by
  obtain ⟨hin, hsize⟩ := contextField_bounds hl hi hcontext hfield
  exact Heap.storeField_eq hl hi hin hsize value

end Field

/-- Memory with the position and the stack pointer written back to a context. -/
def flushedHeap (m : Machine) (i : Nat) : Heap :=
  (m.heap.poke (i + (headerWords + Context.pcField)) (Ref.ofNat m.registers.pc).bits).poke
    (i + (headerWords + Context.spField)) (Ref.ofNat m.registers.sp).bits

theorem flushRegisters_eq (hl : m.heap.LaidOut starts) (hi : i ∈ starts)
    (hactive : m.registers.activeContext = .ofWordIndex i)
    (hcontext : (m.heap.view i).format = .context) :
    m.flushRegisters = .ok () { m with heap := m.flushedHeap i } := by
  have hfirst := contextField_store hl hi hcontext pcField_lt (.ofNat m.registers.pc)
  -- The first store leaves the layout alone, so that the second one finds its field.
  have htouch := contextField_touches hl hi hcontext pcField_lt (Ref.ofNat m.registers.pc).bits
  have hsecond := contextField_store (htouch.laidOut hl hi) hi
    (htouch.layout.format_eq.trans hcontext) spField_lt (.ofNat m.registers.sp)
  show (if m.registers.activeContext.isPointer = true then _ else _ : Action Unit) m = _
  rw [hactive, if_pos (hl.isPointer hi)]
  apply Action.write_ok
  rw [hfirst]
  exact hsecond

/-- Nothing but the context changes. -/
theorem touches_flushedHeap (hl : m.heap.LaidOut starts) (hi : i ∈ starts)
    (hcontext : (m.heap.view i).format = .context) : Heap.Touches i m.heap (m.flushedHeap i) := by
  have htouch := contextField_touches hl hi hcontext pcField_lt (Ref.ofNat m.registers.pc).bits
  exact htouch.trans (contextField_touches (htouch.laidOut hl hi) hi
    (htouch.layout.format_eq.trans hcontext) spField_lt _)

theorem stackPointer_flushedHeap (hl : m.heap.LaidOut starts) (hi : i ∈ starts)
    (hcontext : (m.heap.view i).format = .context) :
    ((m.flushedHeap i).view i).ref (headerWords + Context.spField) = .ofNat m.registers.sp := by
  have hin := (contextField_bounds hl hi hcontext spField_lt).2
  have hfit := hl.fits_memory hi
  unfold View.ref flushedHeap
  rw [Heap.view_poke (by rw [Heap.size_poke]; omega), if_pos rfl]

/-- Loading makes a context the active one, whatever else it finds there. -/
theorem activeContext_load {r r' : Registers} {h : Heap} {context : Ref}
    (hok : r.load h context = .ok r') : r'.activeContext = context := by
  unfold Registers.load at hok
  iterate 14 obtain ⟨_, -, hok⟩ := ObjectMachine.bind_eq_ok.mp hok
  cases hok
  rfl

theorem reloadRegisters_ok (hok : m.reloadRegisters = .ok () m') :
    ∃ registers, m' = { m with registers } ∧
      registers.activeContext = m.registers.activeContext := by
  have hok' : (if m.registers.activeContext.isPointer = true then
      loadContext m.registers.activeContext else pure () : Action Unit) m = .ok () m' := hok
  by_cases hp : m.registers.activeContext.isPointer = true
  · rw [if_pos hp] at hok'
    unfold loadContext at hok'
    cases hload : m.registers.load m.heap m.registers.activeContext with
    | error e =>
      rw [hload] at hok'
      cases hok'
    | ok registers =>
      rw [hload] at hok'
      cases hok'
      exact ⟨registers, rfl, activeContext_load hload⟩
  · rw [if_neg hp] at hok'
    cases hok'
    exact ⟨m.registers, rfl, rfl⟩

/-! ## Collections -/

/-- A collection takes every root of the machine to its new reference, empties the pool of contexts
and the method cache, and computes the registers again. -/
theorem collectGarbage_cases {reclaimed : Nat} (hflush : m.flushRegisters = .ok () m₁)
    (hw : m₁.heap.WellFormed starts) (hr : m₁.heap.RootsIn starts m₁.roots)
    (hok : m.collectGarbage = .ok reclaimed m') :
    ∃ c live registers, m₁.heap.KeepsReachable starts live m₁.roots ∧
      m₁.heap.Collects starts live m₁.roots c ∧
      m' = { m₁.mapRoots (m₁.heap.moveRef starts live) with
        heap := c.heap, contexts := m₁.contexts.clear, cache := m₁.cache.flush, registers } ∧
      registers.activeContext = m₁.heap.moveRef starts live m₁.registers.activeContext := by
  obtain ⟨_, _, hfirst, hok⟩ := Action.bind_eq_ok.mp hok
  rw [hflush] at hfirst
  cases hfirst
  obtain ⟨_, _, hclear, hok⟩ := Action.bind_eq_ok.mp hok
  cases hclear
  obtain ⟨_, _, hroots, hok⟩ := Action.bind_eq_ok.mp hok
  cases hroots
  obtain ⟨⟨roots, bytes⟩, m₂, hcollect, hok⟩ := Action.bind_eq_ok.mp hok
  obtain ⟨h, hheap, rfl⟩ := Action.onHeap_eq_ok.mp hcollect
  obtain ⟨c, hc, hpair⟩ := ObjectMachine.bind_eq_ok.mp hheap
  cases hpair
  have hroots : ({ m₁ with contexts := m₁.contexts.clear } : Machine).roots = m₁.roots := by
    rw [roots_eq, roots_eq]
  have hc' : m₁.heap.collect m₁.roots = .ok c := by
    rw [← hroots]
    exact hc
  obtain ⟨_, _, hreplace, hok⟩ := Action.bind_eq_ok.mp hok
  cases hreplace
  obtain ⟨_, _, hflushed, hok⟩ := Action.bind_eq_ok.mp hok
  cases hflushed
  obtain ⟨_, _, hreload, hok⟩ := Action.bind_eq_ok.mp hok
  cases hok
  obtain ⟨registers, rfl, hregisters⟩ := reloadRegisters_ok hreload
  rcases Heap.collect_spec hw hr with ⟨-, herror⟩ | ⟨c', live, hok', hk, hcollects⟩
  · rw [herror] at hc'
    cases hc'
  · rw [hok'] at hc'
    cases hc'
    let m₂ : Machine := { m₁ with heap := c.heap, contexts := m₁.contexts.clear }
    have hreplaced : m₂.withRoots c.roots = m₂.mapRoots (m₁.heap.moveRef starts live) := by
      have hsame : m₂.roots = m₁.roots := by rw [roots_eq, roots_eq]
      rw [hcollects.roots, ← hsame]
      exact m₂.withRoots_map _
    refine ⟨c, live, registers, hk, hcollects, ?_, ?_⟩
    · show ({ m₂.withRoots c.roots with
        cache := (m₂.withRoots c.roots).cache.flush, registers } : Machine) = _
      rw [hreplaced]
      rfl
    · have hactive : registers.activeContext = (m₂.withRoots c.roots).registers.activeContext :=
        hregisters
      rw [hactive, hreplaced]
      rfl

end Machine

end ObjectMachine
