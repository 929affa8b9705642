import ObjectMachine.Proofs.Machine.Making

/-!
# Stops for other reasons than a full dictionary

A machine may stop while it makes objects: memory is exhausted, or a collection has too much to
remember. None of these is a dictionary without a free slot; only adding an entry can find one.

## Main results

* `Machine.Stage.allocate_spares`, `Machine.Stage.intern_spares`,
  `Machine.Stage.newMethodDictionary_spares`: making objects never finds a dictionary full.
-/

namespace ObjectMachine

/-- A computation that does not stop at a full dictionary. -/
def Spares {α : Type} (x : Except Fatal α) : Prop := ∀ d, x ≠ .error (.dictionaryFull d)

namespace Spares

variable {α β : Type} {h : Heap} {r : Ref} {index : Nat}

theorem ok (a : α) : Spares (.ok a) := fun _ heq => nomatch heq

theorem fault (cause : Fault) : Spares (.error (.fault cause) : Except Fatal α) :=
  fun _ heq => nomatch heq

/-- What stops a computation stops what it is part of. -/
theorem of_error {x : Except Fatal α} {e : Fatal} (hx : Spares x) (he : x = .error e) :
    Spares (.error e : Except Fatal β) := by
  intro d heq
  exact hx d (he.trans (congrArg Except.error (Except.error.inj heq)))

theorem bind {x : Except Fatal α} {f : α → Except Fatal β} (hx : Spares x)
    (hf : ∀ a, x = .ok a → Spares (f a)) : Spares (x >>= f) := by
  cases x with
  | error e => exact hx.of_error rfl
  | ok a => exact hf a rfl

theorem require (condition : Bool) (cause : Fault) : Spares (ObjectMachine.require condition cause) := by
  unfold ObjectMachine.require
  split
  · exact ok ()
  · exact fault cause

theorem checkedCount (count : Nat) : Spares (ObjectMachine.checkedCount count) := by
  unfold ObjectMachine.checkedCount
  split
  · exact ok count
  · exact fault .overflow

theorem checkedSize (format : Format) (fields len : Nat) : Spares (format.checkedSize fields len) := by
  unfold Format.checkedSize
  split
  · exact checkedCount _
  · exact fault .overflow

theorem word (h : Heap) (index : Nat) : Spares (h.word index) := by
  unfold Heap.word
  split
  · exact ok _
  · exact fault .position

theorem setWord (h : Heap) (index : Nat) (value : UInt64) : Spares (h.setWord index value) := by
  unfold Heap.setWord
  split
  · exact ok _
  · exact fault .position

theorem header (h : Heap) (r : Ref) : Spares (h.header r) := by
  unfold Heap.header
  split
  · exact ok _
  · rename_i e he
    exact (word h _).of_error he

theorem length (h : Heap) (r : Ref) : Spares (h.length r) := by
  unfold Heap.length
  split
  · rename_i e he
    exact (header h r).of_error he
  · rename_i header _
    split
    · rename_i e he
      unfold Header.format at he
      split at he
      · cases he
      · cases he
        rintro d ⟨⟩
    · split
      · split
        · exact ok _
        · rename_i e he
          exact (word h _).of_error he
      · exact ok 0

theorem storeField (h : Heap) (r : Ref) (index : Nat) (value : Ref) :
    Spares (h.storeField r index value) := by
  unfold Heap.storeField Heap.fieldIndex
  split
  · exact setWord h _ _
  · rename_i e he
    split at he
    · split at he
      · cases he
      · cases he
        exact fault .position
    · rename_i e' he'
      cases he
      exact (header h r).of_error he'

theorem setBytesFrom (bytes : List UInt8) (h : Heap) (offset : Nat) :
    Spares (h.setBytesFrom offset bytes) := by
  induction bytes generalizing h offset with
  | nil => exact ok h
  | cons value rest ih =>
    refine bind ?_ fun h' _ => ih h' _
    unfold Heap.setByteAtOffset
    split
    · exact setWord h _ _
    · rename_i e he
      exact (word h _).of_error he

theorem storeBytes (h : Heap) (r : Ref) (bytes : List UInt8) : Spares (h.storeBytes r bytes) := by
  unfold Heap.storeBytes
  refine bind (length h r) fun _ _ => bind (require _ _) fun _ _ => bind ?_ fun offset _ =>
    setBytesFrom bytes h offset
  unfold Heap.bytesOffset Heap.elementsIndex
  split
  · exact ok _
  · rename_i e he
    split at he
    · cases he
    · rename_i e' he'
      cases he
      exact (header h r).of_error he'

theorem tryAllocate (h : Heap) (cls : Ref) (format : Format) (fields len : Nat) :
    Spares (h.tryAllocate cls format fields len) := by
  unfold Heap.tryAllocate
  refine bind (require _ _) fun _ _ => bind (require _ _) fun _ _ =>
    bind (checkedSize format fields len) fun _ _ => bind (checkedCount _) fun _ _ => ?_
  split
  dsimp only
  split
  · exact ok _
  · refine bind ?_ fun _ _ => ok _
    unfold Header.make
    split
    · exact ok _
    · exact fault .operand

theorem shouldCollect (h : Heap) (words : Nat) : Spares (h.shouldCollect words) := by
  unfold Heap.shouldCollect
  split
  · exact ok true
  · exact bind (checkedCount _) fun _ _ => bind (checkedCount _) fun _ _ => ok _

end Spares

/-- An outcome that is no stop at a full dictionary. -/
def Outcome.Spares {α : Type} (x : Outcome α) : Prop := ∀ d, x ≠ .stopped (.dictionaryFull d)

namespace Outcome.Spares

variable {α β : Type} {m : Machine} {R : α → Machine → Prop} {E : Machine → Prop}

theorem ok (a : α) (m : Machine) : (Outcome.ok a m).Spares := fun _ heq => nomatch heq

/-- One action after another, of which something is known that the next one depends on. -/
theorem bind {x : Action α} {f : α → Action β} (hx : (x m).Spares) (hmeets : (x m).Meets R E)
    (hf : ∀ a m', R a m' → (f a m').Spares) : ((x >>= f) m).Spares := by
  show (Action.bind x f m).Spares
  unfold Action.bind
  cases hxm : x m with
  | ok a m' =>
    rw [hxm] at hmeets
    exact hf a m' hmeets
  | failed failure m' => exact fun _ heq => nomatch heq
  | stopped cause =>
    intro d heq
    cases heq
    exact hx d hxm
  | unfinished => exact fun _ heq => nomatch heq

theorem bind_any {x : Action α} {f : α → Action β} (hx : (x m).Spares)
    (hf : ∀ a m', (f a m').Spares) : ((x >>= f) m).Spares :=
  bind (R := fun _ _ => True) (E := fun _ => True) hx
    (by cases x m <;> trivial) fun a m' _ => hf a m'

theorem step {x : Action α} {f : α → Action β} {a : α} {m' : Machine} (hx : x m = .ok a m')
    (hf : (f a m').Spares) : ((x >>= f) m).Spares := by
  rw [Action.bind_of_ok hx]
  exact hf

theorem read {f : Heap → Except Fatal α} {k : α → Action β} (hf : ObjectMachine.Spares (f m.heap))
    (hk : ∀ a, f m.heap = .ok a → (k a m).Spares) : ((Action.read f >>= k) m).Spares := by
  cases hok : f m.heap with
  | ok a => exact .step (Action.read_of_ok hok) (hk a hok)
  | error e =>
    rw [Action.bind_of_stopped (Action.read_of_error hok)]
    rintro d ⟨⟩
    exact hf d hok

theorem lift {x : Except Fatal α} {k : α → Action β} (hx : ObjectMachine.Spares x)
    (hk : ∀ a, x = .ok a → (k a m).Spares) : (((liftM x : Action α) >>= k) m).Spares := by
  cases x with
  | ok a => exact .step rfl (hk a rfl)
  | error e =>
    rintro d ⟨⟩
    exact hx d rfl

theorem write {f : Heap → Except Fatal Heap} (hf : ∀ h, ObjectMachine.Spares (f h)) :
    (Action.write f m).Spares := by
  cases m
  unfold Action.write
  dsimp only
  split
  · exact ok _ _
  · rename_i e he
    intro d heq
    cases heq
    exact hf _ d he

theorem onHeap {f : Heap → Except Fatal (α × Heap)} (hf : ObjectMachine.Spares (f m.heap)) :
    (Action.onHeap f m).Spares := by
  cases hok : f m.heap with
  | ok p =>
    rw [Action.onHeap_eq_ok.mpr ⟨p.2, hok, rfl⟩]
    exact ok _ _
  | error e =>
    rw [Action.onHeap_of_error hok]
    rintro d ⟨⟩
    exact hf d hok

end Outcome.Spares

/-- An outcome with a value and a machine of which something is known, or a stop that is not at a full
dictionary. -/
structure Outcome.Safe {α : Type} (x : Outcome α) (Q : α → Machine → Prop) : Prop where
  meets : x.Meets Q fun _ => False
  spares : x.Spares

namespace Outcome.Safe

variable {α β : Type} {m : Machine} {R : α → Machine → Prop} {Q : β → Machine → Prop}

theorem bind {x : Action α} {f : α → Action β} (hx : (x m).Safe R)
    (hf : ∀ a m', R a m' → (f a m').Safe Q) : ((x >>= f) m).Safe Q :=
  ⟨.bind hx.meets fun a m' h => (hf a m' h).meets, .bind hx.spares hx.meets fun a m' h =>
    (hf a m' h).spares⟩

theorem step {x : Action α} {f : α → Action β} {a : α} {m' : Machine} (hx : x m = .ok a m')
    (hf : (f a m').Safe Q) : ((x >>= f) m).Safe Q :=
  ⟨.step hx hf.meets, .step hx hf.spares⟩

theorem of_ok {x : Outcome α} {a : α} (hx : x = .ok a m) (hR : R a m) : x.Safe R := by
  subst hx
  exact ⟨hR, .ok _ _⟩

end Outcome.Safe

namespace Machine

variable {m : Machine} {starts : List Nat} {w : Watch} {t : Mark} {marks : List Mark} {r cls : Ref}

theorem Stored.collectGarbage_spares (hm : m.Stored starts) : m.collectGarbage.Spares := by
  rcases hm.collectGarbage_cases with hstopped | ⟨live, c, -, -, hok⟩
  · rw [hstopped]
    exact fun _ heq => nomatch heq
  · rw [hok]
    exact .ok _ _

namespace Stage

theorem collectKeeping_spares (hs : Stage w marks m starts) (hr : t.Holds w m starts r) :
    (m.collectKeeping r).Spares := by
  have hs₁ := hs.pin hr
  refine .step rfl (.bind hs₁.sound.collectGarbage_spares hs₁.collectGarbage ?_)
  rintro _ m' ⟨starts', hs'⟩
  obtain ⟨r', m'', hunpin, -⟩ := hs'.unpin
  rw [hunpin]
  exact .ok _ _

theorem allocate_spares {format : Format} {fields len : Nat} (hs : Stage w marks m starts)
    (hcls : t.Holds w m starts cls) : (m.allocate cls format fields len).Spares := by
  have hattempt : ∀ {r n starts'} (next : Option Ref → Action Ref), Stage w marks n starts' →
      (∀ x n', (next (some x) n').Spares) → (next none n).Spares →
      ((Action.onHeap (·.tryAllocate r format fields len) >>= next) n).Spares := by
    intro r n starts' next hn hfound hnext
    refine .bind (R := fun found n' => found = none → n' = n) (E := fun _ => True)
      (.onHeap (Spares.tryAllocate _ _ _ _ _)) ?_ ?_
    · refine .onHeap_last fun found h hok => ?_
      rcases Heap.tryAllocate_cases hok with ⟨rfl, rfl⟩ | ⟨rfl, -⟩
      · exact fun _ => rfl
      · exact fun h => nomatch h
    · intro found n' hn'
      cases found with
      | none => rw [hn' rfl]; exact hnext
      | some x => exact hfound x n'
  unfold Machine.allocate
  refine .lift (Spares.checkedSize _ _ _) fun words _ => .read (Spares.shouldCollect _ _)
    fun crossed _ => ?_
  -- What comes next is the same whether a collection comes first or not.
  have hnext : ∀ next : Ref → Action Ref, (∀ r n starts', Stage w marks n starts' →
      t.Holds w n starts' r → (next r n).Spares) →
      ((if crossed = true then Machine.collectKeeping cls >>= next else pure cls >>= next) m).Spares := by
    intro next hnext
    cases crossed with
    | false => exact .step rfl (hnext cls m starts hs hcls)
    | true =>
      refine .bind (hs.collectKeeping_spares hcls) (hs.collectKeeping hcls) ?_
      rintro r n ⟨starts', hn, hr⟩
      exact hnext r n starts' hn hr
  refine hnext _ fun r n starts' hn hr => ?_
  refine hattempt _ hn (fun _ _ => .ok _ _)
    (.bind (hn.collectKeeping_spares hr) (hn.collectKeeping hr) ?_)
  rintro r' n' ⟨starts'', hn', -⟩
  refine hattempt _ hn' (fun _ _ => .ok _ _) fun d heq => ?_
  have hcause := Outcome.stopped.inj ((Action.read_of_error rfl).symm.trans heq)
  unfold Heap.reservationExhausted at hcause
  split at hcause <;> cases hcause

theorem newArray_spares (hs : Stage w marks m starts) (len : Nat) : (m.newArray len).Spares :=
  .step rfl (hs.allocate_spares (hs.kernelClass .array))

theorem intern_spares (hs : Stage w marks m starts) (name : String) : (m.intern name).Spares := by
  unfold Machine.intern
  refine .step rfl ?_
  dsimp only
  cases m.symbol? name with
  | some r => exact .ok _ _
  | none =>
    refine .step rfl (.bind_any (.bind_any (hs.allocate_spares (hs.kernelClass .symbol))
      fun r n => ?_) fun r n => .step rfl (.ok _ _))
    exact .bind_any (.write fun h => Spares.storeBytes h r _) fun _ n => .ok r n

theorem newMethodDictionary_spares (hs : Stage w marks m starts) (capacity : Nat) :
    (m.newMethodDictionary capacity).Spares := by
  unfold Machine.newMethodDictionary
  refine .lift (Spares.require _ _) fun _ _ => .bind (hs.newArray_spares capacity)
    (hs.newArray capacity) ?_
  rintro methods m₁ ⟨starts₁, hs₁, hmethods⟩
  have hs₂ := hs₁.pin hmethods
  have hcls := hs₂.kernelClass .methodDictionary
  refine .step rfl (.step rfl (.bind (hs₂.allocate_spares hcls)
    (hs₂.allocate_any (by decide) (by decide) hcls) ?_))
  rintro r m₃ ⟨starts₃, hs₃, hr₃⟩
  obtain ⟨a, m₄, hunpin, -⟩ := hs₃.unpin
  refine .step hunpin (.bind_any (.write fun h => ?_) fun _ _ => .ok _ _)
  exact .bind (Spares.storeField _ _ _ _) fun _ _ => Spares.storeField _ _ _ _

end Stage

end Machine

end ObjectMachine
