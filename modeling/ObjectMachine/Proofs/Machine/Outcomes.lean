import ObjectMachine.Proofs.Machine.Collecting

/-!
# What actions come to

An action that is not stopped for good ends with a value or with a failure, and leaves a machine
behind in both cases. `Outcome.Meets` says what is known of it then; the rules below follow an action
step by step. A machine that is stopped, or a run that is not finished, is promised nothing.

## Main results

* `Outcome.Meets.bind`: what is known of one action is there for the next.
-/

namespace ObjectMachine

namespace Action

variable {α β : Type} {m m' : Machine} {x : Action α} {f : α → Action β} {a : α} {cause : Fatal}

theorem bind_of_ok (hx : x m = .ok a m') : (x >>= f) m = f a m' := by
  show Action.bind x f m = _
  unfold Action.bind
  rw [hx]

theorem bind_of_stopped (hx : x m = .stopped cause) : (x >>= f) m = .stopped cause := by
  show Action.bind x f m = _
  unfold Action.bind
  rw [hx]

theorem bind_congr_left {y : Action α} (hxy : x m = y m) : (x >>= f) m = (y >>= f) m := by
  show Action.bind x f m = Action.bind y f m
  unfold Action.bind
  rw [hxy]

theorem bind_congr_of_ok {f' : α → Action β} (h : ∀ a m', x m = .ok a m' → f a m' = f' a m') :
    (x >>= f) m = (x >>= f') m := by
  show Action.bind x f m = Action.bind x f' m
  unfold Action.bind
  cases hx : x m with
  | ok a m' => exact h a m' hx
  | _ => rfl

theorem bind_assoc {γ : Type} (x : Action α) (f : α → Action β) (g : β → Action γ) :
    x >>= f >>= g = x >>= fun a => f a >>= g := by
  funext m
  show Action.bind (Action.bind x f) g m = Action.bind x (fun a => Action.bind (f a) g) m
  unfold Action.bind
  cases x m <;> rfl

theorem bind_unit (x : Action Unit) : (x >>= fun _ => pure ()) = x := by
  funext m
  show Action.bind x (fun _ => pure ()) m = x m
  unfold Action.bind
  cases x m <;> rfl

theorem read_of_ok {f : Heap → Except Fatal α} (hf : f m.heap = .ok a) :
    Action.read f m = .ok a m := by
  unfold Action.read
  rw [hf]

theorem read_of_error {f : Heap → Except Fatal α} (hf : f m.heap = .error cause) :
    Action.read f m = .stopped cause := by
  unfold Action.read
  rw [hf]

theorem onHeap_of_error {f : Heap → Except Fatal (α × Heap)} (hf : f m.heap = .error cause) :
    Action.onHeap f m = .stopped cause := by
  cases m
  unfold Action.onHeap
  dsimp only at hf ⊢
  rw [hf]

theorem write_of_ok {f : Heap → Except Fatal Heap} {h : Heap} (hf : f m.heap = .ok h) :
    Action.write f m = .ok () { m with heap := h } := by
  cases m
  unfold Action.write
  dsimp only at hf ⊢
  rw [hf]

end Action

/-- An outcome with a value and a machine for which `Q` holds, or with a failure and a machine for
which `E` holds. -/
def Outcome.Meets {α : Type} (x : Outcome α) (Q : α → Machine → Prop) (E : Machine → Prop) : Prop :=
  match x with
  | .ok a m => Q a m
  | .failed _ m => E m
  | .stopped _ => True
  | .unfinished => True

namespace Outcome.Meets

open ObjectMachine.Action

variable {α β : Type} {m : Machine} {Q Q₁ : β → Machine → Prop} {R : α → Machine → Prop}
  {E E₁ : Machine → Prop}

theorem mono {x : Outcome β} (hx : x.Meets Q₁ E₁) (hQ : ∀ b m', Q₁ b m' → Q b m')
    (hE : ∀ m', E₁ m' → E m') : x.Meets Q E := by
  cases x with
  | ok b m' => exact hQ b m' hx
  | failed failure m' => exact hE m' hx
  | stopped cause => trivial
  | unfinished => trivial

theorem and {x : Outcome β} (hx : x.Meets Q E) (hx₁ : x.Meets Q₁ E₁) :
    x.Meets (fun b m' => Q b m' ∧ Q₁ b m') fun m' => E m' ∧ E₁ m' := by
  cases x with
  | ok b m' => exact ⟨hx, hx₁⟩
  | failed failure m' => exact ⟨hx, hx₁⟩
  | stopped cause => trivial
  | unfinished => trivial

/-- What is known of an action that answers. -/
theorem of_ok {x : Outcome β} {b : β} {m' : Machine} (hx : x.Meets Q E) (hok : x = .ok b m') :
    Q b m' := by
  rw [hok] at hx
  exact hx

/-- One action after another. -/
theorem bind {x : Action α} {f : α → Action β} (hx : (x m).Meets R E)
    (hf : ∀ a m', R a m' → (f a m').Meets Q E) : ((x >>= f) m).Meets Q E := by
  show (Action.bind x f m).Meets Q E
  unfold Action.bind
  cases hxm : x m with
  | ok a m' =>
    rw [hxm] at hx
    exact hf a m' hx
  | failed failure m' =>
    rw [hxm] at hx
    exact hx
  | stopped cause => trivial
  | unfinished => trivial

/-- An action whose outcome is known. -/
theorem step {x : Action α} {f : α → Action β} {a : α} {m' : Machine} (hx : x m = .ok a m')
    (hf : (f a m').Meets Q E) : ((x >>= f) m).Meets Q E := by
  refine bind (R := fun b n => b = a ∧ n = m') ?_ ?_
  · rw [hx]
    exact ⟨rfl, rfl⟩
  · rintro _ _ ⟨rfl, rfl⟩
    exact hf

/-- An action that never fails leaves the promise about failures to the next one. -/
theorem bind_of_never {x : Action α} {f : α → Action β} (hx : (x m).Meets R fun _ => False)
    (hf : ∀ a m', R a m' → (f a m').Meets Q E) : ((x >>= f) m).Meets Q E :=
  bind (hx.mono (fun _ _ h => h) fun _ h => h.elim) hf

theorem read {f : Heap → Except Fatal α} {k : α → Action β}
    (hk : ∀ a, f m.heap = .ok a → (k a m).Meets Q E) : ((Action.read f >>= k) m).Meets Q E := by
  refine bind (R := fun a m' => f m.heap = .ok a ∧ m' = m) ?_ ?_
  · unfold Action.read
    split
    · exact ⟨by assumption, rfl⟩
    · trivial
  · rintro a _ ⟨ha, rfl⟩
    exact hk a ha

theorem inspect {f : Machine → Except Fatal α} {k : α → Action β}
    (hk : ∀ a, f m = .ok a → (k a m).Meets Q E) : ((Action.inspect f >>= k) m).Meets Q E := by
  refine bind (R := fun a m' => f m = .ok a ∧ m' = m) ?_ ?_
  · unfold Action.inspect
    split
    · exact ⟨by assumption, rfl⟩
    · trivial
  · rintro a _ ⟨ha, rfl⟩
    exact hk a ha

/-- An action whose failure becomes an answer. -/
theorem attempt {x : Action α} (hx : (x m).Meets R E) :
    (Action.attempt x m).Meets (fun a m' => match a with
      | .ok a => R a m'
      | .error _ => E m') fun _ => False := by
  unfold Action.attempt
  cases hxm : x m with
  | ok a m' =>
    rw [hxm] at hx
    exact hx
  | failed failure m' =>
    rw [hxm] at hx
    exact hx
  | stopped cause => trivial
  | unfinished => trivial

theorem within {activity : Activity} {x : Action α} (hx : (x m).Meets R E) :
    (Action.within activity x m).Meets R E := by
  unfold Action.within
  cases hxm : x m with
  | ok a m' =>
    rw [hxm] at hx
    exact hx
  | failed failure m' =>
    rw [hxm] at hx
    exact hx
  | stopped cause => trivial
  | unfinished => trivial

/-- A computation that does not look at the machine. -/
theorem lift {x : Except Fatal α} {k : α → Action β}
    (hk : ∀ a, x = .ok a → (k a m).Meets Q E) :
    (((liftM x : Action α) >>= k) m).Meets Q E := by
  refine bind (R := fun a m' => x = .ok a ∧ m' = m) ?_ ?_
  · show (Action.ofExcept x m).Meets _ _
    unfold Action.ofExcept
    split
    · exact ⟨rfl, rfl⟩
    · trivial
  · rintro a _ ⟨ha, rfl⟩
    exact hk a ha

theorem write_last {f : Heap → Except Fatal Heap} {Q : Unit → Machine → Prop}
    (hk : ∀ h, f m.heap = .ok h → Q () { m with heap := h }) :
    (Action.write f m).Meets Q E := by
  cases m
  unfold Action.write
  dsimp only
  split
  · rename_i h hf
    exact hk h hf
  · trivial

theorem write {f : Heap → Except Fatal Heap} {k : Unit → Action β}
    (hk : ∀ h, f m.heap = .ok h → (k () { m with heap := h }).Meets Q E) :
    ((Action.write f >>= k) m).Meets Q E :=
  bind (write_last hk) fun _ _ hm => hm

theorem onHeap_last {f : Heap → Except Fatal (α × Heap)}
    (hk : ∀ a h, f m.heap = .ok (a, h) → R a { m with heap := h }) :
    (Action.onHeap f m).Meets R E := by
  cases hf : f m.heap with
  | ok p => rw [onHeap_eq_ok.mpr ⟨p.2, hf, rfl⟩]; exact hk p.1 p.2 hf
  | error cause => rw [onHeap_of_error hf]; trivial

theorem onHeap {f : Heap → Except Fatal (α × Heap)} {k : α → Action β}
    (hk : ∀ a h, f m.heap = .ok (a, h) → (k a { m with heap := h }).Meets Q E) :
    ((Action.onHeap f >>= k) m).Meets Q E :=
  bind (onHeap_last hk) fun _ _ hm => hm

end Outcome.Meets

end ObjectMachine
