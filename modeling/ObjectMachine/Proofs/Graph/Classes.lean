import ObjectMachine.Proofs.Graph.Lookup

/-!
# Classes

What graphs say of classes: the class of a value, the chain of its superclasses, lookups along such a
chain, and names. A walk along references that comes to an end passes no object twice, so that it is
not longer than memory.

## Main results

* `Machine.Holds.steps_le`: a walk is not longer than memory.
* `Reads.lookupMethod?`, `Reads.inheritsFrom`, `Reads.className`: walks along superclasses and
  metaclasses.
-/

namespace ObjectMachine

/-! ## Walks -/

/-- A number of steps. -/
def steps (next : Value → Option Value) : Nat → Value → Option Value
  | 0, v => some v
  | k + 1, v => next v >>= steps next k

/-- A walk, which ends with an answer or goes on and adds to the answer. -/
def walk {α : Type} (visit : Value → Option (α ⊕ Value × (α → α))) : Nat → Value → Option α
  | 0, _ => none
  | fuel + 1, v =>
    match visit v with
    | none => none
    | some (.inl a) => some a
    | some (.inr (v', f)) => (walk visit fuel v').map f

/-- Where a walk goes on. -/
def onward {α : Type} (visit : Value → Option (α ⊕ Value × (α → α))) (v : Value) : Option Value :=
  match visit v with
  | some (.inr (v', _)) => some v'
  | _ => none

/-- The answer of a walk that comes to an end. -/
noncomputable def walked {α : Type} (visit : Value → Option (α ⊕ Value × (α → α))) (v : Value) :
    Option α :=
  open Classical in
  if h : ∃ a fuel, walk visit fuel v = some a then some h.choose else none

section Walks

variable {α : Type} {next : Value → Option Value} {visit : Value → Option (α ⊕ Value × (α → α))}
  {v w : Value} {a : α} {i j k : Nat}

theorem steps_add (i j : Nat) (v : Value) :
    steps next (i + j) v = steps next i v >>= steps next j := by
  induction i generalizing v with
  | zero =>
    rw [Nat.zero_add]
    rfl
  | succ i ih =>
    rw [Nat.succ_add]
    show next v >>= steps next (i + j) = (next v >>= steps next i) >>= steps next j
    cases next v with
    | none => rfl
    | some v' => exact ih v'

theorem steps_of_le (hk : steps next k v = some w) (hik : i ≤ k) : ∃ u, steps next i v = some u := by
  rw [← Nat.add_sub_of_le hik, steps_add] at hk
  obtain ⟨u, hu, -⟩ := Option.bind_eq_some_iff.mp hk
  exact ⟨u, hu⟩

/-- A walk that comes to an end passes no value twice. -/
theorem steps_injective (hk : steps next k v = some w) (hend : next w = none) (hij : i < j)
    (hj : j ≤ k) : steps next i v ≠ steps next j v := by
  intro heq
  have hshort : steps next (i + (k - j)) v = some w := by
    rw [steps_add, heq, ← steps_add, Nat.add_sub_of_le hj]
    exact hk
  obtain ⟨u, hu⟩ := steps_of_le hk (show i + (k - j) + 1 ≤ k by omega)
  rw [steps_add, hshort] at hu
  obtain ⟨v', hv', -⟩ := Option.bind_eq_some_iff.mp (show next w >>= _ = _ from hu)
  rw [hend] at hv'
  cases hv'

/-- A walk that ends does so after some steps, however much further it may go. -/
theorem walk_steps {fuel : Nat} (h : walk visit fuel v = some a) :
    ∃ k w, steps (onward visit) k v = some w ∧ onward visit w = none ∧
      ∀ fuel', k < fuel' → walk visit fuel' v = some a := by
  induction fuel generalizing v a with
  | zero => cases h
  | succ fuel ih =>
    cases hv : visit v with
    | none =>
      simp only [walk, hv] at h
      cases h
    | some out =>
      cases out with
      | inl a' =>
        simp only [walk, hv] at h
        cases h
        refine ⟨0, v, rfl, by simp only [onward, hv], fun fuel' hlt => ?_⟩
        obtain ⟨n, rfl⟩ := Nat.exists_eq_succ_of_ne_zero (Nat.pos_iff_ne_zero.mp hlt)
        simp only [walk, hv]
      | inr out =>
        obtain ⟨v', f⟩ := out
        simp only [walk, hv] at h
        obtain ⟨a', ha', rfl⟩ := Option.map_eq_some_iff.mp h
        obtain ⟨k, w, hsteps, hend, hwalk⟩ := ih ha'
        refine ⟨k + 1, w, ?_, hend, fun fuel' hlt => ?_⟩
        · show onward visit v >>= _ = _
          simp only [onward, hv]
          exact hsteps
        · obtain ⟨n, rfl⟩ := Nat.exists_eq_succ_of_ne_zero (show fuel' ≠ 0 by omega)
          simp only [walk, hv, hwalk n (by omega)]
          rfl

/-- All walks that end have the same answer. -/
theorem walked_eq_some : walked visit v = some a ↔ ∃ fuel, walk visit fuel v = some a := by
  have hunique : ∀ {a a' fuel fuel'}, walk visit fuel v = some a → walk visit fuel' v = some a' →
      a = a' := by
    intro a a' fuel fuel' ha ha'
    obtain ⟨k, -, -, -, hk⟩ := walk_steps ha
    obtain ⟨k', -, -, -, hk'⟩ := walk_steps ha'
    have h := hk (max k k' + 1) (by omega)
    rw [hk' (max k k' + 1) (by omega)] at h
    exact (Option.some.inj h).symm
  unfold walked
  constructor
  · intro h
    split at h
    · rename_i hex
      cases h
      exact hex.choose_spec
    · cases h
  · rintro ⟨fuel, ha⟩
    have hex : ∃ a fuel, walk visit fuel v = some a := ⟨a, fuel, ha⟩
    rw [dif_pos hex]
    obtain ⟨fuel', ha'⟩ := hex.choose_spec
    rw [hunique ha' ha]

end Walks

/-- A value that some reference stands for. -/
def Placement.Shown (p : Placement) (v : Value) : Prop := ∃ r, p.Shows r v

namespace Machine.Holds

variable {m : Machine} {g : Graph} {p : Placement} {starts : List Nat} {known : Nat → Nat}

/-- A walk along references is not longer than memory. -/
theorem steps_le (hm : m.Holds g p starts known) {next : Value → Option Value} {v w : Value} {k : Nat}
    (hnext : ∀ v v', p.Shown v → next v = some v' → v.isObject = true ∧ p.Shown v')
    (hv : p.Shown v) (hk : steps next k v = some w) (hend : next w = none) :
    k ≤ m.heap.memory.size := by
  have hshown : ∀ {i u}, steps next i v = some u → p.Shown u := by
    intro i
    induction i with
    | zero =>
      intro u hu
      cases hu
      exact hv
    | succ i ih =>
      intro u hu
      rw [steps_add] at hu
      obtain ⟨u', hu', hlast⟩ := Option.bind_eq_some_iff.mp hu
      obtain ⟨u'', hu'', heq⟩ := Option.bind_eq_some_iff.mp (show next u' >>= some = _ from hlast)
      cases heq
      exact (hnext u' u (ih hu') hu'').2
  -- Each step starts at an object of its own, and each object begins at a word of its own.
  have hobject : ∀ i : Fin k, ∃ a ∈ starts, ∃ n, steps next i v = some (.object n) ∧
      p.find? n = some a := by
    intro i
    obtain ⟨u, hu⟩ := steps_of_le hk (show i.val ≤ k by omega)
    obtain ⟨u', hu'⟩ := steps_of_le hk (show i.val + 1 ≤ k by omega)
    rw [steps_add, hu] at hu'
    obtain ⟨u'', hu'', -⟩ := Option.bind_eq_some_iff.mp (show next u >>= _ = _ from hu')
    obtain ⟨r, hr⟩ := hshown hu
    have hobject := (hnext u u'' ⟨r, hr⟩ hu'').1
    cases u with
    | immediate r' => cases hobject
    | object n =>
      obtain ⟨a, ha, -⟩ := hr
      exact ⟨a, hm.depicts.placed ha, n, hu, ha⟩
  choose place hplace name hname hfind using hobject
  have hinj : Function.Injective place := by
    intro i j hij
    by_contra hne
    have hsame : steps next i v = steps next j v := by
      rw [hname i, hname j, p.injective (hfind i) (hij ▸ hfind j)]
    obtain hlt | hlt := Nat.lt_or_gt_of_ne (fun h => hne (Fin.ext h))
    · exact steps_injective hk hend hlt (by omega) hsame
    · exact steps_injective hk hend hlt (by omega) hsame.symm
  have hcount : k ≤ starts.length := by
    have hcard := Finset.card_le_card_of_injOn (s := Finset.univ) (t := starts.toFinset) place
      (fun i _ => List.mem_toFinset.mpr (hplace i)) hinj.injOn
    rw [Finset.card_univ, Fintype.card_fin] at hcard
    exact hcard.trans (List.toFinset_card_le starts)
  have htiles := hm.depicts.laidOut.tiles.two_mul_length_le fun i => View.two_le_size _
  have hcommitted := hm.depicts.laidOut.committed
  omega

/-- A walk that ends is over before memory is used up. -/
theorem walk_of_walked (hm : m.Holds g p starts known) {α : Type}
    {visit : Value → Option (α ⊕ Value × (α → α))} {v : Value} {a : α} {fuel : Nat}
    (hnext : ∀ v v', p.Shown v → onward visit v = some v' → v.isObject = true ∧ p.Shown v')
    (hv : p.Shown v) (hwalked : walked visit v = some a) (hfuel : m.heap.memory.size < fuel) :
    walk visit fuel v = some a := by
  obtain ⟨fuel', hwalk⟩ := walked_eq_some.mp hwalked
  obtain ⟨k, w, hsteps, hend, hlong⟩ := walk_steps hwalk
  have hle := hm.steps_le hnext hv hsteps hend
  exact hlong fuel (by omega)

end Machine.Holds


/-! ## Classes of values -/

/-- A word that is of no other kind is null. -/
theorem Ref.isNull_of_not {r : Ref} (hp : r.isPointer = false) (hs : ¬ r.isSmallInteger = true)
    (hc : ¬ r.isCharacter = true) (hm : ¬ r.isMarker = true) : r.isNull = true := by
  have hlt : (r.bits &&& tagMask).toNat < 4 := by
    rw [UInt64.toNat_and, show tagMask.toNat = 2 ^ 2 - 1 from rfl, Nat.and_two_pow_sub_one_eq_mod]
    exact Nat.mod_lt _ (by decide)
  have hne : ∀ k : UInt64, ¬ (r.bits &&& tagMask == k) = true → (r.bits &&& tagMask).toNat ≠ k.toNat :=
    fun k hk h => hk (beq_iff_eq.mpr (UInt64.toNat_inj.mp h))
  have h1 := hne 1 hs
  have h2 := hne 2 hc
  have h3 := hne 3 hm
  have hzero : r.bits &&& tagMask = 0 := by
    apply UInt64.toNat_inj.mp
    rw [show (1 : UInt64).toNat = 1 from rfl] at h1
    rw [show (2 : UInt64).toNat = 2 from rfl] at h2
    rw [show (3 : UInt64).toNat = 3 from rfl] at h3
    rw [show (0 : UInt64).toNat = 0 from rfl]
    omega
  unfold isPointer at hp
  rw [hzero] at hp
  unfold isNull
  simpa using hp

namespace Graph

variable (g : Graph)

/-- Whether a value is an object of a kernel class, inherited instances apart. -/
def isInstance (k : KernelClass) : Value → Bool
  | .immediate _ => false
  | .object n => decide ((g.nodes n).cls = g.core.cls k)

/-- The class of anything. -/
def classOf : Value → Option Value
  | .immediate r =>
    if r.isSmallInteger then some (g.core.cls .smallInteger)
    else if r.isCharacter then some (g.core.cls .character)
    else if r.isMarker then none
    else some (g.core.cls .undefinedObject)
  | .object n => some (g.nodes n).cls

/-- Whether a value is a string or a symbol. -/
def isText (v : Value) : Bool := g.isInstance .string v || g.isInstance .symbol v

/-- The text of a string or a symbol. -/
def stringValue? (v : Value) : Option (Option String) :=
  if g.isText v then (g.bytes v).map fun bytes => some (Text.utf8Text bytes) else some none

/-- Whether a value is a class or a metaclass. -/
def isClass (v : Value) : Bool :=
  match v with
  | .immediate _ => false
  | .object n => decide (v ≠ g.core.nil) &&
      (decide ((g.nodes n).cls = g.core.cls .metaclass) || g.isInstance .metaclass (g.nodes n).cls)

/-- The step from a metaclass to its instance, in search of a name. -/
def visitName (cls : Value) : Option (String ⊕ Value × (String → String)) :=
  if g.isInstance .metaclass cls then
    (g.field cls Class.instanceField).map fun v => .inr (v, (· ++ " class"))
  else do
    let name ← g.stringValue? (← g.field cls Class.nameField)
    return .inl (name.getD "<anonymous class>")

/-- The name of a class. -/
noncomputable def className (cls : Value) : Option String := walked g.visitName cls

/-- Whether a value may be a class in a chain of superclasses. -/
def isLink (v : Value) : Bool := v.isObject && decide (v ≠ g.nil)

/-- The method of a selector in the dictionary of one class. -/
def ownMethod? (cls selector : Value) : Option (Option Value) := do
  let dictionary ← g.field cls Class.dictionaryField
  if g.isLink dictionary then g.methodAt? dictionary selector else some none

/-- The step from a class to its superclass, in search of a method. -/
def visitMethod (selector cls : Value) :
    Option (Option Value ⊕ Value × (Option Value → Option Value)) :=
  if g.isLink cls then do
    match ← g.ownMethod? cls selector with
    | some method => some (.inl (some method))
    | none => some (.inr (← g.field cls Class.superclassField, id))
  else some (.inl none)

/-- The method that a class answers a selector with. -/
noncomputable def lookupMethod? (cls selector : Value) : Option (Option Value) :=
  walked (g.visitMethod selector) cls

/-- The step from a class to its superclass, in search of another class. -/
def visitAncestor (ancestor cls : Value) : Option (Bool ⊕ Value × (Bool → Bool)) :=
  if g.isLink cls then
    if cls = ancestor then some (.inl true)
    else (g.field cls Class.superclassField).map fun v => .inr (v, id)
  else some (.inl false)

/-- Whether a class is another one or inherits from it. -/
noncomputable def inheritsFrom (cls ancestor : Value) : Option Bool :=
  walked (g.visitAncestor ancestor) cls

end Graph

/-- An object that is shown has fields that are shown. -/
theorem Machine.Holds.shown_field {m : Machine} {g : Graph} {p : Placement} {starts : List Nat}
    {known : Nat → Nat} {v w : Value} {index : Nat} (hm : m.Holds g p starts known)
    (hv : p.Shown v) (hw : g.field v index = some w) : p.Shown w := by
  obtain ⟨r, hr⟩ := hv
  obtain ⟨s, -, hs⟩ := hm.field hr hw
  exact ⟨s, hs⟩

theorem Graph.isObject_of_field {g : Graph} {v w : Value} {index : Nat}
    (hw : g.field v index = some w) : v.isObject = true := by
  obtain ⟨n, rfl, -⟩ := of_field hw
  rfl

namespace Reads

variable {p : Placement} {r s : Ref} {v w : Value}

theorem isInstance (hr : p.Shows r v) (k : KernelClass) :
    Reads p (fun m => m.isInstance k r) fun g => some (g.isInstance k v) := by
  refine .intro fun m g starts hm b hb => ?_
  cases hb
  unfold Machine.isInstance
  rw [hr.isPointer_eq]
  cases v with
  | immediate r' => exact ⟨false, rfl, rfl⟩
  | object n =>
    obtain ⟨c, hc, hshows⟩ := (classWord hr).ok hm rfl
    rw [if_pos (show (Value.object n).isObject = true from rfl),
      show m.heap.classOf r = .ok c from hc]
    exact ⟨_, rfl, decide_eq_decide.mpr (hshows.eq_iff (hm.roots.core.cls k))⟩

theorem classOf (hr : p.Shows r v) : Reads p (fun m => m.classOf r) (·.classOf v) := by
  refine .intro fun m g starts hm b hb => ?_
  unfold Machine.classOf
  cases v with
  | immediate r' =>
    obtain ⟨rfl, hnot⟩ := hr
    unfold Graph.classOf at hb
    dsimp only at hb
    by_cases hsmall : r.isSmallInteger = true
    · rw [if_pos hsmall] at hb ⊢
      cases hb
      exact ⟨_, rfl, hm.roots.core.cls .smallInteger⟩
    by_cases hcharacter : r.isCharacter = true
    · rw [if_neg hsmall, if_pos hcharacter] at hb ⊢
      cases hb
      exact ⟨_, rfl, hm.roots.core.cls .character⟩
    by_cases hmarker : r.isMarker = true
    · rw [if_neg hsmall, if_neg hcharacter, if_pos hmarker] at hb
      cases hb
    · rw [if_neg hsmall, if_neg hcharacter, if_neg hmarker] at hb ⊢
      cases hb
      rw [if_pos (Ref.isNull_of_not hnot hsmall hcharacter hmarker)]
      exact ⟨_, rfl, hm.roots.core.cls .undefinedObject⟩
  | object n =>
    have hp : r.isPointer = true := hr.isPointer_eq
    have himmediate := Ref.not_isImmediate_of_isPointer hp
    unfold Ref.isImmediate at himmediate
    rw [Bool.or_eq_false_iff] at himmediate
    have hnull : r.isNull = false := by
      unfold Ref.isPointer at hp
      unfold Ref.isNull
      simpa using (Bool.and_eq_true_iff.mp hp).2
    rw [himmediate.1, himmediate.2, Ref.not_isMarker_of_isPointer hp, hnull]
    exact classWord hr m g starts hm b hb

theorem isText (hr : p.Shows r v) : Reads p (fun m => m.isText r) fun g => some (g.isText v) := by
  refine .intro fun m g starts hm b hb => ?_
  cases hb
  obtain ⟨isString, hs, rfl⟩ := (isInstance hr .string).ok hm rfl
  obtain ⟨isSymbol, hy, rfl⟩ := (isInstance hr .symbol).ok hm rfl
  unfold Machine.isText
  rw [hs, hy]
  exact ⟨_, rfl, rfl⟩

theorem stringValue? (hr : p.Shows r v) :
    Reads p (fun m => m.stringValue? r) (·.stringValue? v) := by
  refine .intro fun m g starts hm b hb => ?_
  obtain ⟨_, ht, rfl⟩ := (isText hr).ok hm rfl
  unfold Machine.stringValue?
  rw [ht]
  unfold Graph.stringValue? at hb
  cases htext : g.isText v with
  | true =>
    rw [htext] at hb
    obtain ⟨_, hbytes, rfl⟩ := Option.map_eq_some_iff.mp hb
    obtain ⟨_, hread, rfl⟩ := (bytes hr).ok hm hbytes
    show ∃ a, (m.heap.bytes r >>= fun x => .ok (some (Text.utf8Text x))) = _ ∧ _
    rw [hread]
    exact ⟨_, rfl, .some rfl⟩
  | false =>
    rw [htext] at hb
    cases hb
    exact ⟨_, rfl, .none⟩

theorem isClass (hr : p.Shows r v) : Reads p (fun m => m.isClass r) fun g => some (g.isClass v) := by
  refine .intro fun m g starts hm b hb => ?_
  cases hb
  unfold Machine.isClass
  rw [hr.isPointer_eq]
  cases v with
  | immediate r' => exact ⟨false, rfl, rfl⟩
  | object n =>
    have hnil := hr.eq_iff hm.roots.core.nil
    unfold Graph.isClass
    by_cases hrnil : r = m.core.nil
    · refine ⟨false, if_pos (by simp [hrnil]), ?_⟩
      rw [decide_eq_false (fun h => h (hnil.mp hrnil))]
      rfl
    obtain ⟨c, hc, hshows⟩ := (classWord hr).ok hm rfl
    have heq := hshows.eq_iff (hm.roots.core.cls .metaclass)
    rw [if_neg (by simp [hrnil]), hc, 
      decide_eq_true (show Value.object n ≠ g.core.nil from fun h => hrnil (hnil.mpr h))]
    dsimp only
    show ∃ a, (if c = m.core.cls .metaclass then .ok true else m.isMetaclass c) = _ ∧ _
    by_cases hcm : c = m.core.cls .metaclass
    · rw [if_pos hcm, decide_eq_true (heq.mp hcm)]
      exact ⟨_, rfl, rfl⟩
    · rw [if_neg hcm, decide_eq_false fun h => hcm (heq.mpr h)]
      exact (isInstance hshows .metaclass).ok hm rfl

end Reads

/-! ## Walks along classes -/

namespace Reads

variable {p : Placement} {r s : Ref} {v w : Value}

theorem isLink (hr : p.Shows r v) :
    Reads p (fun m => .ok (Class.isLink m.heap r)) fun g => some (g.isLink v) := by
  refine .intro fun m g starts hm b hb => ⟨_, rfl, ?_⟩
  cases hb
  have heq := hr.eq_iff hm.nil
  show (r.isPointer && r != m.heap.nil) = (v.isObject && decide (v ≠ g.nil))
  rw [hr.isPointer_eq]
  congr 1
  by_cases hnil : r = m.heap.nil
  · simp [hnil, heq.mp hnil]
  · have hne : v ≠ g.nil := fun h => hnil (heq.mpr h)
    rw [decide_eq_true hne]
    exact bne_iff_ne.mpr hnil

theorem ownMethod? (hr : p.Shows r v) (hs : p.Shows s w) :
    Reads p (fun m => Class.ownMethod? m.heap r s) (·.ownMethod? v w) := by
  refine bind (field hr Class.dictionaryField) fun dictionary dictionaryValue hd => ?_
  refine .intro fun m g starts hm b hb => ?_
  obtain ⟨link, hlink, rfl⟩ := (isLink hd).ok hm rfl
  rw [Except.ok.inj hlink]
  cases hlinked : g.isLink dictionaryValue with
  | true =>
    rw [if_pos hlinked] at hb
    exact (methodAt? hd hs).ok hm hb
  | false =>
    rw [if_neg (by simp [hlinked])] at hb
    cases hb
    exact ⟨_, rfl, .none⟩

end Reads

namespace Machine.Realizes

variable {m : Machine} {g : Graph} {p : Placement} {starts : List Nat} {r s : Ref} {v w : Value}

/-- A walk in search of a method, step by step. -/
theorem lookupFrom (hm : m.Realizes g p starts) (hr : p.Shows r v) (hs : p.Shows s w) {fuel : Nat}
    {found : Option Value} (hwalk : walk (g.visitMethod w) fuel v = some found) :
    ∃ a, Class.lookupFrom m.heap s r fuel = .ok a ∧ Option.Rel p.Shows a found := by
  induction fuel generalizing r v found with
  | zero => cases hwalk
  | succ fuel ih =>
    unfold walk at hwalk
    unfold Class.lookupFrom
    obtain ⟨link, hlink, rfl⟩ := (Reads.isLink hr).ok hm rfl
    rw [Except.ok.inj hlink]
    cases hlinked : g.isLink v with
    | false =>
      simp only [Graph.visitMethod, hlinked, Bool.false_eq_true, if_false] at hwalk
      cases hwalk
      exact ⟨_, rfl, .none⟩
    | true =>
      rw [if_pos rfl]
      simp only [Graph.visitMethod, hlinked, if_true] at hwalk
      cases hown : g.ownMethod? v w with
      | none =>
        rw [hown] at hwalk
        cases hwalk
      | some own =>
        obtain ⟨ownRef, hownRef, hrel⟩ := (Reads.ownMethod? hr hs).ok hm hown
        rw [hown] at hwalk
        rw [hownRef]
        cases hrel with
        | some hshows =>
          cases hwalk
          exact ⟨_, rfl, .some hshows⟩
        | none =>
          cases hsuper : g.field v Class.superclassField with
          | none =>
            simp only [hsuper] at hwalk
            cases hwalk
          | some superclass =>
            obtain ⟨superRef, hsuperRef, hshows⟩ := (Reads.field hr _).ok hm hsuper
            simp only [hsuper] at hwalk
            obtain ⟨found', hfound, rfl⟩ := Option.map_eq_some_iff.mp hwalk
            show ∃ a, (Class.superclass m.heap r >>= fun c => Class.lookupFrom m.heap s c fuel) = _ ∧ _
            rw [show Class.superclass m.heap r = _ from hsuperRef]
            exact ih hshows hfound

theorem inheritsWithin (hm : m.Realizes g p starts) (hr : p.Shows r v) (hs : p.Shows s w) {fuel : Nat}
    {answer : Bool} (hwalk : walk (g.visitAncestor w) fuel v = some answer) :
    Class.inheritsWithin m.heap s r fuel = .ok answer := by
  induction fuel generalizing r v answer with
  | zero => cases hwalk
  | succ fuel ih =>
    unfold walk at hwalk
    unfold Class.inheritsWithin
    obtain ⟨link, hlink, rfl⟩ := (Reads.isLink hr).ok hm rfl
    rw [Except.ok.inj hlink]
    cases hlinked : g.isLink v with
    | false =>
      simp only [Graph.visitAncestor, hlinked, Bool.false_eq_true, if_false] at hwalk
      cases hwalk
      rfl
    | true =>
      rw [if_pos rfl]
      simp only [Graph.visitAncestor, hlinked, if_true] at hwalk
      by_cases heq : v = w
      · rw [if_pos ((hr.eq_iff hs).mpr heq)]
        rw [if_pos heq] at hwalk
        cases hwalk
        rfl
      · rw [if_neg fun h => heq ((hr.eq_iff hs).mp h)]
        rw [if_neg heq] at hwalk
        cases hsuper : g.field v Class.superclassField with
        | none =>
          rw [hsuper] at hwalk
          cases hwalk
        | some superclass =>
          obtain ⟨superRef, hsuperRef, hshows⟩ := (Reads.field hr _).ok hm hsuper
          rw [hsuper] at hwalk
          obtain ⟨answer', hanswer, rfl⟩ := Option.map_eq_some_iff.mp hwalk
          rw [show Class.superclass m.heap r = _ from hsuperRef]
          exact ih hshows hanswer

theorem classNameWithin (hm : m.Realizes g p starts) (hr : p.Shows r v) {fuel : Nat} {name : String}
    (hwalk : walk g.visitName fuel v = some name) : m.classNameWithin r fuel = .ok name := by
  induction fuel generalizing r v name with
  | zero => cases hwalk
  | succ fuel ih =>
    unfold walk at hwalk
    unfold Machine.classNameWithin
    obtain ⟨isMeta, hmeta, rfl⟩ := (Reads.isInstance hr .metaclass).ok hm rfl
    rw [show m.isMetaclass r = _ from hmeta]
    cases hmetaclass : g.isInstance .metaclass v with
    | false =>
      simp only [Graph.visitName, hmetaclass, Bool.false_eq_true, if_false] at hwalk
      cases hfield : g.field v Class.nameField with
      | none =>
        simp only [hfield] at hwalk
        cases hwalk
      | some nameValue =>
        obtain ⟨nameRef, hnameRef, hshows⟩ := (Reads.field hr _).ok hm hfield
        cases hstring : g.stringValue? nameValue with
        | none =>
          simp only [hfield, Option.bind_eq_bind, Option.bind_some, hstring] at hwalk
          cases hwalk
        | some text =>
          obtain ⟨text', htext, hrel⟩ := (Reads.stringValue? hshows).ok hm hstring
          simp only [hfield, Option.bind_eq_bind, Option.bind_some, hstring] at hwalk
          cases hwalk
          show (m.heap.fetchField r Class.nameField >>= fun x => m.stringValue? x >>= fun text =>
            .ok (text.getD "<anonymous class>")) = _
          rw [hnameRef]
          show (m.stringValue? nameRef >>= fun text => .ok (text.getD "<anonymous class>")) = _
          rw [htext]
          cases hrel with
          | none => rfl
          | some heq => exact congrArg Except.ok heq
    | true =>
      simp only [Graph.visitName, hmetaclass, if_true] at hwalk
      cases hfield : g.field v Class.instanceField with
      | none =>
        simp only [hfield] at hwalk
        cases hwalk
      | some instanceValue =>
        obtain ⟨instanceRef, hinstance, hshows⟩ := (Reads.field hr _).ok hm hfield
        simp only [hfield] at hwalk
        obtain ⟨name', hname, rfl⟩ := Option.map_eq_some_iff.mp hwalk
        show (m.heap.fetchField r Class.instanceField >>= fun x => m.classNameWithin x fuel >>=
          fun name => .ok (name ++ " class")) = _
        rw [hinstance]
        show (m.classNameWithin instanceRef fuel >>= fun name => .ok (name ++ " class")) = _
        rw [ih hshows hname]
        rfl

end Machine.Realizes

namespace Graph

variable {g : Graph} {v v' w : Value}

theorem of_onward_visitMethod (h : onward (g.visitMethod w) v = some v') :
    g.field v Class.superclassField = some v' := by
  unfold onward visitMethod at h
  cases hlink : g.isLink v with
  | false => simp [hlink] at h
  | true =>
    cases hown : g.ownMethod? v w with
    | none => simp [hlink, hown] at h
    | some own =>
      cases own with
      | some method => simp [hlink, hown] at h
      | none =>
        cases hsuper : g.field v Class.superclassField with
        | none => simp [hlink, hown, hsuper] at h
        | some u => simpa [hlink, hown, hsuper] using h

theorem of_onward_visitAncestor (h : onward (g.visitAncestor w) v = some v') :
    g.field v Class.superclassField = some v' := by
  unfold onward visitAncestor at h
  cases hlink : g.isLink v with
  | false => simp [hlink] at h
  | true =>
    by_cases heq : v = w
    · subst heq
      simp [hlink] at h
    · cases hsuper : g.field v Class.superclassField with
      | none => simp [hlink, heq, hsuper] at h
      | some u => simpa [hlink, heq, hsuper] using h

theorem of_onward_visitName (h : onward g.visitName v = some v') :
    g.field v Class.instanceField = some v' := by
  unfold onward visitName at h
  cases hmeta : g.isInstance .metaclass v with
  | true =>
    cases hfield : g.field v Class.instanceField with
    | none => simp [hmeta, hfield] at h
    | some u => simpa [hmeta, hfield] using h
  | false =>
    cases hfield : g.field v Class.nameField with
    | none => simp [hmeta, hfield] at h
    | some u =>
      cases hstring : g.stringValue? u with
      | none => simp [hmeta, hfield, hstring] at h
      | some text => simp [hmeta, hfield, hstring] at h

end Graph

namespace Reads

variable {p : Placement} {r s : Ref} {v w : Value}

theorem lookupMethod? (hr : p.Shows r v) (hs : p.Shows s w) :
    Reads p (fun m => Class.lookupMethod? m.heap r s) (·.lookupMethod? v w) := by
  refine .intro fun m g starts hm b hb => ?_
  refine hm.lookupFrom hr hs (hm.walk_of_walked (fun u u' hu hnext => ?_) ⟨r, hr⟩ hb
    (Nat.lt_succ_self _))
  have hfield := Graph.of_onward_visitMethod hnext
  exact ⟨Graph.isObject_of_field hfield, hm.shown_field hu hfield⟩

theorem inheritsFrom (hr : p.Shows r v) (hs : p.Shows s w) :
    Reads p (fun m => Class.inheritsFrom m.heap r s) (·.inheritsFrom v w) := by
  refine .intro fun m g starts hm b hb => ?_
  refine ⟨b, hm.inheritsWithin hr hs (hm.walk_of_walked (fun u u' hu hnext => ?_) ⟨r, hr⟩ hb
    (Nat.lt_succ_self _)), rfl⟩
  have hfield := Graph.of_onward_visitAncestor hnext
  exact ⟨Graph.isObject_of_field hfield, hm.shown_field hu hfield⟩

theorem className (hr : p.Shows r v) : Reads p (fun m => m.className r) (·.className v) := by
  refine .intro fun m g starts hm b hb => ?_
  refine ⟨b, hm.classNameWithin hr (hm.walk_of_walked (fun u u' hu hnext => ?_) ⟨r, hr⟩ hb
    (Nat.lt_succ_self _)), rfl⟩
  have hfield := Graph.of_onward_visitName hnext
  exact ⟨Graph.isObject_of_field hfield, hm.shown_field hu hfield⟩

end Reads

end ObjectMachine
