import ObjectMachine.Primitive.Operand
import ObjectMachine.Proofs.Graph.Classes

/-!
# Numbers and descriptions

What graphs say of numbers, and the short texts by which values are named in reports.

## Main results

* `Reads.numeral?`: the number that a reference stands for.
* `Reads.describe`: the description of anything.
-/

namespace ObjectMachine

instance : Depicted Machine.Numeral Machine.Numeral := ⟨fun _ a b => a = b⟩

namespace Graph

variable (g : Graph)

/-- The value of a small or large integer. -/
def integerValue? (v : Value) : Option (Option Int) :=
  match v.small? with
  | some value => some (some value)
  | none => if g.isInstance .largeInteger v then g.largeInteger v else some none

/-- The value of a floating-point number. -/
def floatValue? (v : Value) : Option (Option Binary64) :=
  if g.isInstance .float v then (g.floatValue v).map some else some none

/-- The number that a value is. -/
def numeral? (v : Value) : Option (Option Machine.Numeral) := do
  match ← g.integerValue? v with
  | some value => some (some (.integer value))
  | none => (g.floatValue? v).map fun value => value.map .float

/-- The header of a method. -/
def header (method : Value) : Option MethodHeader := do
  let word ← (← g.field method Method.headerField).bits?
  return .ofRef word

/-! ### Texts -/

/-- The text of a string or a symbol, empty for anything else. -/
def stringText (v : Value) : Option String := (g.stringValue? v).map (·.getD "")

/-- The description of a context. -/
def contextText (v : Value) : Option String := do
  let kind ← g.field v Context.argCountField
  let pc ← g.field v Context.pcField
  let kind := if kind.isSmallInteger then "block" else "method"
  let state := if pc.isSmallInteger then "" else " (dead)"
  return s!"a {kind} context{state}"

/-- The description of an object that is neither nil nor a truth value. -/
noncomputable def objectText (arrayText : Value → Option String) (v : Value) : Option String := do
  let cls ← g.classWord v
  if cls = g.core.cls .symbol then (g.stringText v).map ("#" ++ ·)
  else if cls = g.core.cls .string then (g.stringText v).map ("'" ++ · ++ "'")
  else if cls = g.core.cls .float then (g.floatValue v).map Binary64.text
  else if cls = g.core.cls .largeInteger then
    (g.integerValue? v).map fun value => (value.map Text.decimal).getD ""
  else if g.isClass v then g.className v
  else if cls = g.core.cls .methodContext ∨ cls = g.core.cls .blockContext then g.contextText v
  else if cls = g.core.cls .array then arrayText v
  else (g.className cls).map Machine.withArticle

/-- The description of anything, with arrays left to `arrayText`. -/
noncomputable def describeWith (arrayText : Value → Option String) (v : Value) : Option String :=
  match v with
  | .immediate r => match r.tag with
    | .smallInteger => some (Text.decimal r.toInt)
    | .character => some ("$" ++ String.singleton r.toChar)
    | .marker => some ("<marker " ++ Text.hex r.markerPayload.toNat ++ ">")
    | .pointer => some "<null>"
  | .object _ =>
    if v = g.core.nil then some "nil"
    else if v = g.core.trueObject then some "true"
    else if v = g.core.falseObject then some "false"
    else g.objectText arrayText v

/-- The description of an element of an array. -/
noncomputable def describeElement (v : Value) : Option String :=
  if g.isInstance .array v then some "(...)" else g.describeWith (fun _ => some "(...)") v

/-- The descriptions of the elements at some indices. -/
noncomputable def describeElements (v : Value) : List Nat → Option (List String)
  | [] => some []
  | i :: rest => do
    let text ← g.describeElement (← g.element v i)
    return text :: (← describeElements v rest)

/-- The description of an array. -/
noncomputable def arrayText (v : Value) : Option String := do
  let len ← g.length v
  let shown ← g.describeElements v (List.range (min len Machine.shownElements))
  let rest := if Machine.shownElements < len then ["..."] else []
  return "(" ++ String.intercalate " " (shown ++ rest) ++ ")"

/-- The description of anything. -/
noncomputable def describe (v : Value) : Option String := g.describeWith g.arrayText v

end Graph

theorem Placement.Shows.small?_eq {p : Placement} {r : Ref} {v : Value} (hr : p.Shows r v) :
    r.small? = v.small? := by
  have hsmall := hr.isSmallInteger_eq
  cases v with
  | immediate r' =>
    obtain ⟨rfl, -⟩ := hr
    rfl
  | object n =>
    unfold Ref.small?
    rw [hsmall]
    rfl

/-- A number is an integer or else a floating-point number. -/
theorem Machine.numeral?_eq (m : Machine) (r : Ref) :
    m.numeral? r = m.integerValue? r >>= fun
      | some value => .ok (some (.integer value))
      | none => m.floatValue? r >>= fun x => .ok (x.map .float) := by
  unfold Machine.numeral? Machine.floatValue? Machine.isFloat
  congr
  funext value
  cases value with
  | some value => rfl
  | none =>
    show (m.isInstance .float r >>= fun float => _) = (m.isInstance .float r >>= _) >>= _
    cases m.isInstance .float r with
    | error e => rfl
    | ok float =>
      cases float with
      | false => rfl
      | true =>
        show (m.heap.floatValue r >>= fun x => _) = (m.heap.floatValue r >>= _) >>= _
        cases m.heap.floatValue r <;> rfl

theorem Ref.tag_of_isPointer {r : Ref} (hp : r.isPointer = true) :
    r.tag = .pointer ∧ r.isNull = false := by
  unfold isPointer at hp
  rw [Bool.and_eq_true_iff, beq_iff_eq, bne_iff_ne] at hp
  unfold tag isNull
  rw [if_pos hp.1]
  exact ⟨rfl, beq_eq_false_iff_ne.mpr hp.2⟩

theorem Ref.isNull_of_tag {r : Ref} (hp : r.isPointer = false) (htag : r.tag = .pointer) :
    r.isNull = true := by
  unfold tag at htag
  unfold isPointer at hp
  unfold isNull
  split at htag
  · rename_i hzero
    rw [hzero] at hp
    simpa using hp
  · split at htag
    · cases htag
    · split at htag <;> cases htag

namespace Reads

variable {p : Placement} {r : Ref} {v : Value}

theorem integerValue? (hr : p.Shows r v) :
    Reads p (fun m => m.integerValue? r) (·.integerValue? v) := by
  refine .intro fun m g starts hm b hb => ?_
  have hsmall := hr.small?_eq
  unfold Machine.integerValue?
  unfold Graph.integerValue? at hb
  unfold Ref.small? at hsmall
  cases hv : v.small? with
  | some value =>
    rw [hv] at hb hsmall
    cases hb
    split at hsmall
    · rename_i hs
      cases hsmall
      rw [if_pos hs]
      exact ⟨_, rfl, .some rfl⟩
    · cases hsmall
  | none =>
    rw [hv] at hb hsmall
    split at hsmall
    · cases hsmall
    · rename_i hs
      rw [if_neg hs]
      obtain ⟨_, hinstance, rfl⟩ := (isInstance hr .largeInteger).ok hm rfl
      show ∃ a, ((m.isInstance .largeInteger r) >>= fun large =>
        if large then m.heap.largeInteger? r else .ok none) = _ ∧ _
      rw [hinstance]
      dsimp only at hb
      cases hlarge : g.isInstance .largeInteger v with
      | true =>
        rw [hlarge] at hb
        exact (largeInteger hr).ok hm hb
      | false =>
        rw [hlarge] at hb
        cases hb
        exact ⟨_, rfl, .none⟩

theorem floatValue? (hr : p.Shows r v) :
    Reads p (fun m => m.floatValue? r) (·.floatValue? v) := by
  refine .intro fun m g starts hm b hb => ?_
  obtain ⟨_, hinstance, rfl⟩ := (isInstance hr .float).ok hm rfl
  show ∃ a, ((m.isInstance .float r) >>= fun float =>
    if float then m.heap.floatValue r >>= fun x => .ok (some x) else .ok none) = _ ∧ _
  rw [hinstance]
  unfold Graph.floatValue? at hb
  cases hfloat : g.isInstance .float v with
  | true =>
    rw [hfloat] at hb
    obtain ⟨x, hx, rfl⟩ := Option.map_eq_some_iff.mp hb
    obtain ⟨_, hread, rfl⟩ := (floatValue hr).ok hm hx
    show ∃ a, (m.heap.floatValue r >>= fun x => .ok (some x)) = _ ∧ _
    rw [hread]
    exact ⟨_, rfl, .some rfl⟩
  | false =>
    rw [hfloat] at hb
    cases hb
    exact ⟨_, rfl, .none⟩

theorem numeral? (hr : p.Shows r v) : Reads p (fun m => m.numeral? r) (·.numeral? v) := by
  refine .intro fun m g starts hm b hb => ?_
  obtain ⟨value, hvalue, hb⟩ := Option.bind_eq_some_iff.mp hb
  obtain ⟨a, ha, hshows⟩ := (integerValue? hr).ok hm hvalue
  rw [Machine.numeral?_eq, ha]
  cases hshows with
  | some heq =>
    cases heq
    cases hb
    exact ⟨_, rfl, .some rfl⟩
  | none =>
    obtain ⟨x, hx, rfl⟩ := Option.map_eq_some_iff.mp hb
    obtain ⟨y, hy, hyx⟩ := (floatValue? hr).ok hm hx
    show ∃ a, (m.floatValue? r >>= fun x => .ok (x.map Machine.Numeral.float)) = .ok a ∧ _
    rw [hy]
    refine ⟨_, rfl, ?_⟩
    cases hyx with
    | some heq =>
      cases heq
      exact .some rfl
    | none => exact .none

theorem header (hr : p.Shows r v) :
    Reads p (fun m => Method.header m.heap r) (·.header v) := by
  have hbits := (field hr Method.headerField).bits MethodHeader.ofRef fun _ => rfl
  refine .intro fun m g starts hm b hb => hbits.ok hm ?_
  obtain ⟨value, hvalue, hb⟩ := Option.bind_eq_some_iff.mp hb
  obtain ⟨word, hword, hb⟩ := Option.bind_eq_some_iff.mp hb
  cases hb
  exact Option.bind_eq_some_iff.mpr ⟨value, hvalue, by rw [hword]; rfl⟩

theorem stringText (hr : p.Shows r v) :
    Reads p (fun m => m.stringText r) (·.stringText v) :=
  (stringValue? hr).map fun a b hab => by
    cases hab with
    | some heq => exact heq
    | none => rfl

theorem contextText (hr : p.Shows r v) :
    Reads p (fun m => m.contextText r) (·.contextText v) := by
  refine .intro fun m g starts hm b hb => ?_
  obtain ⟨kind, hkind, hb⟩ := Option.bind_eq_some_iff.mp hb
  obtain ⟨pc, hpc, hb⟩ := Option.bind_eq_some_iff.mp hb
  cases hb
  obtain ⟨s, hs, hskind⟩ := (field hr Context.argCountField).ok hm hkind
  obtain ⟨q, hq, hqpc⟩ := (field hr Context.pcField).ok hm hpc
  unfold Machine.contextText Context.isBlock Context.isDead Context.pc? Context.register?
  rw [hs, hq]
  refine ⟨_, rfl, ?_⟩
  simp only [hskind.isSmallInteger_eq, hqpc.isSmallInteger_eq]
  cases pc.isSmallInteger <;> rfl

/-- An object is described by its class. -/
theorem objectText {f : Machine → Ref → Except Fatal String} {φ : Graph → Value → Option String}
    (hr : p.Shows r v) (hf : Reads p (fun m => f m r) fun g => φ g v) :
    Reads p (fun m => m.objectText (f m) r) fun g => g.objectText (φ g) v := by
  refine .intro fun m g starts hm b hb => ?_
  obtain ⟨cls, hcls, hb⟩ := Option.bind_eq_some_iff.mp hb
  obtain ⟨c, hc, hshows⟩ := (classWord hr).ok hm hcls
  have hkind : ∀ k, c = m.core.cls k ↔ cls = g.core.cls k :=
    fun k => hshows.eq_iff (hm.roots.core.cls k)
  obtain ⟨_, hisClass, rfl⟩ := (isClass hr).ok hm rfl
  unfold Machine.objectText
  rw [hc]
  show ∃ a, (if c = m.core.cls .symbol then m.stringText r >>= fun text => .ok ("#" ++ text)
    else if c = m.core.cls .string then m.stringText r >>= fun text => .ok ("'" ++ text ++ "'")
    else if c = m.core.cls .float then m.heap.floatValue r >>= fun x => .ok x.text
    else if c = m.core.cls .largeInteger then
      m.integerValue? r >>= fun value => .ok ((value.map Text.decimal).getD "")
    else m.isClass r >>= fun isClass =>
      if isClass then m.className r
      else if c = m.core.cls .methodContext ∨ c = m.core.cls .blockContext then m.contextText r
      else if c = m.core.cls .array then f m r
      else m.className c >>= fun name => .ok (Machine.withArticle name)) = _ ∧ _
  rw [hisClass]
  simp only [hkind]
  have htext : ∀ k : String → String, ∀ b, (g.stringText v).map k = some b →
      ∃ a, (m.stringText r >>= fun text => .ok (k text)) = .ok a ∧ a = b := by
    intro k b hb
    exact ((stringText hr).map fun _ _ h => congrArg k h).ok hm hb
  split at hb
  · rw [if_pos ‹_›]
    exact htext _ b hb
  rw [if_neg ‹_›]
  split at hb
  · rw [if_pos ‹_›]
    exact htext _ b hb
  rw [if_neg ‹_›]
  split at hb
  · rw [if_pos ‹_›]
    exact ((floatValue hr).map fun _ _ h => congrArg Binary64.text h).ok hm hb
  rw [if_neg ‹_›]
  split at hb
  · rw [if_pos ‹_›]
    refine ((integerValue? hr).map fun _ _ h => ?_).ok hm hb
    cases h with
    | some heq =>
      cases heq
      rfl
    | none => rfl
  rw [if_neg ‹_›]
  show ∃ a, (if g.isClass v = true then m.className r
    else if cls = g.core.cls .methodContext ∨ cls = g.core.cls .blockContext then m.contextText r
    else if cls = g.core.cls .array then f m r
    else m.className c >>= fun name => Except.ok (Machine.withArticle name)) = Except.ok a ∧ _
  split at hb
  · rw [if_pos ‹_›]
    exact (className hr).ok hm hb
  rw [if_neg ‹_›]
  split at hb
  · rw [if_pos ‹_›]
    exact (contextText hr).ok hm hb
  rw [if_neg ‹_›]
  split at hb
  · rw [if_pos ‹_›]
    exact hf.ok hm hb
  rw [if_neg ‹_›]
  exact ((className hshows).map fun _ _ h => congrArg Machine.withArticle h).ok hm hb

theorem describeWith {f : Machine → Ref → Except Fatal String} {φ : Graph → Value → Option String}
    (hr : p.Shows r v) (hf : Reads p (fun m => f m r) fun g => φ g v) :
    Reads p (fun m => m.describeWith (f m) r) fun g => g.describeWith (φ g) v := by
  refine .intro fun m g starts hm b hb => ?_
  unfold Machine.describeWith
  cases v with
  | immediate r' =>
    obtain ⟨rfl, hp⟩ := hr
    unfold Graph.describeWith at hb
    dsimp only at hb
    cases htag : r.tag with
    | pointer =>
      rw [htag] at hb
      cases hb
      exact ⟨_, if_pos (Ref.isNull_of_tag hp htag), rfl⟩
    | smallInteger | character | marker =>
      rw [htag] at hb
      cases hb
      exact ⟨_, rfl, rfl⟩
  | object n =>
    obtain ⟨htag, hnull⟩ := Ref.tag_of_isPointer (hr.isPointer_eq : r.isPointer = true)
    have hcore := hm.roots.core
    rw [htag]
    dsimp only
    simp only [hnull, hr.eq_iff hcore.nil, hr.eq_iff hcore.trueObject, hr.eq_iff hcore.falseObject,
      Bool.false_eq_true, if_false]
    unfold Graph.describeWith at hb
    dsimp only at hb
    split at hb
    · rw [if_pos ‹_›]
      cases hb
      exact ⟨_, rfl, rfl⟩
    rw [if_neg ‹_›]
    split at hb
    · rw [if_pos ‹_›]
      cases hb
      exact ⟨_, rfl, rfl⟩
    rw [if_neg ‹_›]
    split at hb
    · rw [if_pos ‹_›]
      cases hb
      exact ⟨_, rfl, rfl⟩
    rw [if_neg ‹_›]
    exact (objectText hr hf).ok hm hb

theorem describeElement (hr : p.Shows r v) :
    Reads p (fun m => m.describeElement r) (·.describeElement v) := by
  refine .intro fun m g starts hm b hb => ?_
  obtain ⟨_, hinstance, rfl⟩ := (isInstance hr .array).ok hm rfl
  unfold Machine.describeElement
  rw [hinstance]
  unfold Graph.describeElement at hb
  cases harray : g.isInstance .array v with
  | true =>
    rw [harray] at hb
    cases hb
    exact ⟨_, rfl, rfl⟩
  | false =>
    rw [harray, if_neg Bool.false_ne_true] at hb
    have hplain : Reads p (fun m => m.describeWith (fun _ => .ok "(...)") r)
        fun g => g.describeWith (fun _ => some "(...)") v :=
      describeWith hr (.pure rfl)
    exact hplain.ok hm hb

theorem arrayText (hr : p.Shows r v) : Reads p (fun m => m.arrayText r) (·.arrayText v) := by
  refine .intro fun m g starts hm b hb => ?_
  obtain ⟨len, hlen, hb⟩ := Option.bind_eq_some_iff.mp hb
  obtain ⟨shown, hshown, hb⟩ := Option.bind_eq_some_iff.mp hb
  obtain ⟨_, hread, rfl⟩ := (length hr).ok hm hlen
  cases hb
  have hall : ∀ indices shown, g.describeElements v indices = some shown →
      (indices.mapM fun i => do m.describeElement (← m.heap.fetchElement r i)) =
        (.ok shown : Except Fatal (List String)) := by
    intro indices
    induction indices with
    | nil =>
      intro shown hshown
      cases hshown
      rfl
    | cons i rest ih =>
      intro shown hshown
      obtain ⟨w, hw, hshown⟩ := Option.bind_eq_some_iff.mp hshown
      obtain ⟨text, htext, hshown⟩ := Option.bind_eq_some_iff.mp hshown
      obtain ⟨others, hothers, hshown⟩ := Option.bind_eq_some_iff.mp hshown
      cases hshown
      obtain ⟨s, hs, hsw⟩ := (element hr i).ok hm hw
      obtain ⟨_, ht, rfl⟩ := (describeElement hsw).ok hm htext
      rw [List.mapM_cons, hs]
      show (m.describeElement s >>= fun x => _) = _
      rw [ht, ih others hothers]
      rfl
  unfold Machine.arrayText
  rw [hread]
  show ∃ a, ((List.range (min _ _)).mapM _ >>= fun shown => _) = Except.ok a ∧ _
  rw [hall _ _ hshown]
  exact ⟨_, rfl, rfl⟩

theorem describe (hr : p.Shows r v) : Reads p (fun m => m.describe r) (·.describe v) :=
  describeWith hr (arrayText hr)

end Reads

end ObjectMachine
