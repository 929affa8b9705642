import ObjectMachine.Execution.Shortcut
import ObjectMachine.Proofs.Graph.Sends

/-!
# Shortcuts of special sends

The messages with opcodes of their own as computations on graphs: each is answered at once where the
operands are of the kinds that its shortcut is for, and sent otherwise.

## Main results

* `Simulates.takeShortcut`: the shortcuts.
* `Simulates.sendSpecial`: a send of a special selector.
-/

namespace ObjectMachine

/-- The place of an index in an array. -/
def Graph.arrayPlace? (g : Graph) (array index : Value) : Option (Option Nat) :=
  if g.isInstance .array array then (g.length array).map index.indexInto? else some none

namespace Spec

/-- Replaces a number of values by one, if there is one. Answers whether there is. -/
def replaceTop? (count : Nat) : Option Value → Spec Bool
  | some v => do
    replaceTop count v
    return true
  | none => return false

/-- Tries an operation on two small integers. -/
def smallShortcut (f : Graph.Core → Int → Int → Option Value) : Spec Bool := do
  match ← smallOperands? with
  | some (a, b) => replaceTop? 2 (f (← getCore) a b)
  | none => return false

/-- Tries a shortcut. Answers whether it was taken. -/
def takeShortcut : Shortcut → Spec Bool
  | .arithmetic op => smallShortcut fun _ a b => (Machine.smallResult? op a b).map .immediate
  | .comparison op => smallShortcut fun core a b => some (core.boolean (op.onIntegers a b))
  | .maximum => smallShortcut fun _ a b => some (.immediate (.ofInt (max a b)))
  | .minimum => smallShortcut fun _ a b => some (.immediate (.ofInt (min a b)))
  | .identical => do
    let receiver ← peek 1
    let argument ← peek 0
    replaceTop? 2 (some ((← getCore).boolean (decide (receiver = argument))))
  | .classOf => do
    let receiver ← peek 0
    replaceTop? 1 (some (← read (·.classOf receiver)))
  | .nilTest expected => do
    let receiver ← peek 0
    let core ← getCore
    replaceTop? 1 (some (core.boolean (decide (receiver = core.nil) == expected)))
  | .size => do
    let receiver ← peek 0
    if ← ask (·.isInstance .array receiver) then
      replaceTop? 1 (some (.immediate (.ofNat (← read (·.length receiver)))))
    else return false
  | .elementAt => do
    let array ← peek 1
    let index ← peek 0
    match ← read (·.arrayPlace? array index) with
    | some place => replaceTop? 2 (some (← read (·.element array place)))
    | none => return false
  | .elementAtPut => do
    let array ← peek 2
    let index ← peek 1
    let value ← peek 0
    match ← read (·.arrayPlace? array index) with
    | some place =>
      write (·.storeElement array place value)
      replaceTop? 3 (some value)
    | none => return false
  | .blockValue argCount => do
    let block ← peek argCount
    if ← read (·.isBlockOf argCount block) then
      activateBlock argCount
      return true
    else return false

/-- Sends a special selector, by its number. -/
noncomputable def sendSpecial (index : Nat) : Spec (Option Value) := do
  let taken ← match Shortcut.ofIndex? index with
    | some shortcut => takeShortcut shortcut
    | none => pure false
  if taken then return none
  match (← getCore).special[index]? with
  | some selector => send selector (specialArgCount index)
  | none => stop (· = .fault .position)

/-- Sends a special selector in full. -/
noncomputable def sendInFull (index : Nat) : Spec (Option Value) := do
  match (← getCore).special[index]? with
  | some selector => send selector (specialArgCount index)
  | none => stop (· = .fault .position)

end Spec

/-- Sends a special selector in full. -/
def Machine.sendInFull (index : Nat) : Action (Option Ref) := do
  match (← Action.getCore).specialSelectors[index]? with
  | some selector => Machine.send selector (specialArgCount index)
  | none => Action.stop (.fault .position)

theorem Placement.shows_ofInt (p : Placement) (value : Int) :
    p.Shows (.ofInt value) (.immediate (.ofInt value)) :=
  p.shows_small _

theorem Placement.ShowsCore.boolean {p : Placement} {core : CoreObjects} {c : Graph.Core}
    (hcore : p.ShowsCore core c) (value : Bool) : p.Shows (core.boolean value) (c.boolean value) := by
  cases value with
  | true => exact hcore.trueObject
  | false => exact hcore.falseObject

theorem Reads.arrayPlace? {p : Placement} {r s : Ref} {v w : Value} (hr : p.Shows r v)
    (hs : p.Shows s w) : Reads p (fun m => m.arrayPlace? r s) (·.arrayPlace? v w) := by
  refine .intro fun m g starts hm b hb => ?_
  obtain ⟨_, harray, rfl⟩ := (isInstance hr .array).ok hm rfl
  show ∃ a, (m.isInstance .array r >>= fun array =>
    if array then m.heap.length r >>= fun len => .ok (s.indexInto? len) else .ok none) = .ok a ∧ _
  rw [harray]
  unfold Graph.arrayPlace? at hb
  split at hb
  · rename_i hyes
    rw [hyes]
    obtain ⟨len, hlen, rfl⟩ := Option.map_eq_some_iff.mp hb
    obtain ⟨_, hread, rfl⟩ := (length hr).ok hm hlen
    show ∃ a, (m.heap.length r >>= fun len => .ok (s.indexInto? len)) = .ok a ∧ _
    rw [hread]
    refine ⟨_, rfl, ?_⟩
    rw [← hs.indexInto?_eq]
    cases s.indexInto? _ with
    | none => exact .none
    | some place => exact .some rfl
  · rename_i hno
    rw [Bool.eq_false_iff.mpr hno]
    cases hb
    exact ⟨_, rfl, .none⟩

namespace Simulates

variable {p : Placement} {r : Ref} {v : Value}

theorem replaceTop? (count : Nat) {value : Option Ref} {w : Option Value}
    (hvalue : Option.Rel p.Shows value w) :
    Simulates p (· = p) (Machine.replaceTop? count value) (Spec.replaceTop? count w) := by
  cases hvalue with
  | none => exact pure rfl rfl
  | some hr => exact (replaceTop count hr).bind_still fun _ _ _ => pure rfl rfl

theorem smallShortcut {f : CoreObjects → Int → Int → Option Ref} {h : Graph.Core → Int → Int → Option Value}
    (hf : ∀ core c, p.ShowsCore core c → ∀ a b, Option.Rel p.Shows (f core a b) (h c a b)) :
    Simulates p p.Steady (Machine.smallShortcut f) (Spec.smallShortcut h) := by
  have hoperands : Machine.smallShortcut f = Machine.smallOperands? >>= fun
      | some (a, b) => Action.getCore >>= fun core => Machine.replaceTop? 2 (f core a b)
      | none => Pure.pure false := by
    unfold Machine.smallShortcut Machine.smallOperands?
    simp only [Action.bind_assoc]
    congr
    funext receiver
    congr
    funext argument
    unfold Ref.small?
    cases receiver.isSmallInteger <;> cases argument.isSmallInteger <;> rfl
  rw [hoperands]
  refine smallOperands?.bind_still fun operands _ hsame => ?_
  cases eq_of_shows_pair hsame
  cases operands with
  | none => exact pure rfl (.refl p)
  | some operands =>
    exact bind_core fun core c hcore => (replaceTop? 2 (hf core c hcore _ _)).steady

theorem takeShortcut (shortcut : Shortcut) :
    Simulates p p.Steady (Machine.takeShortcut shortcut) (Spec.takeShortcut shortcut) := by
  unfold Machine.takeShortcut Spec.takeShortcut
  cases shortcut with
  | arithmetic op =>
    refine smallShortcut fun core c hcore a b => ?_
    unfold Machine.smallResult?
    cases op.onSmall a b with
    | none => exact .none
    | some value => exact p.shows_ofInt? value
  | comparison op =>
    refine smallShortcut fun core c hcore a b => ?_
    exact .some (hcore.boolean (op.onIntegers a b))
  | maximum =>
    refine smallShortcut fun core c hcore a b => ?_
    exact .some (p.shows_ofInt (max a b))
  | minimum =>
    refine smallShortcut fun core c hcore a b => ?_
    exact .some (p.shows_ofInt (min a b))
  | identical =>
    refine (peek 1).bind_still fun receiver receiverValue hr => ?_
    refine (peek 0).bind_still fun argument argumentValue ha => ?_
    refine bind_core fun core c hcore => ?_
    rw [show decide (receiver = argument) = decide (receiverValue = argumentValue) from
      decide_eq_decide.mpr (hr.eq_iff ha)]
    exact (replaceTop? 2 (.some (hcore.boolean _))).steady
  | classOf =>
    refine (peek 0).bind_still fun receiver receiverValue hr => ?_
    refine (inspect (Reads.classOf hr)).bind_still fun cls clsValue hcls => ?_
    exact (replaceTop? 1 (.some hcls)).steady
  | nilTest expected =>
    refine (peek 0).bind_still fun receiver receiverValue hr => ?_
    refine bind_core fun core c hcore => ?_
    rw [show decide (receiver = core.nil) = decide (receiverValue = c.nil) from
      decide_eq_decide.mpr (hr.eq_iff hcore.nil)]
    exact (replaceTop? 1 (.some (hcore.boolean _))).steady
  | size =>
    refine (peek 0).bind_still fun receiver receiverValue hr => ?_
    refine (look (Reads.isInstance hr .array)).bind_still fun array _ heq => ?_
    cases heq
    cases array with
    | true =>
      refine (read (Reads.length hr)).bind_still fun len _ heq => ?_
      cases heq
      exact (replaceTop? 1 (.some (p.shows_ofNat len))).steady
    | false => exact pure rfl (.refl p)
  | elementAt =>
    refine (peek 1).bind_still fun array arrayValue ha => ?_
    refine (peek 0).bind_still fun index indexValue hi => ?_
    refine (inspect (Reads.arrayPlace? ha hi)).bind_still fun place _ heq => ?_
    cases eq_of_shows heq
    cases place with
    | none => exact pure rfl (.refl p)
    | some place =>
      refine (read (Reads.element ha place)).bind_still fun value w hw => ?_
      exact (replaceTop? 2 (.some hw)).steady
  | elementAtPut =>
    refine (peek 2).bind_still fun array arrayValue ha => ?_
    refine (peek 1).bind_still fun index indexValue hi => ?_
    refine (peek 0).bind_still fun value w hw => ?_
    refine (inspect (Reads.arrayPlace? ha hi)).bind_still fun place _ heq => ?_
    cases eq_of_shows heq
    cases place with
    | none => exact pure rfl (.refl p)
    | some place =>
      refine (write (Writes.storeElement ha hw)).bind_still fun _ _ _ => ?_
      exact (replaceTop? 3 (.some hw)).steady
  | blockValue argCount =>
    refine (peek argCount).bind_still fun block blockValue hb => ?_
    refine (inspect (Reads.isBlockOf argCount hb)).bind_still fun isBlock _ heq => ?_
    cases heq
    cases isBlock with
    | true => exact (activateBlock argCount).bind_steady fun p' _ _ _ _ => pure rfl (.refl p')
    | false => exact pure rfl (.refl p)

theorem sendInFull (index : Nat) :
    Simulates p p.Steady (Machine.sendInFull index) (Spec.sendInFull index) := by
  refine bind_core fun core c hcore => ?_
  have hselector := forall₂_getElem? hcore.special index
  rw [Array.getElem?_toList] at hselector
  cases hs : core.specialSelectors[index]? with
  | none =>
    rw [hs] at hselector
    cases hc : c.special[index]? with
    | none => exact stop rfl
    | some w =>
      rw [hc] at hselector
      cases hselector
  | some s =>
    rw [hs] at hselector
    cases hc : c.special[index]? with
    | none =>
      rw [hc] at hselector
      cases hselector
    | some w =>
      rw [hc] at hselector
      cases hselector with
      | some hshows => exact send hshows _

theorem sendSpecial (index : Nat) :
    Simulates p p.Steady (Machine.sendSpecial index) (Spec.sendSpecial index) := by
  have hrest : ∀ p : Placement, ∀ taken : Bool, Simulates p p.Steady
      (if taken then Pure.pure none else Machine.sendInFull index : Action (Option Ref))
      (if taken then Pure.pure none else Spec.sendInFull index : Spec (Option Value)) := by
    intro p taken
    cases taken with
    | true => exact pure .none (.refl p)
    | false => exact sendInFull index
  unfold Machine.sendSpecial Spec.sendSpecial
  cases Shortcut.ofIndex? index with
  | none =>
    have hno : Simulates p p.Steady (Pure.pure false : Action Bool) (Pure.pure false) :=
      pure rfl (.refl p)
    refine hno.bind_steady fun p' _ taken taken' heq => ?_
    obtain rfl : taken = taken' := heq
    exact hrest p' taken
  | some shortcut =>
    refine (takeShortcut shortcut).bind_steady fun p' _ taken taken' heq => ?_
    obtain rfl : taken = taken' := heq
    exact hrest p' taken

end Simulates

end ObjectMachine
