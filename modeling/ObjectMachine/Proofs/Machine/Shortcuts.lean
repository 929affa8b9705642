import ObjectMachine.Execution.Shortcut
import ObjectMachine.Proofs.Machine.Outcomes

/-!
# Shortcuts as plans

A message with an opcode of its own may be answered without a lookup. What a shortcut does is decided
by the stack, by memory and by the objects that the machine knows; it is then one of three things, a
`Plan`. The primitives of the kernel methods make the same plans.

## Main results

* `Machine.takeShortcut_eq`: a shortcut is a plan that is followed.
* `Machine.smallArithmetic_eq` and the like: a primitive follows the plan of a shortcut.
* `Machine.IsArray.elementAt` and the like: so do the primitives for indexed objects, for arrays.
-/

namespace ObjectMachine

/-! ## Plans -/

/-- What a shortcut does once it is taken. -/
inductive Plan where
  | answer (count : Nat) (value : Ref)
  | store (array : Ref) (place : Nat) (value : Ref)
  | activate (argCount : Nat)

/-- Does what is planned. -/
def Plan.run : Plan → Action Unit
  | .answer count value => Machine.replaceTop count value
  | .store array place value => do
    Action.write (·.storeElement array place value)
    Machine.replaceTop 3 value
  | .activate argCount => Machine.activateBlock argCount

namespace Machine

/-- The plan for an operation on two small integers. -/
def smallPlan (m : Machine) (f : Int → Int → Option Ref) : Except Fatal (Option Plan) := do
  let receiver ← m.stackValue 1
  let argument ← m.stackValue 0
  if receiver.isSmallInteger && argument.isSmallInteger then
    return (f receiver.toInt argument.toInt).map (.answer 2)
  else return none

/-- What a shortcut will do, if it is taken. -/
def plan (m : Machine) : Shortcut → Except Fatal (Option Plan)
  | .arithmetic op => m.smallPlan fun a b => smallResult? op a b
  | .comparison op => m.smallPlan fun a b => some (m.core.boolean (op.onIntegers a b))
  | .maximum => m.smallPlan fun a b => some (.ofInt (max a b))
  | .minimum => m.smallPlan fun a b => some (.ofInt (min a b))
  | .identical => do
    let receiver ← m.stackValue 1
    let argument ← m.stackValue 0
    return some (.answer 2 (m.core.boolean (decide (receiver = argument))))
  | .classOf => do
    let receiver ← m.stackValue 0
    let cls ← m.classOf receiver
    return some (.answer 1 cls)
  | .nilTest expected => do
    let receiver ← m.stackValue 0
    return some (.answer 1 (m.core.boolean (decide (receiver = m.core.nil) == expected)))
  | .size => do
    let receiver ← m.stackValue 0
    if ← m.isInstance .array receiver then
      let len ← m.heap.length receiver
      return some (.answer 1 (.ofNat len))
    else return none
  | .elementAt => do
    let array ← m.stackValue 1
    let index ← m.stackValue 0
    match ← m.arrayPlace? array index with
    | some place =>
      let value ← m.heap.fetchElement array place
      return some (.answer 2 value)
    | none => return none
  | .elementAtPut => do
    let array ← m.stackValue 2
    let index ← m.stackValue 1
    let value ← m.stackValue 0
    match ← m.arrayPlace? array index with
    | some place => return some (.store array place value)
    | none => return none
  | .blockValue argCount => do
    let block ← m.stackValue argCount
    if ← m.isBlockOf argCount block then return some (.activate argCount) else return none

/-- Follows a plan, if there is one. -/
def follow {α : Type} (plan : Machine → Except Fatal (Option Plan)) (done refused : α) :
    Action α := do
  match ← Action.inspect plan with
  | some p =>
    p.run
    return done
  | none => return refused

variable {α β : Type} {m m' : Machine}

theorem inspect_bind (f : Machine → Except Fatal α) (k : α → Action β) (m : Machine) :
    (Action.inspect f >>= k) m = match f m with
      | .ok a => k a m
      | .error cause => .stopped cause := by
  show Action.bind _ _ m = _
  unfold Action.bind Action.inspect
  cases f m <;> rfl

theorem read_bind (f : Heap → Except Fatal α) (k : α → Action β) (m : Machine) :
    (Action.read f >>= k) m = match f m.heap with
      | .ok a => k a m
      | .error cause => .stopped cause := by
  show Action.bind _ _ m = _
  unfold Action.bind Action.read
  cases f m.heap <;> rfl

theorem follow_eq (plan : Machine → Except Fatal (Option Plan)) (done refused : α) (m : Machine) :
    follow plan done refused m = match plan m with
      | .ok (some p) => (p.run >>= fun _ => pure done) m
      | .ok none => .ok refused m
      | .error cause => .stopped cause := by
  unfold follow
  rw [inspect_bind]
  cases plan m with
  | error cause => rfl
  | ok p => cases p <;> rfl

theorem follow_bind (plan : Machine → Except Fatal (Option Plan)) (done refused : α)
    (f : α → Action β) (m : Machine) :
    (follow plan done refused >>= f) m = match plan m with
      | .ok (some p) => (p.run >>= fun _ => f done) m
      | .ok none => f refused m
      | .error cause => .stopped cause := by
  unfold follow
  rw [Action.bind_assoc, inspect_bind]
  cases plan m with
  | error cause => rfl
  | ok p =>
    cases p with
    | none => rfl
    | some p =>
      show (p.run >>= (fun _ => pure done) >>= f) m = _
      rw [Action.bind_assoc]
      rfl

/-- A plan may be made in steps. -/
theorem inspect_follow (f : Machine → Except Fatal α)
    (plan : α → Machine → Except Fatal (Option Plan)) (done refused : β) :
    (Action.inspect f >>= fun a => follow (plan a) done refused) =
      follow (fun m => f m >>= fun a => plan a m) done refused := by
  funext m
  rw [inspect_bind, follow_eq]
  cases hf : f m with
  | error cause => rfl
  | ok a => exact follow_eq ..

theorem read_follow (f : Heap → Except Fatal α)
    (plan : α → Machine → Except Fatal (Option Plan)) (done refused : β) :
    (Action.read f >>= fun a => follow (plan a) done refused) =
      follow (fun m => f m.heap >>= fun a => plan a m) done refused :=
  inspect_follow (fun m => f m.heap) plan done refused

theorem getCore_follow (plan : CoreObjects → Machine → Except Fatal (Option Plan))
    (done refused : β) :
    (Action.getCore >>= fun core => follow (plan core) done refused) =
      follow (fun m => plan m.core m) done refused := by
  funext m
  rw [follow_eq]
  exact follow_eq ..

theorem ite_follow (c : Prop) [Decidable c] (p q : Machine → Except Fatal (Option Plan))
    (done refused : β) :
    (if c then follow p done refused else follow q done refused) =
      follow (fun m => if c then p m else q m) done refused := by
  split <;> rfl

theorem refuse_eq (done refused : β) :
    (pure refused : Action β) = follow (fun _ => .ok none) done refused := by
  funext m
  rw [follow_eq]
  rfl

theorem run_eq (p : Plan) (done refused : β) :
    (p.run >>= fun _ => pure done) = follow (fun _ => .ok (some p)) done refused := by
  funext m
  rw [follow_eq]

theorem replaceTop?_eq (count : Nat) (value : Option Ref) :
    replaceTop? count value = follow (fun _ => .ok (value.map (.answer count))) true false := by
  cases value with
  | none => exact refuse_eq true false
  | some value => exact run_eq (.answer count value) true false

theorem smallShortcut_eq (f : CoreObjects → Int → Int → Option Ref) :
    smallShortcut f = follow (fun m => m.smallPlan (f m.core)) true false := by
  simp only [smallShortcut, peek, replaceTop?_eq, refuse_eq true false, getCore_follow, ite_follow,
    inspect_follow]
  rfl

/-- A shortcut is a plan that is followed. -/
theorem takeShortcut_eq (s : Shortcut) : takeShortcut s = follow (·.plan s) true false := by
  cases s with
  | arithmetic op => exact smallShortcut_eq fun _ a b => smallResult? op a b
  | comparison op => exact smallShortcut_eq fun core a b => some (core.boolean (op.onIntegers a b))
  | maximum => exact smallShortcut_eq fun _ a b => some (.ofInt (max a b))
  | minimum => exact smallShortcut_eq fun _ a b => some (.ofInt (min a b))
  | identical =>
    simp only [takeShortcut, peek, replaceTop?_eq, getCore_follow, inspect_follow]
    rfl
  | classOf =>
    simp only [takeShortcut, peek, replaceTop?_eq, inspect_follow]
    rfl
  | nilTest expected =>
    simp only [takeShortcut, peek, replaceTop?_eq, getCore_follow, inspect_follow]
    rfl
  | size =>
    simp only [takeShortcut, peek, replaceTop?_eq, refuse_eq true false, read_follow, ite_follow,
      inspect_follow]
    rfl
  | elementAt =>
    unfold takeShortcut peek
    rw [show (fun m : Machine => m.plan .elementAt) = fun m => m.stackValue 1 >>= fun array =>
      m.stackValue 0 >>= fun index => m.arrayPlace? array index >>= fun place => _ from rfl]
    simp only [← inspect_follow]
    refine bind_congr fun array => bind_congr fun index => bind_congr fun place => ?_
    cases place with
    | none => exact refuse_eq true false
    | some place =>
      simp only [replaceTop?_eq, read_follow]
      rfl
  | elementAtPut =>
    unfold takeShortcut peek
    rw [show (fun m : Machine => m.plan .elementAtPut) = fun m => m.stackValue 2 >>= fun array =>
      m.stackValue 1 >>= fun index => m.stackValue 0 >>= fun value =>
      m.arrayPlace? array index >>= fun place => _ from rfl]
    simp only [← inspect_follow]
    refine bind_congr fun array => bind_congr fun index => bind_congr fun value =>
      bind_congr fun place => ?_
    cases place with
    | none => exact refuse_eq true false
    | some place =>
      exact (Action.bind_assoc (Action.write (·.storeElement array place value))
        (fun _ => replaceTop 3 value) fun _ => pure true).symm.trans
        (run_eq (.store array place value) true false)
  | blockValue argCount =>
    unfold takeShortcut peek
    rw [show (fun m : Machine => m.plan (.blockValue argCount)) = fun m =>
      m.stackValue argCount >>= fun block => m.isBlockOf argCount block >>= fun is => _ from rfl]
    simp only [← inspect_follow]
    refine bind_congr fun block => bind_congr fun is => ?_
    cases is with
    | false => exact refuse_eq true false
    | true => exact run_eq (.activate argCount) true false

/-! ## Primitives -/

theorem answer_eq (argCount : Nat) (value : Ref) : answer argCount value =
    follow (fun _ => .ok (some (.answer (argCount + 1) value))) .done .failed :=
  run_eq (.answer (argCount + 1) value) Verdict.done Verdict.failed

theorem answer?_eq (argCount : Nat) (value : Option Ref) : answer? argCount value =
    follow (fun _ => .ok (value.map (.answer (argCount + 1)))) .done .failed := by
  cases value with
  | none => exact refuse_eq Verdict.done Verdict.failed
  | some value => exact answer_eq argCount value

theorem smallArithmetic_eq (op : Arithmetic) :
    smallArithmetic op = follow (·.plan (.arithmetic op)) .done .failed := by
  rw [show (fun m : Machine => m.plan (.arithmetic op)) = fun m => m.stackValue 1 >>=
    fun receiver => m.stackValue 0 >>= fun argument => _ from rfl]
  unfold smallArithmetic smallOperands? peek
  simp only [← inspect_follow, Action.bind_assoc]
  refine bind_congr fun receiver => bind_congr fun argument => ?_
  unfold Ref.small?
  cases receiver.isSmallInteger with
  | false => exact refuse_eq Verdict.done Verdict.failed
  | true =>
    cases argument.isSmallInteger with
    | false => exact refuse_eq Verdict.done Verdict.failed
    | true => exact answer?_eq 1 _

theorem smallComparison_eq (op : Comparison) :
    smallComparison op = follow (·.plan (.comparison op)) .done .failed := by
  rw [show (fun m : Machine => m.plan (.comparison op)) = fun m => m.stackValue 1 >>=
    fun receiver => m.stackValue 0 >>= fun argument => _ from rfl]
  unfold smallComparison smallOperands? peek
  simp only [← inspect_follow, Action.bind_assoc]
  refine bind_congr fun receiver => bind_congr fun argument => ?_
  unfold Ref.small?
  cases receiver.isSmallInteger with
  | false => exact refuse_eq Verdict.done Verdict.failed
  | true =>
    cases argument.isSmallInteger with
    | false => exact refuse_eq Verdict.done Verdict.failed
    | true =>
      show (Action.getCore >>= fun core =>
        answer 1 (core.boolean (op.onIntegers receiver.toInt argument.toInt))) = _
      simp only [answer_eq, getCore_follow]
      rfl

theorem identity_eq : identity true = follow (·.plan .identical) .done .failed := by
  simp only [identity, answerBoolean, peek, answer_eq, getCore_follow, inspect_follow, beq_true]
  rfl

theorem receiverClass_eq : receiverClass = follow (·.plan .classOf) .done .failed := by
  simp only [receiverClass, peek, answer_eq, inspect_follow]
  rfl

theorem blockValue_eq (argCount : Nat) :
    blockValue argCount = follow (·.plan (.blockValue argCount)) .done .failed := by
  unfold blockValue peek
  rw [show (fun m : Machine => m.plan (.blockValue argCount)) = fun m =>
    m.stackValue argCount >>= fun block => m.isBlockOf argCount block >>= fun is => _ from rfl]
  simp only [← inspect_follow]
  refine bind_congr fun block => bind_congr fun is => ?_
  cases is with
  | false => exact refuse_eq Verdict.done Verdict.failed
  | true => exact run_eq (.activate argCount) Verdict.done Verdict.failed

/-- An instance of the class of arrays that is one. -/
structure IsArray (m : Machine) (r : Ref) : Prop where
  isInstance : m.isInstance .array r = .ok true
  format : m.heap.format r = .ok .array

namespace IsArray

variable {array index : Ref}

theorem openFormat? (ha : m.IsArray array) : m.openFormat? array = .ok (some .array) := by
  have hp : array.isPointer = true := by
    by_contra hp
    have hinstance := ha.isInstance
    rw [Machine.isInstance, if_neg hp] at hinstance
    cases hinstance
  unfold Machine.openFormat?
  rw [hp, ha.format]
  rfl

theorem arrayPlace? (ha : m.IsArray array) (index : Ref) :
    m.arrayPlace? array index = m.heap.length array >>= fun len => .ok (index.indexInto? len) := by
  unfold Machine.arrayPlace?
  rw [ha.isInstance]
  rfl

theorem elementPlace? (ha : m.IsArray array) (index : Ref) : m.elementPlace? array index =
    m.arrayPlace? array index >>= fun place => .ok (place.map (Format.array, ·)) := by
  unfold Machine.elementPlace?
  rw [ha.openFormat?, ha.arrayPlace?]
  show (m.heap.length array >>= _) = (m.heap.length array >>= _) >>= _
  cases m.heap.length array <;> rfl

theorem indexableSize (ha : m.IsArray array) (harray : m.stackValue 0 = .ok array) :
    m.indexableSize = follow (·.plan .size) .done .failed m := by
  have hplan : m.plan .size = m.heap.length array >>= fun len =>
      .ok (some (.answer 1 (.ofNat len))) := by
    unfold Machine.plan
    rw [harray]
    show (m.isInstance .array array >>= _) = _
    rw [ha.isInstance]
    rfl
  rw [follow_eq, hplan]
  unfold Machine.indexableSize peek
  rw [inspect_bind, harray]
  dsimp only
  rw [inspect_bind, ha.openFormat?]
  dsimp only
  rw [read_bind]
  cases m.heap.length array <;> rfl

theorem elementAt (ha : m.IsArray array) (harray : m.stackValue 1 = .ok array)
    (hindex : m.stackValue 0 = .ok index) :
    m.elementAt = follow (·.plan .elementAt) .done .failed m := by
  have hplan : m.plan .elementAt = m.arrayPlace? array index >>= fun place => match place with
      | some place => m.heap.fetchElement array place >>= fun value => .ok (some (.answer 2 value))
      | none => .ok none := by
    unfold Machine.plan
    rw [harray, hindex]
    rfl
  unfold Machine.elementAt peek
  rw [inspect_bind, harray]
  dsimp only
  rw [inspect_bind, hindex]
  dsimp only
  rw [inspect_bind, ha.elementPlace?, follow_eq, hplan]
  cases m.arrayPlace? array index with
  | error cause => rfl
  | ok place =>
    cases place with
    | none => rfl
    | some place =>
      show (readElement array .array place >>= answer? 1) m = _
      unfold readElement
      dsimp only
      rw [Action.bind_assoc, read_bind]
      show _ = match (m.heap.fetchElement array place >>= fun value =>
          .ok (some (Plan.answer 2 value)) : Except Fatal (Option Plan)) with
        | .ok (some p) => _
        | .ok none => _
        | .error cause => _
      cases m.heap.fetchElement array place <;> rfl

theorem elementAtPut {value : Ref} (ha : m.IsArray array) (harray : m.stackValue 2 = .ok array)
    (hindex : m.stackValue 1 = .ok index) (hvalue : m.stackValue 0 = .ok value) :
    m.elementAtPut = follow (·.plan .elementAtPut) .done .failed m := by
  have hplan : m.plan .elementAtPut = m.arrayPlace? array index >>= fun place =>
      .ok (place.map fun place => .store array place value) := by
    unfold Machine.plan
    rw [harray, hindex, hvalue]
    show (m.arrayPlace? array index >>= _) = _
    refine bind_congr fun place => ?_
    cases place <;> rfl
  unfold Machine.elementAtPut peek
  rw [inspect_bind, harray]
  dsimp only
  rw [inspect_bind, hindex]
  dsimp only
  rw [inspect_bind, ha.elementPlace?, follow_eq, hplan]
  cases m.arrayPlace? array index with
  | error cause => rfl
  | ok place =>
    cases place with
    | none => rfl
    | some place =>
      show (Action.inspect (·.stackValue 0) >>= _) m = _
      rw [inspect_bind, hvalue]
      show ((Action.write (·.storeElement array place value) >>= fun _ => pure true) >>= _) m =
        ((Action.write (·.storeElement array place value) >>= fun _ => replaceTop 3 value) >>= _) m
      rw [Action.bind_assoc, Action.bind_assoc]
      rfl

end IsArray

end Machine

end ObjectMachine
