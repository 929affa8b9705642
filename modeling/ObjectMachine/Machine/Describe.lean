import ObjectMachine.Context.Basic
import ObjectMachine.Machine.Classes
import ObjectMachine.Number.Layout

/-!
# Descriptions

A short text for any reference: literals as they are written, classes by name, arrays by their first
elements, and anything else by its class.
-/

namespace ObjectMachine.Machine

/-! ## Values -/

/-- The value of a small or large integer. -/
def integerValue? (m : Machine) (r : Ref) : Except Fatal (Option Int) := do
  if r.isSmallInteger then return some r.toInt
  if ← m.isInstance .largeInteger r then m.heap.largeInteger? r else return none

/-- Whether a reference designates a floating-point number. -/
def isFloat (m : Machine) (r : Ref) : Except Fatal Bool :=
  m.isInstance .float r

/-! ## Texts -/

/-- The text of a string or a symbol, empty for anything else. -/
def stringText (m : Machine) (r : Ref) : Except Fatal String := do
  return (← m.stringValue? r).getD ""

/-- The description of a context. -/
def contextText (m : Machine) (r : Ref) : Except Fatal String := do
  let kind := if ← Context.isBlock m.heap r then "block" else "method"
  let state := if ← Context.isDead m.heap r then " (dead)" else ""
  return s!"a {kind} context{state}"

/-- A name with its indefinite article. -/
def withArticle (name : String) : String :=
  match name.toList with
  | 'A' :: _ | 'E' :: _ | 'I' :: _ | 'O' :: _ | 'U' :: _ => "an " ++ name
  | _ => "a " ++ name

/-- The description of an object that is neither null nor nil nor a truth value. Arrays are left to
`arrayText`. -/
def objectText (m : Machine) (arrayText : Ref → Except Fatal String) (r : Ref) :
    Except Fatal String := do
  let cls ← m.heap.classOf r
  if cls = m.core.cls .symbol then return "#" ++ (← m.stringText r)
  if cls = m.core.cls .string then return "'" ++ (← m.stringText r) ++ "'"
  if cls = m.core.cls .float then return (← m.heap.floatValue r).text
  if cls = m.core.cls .largeInteger then
    return ((← m.integerValue? r).map Text.decimal).getD ""
  if ← m.isClass r then m.className r
  else if cls = m.core.cls .methodContext ∨ cls = m.core.cls .blockContext then m.contextText r
  else if cls = m.core.cls .array then arrayText r
  else return withArticle (← m.className cls)

/-- The description of anything, with arrays left to `arrayText`. -/
def describeWith (m : Machine) (arrayText : Ref → Except Fatal String) (r : Ref) :
    Except Fatal String :=
  match r.tag with
  | .smallInteger => .ok (Text.decimal r.toInt)
  | .character => .ok ("$" ++ String.singleton r.toChar)
  | .marker => .ok ("<marker " ++ Text.hex r.markerPayload.toNat ++ ">")
  | .pointer =>
    if r.isNull then .ok "<null>"
    else if r = m.core.nil then .ok "nil"
    else if r = m.core.trueObject then .ok "true"
    else if r = m.core.falseObject then .ok "false"
    else m.objectText arrayText r

/-- The description of an element of an array: arrays are not opened. -/
def describeElement (m : Machine) (r : Ref) : Except Fatal String := do
  if ← m.isInstance .array r then return "(...)"
  m.describeWith (fun _ => .ok "(...)") r

/-- The number of elements that the description of an array shows. -/
def shownElements : Nat := 8

/-- The description of an array. -/
def arrayText (m : Machine) (r : Ref) : Except Fatal String := do
  let len ← m.heap.length r
  let shown ← (List.range (min len shownElements)).mapM fun i => do
    m.describeElement (← m.heap.fetchElement r i)
  let rest := if shownElements < len then ["..."] else []
  return "(" ++ String.intercalate " " (shown ++ rest) ++ ")"

/-- The description of anything. -/
def describe (m : Machine) (r : Ref) : Except Fatal String :=
  m.describeWith m.arrayText r

end ObjectMachine.Machine
