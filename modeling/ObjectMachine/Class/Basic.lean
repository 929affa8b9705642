import ObjectMachine.Class.InstanceSpec
import ObjectMachine.Class.MethodDictionary

/-!
# Classes

A class knows its superclass, its methods, the shape of its instances and its name. The class of a
class is its metaclass, which knows the class as its only instance. A message is looked up in the
dictionary of a class and then in those of its superclasses, one after the other.
-/

namespace ObjectMachine.Class

def superclassField : Nat := 0
def dictionaryField : Nat := 1
def specField : Nat := 2
def nameField : Nat := 3
/-- Of a metaclass, its only instance; nil in other classes. -/
def instanceField : Nat := 4
def fieldCount : Nat := 5

@[inline] def superclass (h : Heap) (cls : Ref) : Except Fatal Ref :=
  h.fetchField cls superclassField

@[inline] def dictionary (h : Heap) (cls : Ref) : Except Fatal Ref :=
  h.fetchField cls dictionaryField

/-- The shape of the instances, if the class has one. -/
def instanceSpec? (h : Heap) (cls : Ref) : Except Fatal (Option InstanceSpec) := do
  return InstanceSpec.ofRef? (← h.fetchField cls specField)

/-- Whether a reference may be a class in a chain of superclasses: nil ends it. -/
@[inline] def isLink (h : Heap) (r : Ref) : Bool :=
  r.isPointer && r != h.nil

/-- The method of a selector in the dictionary of one class. -/
def ownMethod? (h : Heap) (cls selector : Ref) : Except Fatal (Option Ref) := do
  let dictionary ← dictionary h cls
  if isLink h dictionary then MethodDictionary.lookup? h dictionary selector else return none

/-- Looks a selector up in at most `fuel` classes. -/
def lookupFrom (h : Heap) (selector cls : Ref) : Nat → Except Fatal (Option Ref)
  | 0 => .error (.fault .endless)
  | fuel + 1 =>
    if isLink h cls then do
      match ← ownMethod? h cls selector with
      | some method => return some method
      | none => lookupFrom h selector (← superclass h cls) fuel
    else .ok none

/-- The method that a class answers a selector with. There cannot be more superclasses than
words. -/
def lookupMethod? (h : Heap) (cls selector : Ref) : Except Fatal (Option Ref) :=
  lookupFrom h selector cls (h.memory.size + 1)

/-- Whether a class is met among a class and its superclasses, of which at most `fuel` are looked
at. -/
def inheritsWithin (h : Heap) (ancestor cls : Ref) : Nat → Except Fatal Bool
  | 0 => .error (.fault .endless)
  | fuel + 1 =>
    if isLink h cls then
      if cls = ancestor then .ok true
      else do inheritsWithin h ancestor (← superclass h cls) fuel
    else .ok false

/-- Whether a class is another one or inherits from it. -/
def inheritsFrom (h : Heap) (cls ancestor : Ref) : Except Fatal Bool :=
  inheritsWithin h ancestor cls (h.memory.size + 1)

end ObjectMachine.Class
