import ObjectMachine.Context.Pool
import ObjectMachine.Heap.Access

/-!
# Contexts

The activation of a method or of a block. The first three fields are the same in both: the context
that is resumed on return, the position of the next instruction, and the number of stack slots in
use. Then a method context has its method and its receiver, and a block context its number of
arguments, where its instructions begin, and its home: the method context whose temporaries and
receiver it works with. A block context is told apart by the small integer in its fourth field.

A context that has returned is dead: nil stands for its sender and for its position.
-/

namespace ObjectMachine

namespace Context

/-! ## Fields -/

def senderField : Nat := 0
def pcField : Nat := 1
def spField : Nat := contextStackPointer
def methodField : Nat := 3
def argCountField : Nat := 3
def initialPcField : Nat := 4
def receiverField : Nat := 5
def homeField : Nat := 5

/-! ## Reading -/

/-- Whether a context activates a block. -/
@[inline] def isBlock (h : Heap) (context : Ref) : Except Fatal Bool := do
  return (← h.fetchField context argCountField).isSmallInteger

/-- The method context whose temporaries a context works with. -/
@[inline] def home (h : Heap) (context : Ref) : Except Fatal Ref := do
  if ← isBlock h context then h.fetchField context homeField else return context

/-- The context to be resumed. Of a block context this is the one that evaluates the block. -/
@[inline] def sender (h : Heap) (context : Ref) : Except Fatal Ref :=
  h.fetchField context senderField

/-- The method that a context runs. -/
def method (h : Heap) (context : Ref) : Except Fatal Ref := do
  h.fetchField (← home h context) methodField

/-- The receiver that a context works for. -/
def receiver (h : Heap) (context : Ref) : Except Fatal Ref := do
  h.fetchField (← home h context) receiverField

/-- The number of arguments of a block. -/
@[inline] def blockArgCount (h : Heap) (block : Ref) : Except Fatal Nat := do
  return (← h.fetchField block argCountField).toCount

/-- Where the instructions of a block begin. -/
def initialPc (h : Heap) (block : Ref) : Except Fatal Nat := do
  return (← h.fetchField block initialPcField).toCount

/-- A count in a field, unless something else stands there. -/
@[inline] def register? (h : Heap) (context : Ref) (field : Nat) : Except Fatal (Option Nat) := do
  let value ← h.fetchField context field
  return if value.isSmallInteger then some value.toCount else none

/-- The position of the next instruction. -/
@[inline] def pc? (h : Heap) (context : Ref) : Except Fatal (Option Nat) :=
  register? h context pcField

/-- The number of stack slots in use. -/
@[inline] def sp? (h : Heap) (context : Ref) : Except Fatal (Option Nat) :=
  register? h context spField

/-- Whether a context has returned. -/
@[inline] def isDead (h : Heap) (context : Ref) : Except Fatal Bool := do
  return (← pc? h context).isNone

/-- The slots for temporaries and the operand stack. -/
@[inline] def frameSize (h : Heap) (context : Ref) : Except Fatal Nat :=
  h.length context

/-- The stack slots in use, the lowest first. -/
def stack (h : Heap) (context : Ref) : Except Fatal (List Ref) := do
  let depth := (← sp? h context).getD 0
  if depth = 0 then return []
  require (decide (depth ≤ (← h.length context))) .position
  (List.range depth).mapM (h.fetchElement context ·)

/-- Whether a context is among the senders of a context from `current` on, as far as `fuel` of them
are looked at. -/
def sentFrom (h : Heap) (target current : Ref) : Nat → Except Fatal Bool
  | 0 => .error (.fault .endless)
  | fuel + 1 =>
    if current.isPointer && current != h.nil then
      if current = target then .ok true
      else do sentFrom h target (← sender h current) fuel
    else .ok false

/-- Whether `target` is among the senders of a context, itself apart. There cannot be more senders
than words. -/
def hasSender (h : Heap) (context target : Ref) : Except Fatal Bool := do
  sentFrom h target (← sender h context) (h.memory.size + 1)

/-! ## Writing -/

/-- Marks a context as returned. -/
def kill (h : Heap) (context : Ref) : Except Fatal Heap := do
  let nil := h.nil
  let h ← h.storeField context senderField nil
  h.storeField context pcField nil

end Context

namespace ContextPool

/-- Keeps a context for another activation, unless something may still refer to it. -/
def recycle (p : ContextPool) (h : Heap) (context : Ref) : Except Fatal ContextPool := do
  if ← h.isCaptured context then return p
  return p.put context (← Context.frameSize h context)

end ContextPool

end ObjectMachine
