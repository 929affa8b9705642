import ObjectMachine.Ref

/-!
# The pool of contexts

Contexts that returned without being captured are kept for later activations. They come in two
frame sizes; a larger frame is allocated exactly and never kept. The pool holds bare references, so
it has to be emptied before every collection.
-/

namespace ObjectMachine

/-- Contexts ready for another activation. -/
structure ContextPool where
  small : List Ref
  large : List Ref
  /-- How many activations were served from the pool. -/
  reused : Nat
  deriving Inhabited, Repr

namespace ContextPool

def smallFrame : Nat := 16
def largeFrame : Nat := 64

/-- The number of contexts kept of either size. -/
def limit : Nat := 32

/-- A pool without contexts. -/
def empty : ContextPool :=
  ⟨[], [], 0⟩

/-- The frame that an activation gets if it needs a number of slots. -/
def frameSizeFor (needed : Nat) : Nat :=
  if needed ≤ smallFrame then smallFrame
  else if needed ≤ largeFrame then largeFrame
  else needed

/-- Takes out the context that was put in last among those of a frame size. -/
def take (p : ContextPool) (frameSize : Nat) : Option Ref × ContextPool :=
  if frameSize = smallFrame then
    match p.small with
    | [] => (none, p)
    | context :: rest => (some context, { p with small := rest, reused := p.reused + 1 })
  else if frameSize = largeFrame then
    match p.large with
    | [] => (none, p)
    | context :: rest => (some context, { p with large := rest, reused := p.reused + 1 })
  else (none, p)

/-- Puts in a context of a frame size, if it is one of the two and there is room. -/
def put (p : ContextPool) (context : Ref) (frameSize : Nat) : ContextPool :=
  if frameSize = smallFrame then
    if p.small.length < limit then { p with small := context :: p.small } else p
  else if frameSize = largeFrame then
    if p.large.length < limit then { p with large := context :: p.large } else p
  else p

/-- Forgets all contexts. -/
def clear (p : ContextPool) : ContextPool :=
  { p with small := [], large := [] }

/-- The number of contexts kept. -/
def size (p : ContextPool) : Nat :=
  p.small.length + p.large.length

end ContextPool

end ObjectMachine
