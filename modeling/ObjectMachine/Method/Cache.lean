import ObjectMachine.Number.PowerOfTwo
import ObjectMachine.Ref

/-!
# The method cache

A direct-mapped cache of the methods found for pairs of a class and a selector. Its entries are bare
references that the collector does not know of: it is flushed after every collection and whenever a
method dictionary changes.
-/

namespace ObjectMachine

/-- The method found for a class and a selector. -/
structure CacheEntry where
  cls : Ref
  selector : Ref
  method : Ref
  deriving DecidableEq, Inhabited, Repr

/-- A cache of method lookups. -/
structure MethodCache where
  entries : Array CacheEntry
  hits : Nat
  misses : Nat
  deriving Inhabited, Repr

namespace MethodCache

/-- The number of entries when nothing else is asked for. -/
def defaultSize : Nat := 1024

/-- The entry that answers nothing. -/
def noEntry : CacheEntry :=
  ⟨.null, .null, .null⟩

/-- An empty cache. Its size has to be a power of two. -/
def ofSize? (size : Nat) : Option MethodCache :=
  if isPowerOfTwo size then some ⟨Array.replicate size noEntry, 0, 0⟩ else none

/-- Where the entry of a class and a selector is. -/
@[inline] def index (c : MethodCache) (cls selector : Ref) : Nat :=
  ((cls.bits ^^^ selector.bits) >>> 3).toNat % c.entries.size

/-- The method of a class and a selector, if the cache has it. -/
@[inline] def find? (c : MethodCache) (cls selector : Ref) : Option Ref :=
  match c.entries[c.index cls selector]? with
  | some entry =>
    if entry.cls = cls ∧ entry.selector = selector ∧ !entry.method.isNull then some entry.method
    else none
  | none => none

/-- Counts a hit or a miss. -/
@[inline] def record (c : MethodCache) (hit : Bool) : MethodCache :=
  if hit then { c with hits := c.hits + 1 } else { c with misses := c.misses + 1 }

/-- Looks an entry up and counts the outcome. -/
def probe (c : MethodCache) (cls selector : Ref) : Option Ref × MethodCache :=
  match c.find? cls selector with
  | some method => (some method, c.record true)
  | none => (none, c.record false)

/-- Puts an entry in place of the one with the same index. -/
def insert (c : MethodCache) (cls selector method : Ref) : MethodCache :=
  { c with entries := c.entries.setIfInBounds (c.index cls selector) ⟨cls, selector, method⟩ }

/-- Forgets all entries. The counts stay. -/
def flush (c : MethodCache) : MethodCache :=
  { c with entries := Array.replicate c.entries.size noEntry }

end MethodCache

end ObjectMachine
