import ObjectMachine.Object.Format

/-!
# Heap configuration

How large memory is at first, how large it may grow, and when it is collected.
-/

namespace ObjectMachine

/-- Words in a page. Memory is committed in whole pages. -/
def pageWords : Nat := 512

/-- Sizes and policy of a heap. -/
structure HeapConfig where
  /-- Bytes committed at first. -/
  initialBytes : Nat := 1048576
  /-- Bytes that memory may grow to. -/
  maxBytes : Nat := 536870912
  /-- Bytes allocated between two collections. -/
  threshold : Nat := 524288
  /-- Entries that the work list of a collection may hold. -/
  markLimit : Nat := 1048576
  /-- Whether to collect before every allocation. -/
  stress : Bool := false
  deriving DecidableEq, Inhabited, Repr

/-- Why a configuration is refused. -/
inductive ConfigProblem where
  | lessThanOnePage
  | initialExceedsMaximum (initial maximum : Nat)
  | noThreshold
  | noMarkLimit
  deriving DecidableEq, Repr

/-- The report of a refused configuration. -/
def ConfigProblem.message : ConfigProblem → String
  | .lessThanOnePage =>
    s!"maximum heap size must be at least one page ({pageWords * wordBytes} bytes)"
  | .initialExceedsMaximum initial maximum =>
    s!"initial heap size ({initial}) exceeds the maximum heap size ({maximum})"
  | .noThreshold => "collection threshold must be non-zero"
  | .noMarkLimit => "mark stack limit must be non-zero"

namespace HeapConfig

/-- The first reason to refuse a configuration. -/
def problem? (c : HeapConfig) : Option ConfigProblem :=
  if c.maxBytes < pageWords * wordBytes then some .lessThanOnePage
  else if c.maxBytes < c.initialBytes then some (.initialExceedsMaximum c.initialBytes c.maxBytes)
  else if c.threshold = 0 then some .noThreshold
  else if c.markLimit = 0 then some .noMarkLimit
  else none

end HeapConfig

end ObjectMachine
