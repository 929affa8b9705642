/-!
# Powers of two

Tables that are indexed by masking a hash have a power of two as their size.
-/

namespace ObjectMachine

/-- Whether a number is a power of two: it has exactly one bit. -/
def isPowerOfTwo (n : Nat) : Bool :=
  n != 0 && n &&& (n - 1) == 0

end ObjectMachine
