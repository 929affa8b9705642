/-!
# Blanks

The characters that count as blank space, and texts without them at their ends.
-/

namespace ObjectMachine.Text

/-- Whether a character is blank space, as the Unicode standard has it. -/
def isBlank (c : Char) : Bool :=
  let n := c.toNat
  (9 ≤ n && n ≤ 13) || n == 0x20 || n == 0x85 || n == 0xA0 || n == 0x1680 ||
    (0x2000 ≤ n && n ≤ 0x200A) || n == 0x2028 || n == 0x2029 || n == 0x202F || n == 0x205F ||
    n == 0x3000

/-- A text without the blanks at its end. -/
def trimEnd (text : String) : String :=
  String.ofList (text.toList.reverse.dropWhile isBlank).reverse

end ObjectMachine.Text
