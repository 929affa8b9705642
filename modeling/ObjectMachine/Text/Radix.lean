/-!
# Numbers in text

Hexadecimal, signed and padded spellings of numbers. They are the leaves of every text the machine
writes about itself: references, headers, listings and failures.
-/

namespace ObjectMachine.Text

/-- The digits of a number in base sixteen, lower case, without leading zeros. -/
def hexDigits (n : Nat) : String :=
  String.ofList (Nat.toDigits 16 n)

/-- A number in base sixteen with its `0x` mark. -/
def hex (n : Nat) : String :=
  "0x" ++ hexDigits n

/-- `count` copies of a character. -/
def fill (c : Char) (count : Nat) : String :=
  String.ofList (List.replicate count c)

/-- Puts `c` in front of a text until it is `width` characters long. -/
def padLeft (c : Char) (width : Nat) (text : String) : String :=
  fill c (width - text.length) ++ text

/-- Puts blanks after a text until it is `width` characters long. -/
def padRight (width : Nat) (text : String) : String :=
  text ++ fill ' ' (width - text.length)

/-- A byte in base sixteen, always with two digits. -/
def hexByte (b : UInt8) : String :=
  "0x" ++ padLeft '0' 2 (hexDigits b.toNat)

/-- An integer in base ten. -/
def decimal : Int → String
  | .ofNat n => Nat.repr n
  | .negSucc n => "-" ++ Nat.repr (n + 1)

/-- An integer that always carries its sign; zero counts as positive. -/
def signed (i : Int) : String :=
  if 0 ≤ i then "+" ++ decimal i else decimal i

end ObjectMachine.Text
