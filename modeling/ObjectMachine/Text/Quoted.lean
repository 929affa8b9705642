import ObjectMachine.Text.Radix
import ObjectMachine.Text.Hidden
import ObjectMachine.Text.Extending

/-!
# Quoted characters

A character between single quotation marks. Tab, return, newline, the null character, the backslash
and the single quotation mark have short escapes; a character that extends its predecessor or shows
nothing of its own is written by its code point; every other character stands for itself.
-/

namespace ObjectMachine.Text

/-- What stands for a character between single quotation marks. -/
def quotedBody (c : Char) : String :=
  if c = '\x00' then "\\0"
  else if c = '\t' then "\\t"
  else if c = '\r' then "\\r"
  else if c = '\n' then "\\n"
  else if c = '\'' then "\\'"
  else if c = '\\' then "\\\\"
  else if isExtending c || isHidden c then "\\u\x7b" ++ hexDigits c.toNat ++ "\x7d"
  else String.singleton c

/-- A character between single quotation marks. -/
def quoted (c : Char) : String :=
  "'" ++ quotedBody c ++ "'"

end ObjectMachine.Text
