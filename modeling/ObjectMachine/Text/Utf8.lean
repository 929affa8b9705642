/-!
# Reading bytes as UTF-8

Byte objects may hold any bytes, and their text is shown all the same. A sequence that encodes a
character becomes that character. Where the bytes stop being the beginning of an encoding, the
longest such beginning (or one byte, if there is none) becomes a single replacement character and
reading goes on with the next byte.
-/

namespace ObjectMachine.Text

/-- Stands for bytes that encode nothing. -/
def replacement : Char := '\uFFFD'

/-- Whether a byte continues a sequence. -/
def isContinuation (b : UInt8) : Bool :=
  0x80 ≤ b && b ≤ 0xBF

/-- The number of bytes that a leading byte announces after itself, and the range of the first of
them. The range rules out overlong encodings, surrogates and numbers beyond the last code point. -/
def announced (lead : UInt8) : Option (Nat × UInt8 × UInt8) :=
  if 0xC2 ≤ lead && lead ≤ 0xDF then some (1, 0x80, 0xBF)
  else if lead == 0xE0 then some (2, 0xA0, 0xBF)
  else if lead == 0xED then some (2, 0x80, 0x9F)
  else if 0xE1 ≤ lead && lead ≤ 0xEF then some (2, 0x80, 0xBF)
  else if lead == 0xF0 then some (3, 0x90, 0xBF)
  else if 0xF1 ≤ lead && lead ≤ 0xF3 then some (3, 0x80, 0xBF)
  else if lead == 0xF4 then some (3, 0x80, 0x8F)
  else none

/-- The payload of a leading byte that announces `count` more. -/
def leadPayload (lead : UInt8) (count : Nat) : Nat :=
  lead.toNat % Nat.pow 2 (6 - count)

/-- Appends the six bits of a continuation byte. -/
def extend (code : Nat) (b : UInt8) : Nat :=
  code * 64 + b.toNat % 64

/-- Reads one character or one replacement from a non-empty sequence, with the number of bytes it
takes. -/
def readChar (lead : UInt8) (rest : List UInt8) : Char × Nat :=
  if lead < 0x80 then (Char.ofNat lead.toNat, 1)
  else match announced lead with
    | none => (replacement, 1)
    | some (count, low, high) =>
      match rest with
      | [] => (replacement, 1)
      | second :: rest =>
        if second < low || high < second then (replacement, 1)
        else
          let tail := (rest.take (count - 1)).takeWhile isContinuation
          if tail.length = count - 1 then
            (Char.ofNat (tail.foldl extend (extend (leadPayload lead count) second)), count + 1)
          else (replacement, tail.length + 2)

/-- Reads bytes to their end. -/
def readChars : List UInt8 → List Char
  | [] => []
  | lead :: rest =>
    let (c, count) := readChar lead rest
    c :: readChars (rest.drop (count - 1))
termination_by bytes => bytes.length
decreasing_by
  simp only [List.length_drop, List.length_cons]
  omega

/-- The text of a sequence of bytes, with replacements where they encode none. -/
def utf8Text (bytes : List UInt8) : String :=
  String.ofList (readChars bytes)

/-- The bytes that encode a text. -/
def utf8Bytes (text : String) : List UInt8 :=
  text.toUTF8.toList

end ObjectMachine.Text
