import ObjectMachine.Number.Shortest
import ObjectMachine.Text.Radix

/-!
# Floating-point numbers in text

Shortest digits in a layout. Magnitudes whose leading digit has an exponent from -4 to 15 are
written positionally and keep at least one digit after the point; all others have an exponent mark.
-/

namespace ObjectMachine

/-- How the digits of a number are laid out. -/
structure NumberLayout where
  /-- The least and the greatest exponent of the leading digit that are written positionally. -/
  positionalFrom : Int
  positionalTo : Int
  exponentMark : String
  infinity : String
  notANumber : String

/-- The layout of the machine's floating-point numbers. -/
def NumberLayout.machine : NumberLayout where
  positionalFrom := -4
  positionalTo := 15
  exponentMark := "e"
  infinity := "inf"
  notANumber := "NaN"

namespace NumberLayout

/-- Digits with a point, and at least one digit after it. -/
def positional (d : Decimal) : String :=
  let digits := Nat.repr d.digits
  if 0 ≤ d.scale then digits ++ Text.fill '0' d.scale.toNat ++ ".0"
  else
    let places := (-d.scale).toNat
    let padded := (Text.padLeft '0' (places + 1) digits).toList
    let whole := padded.length - places
    String.ofList (padded.take whole) ++ "." ++ String.ofList (padded.drop whole)

/-- One digit, a point and the others if there are any, and an exponent. -/
def scientific (layout : NumberLayout) (d : Decimal) (exponent : Int) : String :=
  let (lead, rest) := (Nat.repr d.digits).toList.splitAt 1
  let fraction := if rest.isEmpty then "" else "." ++ String.ofList rest
  String.ofList lead ++ fraction ++ layout.exponentMark ++ Text.decimal exponent

/-- A positive finite number. -/
def magnitude (layout : NumberLayout) (x : Binary64) : String :=
  let d := x.shortest
  let exponent : Int := (Nat.repr d.digits).length - 1 + d.scale
  if layout.positionalFrom ≤ exponent ∧ exponent ≤ layout.positionalTo then positional d
  else layout.scientific d exponent

/-- The text of a number. A NaN has no sign. -/
def text (layout : NumberLayout) (x : Binary64) : String :=
  if x.isNaN then layout.notANumber
  else
    let sign := if x.isNegative then "-" else ""
    if !x.isFinite then sign ++ layout.infinity
    else if x.isZero then sign ++ "0.0"
    else sign ++ layout.magnitude x

end NumberLayout

/-- The text of a floating-point number. -/
def Binary64.text (x : Binary64) : String :=
  NumberLayout.machine.text x

end ObjectMachine
