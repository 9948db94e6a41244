import Gantry.Numeric.Shortest

set_option autoImplicit false

namespace Gantry

namespace Decimal

/-- The digits with the point put where the exponent says, and no exponent. -/
def positional (d : Decimal) : String :=
  let digits := Nat.toDigits 10 d.digits
  match d.exponent with
  | .ofNat e => String.ofList (if d.digits = 0 then digits else digits ++ List.replicate e '0')
  | .negSucc e =>
    let places := e + 1
    let padded := List.replicate (places + 1 - digits.length) '0' ++ digits
    let whole := padded.length - places
    String.ofList (padded.take whole ++ '.' :: padded.drop whole)

end Decimal

def plainText (x : Float) : String :=
  if x.isNaN then "NaN"
  else
    let sign := if Binary64.isNegative x then "-" else ""
    sign ++ if x.isFinite then (Binary64.toDyadic x).shortest.positional else "inf"

/-- The text of a number that always shows a point, so that it cannot be taken for a whole one. -/
def pointedText (x : Float) : String :=
  let s := plainText x
  if x.isFinite && !s.contains '.' then s ++ ".0" else s

end Gantry
