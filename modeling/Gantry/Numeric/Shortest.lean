import Gantry.Numeric.Binary64

/-!
Shortest decimals: the fewest digits that read back as the same binary64 number, and of those the
nearest to it. A finite number owns an interval of reals that round to it; its ends belong to it
exactly when the mantissa is even. On each decimal grid only the two neighbours of the number can
be nearest, so one or two digits more are tried until a neighbour lies in the interval.
-/
set_option autoImplicit false

namespace Gantry

structure Decimal where
  digits : Nat
  exponent : Int
  deriving Repr, DecidableEq

namespace Decimal

def trimZeros : Nat → Decimal → Decimal
  | 0, d => d
  | fuel + 1, d =>
    if d.digits ≠ 0 ∧ d.digits % 10 = 0 then trimZeros fuel ⟨d.digits / 10,d.exponent + 1⟩ else d

end Decimal

/-- A magnitude with the interval of reals that round to it, all over one denominator. -/
structure RoundingInterval where
  low : Nat
  value : Nat
  high : Nat
  denominator : Nat
  closed : Bool
  deriving Repr

namespace RoundingInterval

/-- The interval of a finite binary64 magnitude. Just above a power of two the gap below is half
the gap above. -/
def ofDyadic (d : Dyadic) : RoundingInterval :=
  let narrow := d.mantissa = Nat.pow 2 52 ∧ d.exponent ≠ -1074
  let low := 4 * d.mantissa - (if narrow then 1 else 2)
  let shift : Int := d.exponent - 2
  ⟨low <<< shift.toNat,(4 * d.mantissa) <<< shift.toNat,(4 * d.mantissa + 2) <<< shift.toNat,
    1 <<< (-shift).toNat,d.mantissa % 2 = 0⟩

/-- The same interval measured in units of `10 ^ grid`. -/
def scale (r : RoundingInterval) (grid : Int) : RoundingInterval :=
  let up := Nat.pow 10 (-grid).toNat
  { r with
    low := r.low * up, value := r.value * up, high := r.high * up
    denominator := r.denominator * Nat.pow 10 grid.toNat }

def contains (r : RoundingInterval) (n : Nat) : Bool :=
  let x := n * r.denominator
  if r.closed then r.low ≤ x && x ≤ r.high else r.low < x && x < r.high

/-- The neighbour of the value among the whole numbers that rounds to it and is nearest, the upper
one of two equally near. -/
def nearestInside (r : RoundingInterval) : Option Nat :=
  let below := r.value / r.denominator
  let above := below + 1
  match r.contains below && below ≠ 0,r.contains above with
  | true,true =>
    if r.value - below * r.denominator < above * r.denominator - r.value then some below
    else some above
  | true,false => some below
  | false,true => some above
  | false,false => none

/-- The least `e` such that the value is below `10 ^ e`, found near its estimate. -/
def magnitude (r : RoundingInterval) : Int :=
  let guess : Int := ((r.value.log2 : Int) - r.denominator.log2) * 30103 / 100000
  let isBelow (e : Int) : Bool := let s := r.scale e; s.value < s.denominator
  ([guess - 1,guess,guess + 1].find? isBelow).getD (guess + 2)

def search (r : RoundingInterval) (top : Int) : Nat → Nat → Decimal
  | 0, n => ⟨(r.scale (top - n)).value / (r.scale (top - n)).denominator,top - n⟩
  | fuel + 1, n =>
    match (r.scale (top - n)).nearestInside with
    | some digits => ⟨digits,top - n⟩
    | none => search r top fuel (n + 1)

end RoundingInterval

/-- The shortest decimal of a finite binary64 magnitude. Seventeen digits always suffice. -/
def Dyadic.shortest (d : Dyadic) : Decimal :=
  if d.mantissa = 0 then ⟨0,0⟩
  else
    let r := RoundingInterval.ofDyadic d
    (r.search r.magnitude 17 1).trimZeros 17

end Gantry
