import Gantry.Numeric.Scalar

set_option autoImplicit false

namespace Gantry

/-- A finite binary64 number: its sign, and its magnitude `mantissa * 2 ^ exponent`. -/
structure Dyadic where
  negative : Bool
  mantissa : Nat
  exponent : Int
  deriving Repr, DecidableEq

namespace Binary64

def isNegative (x : Float) : Bool := x.toBits >>> 63 == 1

def biasedExponent (x : Float) : Nat := (x.toBits >>> 52).toNat % 2048

def fraction (x : Float) : Nat := x.toBits.toNat % Nat.pow 2 52

def toDyadic (x : Float) : Dyadic :=
  if biasedExponent x = 0 then ⟨isNegative x,fraction x,-1074⟩
  else ⟨isNegative x,Nat.pow 2 52 + fraction x,(biasedExponent x : Int) - 1075⟩

def wordMax : Nat := Nat.pow 2 64 - 1

/-- The least count that is at least `x`, at most `wordMax`; zero below zero and when undefined. -/
def ceil (x : Float) : Nat :=
  if x.isNaN || isNegative x then 0
  else if !x.isFinite then wordMax
  else
    let d := toDyadic x
    match d.exponent with
    | .ofNat e => min wordMax (d.mantissa <<< e)
    | .negSucc e => (d.mantissa + (Nat.pow 2 (e + 1) - 1)) >>> (e + 1)

end Binary64

instance : Scalar Float where
  zero := 0.0
  one := 1.0
  natCast := Float.ofNat
  intCast := Float.ofInt
  decLt := inferInstance
  decLe := inferInstance
  isFinite := Float.isFinite
  sqrt := Float.sqrt
  sin := Float.sin
  cos := Float.cos
  pi := 3.141592653589793
  ceil := Binary64.ceil

end Gantry
