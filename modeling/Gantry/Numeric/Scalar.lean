/-!
The numbers that times, positions, speeds and accelerations are made of.

Everything that moves is written once over `Scalar`. The binary64 numbers run it; a field of real
numbers is the exact reading of the same definitions. A comparison with a number that is not
ordered is false, so the order alone tells such a number: it is not even at most itself.
-/
set_option autoImplicit false

namespace Gantry

/-- Numbers with the arithmetic, the order and the elementary functions that motion needs. -/
class Scalar (α : Type) extends Zero α, One α, Add α, Sub α, Neg α, Mul α, Div α, LT α, LE α,
    BEq α, NatCast α, IntCast α, OfScientific α where
  decLt : DecidableLT α
  decLe : DecidableLE α
  /-- Whether a number is neither infinite nor undefined. -/
  isFinite : α → Bool
  sqrt : α → α
  sin : α → α
  cos : α → α
  pi : α
  /-- The least count that is at least the number; zero below zero. -/
  ceil : α → Nat

namespace Scalar
variable {α : Type} [Scalar α]

instance : DecidableLT α := Scalar.decLt

instance : DecidableLE α := Scalar.decLe

/-- Whether a number takes part in no comparison. -/
@[inline] def isNaN (x : α) : Bool := !decide (x ≤ x)

/-- Absolute value; that of either zero is the positive one. -/
@[inline] def abs (x : α) : α := if x ≤ 0 then 0 - x else x

/-- The larger of two numbers; an undefined one loses. -/
@[inline] def larger (x y : α) : α := if x < y ∨ isNaN x then y else x

@[inline] def smaller (x y : α) : α := if y < x ∨ isNaN x then y else x

/-- The nearest number between two bounds; an undefined number stays undefined. -/
@[inline] def clamp (x lo hi : α) : α :=
  let x := if x < lo then lo else x
  if hi < x then hi else x

/-- The order that sorts undefined numbers behind all others. -/
@[inline] def sortsBefore (x y : α) : Bool := decide (x ≤ y) || isNaN y

/-- The distance from one to the next binary64 number, two to the power of minus 52. -/
@[inline] def epsilon : α := 2.220446049250313080847263336181640625e-16

end Scalar

/-- Slack allowed when times are compared. -/
@[inline] def timeEpsilon {α : Type} [Scalar α] : α := 1e-9

end Gantry
