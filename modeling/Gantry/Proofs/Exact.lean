import Mathlib
import Gantry.Numeric.Scalar

set_option autoImplicit false

namespace Gantry

noncomputable instance exactScalar : Scalar ℝ where
  decLt := inferInstance
  decLe := inferInstance
  beq x y := decide (x = y)
  isFinite _ := true
  sqrt := Real.sqrt
  sin := Real.sin
  cos := Real.cos
  pi := Real.pi
  ceil := Nat.ceil

/-- Small numerals carry no proof of their own into the definitions that use them. -/
instance atLeastTwo_two : Nat.AtLeastTwo 2 := ⟨by decide⟩

instance atLeastTwo_three : Nat.AtLeastTwo 3 := ⟨by decide⟩

instance atLeastTwo_four : Nat.AtLeastTwo 4 := ⟨by decide⟩

namespace Scalar

@[simp] theorem isFinite_exact (x : ℝ) : Scalar.isFinite x = true := rfl

@[simp] theorem sqrt_exact (x : ℝ) : Scalar.sqrt x = Real.sqrt x := rfl

@[simp] theorem ceil_exact (x : ℝ) : Scalar.ceil x = ⌈x⌉₊ := rfl

@[simp] theorem beq_exact (x y : ℝ) : (x == y) = decide (x = y) := rfl

@[simp] theorem isNaN_exact (x : ℝ) : isNaN x = false := by simp [isNaN]

@[simp] theorem abs_exact (x : ℝ) : Scalar.abs x = |x| := by
  unfold Scalar.abs
  split
  · rename_i h
    rw [abs_of_nonpos h]; ring
  · rename_i h
    rw [abs_of_pos (not_le.1 h)]

@[simp] theorem larger_exact (x y : ℝ) : larger x y = max x y := by
  unfold larger
  by_cases h : x < y
  · rw [if_pos (Or.inl h),max_eq_right h.le]
  · rw [if_neg (by simp [h]),max_eq_left (not_lt.1 h)]

@[simp] theorem smaller_exact (x y : ℝ) : smaller x y = min x y := by
  unfold smaller
  by_cases h : y < x
  · rw [if_pos (Or.inl h),min_eq_right h.le]
  · rw [if_neg (by simp [h]),min_eq_left (not_lt.1 h)]

theorem clamp_exact {x lo hi : ℝ} (h : lo ≤ hi) : clamp x lo hi = min (max x lo) hi := by
  unfold clamp
  by_cases hx : x < lo
  · simp [hx,max_eq_right hx.le,h,not_lt.2 h]
  · by_cases hh : hi < x
    · simp [hx,hh,max_eq_left (not_lt.1 hx),min_eq_right hh.le]
    · simp [hx,hh,max_eq_left (not_lt.1 hx),min_eq_left (not_lt.1 hh)]

@[simp] theorem sortsBefore_exact (x y : ℝ) : sortsBefore x y = decide (x ≤ y) := by
  simp [sortsBefore]

end Scalar

theorem timeEpsilon_exact : (timeEpsilon : ℝ) = 1 / 10 ^ 9 := by
  unfold timeEpsilon; norm_num

theorem timeEpsilon_pos : (0 : ℝ) < timeEpsilon := by
  rw [timeEpsilon_exact]; norm_num

end Gantry
