import Mathlib
import Gantry.Proofs.Motion.Segment

set_option autoImplicit false

namespace Gantry

namespace Segment
variable {m : Segment ℝ} {x y V : ℝ}

noncomputable def speeds (m : Segment ℝ) : List ℝ :=
  [|m.startV|,|m.startV + m.accel * m.accelT|,|m.cruiseV|,|m.endVelocity|]

theorem nonneg_of_speeds_le (hV : ∀ v ∈ m.speeds, v ≤ V) : 0 ≤ V :=
  (abs_nonneg m.cruiseV).trans (hV _ (by simp [speeds]))

section Parts

noncomputable def ramp (m : Segment ℝ) (e : ℝ) : ℝ := min e m.accelT

noncomputable def cruise (m : Segment ℝ) (e : ℝ) : ℝ := min (e - m.ramp e) m.cruiseT

noncomputable def decel (m : Segment ℝ) (e : ℝ) : ℝ := e - m.ramp e - m.cruise e

theorem parts_sum (m : Segment ℝ) (e : ℝ) : m.ramp e + m.cruise e + m.decel e = e := by
  unfold decel; ring

theorem parts_mono (h : x ≤ y) :
    m.ramp x ≤ m.ramp y ∧ m.cruise x ≤ m.cruise y ∧ m.decel x ≤ m.decel y := by
  simp only [decel,cruise,ramp,min_def]
  split_ifs <;> refine ⟨?_,?_,?_⟩ <;> linarith

theorem Sound.parts_mem (h : m.Sound) (hx : 0 ≤ x) (hd : x ≤ m.duration) :
    0 ≤ m.ramp x ∧ m.ramp x ≤ m.accelT ∧ 0 ≤ m.cruise x ∧ m.cruise x ≤ m.cruiseT ∧
      0 ≤ m.decel x ∧ m.decel x ≤ m.decelT := by
  have ha := h.accelT
  have hc := h.cruiseT
  have hdec := h.decelT
  unfold duration at hd
  simp only [decel,cruise,ramp,min_def]
  split_ifs <;> refine ⟨?_,?_,?_,?_,?_,?_⟩ <;> linarith

/-- What a time adds to the travel is the sum of what it adds to the parts, each at the mean of the
velocities at its ends. -/
theorem travel_sub (m : Segment ℝ) (x y : ℝ) : m.travel y - m.travel x =
    (m.startV + m.accel * ((m.ramp x + m.ramp y) / 2)) * (m.ramp y - m.ramp x) +
      m.cruiseV * (m.cruise y - m.cruise x) +
      (m.cruiseV + -m.accel * ((m.decel x + m.decel y) / 2)) * (m.decel y - m.decel x) := by
  simp only [travel,decel,cruise,ramp]
  ring

end Parts

/-- A velocity that changes evenly is nowhere faster than at one of the ends. -/
theorem abs_add_mul_le {v a s t : ℝ} (hs : 0 ≤ s) (hst : s ≤ t) (hv : |v| ≤ V)
    (hvt : |v + a * t| ≤ V) : |v + a * s| ≤ V := by
  rcases le_total 0 a with ha | ha
  · exact (abs_le_max_abs_abs (le_add_of_nonneg_right (mul_nonneg ha hs))
      (add_le_add_right (mul_le_mul_of_nonneg_left hst ha) v)).trans (max_le hv hvt)
  · exact (abs_le_max_abs_abs (add_le_add_right (mul_le_mul_of_nonpos_left hst ha) v)
      (add_le_of_nonpos_right (mul_nonpos_of_nonpos_of_nonneg ha hs))).trans (max_le hvt hv)

namespace Sound

theorem elapsed_sub (h : m.Sound) (hxy : x ≤ y) :
    m.elapsed x ≤ m.elapsed y ∧ m.elapsed y - m.elapsed x ≤ y - x := by
  simp only [h.elapsed_eq,min_def,max_def]
  split_ifs <;> constructor <;> linarith

theorem travel_sub_le (h : m.Sound) (hV : ∀ v ∈ m.speeds, v ≤ V) (hx : 0 ≤ x) (hxy : x ≤ y)
    (hy : y ≤ m.duration) : |m.travel y - m.travel x| ≤ V * (y - x) := by
  obtain ⟨hr,hr',-,-,hd,hd'⟩ := h.parts_mem hx (hxy.trans hy)
  obtain ⟨hs,hs',-,-,he,he'⟩ := h.parts_mem (hx.trans hxy) hy
  obtain ⟨hramp,hcruise,hdecel⟩ := parts_mono (m := m) hxy
  simp only [speeds,endVelocity,List.mem_cons,List.not_mem_nil,or_false,forall_eq_or_imp,
    forall_eq,sub_eq_add_neg,← neg_mul] at hV
  obtain ⟨hstart,hreached,hcruiseV,hend⟩ := hV
  have hfirst : |m.startV + m.accel * ((m.ramp x + m.ramp y) / 2)| ≤ V :=
    abs_add_mul_le (by linarith) (by linarith) hstart hreached
  have hlast : |m.cruiseV + -m.accel * ((m.decel x + m.decel y) / 2)| ≤ V :=
    abs_add_mul_le (by linarith) (by linarith) hcruiseV hend
  have hpart {v d : ℝ} (hv : |v| ≤ V) (hd : 0 ≤ d) : |v * d| ≤ V * d := by
    rw [abs_mul,abs_of_nonneg hd]
    exact mul_le_mul_of_nonneg_right hv hd
  have hx := m.parts_sum x
  have hy := m.parts_sum y
  rw [travel_sub]
  calc _ ≤ V * (m.ramp y - m.ramp x) + V * (m.cruise y - m.cruise x) +
        V * (m.decel y - m.decel x) :=
        (abs_add_three _ _ _).trans (add_le_add_three (hpart hfirst (sub_nonneg.2 hramp))
          (hpart hcruiseV (sub_nonneg.2 hcruise)) (hpart hlast (sub_nonneg.2 hdecel)))
    _ = V * (y - x) := by linear_combination V * (hy - hx)

theorem positionAt_sub_le (h : m.Sound) (hV : ∀ v ∈ m.speeds, v ≤ V) (hxy : x ≤ y) :
    |m.positionAt y - m.positionAt x| ≤ V * (y - x) := by
  obtain ⟨hmono,hle⟩ := h.elapsed_sub hxy
  calc |m.positionAt y - m.positionAt x|
      = |m.travel (m.elapsed y) - m.travel (m.elapsed x)| := by
        rw [positionAt_exact,positionAt_exact,add_sub_add_left_eq_sub]
    _ ≤ V * (m.elapsed y - m.elapsed x) :=
        h.travel_sub_le hV (h.elapsed_nonneg x) hmono (h.elapsed_le_duration y)
    _ ≤ V * (y - x) := mul_le_mul_of_nonneg_left hle (nonneg_of_speeds_le hV)

end Sound

end Segment

end Gantry
