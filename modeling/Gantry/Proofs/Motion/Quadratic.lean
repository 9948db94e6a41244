import Mathlib
import Gantry.Proofs.Motion.Segment

set_option autoImplicit false

namespace Gantry

structure Quadratic where
  square : ℝ
  linear : ℝ
  constant : ℝ

namespace Quadratic

noncomputable def eval (f : Quadratic) (t : ℝ) : ℝ := f.square * t ^ 2 + f.linear * t + f.constant

noncomputable def still (pos : ℝ) : Quadratic := ⟨0,0,pos⟩

noncomputable def steady (start pos v accel : ℝ) : Quadratic :=
  ⟨accel / 2,v - accel * start,pos - v * start + accel / 2 * start ^ 2⟩

@[simp] theorem eval_still (pos t : ℝ) : (still pos).eval t = pos := by
  simp [still,eval]

@[simp] theorem eval_steady (start pos v accel t : ℝ) :
    (steady start pos v accel).eval t = pos + v * (t - start) + accel / 2 * (t - start) ^ 2 := by
  simp only [steady,eval]; ring

end Quadratic

namespace Segment
variable {m : Segment ℝ} {e s b : ℝ}

theorem travel_of_accelerating (h : m.Sound) (he : e ≤ m.accelT) :
    m.travel e = m.startV * e + m.accel / 2 * e ^ 2 := by
  simp only [travel,min_eq_left he,sub_self,min_eq_left h.cruiseT]; ring

theorem travel_of_cruising (h : m.accelT ≤ e) (he : e ≤ m.accelT + m.cruiseT) :
    m.travel e = (m.startV + m.accel / 2 * m.accelT) * m.accelT + m.cruiseV * (e - m.accelT) := by
  have hc : e - m.accelT ≤ m.cruiseT := by linarith
  simp only [travel,min_eq_right h,min_eq_left hc]; ring

theorem travel_of_decelerating (h : m.Sound) (he : m.accelT + m.cruiseT ≤ e) :
    m.travel e = (m.startV + m.accel / 2 * m.accelT) * m.accelT + m.cruiseV * m.cruiseT +
      m.cruiseV * (e - m.accelT - m.cruiseT) - m.accel / 2 * (e - m.accelT - m.cruiseT) ^ 2 := by
  have ha : m.accelT ≤ e := by linarith [h.cruiseT]
  have hc : m.cruiseT ≤ e - m.accelT := by linarith
  simp only [travel,min_eq_right ha,min_eq_right hc]; ring

/-- Between its boundaries the position along a segment is one quadratic: before its start, in each
of its parts, and after its end. -/
theorem Sound.exists_quadratic (h : m.Sound) (hb : ∀ t ∈ m.boundaries, t ≤ s ∨ b ≤ t) :
    ∃ f : Quadratic, ∀ t, s ≤ t → t ≤ b → m.positionAt t = f.eval t := by
  simp only [boundaries,List.forall_mem_cons,List.not_mem_nil,false_imp_iff,implies_true,
    and_true] at hb
  obtain ⟨hstart,haccel,hcruise,hend⟩ := hb
  have hdur := m.endTime_exact
  have hdecel := h.decelT
  rcases hend with hend | hend
  · exact ⟨.still m.endPosition,fun t hs _ => by
      rw [h.positionAt_of_endTime_le (hend.trans hs),Quadratic.eval_still]⟩
  rcases hstart with hstart | hstart
  · -- From here on the segment has begun and not ended.
    have hpos : ∀ t, s ≤ t → t ≤ b → m.positionAt t = m.startPos + m.travel (t - m.startTime) := by
      intro t hs hb
      rw [positionAt_exact,h.elapsed_of_mem (hstart.trans hs) (hb.trans hend)]
    rcases haccel with haccel | haccel
    · rcases hcruise with hcruise | hcruise
      · refine ⟨.steady (m.startTime + m.accelT + m.cruiseT)
          (m.startPos + (m.startV + m.accel / 2 * m.accelT) * m.accelT + m.cruiseV * m.cruiseT)
          m.cruiseV (-m.accel),fun t hs hb => ?_⟩
        rw [hpos t hs hb,travel_of_decelerating h (by linarith),Quadratic.eval_steady]
        ring
      · refine ⟨.steady (m.startTime + m.accelT)
          (m.startPos + (m.startV + m.accel / 2 * m.accelT) * m.accelT) m.cruiseV 0,
          fun t hs hb => ?_⟩
        rw [hpos t hs hb,travel_of_cruising (by linarith) (by linarith),Quadratic.eval_steady]
        ring
    · refine ⟨.steady m.startTime m.startPos m.startV m.accel,fun t hs hb => ?_⟩
      rw [hpos t hs hb,travel_of_accelerating h (by linarith),Quadratic.eval_steady]
      ring
  · exact ⟨.still m.startPos,fun t _ hb => by
      rw [h.positionAt_of_le_startTime (hb.trans hstart),Quadratic.eval_still]⟩

end Segment

end Gantry
