import Mathlib
import Gantry.Motion.Segment
import Gantry.Proofs.Numeric.Lawful

set_option autoImplicit false

namespace Gantry

namespace Segment

section Valid
variable {α : Type} [Scalar α] {m : Segment α}

theorem parts_of_validate (h : m.validate = .ok ()) :
    (∀ q ∈ m.quantities, Scalar.isFinite q.2 = true) ∧ ∀ d ∈ m.durations, ¬d.2 < 0 := by
  unfold validate at h
  split at h
  · cases h
  · rename_i hq
    split at h
    · cases h
    · rename_i hd
      simp only [List.find?_eq_none,Bool.not_eq_true,Bool.not_eq_false'] at hq
      simp only [List.find?_eq_none,decide_eq_true_eq] at hd
      exact ⟨hq,hd⟩

/-- A valid segment takes no less than no time, even if the sum of its parts is infinite. -/
theorem coherent_of_validate [LawfulScalar α] (h : m.validate = .ok ()) : m.Coherent := by
  obtain ⟨hq,hd⟩ := parts_of_validate h
  simp only [quantities,durations,List.mem_cons,List.not_mem_nil,or_false,forall_eq_or_imp,
    forall_eq] at hq hd
  have hnonneg {x : α} (hf : Scalar.isFinite x = true) (hx : ¬x < 0) : 0 ≤ x :=
    LawfulScalar.le_of_not_lt (LawfulScalar.finite hf) LawfulScalar.zero_le_zero hx
  have haccel := hnonneg hq.2.2.1 hd.1
  have hcruise := hnonneg hq.2.2.2.1 hd.2.1
  have hdecel := hnonneg hq.2.2.2.2.1 hd.2.2
  exact LawfulScalar.add_nonneg (LawfulScalar.add_nonneg haccel hcruise) hdecel

theorem startTime_le_endTime_of_validate [LawfulScalar α] (h : m.validate = .ok ()) :
    m.startTime ≤ m.endTime := by
  have hstart : Scalar.isFinite m.startTime = true :=
    (parts_of_validate h).1 (.startTime,m.startTime) List.mem_cons_self
  exact LawfulScalar.le_add (Or.inl hstart) (coherent_of_validate h)

end Valid

structure Sound (m : Segment ℝ) : Prop where
  accelT : 0 ≤ m.accelT
  cruiseT : 0 ≤ m.cruiseT
  decelT : 0 ≤ m.decelT

noncomputable def travel (m : Segment ℝ) (e : ℝ) : ℝ :=
  let ramp := min e m.accelT
  let cruise := min (e - ramp) m.cruiseT
  let decel := e - ramp - cruise
  (m.startV + 1 / 2 * m.accel * ramp) * ramp + m.cruiseV * cruise +
    (m.cruiseV - 1 / 2 * m.accel * decel) * decel

theorem endTime_exact (m : Segment ℝ) :
    m.endTime = m.startTime + (m.accelT + m.cruiseT + m.decelT) := rfl

theorem positionAt_exact (m : Segment ℝ) (t : ℝ) :
    m.positionAt t = m.startPos + m.travel (m.elapsed t) := by
  simp only [positionAt,travel,Scalar.smaller_exact]; ring

theorem sound_of_validate {m : Segment ℝ} (h : m.validate = .ok ()) : m.Sound := by
  have hd := (parts_of_validate h).2
  simp only [durations,List.mem_cons,List.not_mem_nil,or_false,forall_eq_or_imp,forall_eq,
    not_lt] at hd
  exact ⟨hd.1,hd.2.1,hd.2.2⟩

theorem validate_eq_ok {m : Segment ℝ} (h : m.Sound) (hr : m.reachesCruise = true) :
    m.validate = .ok () := by
  have hq : (m.quantities.find? fun q => !Scalar.isFinite q.2) = none := by simp
  have hd : (m.durations.find? fun d => d.2 < 0) = none := by
    simp [durations,h.accelT,h.cruiseT,h.decelT]
  simp only [validate,hq,hd,hr,if_true]

namespace Sound
variable {m : Segment ℝ}

theorem duration_nonneg (h : m.Sound) : 0 ≤ m.duration := by
  have ha := h.accelT
  have hc := h.cruiseT
  have hd := h.decelT
  unfold duration; positivity

theorem startTime_le_endTime (h : m.Sound) : m.startTime ≤ m.endTime := by
  have hd := h.duration_nonneg
  unfold endTime; linarith

theorem elapsed_eq (h : m.Sound) (t : ℝ) :
    m.elapsed t = min (max (t - m.startTime) 0) m.duration :=
  Scalar.clamp_exact h.duration_nonneg

theorem elapsed_of_le_startTime (h : m.Sound) {t : ℝ} (ht : t ≤ m.startTime) :
    m.elapsed t = 0 := by
  rw [h.elapsed_eq,max_eq_right (by linarith),min_eq_left h.duration_nonneg]

theorem elapsed_of_endTime_le (h : m.Sound) {t : ℝ} (ht : m.endTime ≤ t) :
    m.elapsed t = m.duration := by
  have hd := h.duration_nonneg
  unfold endTime at ht
  rw [h.elapsed_eq,min_eq_right (le_max_of_le_left (by linarith))]

theorem elapsed_of_mem (h : m.Sound) {t : ℝ} (hs : m.startTime ≤ t) (he : t ≤ m.endTime) :
    m.elapsed t = t - m.startTime := by
  unfold endTime at he
  rw [h.elapsed_eq,max_eq_left (by linarith),min_eq_left (by linarith)]

theorem elapsed_nonneg (h : m.Sound) (t : ℝ) : 0 ≤ m.elapsed t := by
  rw [h.elapsed_eq]
  exact le_min (le_max_right _ _) h.duration_nonneg

theorem elapsed_le_duration (h : m.Sound) (t : ℝ) : m.elapsed t ≤ m.duration := by
  rw [h.elapsed_eq]
  exact min_le_right _ _

theorem travel_zero (h : m.Sound) : m.travel 0 = 0 := by
  simp [travel,h.accelT,h.cruiseT]

theorem positionAt_of_le_startTime (h : m.Sound) {t : ℝ} (ht : t ≤ m.startTime) :
    m.positionAt t = m.startPos := by
  rw [positionAt_exact,h.elapsed_of_le_startTime ht,h.travel_zero,add_zero]

theorem endPosition_eq (h : m.Sound) : m.endPosition = m.startPos + m.travel m.duration := by
  rw [endPosition,positionAt_exact,h.elapsed_of_endTime_le le_rfl]

theorem positionAt_of_endTime_le (h : m.Sound) {t : ℝ} (ht : m.endTime ≤ t) :
    m.positionAt t = m.endPosition := by
  rw [positionAt_exact,h.elapsed_of_endTime_le ht,h.endPosition_eq]

theorem endPosition_of_endTime_le_startTime (h : m.Sound) (ht : m.endTime ≤ m.startTime) :
    m.endPosition = m.startPos := by
  rw [← h.positionAt_of_endTime_le ht,h.positionAt_of_le_startTime le_rfl]

end Sound

end Segment

end Gantry
