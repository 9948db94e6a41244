import Mathlib
import Gantry.Proofs.Motion.Profile

set_option autoImplicit false

namespace Gantry

/-- A segment that ramps up from rest, cruises, and ramps down to rest in the same time, within a
speed and an acceleration. -/
structure Segment.Symmetric (m : Segment ℝ) (speed accel : ℝ) : Prop where
  sound : m.Sound
  startV : m.startV = 0
  decelT : m.decelT = m.accelT
  cruiseV : m.accel * m.accelT = m.cruiseV
  speed_le : |m.cruiseV| ≤ speed
  accel_le : |m.accel| ≤ accel

noncomputable def timeAt (distance accel v : ℝ) : ℝ := v / accel + distance / v

section TimeAt
variable {distance accel v w : ℝ}

theorem timeAt_sub (ha : 0 < accel) (hv : 0 < v) (hw : 0 < w) :
    timeAt distance accel v - timeAt distance accel w =
      (w - v) * (distance * accel - v * w) / (accel * v * w) := by
  unfold timeAt
  field_simp
  ring

theorem timeAt_le_of_le (ha : 0 < accel) (hv : 0 < v) (hvw : v ≤ w)
    (hw : w ^ 2 ≤ distance * accel) : timeAt distance accel w ≤ timeAt distance accel v := by
  have hwpos := hv.trans_le hvw
  have hprod : v * w ≤ distance * accel :=
    (mul_le_mul_of_nonneg_right hvw hwpos.le).trans (by rwa [← sq])
  rw [← sub_nonneg,timeAt_sub ha hv hwpos]
  exact div_nonneg (mul_nonneg (sub_nonneg.2 hvw) (sub_nonneg.2 hprod)) (by positivity)

theorem timeAt_le_of_sq_eq (ha : 0 < accel) (hv : 0 < v) (hw : 0 < w)
    (hsq : w ^ 2 = distance * accel) : timeAt distance accel w ≤ timeAt distance accel v := by
  rw [← sub_nonneg,timeAt_sub ha hv hw,← hsq,show (w - v) * (w ^ 2 - v * w) = w * (w - v) ^ 2 by ring]
  positivity

end TimeAt

namespace Segment.Symmetric
variable {m : Segment ℝ} {speed accel : ℝ}

theorem duration_eq (h : m.Symmetric speed accel) : m.duration = 2 * m.accelT + m.cruiseT := by
  rw [Segment.duration,h.decelT]
  ring

theorem endVelocity (h : m.Symmetric speed accel) : m.endVelocity = 0 := by
  rw [Segment.endVelocity,h.decelT,h.cruiseV,sub_self]

theorem endPosition_sub (h : m.Symmetric speed accel) :
    m.endPosition - m.startPos = m.cruiseV * (m.accelT + m.cruiseT) := by
  have ha := h.sound.accelT
  have hc := h.sound.cruiseT
  have hramp : min (2 * m.accelT + m.cruiseT) m.accelT = m.accelT := min_eq_right (by linarith)
  have hcruise : min (2 * m.accelT + m.cruiseT - m.accelT) m.cruiseT = m.cruiseT :=
    min_eq_right (by linarith)
  rw [h.sound.endPosition_eq,travel,h.duration_eq]
  simp only [hramp,hcruise,h.startV,← h.cruiseV]
  ring

theorem timeAt_le (h : m.Symmetric speed accel) (ha : 0 < accel)
    (hd : 0 < |m.endPosition - m.startPos|) : 0 < |m.cruiseV| ∧
      timeAt |m.endPosition - m.startPos| accel |m.cruiseV| ≤ m.duration := by
  have hsum : 0 ≤ m.accelT + m.cruiseT := add_nonneg h.sound.accelT h.sound.cruiseT
  have hcov : |m.endPosition - m.startPos| = |m.cruiseV| * (m.accelT + m.cruiseT) := by
    rw [h.endPosition_sub,abs_mul,abs_of_nonneg hsum]
  have hv : 0 < |m.cruiseV| := pos_of_mul_pos_left (hcov ▸ hd) hsum
  refine ⟨hv,?_⟩
  -- the ramps are no steeper than the acceleration
  have hramp : |m.cruiseV| / accel ≤ m.accelT := by
    rw [div_le_iff₀ ha,← h.cruiseV,abs_mul,abs_of_nonneg h.sound.accelT,mul_comm]
    exact mul_le_mul_of_nonneg_left h.accel_le h.sound.accelT
  calc timeAt |m.endPosition - m.startPos| accel |m.cruiseV|
      = |m.cruiseV| / accel + (m.accelT + m.cruiseT) := by
        rw [timeAt,hcov,mul_div_cancel_left₀ _ hv.ne']
    _ ≤ m.accelT + (m.accelT + m.cruiseT) := add_le_add_left hramp _
    _ = m.duration := by rw [h.duration_eq]; ring

end Segment.Symmetric

namespace Profile
variable {distance speed accel : ℝ}

/-- With an acceleration, the top speed is the lower one of the given speed and of the one at which
the ramps alone make the distance. -/
theorem symmetric_cruiseV_sq (ha : 0 < accel) (hd : distance ≠ 0) :
    (symmetric distance speed accel).cruiseV ^ 2 = min (speed ^ 2) (|distance| * accel) ∧
      accel * (symmetric distance speed accel).accelT =
        (symmetric distance speed accel).cruiseV := by
  have hd : |distance| ≠ 0 := abs_ne_zero.2 hd
  have hpeak : 0 ≤ |distance| * accel := by positivity
  simp only [symmetric,Scalar.beq_exact,Scalar.abs_exact,Scalar.sqrt_exact,ha.ne',hd,decide_false,
    Bool.or_self,Bool.false_eq_true,if_false]
  refine ⟨?_,by field_simp⟩
  split
  · rename_i hp
    rw [Real.sq_sqrt hpeak,sq,min_eq_right hp.le]
  · rename_i hp
    rw [sq,min_eq_left (not_lt.1 hp)]

theorem Planned.segment_symmetric {p : Profile ℝ} (h : p.Planned distance speed accel)
    (ha : 0 ≤ accel) (hramp : accel * p.accelT = p.cruiseV) (t₀ start : ℝ) :
    (p.segment t₀ start accel).Symmetric speed accel := by
  have hsign : |(p.direction.sign : ℝ)| = 1 := by cases p.direction <;> simp [Direction.sign]
  refine ⟨h.sound,rfl,rfl,?_,?_,?_⟩
  · simp only [segment]
    rw [← hramp,mul_assoc]
  · simp only [segment]
    rw [abs_mul,hsign,one_mul,abs_of_pos h.cruiseV_pos]
    exact h.cruiseV_le
  · simp only [segment]
    rw [abs_mul,hsign,one_mul,abs_of_nonneg ha]

theorem Planned.duration_eq {p : Profile ℝ} (h : p.Planned distance speed accel)
    (ha : 0 < accel) (hramp : accel * p.accelT = p.cruiseV) :
    p.duration = timeAt |distance| accel p.cruiseV := by
  have hv := h.cruiseV_pos.ne'
  rw [timeAt,← h.covers,mul_div_cancel_left₀ _ hv,← hramp,mul_div_cancel_left₀ _ ha.ne',duration]
  norm_num
  ring

/-- A plan covers a distance within a speed. Where there is an acceleration and a way to go, it ramps
with that acceleration to the highest speed that the way allows, and nothing that keeps to both limits
takes less time. Its segment is valid, ends at the target, and starts and ends at rest. -/
structure Fastest (p : Profile ℝ) (distance speed accel : ℝ) : Prop where
  accelT : 0 ≤ p.accelT
  cruiseT : 0 ≤ p.cruiseT
  cruiseV_pos : 0 < p.cruiseV
  cruiseV_le : p.cruiseV ≤ speed
  covers : p.distance = |distance|
  top : 0 < accel → distance ≠ 0 → p.cruiseV ^ 2 = min (speed ^ 2) (|distance| * accel)
  ramp : 0 < accel → distance ≠ 0 → p.accelT * accel = p.cruiseV
  least : 0 < accel → distance ≠ 0 → ∀ m : Segment ℝ, m.Symmetric speed accel →
    |m.endPosition - m.startPos| = |distance| → p.duration ≤ m.duration
  validate : ∀ t₀ start, (p.segment t₀ start accel).validate = .ok ()
  endPosition : ∀ t₀ start, (p.segment t₀ start accel).endPosition = start + distance
  lasts : ∀ t₀ start, (p.segment t₀ start accel).duration = p.duration
  symmetric : 0 < accel → distance ≠ 0 → ∀ t₀ start,
    (p.segment t₀ start accel).Symmetric speed accel
  endVelocity : 0 < accel → distance ≠ 0 → ∀ t₀ start,
    (p.segment t₀ start accel).endVelocity = 0

theorem Planned.duration_le {p : Profile ℝ} (h : p.Planned distance speed accel) (hs : 0 < speed)
    (ha : 0 < accel) (hd : distance ≠ 0)
    (hsq : p.cruiseV ^ 2 = min (speed ^ 2) (|distance| * accel))
    (hramp : accel * p.accelT = p.cruiseV) {m : Segment ℝ} (hm : m.Symmetric speed accel)
    (hcov : |m.endPosition - m.startPos| = |distance|) : p.duration ≤ m.duration := by
  obtain ⟨hv,hle⟩ := hm.timeAt_le ha (hcov ▸ abs_pos.2 hd)
  rw [hcov] at hle
  rw [h.duration_eq ha hramp]
  refine le_trans ?_ hle
  have hlim : p.cruiseV ^ 2 ≤ |distance| * accel := hsq.trans_le (min_le_right _ _)
  rcases min_choice (speed ^ 2) (|distance| * accel) with hmin | hmin
  · have htop : p.cruiseV = speed :=
      (pow_left_inj₀ h.cruiseV_pos.le hs.le two_ne_zero).1 (hsq.trans hmin)
    exact timeAt_le_of_le ha hv (htop ▸ hm.speed_le) hlim
  · exact timeAt_le_of_sq_eq ha hv h.cruiseV_pos (hsq.trans hmin)

theorem symmetric_fastest (hs : 0 < speed) (ha : 0 ≤ accel) :
    (symmetric distance speed accel).Fastest distance speed accel := by
  have hp : (symmetric distance speed accel).Planned distance speed accel := symmetric_planned hs ha
  have hsegment (ha : 0 < accel) (hd : distance ≠ 0) :=
    hp.segment_symmetric ha.le (symmetric_cruiseV_sq ha hd).2
  exact {
    accelT := hp.accelT
    cruiseT := hp.cruiseT
    cruiseV_pos := hp.cruiseV_pos
    cruiseV_le := hp.cruiseV_le
    covers := hp.covers
    top := fun ha hd => (symmetric_cruiseV_sq ha hd).1
    ramp := fun ha hd => (mul_comm _ _).trans (symmetric_cruiseV_sq ha hd).2
    least := fun ha hd m hm hcov => hp.duration_le hs ha hd (symmetric_cruiseV_sq ha hd).1
      (symmetric_cruiseV_sq ha hd).2 hm hcov
    validate := fun _ _ => hp.validate
    endPosition := fun _ _ => hp.endPosition
    lasts := fun _ _ => segment_duration
    symmetric := hsegment
    endVelocity := fun ha hd t₀ start => (hsegment ha hd t₀ start).endVelocity }

/-- Four back with an acceleration of four: the ramps alone make it, at a top speed of four. It takes
two, and nothing within the limits is there sooner. -/
theorem symmetric_fastest_short :
    (0 : ℝ) < 100 ∧ (0 : ℝ) ≤ 4 ∧ (symmetric (-4 : ℝ) 100 4).cruiseV = 4 ∧
      (symmetric (-4 : ℝ) 100 4).duration = 2 ∧
      ((symmetric (-4 : ℝ) 100 4).segment 1 9 4).endPosition = 5 ∧
      ((symmetric (-4 : ℝ) 100 4).segment 1 9 4).Symmetric 100 4 ∧
      ∀ m : Segment ℝ, m.Symmetric 100 4 → |m.endPosition - m.startPos| = 4 → 2 ≤ m.duration := by
  have hs : (0 : ℝ) < 100 := by norm_num
  have ha : (0 : ℝ) < 4 := by norm_num
  have hd : |(-4 : ℝ)| = 4 := by norm_num
  have hne : (-4 : ℝ) ≠ 0 := by norm_num
  have hfastest := @symmetric_fastest (-4) 100 4 hs ha.le
  have hsq := hfastest.top ha hne
  have hramp := hfastest.ramp ha hne
  have hcov := hfastest.covers
  have hmin := hfastest.least ha hne
  have hv := hfastest.cruiseV_pos
  rw [hd] at hsq hcov hmin
  have hcruise : (symmetric (-4 : ℝ) 100 4).cruiseV = 4 := by
    refine (pow_left_inj₀ hv.le ha.le two_ne_zero).1 (hsq.trans ?_)
    norm_num
  have hdur : (symmetric (-4 : ℝ) 100 4).duration = 2 := by
    rw [distance,hcruise] at hcov
    rw [hcruise] at hramp
    rw [duration]
    norm_num
    linarith
  refine ⟨hs,ha.le,hcruise,hdur,?_,hfastest.symmetric ha hne 1 9,fun m hm hm' => ?_⟩
  · rw [hfastest.endPosition]
    norm_num
  · exact hdur ▸ hmin m hm hm'

end Profile

end Gantry
