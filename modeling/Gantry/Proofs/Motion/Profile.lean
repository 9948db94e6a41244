import Mathlib
import Gantry.Motion.Profile
import Gantry.Proofs.Motion.Speed

set_option autoImplicit false

namespace Gantry

theorem Direction.sign_ofDistance (distance : ℝ) :
    (Direction.ofDistance distance).sign * |distance| = distance := by
  unfold ofDistance
  split
  · rename_i h
    rw [sign,one_mul,abs_of_nonneg h]
  · rename_i h
    rw [sign,abs_of_neg (not_le.1 h)]; ring

/-- A position that goes in one direction no faster than a speed, and in a range of time does not
stand still. -/
structure Glide (d : Direction) (v : ℝ) (p : ℝ → ℝ) (start stop : ℝ) : Prop where
  forward : ∀ x y, x ≤ y → 0 ≤ d.sign * (p y - p x)
  bounded : ∀ x y, x ≤ y → d.sign * (p y - p x) ≤ v * (y - x)
  strict : ∀ x y, start ≤ x → x < y → y ≤ stop → 0 < d.sign * (p y - p x)

namespace Profile

structure Planned (p : Profile ℝ) (distance speed accel : ℝ) : Prop where
  direction : p.direction = .ofDistance distance
  accelT : 0 ≤ p.accelT
  cruiseT : 0 ≤ p.cruiseT
  cruiseV_pos : 0 < p.cruiseV
  cruiseV_le : p.cruiseV ≤ speed
  covers : p.cruiseV * (p.accelT + p.cruiseT) = |distance|
  ramps : p.accelT = 0 ∨ accel * p.accelT = p.cruiseV

theorem symmetric_planned {distance speed accel : ℝ} (hs : 0 < speed) (ha : 0 ≤ accel) :
    (symmetric distance speed accel).Planned distance speed accel := by
  unfold symmetric
  simp only [Scalar.beq_exact,Scalar.abs_exact,Scalar.larger_exact,Scalar.sqrt_exact]
  split
  · exact ⟨rfl,le_rfl,by positivity,hs,le_rfl,by simp only [zero_add]; field_simp,Or.inl rfl⟩
  · rename_i hz
    simp only [Bool.or_eq_true,decide_eq_true_eq,not_or,abs_eq_zero] at hz
    have ha : 0 < accel := lt_of_le_of_ne ha (Ne.symm hz.1)
    have hd : 0 < |distance| := abs_pos.2 hz.2
    split
    · rename_i hp
      have hv : 0 < √(|distance| * accel) := Real.sqrt_pos.2 (mul_pos hd ha)
      have hsq : √(|distance| * accel) * √(|distance| * accel) = |distance| * accel :=
        Real.mul_self_sqrt (by positivity)
      have hle : √(|distance| * accel) ≤ speed := by nlinarith
      have hcov : √(|distance| * accel) / accel * √(|distance| * accel) = |distance| := by
        rw [div_mul_eq_mul_div,hsq]; field_simp
      refine ⟨rfl,by positivity,le_max_right _ _,hv,hle,?_,Or.inr (by field_simp)⟩
      simp only [hcov,sub_self,zero_div,max_self,add_zero]
      rw [mul_comm]; exact hcov
    · rename_i hp
      have hcov : 0 ≤ |distance| - speed / accel * speed := by
        rw [sub_nonneg,div_mul_eq_mul_div,div_le_iff₀ ha]; exact not_lt.1 hp
      refine ⟨rfl,by positivity,le_max_right _ _,hs,le_rfl,?_,Or.inr (by field_simp)⟩
      rw [max_eq_left (by positivity)]; field_simp; ring

section Shape
variable (p : Profile ℝ) (accel e : ℝ)

noncomputable def ramp : ℝ := min e p.accelT

noncomputable def cruise : ℝ := min (e - p.ramp e) p.cruiseT

noncomputable def decel : ℝ := e - p.ramp e - p.cruise e

noncomputable def shape : ℝ :=
  1 / 2 * accel * p.ramp e * p.ramp e + p.cruiseV * p.cruise e +
    (p.cruiseV - 1 / 2 * accel * p.decel e) * p.decel e

end Shape

section Planned
variable {p : Profile ℝ} {distance speed accel x y : ℝ} {t₀ start : ℝ}

theorem segment_endTime : (p.segment t₀ start accel).endTime = t₀ + p.duration := by
  rw [Segment.endTime_exact]
  simp only [segment,duration]
  norm_num; ring

theorem segment_duration : (p.segment t₀ start accel).duration = p.duration :=
  add_left_cancel (a := t₀) segment_endTime

theorem Planned.parts_mem (h : p.Planned distance speed accel) (hx : 0 ≤ x)
    (hy : x ≤ p.duration) : 0 ≤ p.ramp x ∧ p.ramp x ≤ p.accelT ∧ 0 ≤ p.cruise x ∧
      p.cruise x ≤ p.cruiseT ∧ 0 ≤ p.decel x ∧ p.decel x ≤ p.accelT := by
  have hs : (p.segment 0 0 accel).Sound := ⟨h.accelT,h.cruiseT,h.accelT⟩
  have hd : (p.segment 0 0 accel).duration = p.duration := segment_duration
  exact hs.parts_mem hx (hy.trans_eq hd.symm)

theorem parts_mono (hxy : x ≤ y) :
    p.ramp x ≤ p.ramp y ∧ p.cruise x ≤ p.cruise y ∧ p.decel x ≤ p.decel y :=
  Segment.parts_mono (m := p.segment 0 0 0) hxy

theorem parts_sum (x : ℝ) : p.ramp x + p.cruise x + p.decel x = x :=
  (p.segment 0 0 0).parts_sum x

theorem Planned.ramp_le (h : p.Planned distance speed accel) (ha : 0 ≤ accel) {r : ℝ}
    (hr : r ≤ p.accelT) (hp : 0 ≤ r) : accel * r ≤ p.cruiseV := by
  have hv := h.cruiseV_pos
  rcases h.ramps with hz | hz
  · have : r = 0 := le_antisymm (hz ▸ hr) hp
    rw [this,mul_zero]; exact hv.le
  · rw [← hz]; exact mul_le_mul_of_nonneg_left hr ha

theorem Planned.accel_pos (h : p.Planned distance speed accel) (hp : 0 < p.accelT) :
    0 < accel := by
  have hv := h.cruiseV_pos
  rcases h.ramps with hz | hz
  · exact absurd hz hp.ne'
  · exact pos_of_mul_pos_left (hz ▸ hv) hp.le

section Ramps
variable {r s : ℝ}

/-- What the first ramp contributes from one time in it to another. -/
theorem Planned.ramp_sub (h : p.Planned distance speed accel) (ha : 0 ≤ accel) (hr : 0 ≤ r)
    (hrs : r ≤ s) (hs : s ≤ p.accelT) : 0 ≤ (accel * r + accel * s) / 2 * (s - r) ∧
      (accel * r + accel * s) / 2 * (s - r) ≤ p.cruiseV * (s - r) ∧
      (r < s → 0 < (accel * r + accel * s) / 2 * (s - r)) := by
  have hs0 := hr.trans hrs
  have hvr := h.ramp_le ha (hrs.trans hs) hr
  have hvs := h.ramp_le ha hs hs0
  refine ⟨mul_nonneg (by positivity) (sub_nonneg.2 hrs),
    mul_le_mul_of_nonneg_right (by linarith) (sub_nonneg.2 hrs),fun hlt => ?_⟩
  have hpos : 0 < accel * s := mul_pos (h.accel_pos (by linarith)) (hr.trans_lt hlt)
  exact mul_pos (by positivity) (sub_pos.2 hlt)

theorem Planned.decel_sub (h : p.Planned distance speed accel) (ha : 0 ≤ accel) (hr : 0 ≤ r)
    (hrs : r ≤ s) (hs : s ≤ p.accelT) :
    0 ≤ (p.cruiseV - (accel * r + accel * s) / 2) * (s - r) ∧
      (p.cruiseV - (accel * r + accel * s) / 2) * (s - r) ≤ p.cruiseV * (s - r) ∧
      (r < s → 0 < (p.cruiseV - (accel * r + accel * s) / 2) * (s - r)) := by
  have hs0 := hr.trans hrs
  have hvr := h.ramp_le ha (hrs.trans hs) hr
  have hvs := h.ramp_le ha hs hs0
  have hnonneg : 0 ≤ accel * r + accel * s := by positivity
  refine ⟨mul_nonneg (by linarith) (sub_nonneg.2 hrs),
    mul_le_mul_of_nonneg_right (by linarith) (sub_nonneg.2 hrs),fun hlt => ?_⟩
  have hslower : accel * r < accel * s :=
    mul_lt_mul_of_pos_left hlt (h.accel_pos (by linarith))
  exact mul_pos (by linarith) (sub_pos.2 hlt)

end Ramps

theorem shape_sub_eq (x y : ℝ) : p.shape accel y - p.shape accel x =
    (accel * p.ramp x + accel * p.ramp y) / 2 * (p.ramp y - p.ramp x) +
      p.cruiseV * (p.cruise y - p.cruise x) +
      (p.cruiseV - (accel * p.decel x + accel * p.decel y) / 2) * (p.decel y - p.decel x) := by
  unfold shape; ring

theorem Planned.shape_sub (h : p.Planned distance speed accel) (ha : 0 ≤ accel) (hx : 0 ≤ x)
    (hxy : x ≤ y) (hy : y ≤ p.duration) : 0 ≤ p.shape accel y - p.shape accel x ∧
      p.shape accel y - p.shape accel x ≤ p.cruiseV * (y - x) ∧
      (x < y → 0 < p.shape accel y - p.shape accel x) := by
  obtain ⟨rx0,-,-,-,dx0,-⟩ := h.parts_mem hx (hxy.trans hy)
  obtain ⟨-,ry1,-,-,-,dy1⟩ := h.parts_mem (hx.trans hxy) hy
  obtain ⟨hr,hc,hd⟩ := parts_mono (p := p) hxy
  have hsx := parts_sum (p := p) x
  have hsy := parts_sum (p := p) y
  have hv := h.cruiseV_pos
  obtain ⟨r0,r1,rpos⟩ := h.ramp_sub ha rx0 hr ry1
  obtain ⟨d0,d1,dpos⟩ := h.decel_sub ha dx0 hd dy1
  have c0 : 0 ≤ p.cruiseV * (p.cruise y - p.cruise x) := mul_nonneg hv.le (sub_nonneg.2 hc)
  rw [shape_sub_eq]
  refine ⟨by linarith,?_,fun hlt => ?_⟩
  · calc _ ≤ p.cruiseV * (p.ramp y - p.ramp x) + p.cruiseV * (p.cruise y - p.cruise x) +
          p.cruiseV * (p.decel y - p.decel x) := by linarith
      _ = p.cruiseV * (y - x) := by linear_combination p.cruiseV * (hsy - hsx)
  · -- one of the three parts gets longer
    rcases hr.lt_or_eq with hr | hr
    · linarith [rpos hr]
    · rcases hc.lt_or_eq with hc | hc
      · linarith [mul_pos hv (sub_pos.2 hc)]
      · linarith [dpos (by linarith)]

theorem Planned.shape_duration (h : p.Planned distance speed accel) :
    p.shape accel p.duration = |distance| := by
  have ha := h.accelT
  have hc := h.cruiseT
  have hd : p.duration = 2 * p.accelT + p.cruiseT := by unfold duration; norm_num
  have h1 : p.ramp p.duration = p.accelT := min_eq_right (by linarith)
  have h2 : p.cruise p.duration = p.cruiseT := by
    unfold cruise; rw [h1]; exact min_eq_right (by linarith)
  have h3 : p.decel p.duration = p.accelT := by unfold decel; rw [h1,h2,hd]; ring
  rw [← h.covers,shape,h1,h2,h3]
  ring

end Planned

section Segment
variable {p : Profile ℝ} {distance speed accel : ℝ} {t₀ start : ℝ}

theorem Planned.validate (h : p.Planned distance speed accel) :
    (p.segment t₀ start accel).validate = .ok () := by
  refine Segment.validate_eq_ok ⟨h.accelT,h.cruiseT,h.accelT⟩ ?_
  unfold Segment.reachesCruise
  split
  · rename_i hp
    change 0 < p.accelT at hp
    have hr : accel * p.accelT = p.cruiseV := h.ramps.resolve_left hp.ne'
    have he : (p.segment t₀ start accel).startV + (p.segment t₀ start accel).accel *
        (p.segment t₀ start accel).accelT - (p.segment t₀ start accel).cruiseV = 0 := by
      simp only [segment]; rw [← hr]; ring
    have htol : (0 : ℝ) ≤ Segment.velocityTolerance := by
      norm_num [Segment.velocityTolerance]
    simp only [he,Scalar.abs_exact,Scalar.larger_exact,abs_zero,Bool.not_eq_true',
      decide_eq_false_iff_not,not_lt]
    positivity
  · rfl

theorem segment_travel (e : ℝ) :
    (p.segment t₀ start accel).travel e = p.direction.sign * p.shape accel e := by
  simp only [Segment.travel,segment,shape,decel,cruise,ramp]
  ring

theorem Planned.sound (h : p.Planned distance speed accel) :
    (p.segment t₀ start accel).Sound := Segment.sound_of_validate h.validate

theorem Planned.endPosition (h : p.Planned distance speed accel) :
    (p.segment t₀ start accel).endPosition = start + distance := by
  rw [h.sound.endPosition_eq,segment_travel,segment_duration,h.shape_duration,h.direction,
    Direction.sign_ofDistance]
  rfl

theorem Planned.glide (h : p.Planned distance speed accel) (ha : 0 ≤ accel) :
    Glide p.direction p.cruiseV (p.segment t₀ start accel).positionAt t₀ (t₀ + p.duration) := by
  have hs : (p.segment t₀ start accel).Sound := h.sound
  have hdiff : ∀ x y, p.direction.sign * ((p.segment t₀ start accel).positionAt y -
      (p.segment t₀ start accel).positionAt x) =
        p.shape accel ((p.segment t₀ start accel).elapsed y) -
          p.shape accel ((p.segment t₀ start accel).elapsed x) := by
    intro x y
    have hsign : (p.direction.sign : ℝ) * p.direction.sign = 1 := by
      cases p.direction <;> simp [Direction.sign]
    rw [Segment.positionAt_exact,Segment.positionAt_exact,segment_travel,segment_travel]
    linear_combination (p.shape accel ((p.segment t₀ start accel).elapsed y) -
      p.shape accel ((p.segment t₀ start accel).elapsed x)) * hsign
  have hle : ∀ x, (p.segment t₀ start accel).elapsed x ≤ p.duration := fun x =>
    (hs.elapsed_le_duration x).trans_eq segment_duration
  have hsub := fun x y hxy =>
    h.shape_sub ha (hs.elapsed_nonneg x) (hs.elapsed_sub hxy).1 (hle y)
  refine ⟨fun x y hxy => ?_,fun x y hxy => ?_,fun x y hx hxy hy => ?_⟩
  · rw [hdiff]; exact (hsub x y hxy).1
  · rw [hdiff]
    exact (hsub x y hxy).2.1.trans
      (mul_le_mul_of_nonneg_left (hs.elapsed_sub hxy).2 h.cruiseV_pos.le)
  · rw [hdiff]
    refine (hsub x y hxy.le).2.2 ?_
    have he : (p.segment t₀ start accel).endTime = t₀ + p.duration := segment_endTime
    rw [hs.elapsed_of_mem (show t₀ ≤ x from hx) (by rw [he]; linarith),
      hs.elapsed_of_mem (show t₀ ≤ y by linarith) (by rw [he]; exact hy)]
    exact sub_lt_sub_right hxy _

theorem Planned.even (h : p.Planned distance speed accel) {t : ℝ} (ht : t₀ + p.accelT ≤ t)
    (ht' : t ≤ t₀ + p.accelT + p.cruiseT) :
    p.direction.sign * ((p.segment t₀ start accel).positionAt (t₀ + p.accelT + p.cruiseT) -
      (p.segment t₀ start accel).positionAt t) =
        p.cruiseV * (t₀ + p.accelT + p.cruiseT - t) := by
  have ha := h.accelT
  have hc := h.cruiseT
  have hd : p.duration = 2 * p.accelT + p.cruiseT := by unfold duration; norm_num
  have hsign : (p.direction.sign : ℝ) * p.direction.sign = 1 := by
    cases p.direction <;> simp [Direction.sign]
  have hs : (p.segment t₀ start accel).Sound := h.sound
  have hshape : ∀ u, t₀ + p.accelT ≤ u → u ≤ t₀ + p.accelT + p.cruiseT →
      p.shape accel ((p.segment t₀ start accel).elapsed u) =
        1 / 2 * accel * p.accelT * p.accelT + p.cruiseV * (u - t₀ - p.accelT) := by
    intro u hu hu'
    have he : (p.segment t₀ start accel).elapsed u = u - t₀ :=
      hs.elapsed_of_mem (show t₀ ≤ u by linarith)
        (by rw [segment_endTime]; linarith)
    have h1 : p.ramp (u - t₀) = p.accelT := min_eq_right (by linarith)
    have h2 : p.cruise (u - t₀) = u - t₀ - p.accelT := by
      unfold cruise; rw [h1]; exact min_eq_left (by linarith)
    have h3 : p.decel (u - t₀) = 0 := by unfold decel; rw [h1,h2]; ring
    rw [he,shape,h1,h2,h3]; ring
  rw [Segment.positionAt_exact,Segment.positionAt_exact,segment_travel,segment_travel,
    hshape t ht ht',hshape _ (by linarith) le_rfl]
  linear_combination p.cruiseV * (t₀ + p.accelT + p.cruiseT - t) * hsign

end Segment

end Profile

end Gantry
