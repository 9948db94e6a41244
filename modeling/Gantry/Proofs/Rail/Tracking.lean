import Mathlib
import Gantry.Proofs.Exact
import Gantry.Rail.Stepping

set_option autoImplicit false

namespace Gantry

namespace Direction

theorem sign_mul_sign (d : Direction) : (d.sign : ℝ) * d.sign = 1 := by
  cases d <;> simp [sign]

theorem abs_sign (d : Direction) : |(d.sign : ℝ)| = 1 := by
  cases d <;> simp [sign]

theorem count_exact (d : Direction) : ((d.count : Int) : ℝ) = d.sign := by
  cases d <;> simp [sign,count]

theorem reaches_iff {d : Direction} {pos target : ℝ} :
    d.reaches pos target = true ↔ d.sign * target ≤ d.sign * pos := by
  cases d <;> simp [reaches,sign]

end Direction

namespace Stepper

noncomputable def place (s : Stepper ℝ) : ℝ := s.positionOfSteps s.counter

@[simp] theorem place_setPosition (s : Stepper ℝ) (pos : ℝ) : (s.setPosition pos).place = pos := by
  simp [place,positionOfSteps,setPosition]

noncomputable def stepAll (d : Direction) (ts : List ℝ) (s : Stepper ℝ) : Stepper ℝ :=
  ts.foldl (fun s t => s.step t d) s

section StepAll
variable {d : Direction} {ts : List ℝ} {s : Stepper ℝ}

@[simp] theorem stepAll_nil : s.stepAll d [] = s := rfl

theorem stepAll_cons (t : ℝ) : s.stepAll d (t :: ts) = (s.step t d).stepAll d ts := rfl

@[simp] theorem stepAll_stepDistance : (s.stepAll d ts).stepDistance = s.stepDistance := by
  induction ts generalizing s with
  | nil => rfl
  | cons t ts ih => rw [stepAll_cons,ih]; rfl

@[simp] theorem stepAll_offset : (s.stepAll d ts).offset = s.offset := by
  induction ts generalizing s with
  | nil => rfl
  | cons t ts ih => rw [stepAll_cons,ih]; rfl

theorem stepAll_counter : (s.stepAll d ts).counter = s.counter + ts.length * d.count := by
  induction ts generalizing s with
  | nil => simp
  | cons t ts ih => rw [stepAll_cons,ih,step,List.length_cons]; push_cast; ring

theorem stepAll_place :
    (s.stepAll d ts).place = s.place + ts.length * (d.sign * s.stepDistance) := by
  have h : ((s.stepAll d ts).counter : ℝ) = s.counter + ts.length * d.sign := by
    rw [stepAll_counter,← Direction.count_exact]; push_cast; rfl
  simp only [place,positionOfSteps,stepsToDistance,stepAll_stepDistance,stepAll_offset,h]
  ring

end StepAll

theorem nextStepPosition_eq (s : Stepper ℝ) (d : Direction) :
    s.nextStepPosition d = s.place + d.sign * s.stepDistance / 2 := by
  simp only [nextStepPosition,place,positionOfSteps,stepsToDistance]
  norm_num; ring

noncomputable def ahead (s : Stepper ℝ) (d : Direction) (pos : ℝ) : ℝ := d.sign * (pos - s.place)

theorem reaches_nextStepPosition {s : Stepper ℝ} {d : Direction} {pos : ℝ} :
    d.reaches pos (s.nextStepPosition d) = true ↔ s.stepDistance / 2 ≤ s.ahead d pos := by
  have h := d.sign_mul_sign
  have he : (d.sign : ℝ) * (s.place + d.sign * s.stepDistance / 2) =
      d.sign * s.place + s.stepDistance / 2 := by
    linear_combination s.stepDistance / 2 * h
  rw [Direction.reaches_iff,nextStepPosition_eq,he,ahead,mul_sub]
  constructor <;> intro h <;> linarith

theorem ahead_stepAll (s : Stepper ℝ) (d : Direction) (pos : ℝ) (ts : List ℝ) :
    (s.stepAll d ts).ahead d pos = s.ahead d pos - ts.length * s.stepDistance := by
  have h := d.sign_mul_sign
  rw [ahead,stepAll_place,ahead]
  linear_combination (-(ts.length : ℝ) * s.stepDistance) * h

/-- Each step takes a step distance off what lies ahead, so a bound on that bounds the steps. -/
theorem stepWhile_spec {p : ℝ → ℝ} {lo hi pos : ℝ} {d : Direction} (fuel : Nat) (s : Stepper ℝ)
    (hd : 0 < s.stepDistance) (hf : s.ahead d pos < fuel * s.stepDistance + s.stepDistance / 2) :
    ∃ ts, s.stepWhile p lo hi pos d fuel = s.stepAll d ts ∧
      (s.stepAll d ts).ahead d pos < s.stepDistance / 2 ∧
      (ts ≠ [] → -(s.stepDistance / 2) ≤ (s.stepAll d ts).ahead d pos) := by
  induction fuel generalizing s with
  | zero => exact ⟨[],rfl,by simpa using hf,fun h => absurd rfl h⟩
  | succ n ih =>
    by_cases hr : d.reaches pos (s.nextStepPosition d) = true
    · have ha := reaches_nextStepPosition.1 hr
      have hs := ahead_stepAll s d pos [findCrossing p lo hi (s.nextStepPosition d) d]
      obtain ⟨ts,hts,hlt,hge⟩ := ih (s.step (findCrossing p lo hi (s.nextStepPosition d) d) d) hd
        (by
          change (s.stepAll d [_]).ahead d pos < n * s.stepDistance + s.stepDistance / 2
          rw [hs]; push_cast at hf ⊢; simp only [List.length_singleton,Nat.cast_one]; linarith)
      refine ⟨_ :: ts,?_,hlt,fun _ => ?_⟩
      · rw [stepWhile]; simp only [hr,if_true]; exact hts
      · cases ts with
        | nil =>
          rw [hs]; simp only [List.length_singleton,Nat.cast_one]; linarith
        | cons t ts => exact hge (List.cons_ne_nil t ts)
    · refine ⟨[],?_,?_,fun h => absurd rfl h⟩
      · rw [stepWhile]; simp only [hr]; rfl
      · exact not_le.1 fun ha => hr (reaches_nextStepPosition.2 ha)

theorem ahead_lt_stepBound {s : Stepper ℝ} (hd : 0 < s.stepDistance) (d : Direction) (pos : ℝ) :
    s.ahead d pos < s.stepBound pos * s.stepDistance + s.stepDistance / 2 := by
  have hceil := Nat.le_ceil ((|pos| + |s.offset|) / s.stepDistance)
  rw [div_le_iff₀ hd] at hceil
  have hplace : |s.place| ≤ |(s.counter : ℝ)| * s.stepDistance + |s.offset| := by
    simp only [place,positionOfSteps,stepsToDistance]
    refine (abs_sub _ _).trans ?_
    rw [abs_mul,abs_of_pos hd]
  have hahead : s.ahead d pos ≤ |pos| + |s.place| := by
    refine (le_abs_self _).trans ?_
    rw [ahead,abs_mul,d.abs_sign,one_mul]
    exact abs_sub _ _
  have hnat : ((s.counter.natAbs : Nat) : ℝ) = |(s.counter : ℝ)| := by
    rw [Nat.cast_natAbs]; push_cast; rfl
  have hbound : (s.stepBound pos : ℝ) =
      |(s.counter : ℝ)| + 2 * ⌈(|pos| + |s.offset|) / s.stepDistance⌉₊ + 2 := by
    simp only [stepBound,Scalar.ceil_exact,Scalar.abs_exact]
    push_cast
    rw [hnat]
  have hc : (0 : ℝ) ≤ ⌈(|pos| + |s.offset|) / s.stepDistance⌉₊ * s.stepDistance := by positivity
  rw [hbound]
  nlinarith

/-- A motor that follows a motion ends within half a step behind or beyond it; if it makes no step
the motion has not come as far as its next one. -/
theorem follow_spec {p : ℝ → ℝ} {lo hi pos : ℝ} {d : Direction} {s : Stepper ℝ}
    (hd : 0 < s.stepDistance) : ∃ ts, s.follow p lo hi pos d = s.stepAll d ts ∧
      (s.stepAll d ts).ahead d pos < s.stepDistance / 2 ∧
      (ts ≠ [] → -(s.stepDistance / 2) ≤ (s.stepAll d ts).ahead d pos) := by
  unfold follow
  rw [if_neg (not_le.2 hd)]
  exact stepWhile_spec _ s hd (ahead_lt_stepBound hd d pos)

section Kept
variable {β : Type} {f : Stepper ℝ → β} {p : ℝ → ℝ} {lo hi pos : ℝ} {d : Direction}

theorem stepWhile_kept (hf : ∀ s t d, f (s.step t d) = f s) (fuel : Nat) (s : Stepper ℝ) :
    f (s.stepWhile p lo hi pos d fuel) = f s := by
  induction fuel generalizing s with
  | zero => rfl
  | succ fuel ih =>
    unfold stepWhile
    dsimp only
    split
    · rw [ih,hf]
    · rfl

theorem follow_kept (hf : ∀ s t d, f (s.step t d) = f s) (s : Stepper ℝ) :
    f (s.follow p lo hi pos d) = f s := by
  unfold follow
  split
  · rfl
  · exact stepWhile_kept hf _ s

@[simp] theorem follow_stepDistance (s : Stepper ℝ) :
    (s.follow p lo hi pos d).stepDistance = s.stepDistance :=
  follow_kept (f := fun s => s.stepDistance) (fun _ _ _ => rfl) s

end Kept

theorem follow_of_short {p : ℝ → ℝ} {lo hi pos : ℝ} {d : Direction} {s : Stepper ℝ}
    (h : s.ahead d pos < s.stepDistance / 2) : s.follow p lo hi pos d = s := by
  unfold follow
  split
  · rfl
  · generalize s.stepBound pos = fuel
    cases fuel with
    | zero => rfl
    | succ fuel =>
      unfold stepWhile
      dsimp only
      rw [if_neg fun hr => absurd (reaches_nextStepPosition.1 hr) (not_le.2 h)]

structure Near (pos : ℝ) (s : Stepper ℝ) : Prop where
  stepDistance : 0 < s.stepDistance
  le : |s.place - pos| ≤ s.stepDistance / 2

/-- A motor that is at most half a step past a position in a direction. -/
structure Behind (d : Direction) (pos : ℝ) (s : Stepper ℝ) : Prop where
  stepDistance : 0 < s.stepDistance
  le : -(s.stepDistance / 2) ≤ s.ahead d pos

section Near
variable {d e : Direction} {pos q lo hi : ℝ} {p : ℝ → ℝ} {s : Stepper ℝ}

theorem near_of_place (hd : 0 < s.stepDistance) (hp : s.place = pos) : s.Near pos := by
  refine ⟨hd,?_⟩
  rw [hp,sub_self,abs_zero]
  exact (half_pos hd).le

theorem Near.behind (h : s.Near pos) (d : Direction) : s.Behind d pos := by
  refine ⟨h.stepDistance,?_⟩
  have hle := (abs_le.1 h.le)
  cases d <;> simp only [ahead,Direction.sign] <;> linarith

theorem Behind.near (h : s.Behind d pos) (hle : s.ahead d pos ≤ s.stepDistance / 2) :
    s.Near pos := by
  have hb := h.le
  refine ⟨h.stepDistance,abs_le.2 ?_⟩
  cases d <;> simp only [ahead,Direction.sign] at hb hle <;> constructor <;> linarith

theorem Behind.forward (h : s.Behind d pos) (hq : 0 ≤ d.sign * (q - pos)) : s.Behind d q := by
  refine ⟨h.stepDistance,h.le.trans ?_⟩
  simp only [ahead]; linarith

theorem Behind.follow (h : s.Behind d pos) : (s.follow p lo hi pos d).Near pos := by
  obtain ⟨ts,hts,hlt,hge⟩ : ∃ ts, s.follow p lo hi pos d = s.stepAll d ts ∧ _ :=
    follow_spec h.stepDistance
  have hb : (s.follow p lo hi pos d).Behind d pos := by
    refine ⟨by rw [follow_stepDistance]; exact h.stepDistance,?_⟩
    rw [hts,stepAll_stepDistance]
    cases ts with
    | nil => exact h.le
    | cons t ts => exact hge (List.cons_ne_nil t ts)
  refine hb.near ?_
  rw [hts,stepAll_stepDistance]
  exact hlt.le

theorem behind_follow (hd : 0 < s.stepDistance) (he : e ≠ d) :
    (s.follow p lo hi pos e).Behind d pos := by
  obtain ⟨ts,hts,hlt,-⟩ : ∃ ts, s.follow p lo hi pos e = s.stepAll e ts ∧ _ := follow_spec hd
  refine ⟨by rw [follow_stepDistance]; exact hd,?_⟩
  rw [hts,stepAll_stepDistance]
  cases d <;> cases e <;> simp only [ahead,Direction.sign,ne_eq,not_true_eq_false] at hlt he ⊢ <;>
    linarith

end Near

end Stepper

section Kept
variable {β : Type} {f : Stepper ℝ → β}

theorem stepMonotone_kept (hf : ∀ s t d, f (s.step t d) = f s) (p : ℝ → ℝ) (lo hi posLo posHi : ℝ)
    (ss : List (Stepper ℝ)) : (stepMonotone p lo hi posLo posHi ss).map f = ss.map f := by
  unfold stepMonotone
  split
  · rw [List.map_map]
    exact List.map_congr_left fun s _ => Stepper.follow_kept hf s
  · rfl

theorem stepWindow_kept (hf : ∀ s t d, f (s.step t d) = f s) (m : RailMotion ℝ)
    (ss : List (Stepper ℝ)) (a b : ℝ) : (stepWindow m ss a b).map f = ss.map f := by
  unfold stepWindow
  dsimp only
  split <;> simp only [stepMonotone_kept hf]

theorem stepWindows_kept (hf : ∀ s t d, f (s.step t d) = f s) (m : RailMotion ℝ) (times : List ℝ)
    (ss : List (Stepper ℝ)) : (stepWindows m times ss).map f = ss.map f := by
  unfold stepWindows
  induction windows times generalizing ss with
  | nil => rfl
  | cons w ws ih => rw [List.foldl_cons,ih,stepWindow_kept hf]

end Kept

section Monotone
variable {d : Direction} {posLo posHi q lo hi : ℝ} {p : ℝ → ℝ} {ss : List (Stepper ℝ)}

theorem Direction.between?_eq_some :
    Direction.between? posLo posHi = some d ↔ 0 < d.sign * (posHi - posLo) := by
  unfold between?
  split_ifs <;> cases d <;> simp [sign] <;> linarith

theorem Direction.between?_eq_none : Direction.between? posLo posHi = none ↔ posLo = posHi := by
  unfold between?
  split_ifs with h h'
  · simp [h.ne]
  · simp [h'.ne']
  · simp [le_antisymm (not_lt.1 h') (not_lt.1 h)]

theorem stepMonotone_near (h : ∀ s ∈ ss, s.Near posLo) :
    ∀ s ∈ stepMonotone p lo hi posLo posHi ss, s.Near posHi := by
  intro s hs
  unfold stepMonotone at hs
  cases hb : Direction.between? posLo posHi with
  | none => rw [hb] at hs; rw [← Direction.between?_eq_none.1 hb]; exact h s hs
  | some e =>
    rw [hb] at hs
    obtain ⟨s',hs',rfl⟩ := List.mem_map.1 hs
    exact (((h s' hs').behind e).forward (Direction.between?_eq_some.1 hb).le).follow

/-- Wherever it is led from, a motor does not go past where it is led to, nor anything beyond. -/
theorem stepMonotone_behind (h : ∀ s ∈ ss, s.Behind d q) (hq : 0 ≤ d.sign * (q - posHi)) :
    ∀ s ∈ stepMonotone p lo hi posLo posHi ss, s.Behind d q := by
  intro s hs
  unfold stepMonotone at hs
  cases hb : Direction.between? posLo posHi with
  | none => rw [hb] at hs; exact h s hs
  | some e =>
    rw [hb] at hs
    obtain ⟨s',hs',rfl⟩ := List.mem_map.1 hs
    have hd := (h s' hs').stepDistance
    by_cases he : e = d
    · subst he
      obtain ⟨ts,hts,-,hge⟩ : ∃ ts, s'.follow p lo hi posHi e = s'.stepAll e ts ∧ _ :=
        Stepper.follow_spec hd
      rw [hts]
      cases ts with
      | nil => exact h s' hs'
      | cons t ts =>
        have hb : (s'.stepAll e (t :: ts)).Behind e posHi := by
          refine ⟨?_,?_⟩ <;> rw [Stepper.stepAll_stepDistance]
          · exact hd
          · exact hge (List.cons_ne_nil t ts)
        exact hb.forward hq
    · exact (Stepper.behind_follow hd he).forward hq

theorem stepMonotone_catch (h : ∀ s ∈ ss, s.Behind d posHi) (hp : 0 < d.sign * (posHi - posLo)) :
    ∀ s ∈ stepMonotone p lo hi posLo posHi ss, s.Near posHi := by
  intro s hs
  unfold stepMonotone at hs
  rw [Direction.between?_eq_some.2 hp] at hs
  obtain ⟨s',hs',rfl⟩ := List.mem_map.1 hs
  exact (h s' hs').follow

end Monotone

end Gantry
