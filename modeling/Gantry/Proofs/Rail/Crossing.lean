import Mathlib
import Gantry.Proofs.Rail.Tracking

set_option autoImplicit false

namespace Gantry

theorem epsilon_exact : (Scalar.epsilon : ℝ) = 1 / 2 ^ 52 := by
  unfold Scalar.epsilon; norm_num

theorem Direction.isBefore_iff {d : Direction} {pos target : ℝ} :
    d.isBefore pos target = true ↔ d.sign * pos < d.sign * target := by
  cases d <;> simp [isBefore,sign]

theorem Direction.isBefore_eq_not_reaches {d : Direction} {pos target : ℝ} :
    d.isBefore pos target = !d.reaches pos target := by
  rw [Bool.eq_iff_iff,isBefore_iff,Bool.not_eq_true',Bool.eq_false_iff,ne_eq,reaches_iff,not_le]

/-- A position that does not go back over a range of time. -/
def Direction.Along (d : Direction) (p : ℝ → ℝ) (lo hi : ℝ) : Prop :=
  MonotoneOn (fun t => d.sign * p t) (Set.Icc lo hi)

section Bisect
variable {p : ℝ → ℝ} {d : Direction} {lo hi target target' : ℝ}

theorem mid_mem (h : lo ≤ hi) : lo ≤ 0.5 * (lo + hi) ∧ 0.5 * (lo + hi) ≤ hi := by
  constructor <;> norm_num <;> linarith

theorem bisect_mem (h : lo ≤ hi) (n : Nat) :
    lo ≤ bisect p target d n lo hi ∧ bisect p target d n lo hi ≤ hi := by
  induction n generalizing lo hi with
  | zero => exact ⟨h,le_rfl⟩
  | succ n ih =>
    obtain ⟨hlo,hhi⟩ := mid_mem h
    unfold bisect
    dsimp only
    split
    · exact ⟨h,le_rfl⟩
    split
    · exact ⟨hlo.trans (ih hhi).1,(ih hhi).2⟩
    · exact ⟨(ih hlo).1,(ih hlo).2.trans hhi⟩

/-- The halves chosen for both targets agree until one of them has been reached and the other has
not; from there on the two are searched on either side of the same time. -/
theorem bisect_mono (ht : d.sign * target ≤ d.sign * target') (h : lo ≤ hi) (n : Nat) :
    bisect p target d n lo hi ≤ bisect p target' d n lo hi := by
  induction n generalizing lo hi with
  | zero => exact le_rfl
  | succ n ih =>
    obtain ⟨hlo,hhi⟩ := mid_mem h
    unfold bisect
    dsimp only
    split
    · exact le_rfl
    by_cases hb : d.isBefore (p (0.5 * (lo + hi))) target = true
    · have hb' : d.isBefore (p (0.5 * (lo + hi))) target' = true :=
        Direction.isBefore_iff.2 ((Direction.isBefore_iff.1 hb).trans_le ht)
      rw [if_pos hb,if_pos hb']
      exact ih hhi
    · rw [if_neg hb]
      split
      · exact (bisect_mem hlo n).2.trans (bisect_mem hhi n).1
      · exact ih hlo

theorem half_length (lo hi : ℝ) (n : Nat) :
    (hi - 0.5 * (lo + hi)) / 2 ^ n = (hi - lo) / 2 ^ (n + 1) ∧
      (0.5 * (lo + hi) - lo) / 2 ^ n = (hi - lo) / 2 ^ (n + 1) := by
  constructor <;> (rw [pow_succ]; field_simp; norm_num; ring)

/-- The ends of the interval when bisection stops: at the upper one the target has been reached. At
the lower one it has not, unless this is where the search began. -/
theorem bisect_bracket (h : lo ≤ hi) (hr : d.reaches (p hi) target = true) (n : Nat) :
    let r := bisect p target d n lo hi
    d.reaches (p r) target = true ∧
      ∃ l, lo ≤ l ∧ l ≤ r ∧ (l = lo ∨ d.reaches (p l) target = false) ∧
        r - l ≤ max (Scalar.epsilon * max |r| 1) ((hi - lo) / 2 ^ n) := by
  induction n generalizing lo hi with
  | zero => exact ⟨hr,lo,le_rfl,h,Or.inl rfl,le_max_of_le_right (by simp [bisect])⟩
  | succ n ih =>
    obtain ⟨hlo,hhi⟩ := mid_mem h
    obtain ⟨hupper,hlower⟩ := half_length lo hi n
    unfold bisect
    dsimp only
    split
    · rename_i hstop
      refine ⟨hr,lo,le_rfl,h,Or.inl rfl,le_max_of_le_left ?_⟩
      simpa using hstop
    cases hm : d.reaches (p (0.5 * (lo + hi))) target with
    | false =>
      rw [if_pos (by rw [Direction.isBefore_eq_not_reaches,hm]; rfl)]
      obtain ⟨hend,l,hml,hlr,hl,hwidth⟩ := ih hhi hr
      rw [hupper] at hwidth
      refine ⟨hend,l,hlo.trans hml,hlr,Or.inr ?_,hwidth⟩
      rcases hl with rfl | hl
      · exact hm
      · exact hl
    | true =>
      rw [if_neg (by rw [Direction.isBefore_eq_not_reaches,hm]; simp)]
      obtain ⟨hend,l,hl⟩ := ih hlo hm
      rw [hlower] at hl
      exact ⟨hend,l,hl⟩

end Bisect

section Crossing
variable {p : ℝ → ℝ} {d : Direction} {lo hi : ℝ}

theorem findCrossing_mem (h : lo ≤ hi) (target : ℝ) :
    lo ≤ findCrossing p lo hi target d ∧ findCrossing p lo hi target d ≤ hi :=
  bisect_mem h bisectionDepth

theorem findCrossing_step {s : Stepper ℝ} (hd : 0 < s.stepDistance) (h : lo ≤ hi) (t : ℝ) :
    findCrossing p lo hi (s.nextStepPosition d) d ≤
      findCrossing p lo hi ((s.step t d).nextStepPosition d) d := by
  refine bisect_mono ?_ h bisectionDepth
  have hplace : (s.step t d).place = s.place + d.sign * s.stepDistance := by
    have hone : s.step t d = s.stepAll d [t] := rfl
    rw [hone,Stepper.stepAll_place]
    simp
  have hsign := d.sign_mul_sign
  rw [s.nextStepPosition_eq,Stepper.nextStepPosition_eq,hplace]
  change d.sign * (s.place + d.sign * s.stepDistance / 2) ≤
    d.sign * (s.place + d.sign * s.stepDistance + d.sign * s.stepDistance / 2)
  have hnext : d.sign * (s.place + d.sign * s.stepDistance + d.sign * s.stepDistance / 2) =
      d.sign * (s.place + d.sign * s.stepDistance / 2) + s.stepDistance := by
    linear_combination s.stepDistance * hsign
  linarith

/-- Bisection finds the earliest crossing, as closely as its halvings and the spacing of the times
allow, of a position that does not go back and has reached the target by the end. Whatever the
position, a target further on its way is not found earlier. -/
theorem findCrossing_earliest (h : lo ≤ hi) (d : Direction) :
    (∀ (p : ℝ → ℝ) (target : ℝ), d.Along p lo hi → d.reaches (p hi) target = true →
      let r := findCrossing p lo hi target d
      let w := max (Scalar.epsilon * max |r| 1) ((hi - lo) / 2 ^ 64)
      (lo ≤ r ∧ r ≤ hi) ∧ d.reaches (p r) target = true ∧
        ∀ u, lo ≤ u → u < r - w → d.reaches (p u) target = false) ∧
      ∀ (p : ℝ → ℝ) (target target' : ℝ), d.sign * target ≤ d.sign * target' →
        findCrossing p lo hi target d ≤ findCrossing p lo hi target' d := by
  refine ⟨fun p target hp hr => ?_,fun p target target' ht => bisect_mono ht h bisectionDepth⟩
  intro r w
  obtain ⟨hlr,hrh⟩ : lo ≤ r ∧ r ≤ hi := findCrossing_mem h target
  obtain ⟨hend,l,hll,hle,hl,hwidth⟩ := bisect_bracket h hr bisectionDepth
  refine ⟨⟨hlr,hrh⟩,hend,fun u hlu hu => ?_⟩
  have hul : u < l := by
    have hw : r - l ≤ w := hwidth
    linarith
  rcases hl with rfl | hl
  · exact absurd hul (not_lt.2 hlu)
  · have hmono : d.sign * p u ≤ d.sign * p l :=
      hp ⟨hlu,hul.le.trans (hle.trans hrh)⟩ ⟨hll,hle.trans hrh⟩ hul.le
    rw [Bool.eq_false_iff,ne_eq,Direction.reaches_iff,not_le] at hl ⊢
    exact hmono.trans_lt hl

/-- Where the square of the time comes to one it is found within the spacing of the times before
two, and before it comes to three. -/
theorem findCrossing_earliest_square :
    let p : ℝ → ℝ := fun t => t * t
    let r := findCrossing p 0 2 1 .positive
    Direction.positive.Along p 0 2 ∧ Direction.positive.reaches (p 2) 1 = true ∧
      (1 ≤ r ∧ r ≤ 1 + 2 / 2 ^ 52) ∧ r ≤ findCrossing p 0 2 3 .positive := by
  intro p r
  obtain ⟨hearliest,hordered⟩ := findCrossing_earliest (zero_le_two (α := ℝ)) .positive
  have hp : Direction.positive.Along p 0 2 := by
    intro t ht u _ htu
    simp only [p,Direction.sign,one_mul]
    exact mul_self_le_mul_self ht.1 htu
  have hend : Direction.positive.reaches (p 2) 1 = true := by
    rw [Direction.reaches_iff]
    norm_num [p,Direction.sign]
  refine ⟨hp,hend,?_,hordered p 1 3 (by norm_num [Direction.sign])⟩
  obtain ⟨⟨hr0,hr2⟩,hr,hbefore⟩ := hearliest p 1 hp hend
  have hone : 1 ≤ r := by
    have hrr : 1 ≤ r * r := by simpa [Direction.reaches_iff,Direction.sign,p] using hr
    by_contra hlt
    nlinarith [not_le.1 hlt]
  refine ⟨hone,not_lt.1 fun hlt => ?_⟩
  have hw : max (Scalar.epsilon * max |r| 1) ((2 - 0) / 2 ^ 64) ≤ (2 : ℝ) / 2 ^ 52 := by
    rw [epsilon_exact,abs_of_nonneg hr0,max_eq_left hone]
    refine max_le ?_ (by norm_num)
    rw [one_div_mul_eq_div]
    exact div_le_div_of_nonneg_right hr2 (by positivity)
  -- The crossing at one itself would lie before all times that have come to it.
  have hnot := hbefore 1 zero_le_one (by linarith)
  simp [Direction.reaches,p] at hnot

end Crossing

end Gantry
