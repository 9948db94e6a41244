import Mathlib
import Gantry.Proofs.Transform.Arc

set_option autoImplicit false

namespace Gantry

def Vector3.shift (v : Vector3 ℝ) (t : ℝ) : Axis → Vector3 ℝ
  | .x => ⟨v.x + t,v.y,v.z⟩
  | .y => ⟨v.x,v.y + t,v.z⟩
  | .z => ⟨v.x,v.y,v.z + t⟩

namespace Stage
variable {s m : Stage ℝ}

theorem radius2_nonneg (s : Stage ℝ) (v : Vector3 ℝ) : 0 ≤ s.radius2 v :=
  add_nonneg (mul_self_nonneg _) (mul_self_nonneg _)

theorem radius2_eq_zero_iff {v : Vector3 ℝ} :
    s.radius2 v = 0 ↔ v.plane s.rotateAxis = s.offset.plane s.rotateAxis := by
  have h (a b c d : ℝ) : (a - c) * (a - c) + (b - d) * (b - d) = 0 ↔ a = c ∧ b = d := by
    rw [mul_self_add_mul_self_eq_zero,sub_eq_zero,sub_eq_zero]
  obtain ⟨_,axis,o,_⟩ := s
  cases axis <;>
    simp only [radius2,Vector3.radius2,Vector3.plane,Vector3.sub,Prod.mk.injEq,h]

@[simp] theorem radius2_shift (s : Stage ℝ) (t : ℝ) :
    s.radius2 (s.offset.shift t s.rotateAxis) = 0 := by
  rw [radius2_eq_zero_iff]
  cases s.rotateAxis <;> rfl

theorem rotate_add (s : Stage ℝ) (a b : ℝ) (v : Vector3 ℝ) :
    (s.rotate a (s.rotate b v).1).1 = (s.rotate (a + b) v).1 := by
  obtain ⟨_,axis,o,_⟩ := s
  cases axis <;>
    simp only [rotate,Vector3.rotate,Vector3.plane,Vector3.add,Vector3.sub,turn_real,
      add_sub_cancel_right,Real.cos_add,Real.sin_add,Vector3.ext_iff,true_and,and_true] <;>
    constructor <;> ring

theorem rotate_of_line [Trigonometry] (h : s.line = m.line) (a : ℝ) (v : Vector3 ℝ) :
    (s.rotate a v).1 = (m.rotate a v).1 := by
  obtain ⟨_,axis,o,_⟩ := s
  obtain ⟨_,axis',o',_⟩ := m
  obtain ⟨rfl,h⟩ := Prod.mk.injEq .. ▸ h
  cases axis <;> simp_all [rotate,Vector3.rotate,Vector3.plane,Vector3.add,Vector3.sub]

theorem line_eq_of_subset (h : ∀ v, m.radius2 v = 0 → s.radius2 v = 0) : s.line = m.line := by
  have h0 := h _ (m.radius2_shift 0)
  have h1 := h _ (m.radius2_shift 1)
  rw [radius2_eq_zero_iff] at h0 h1
  obtain ⟨_,axis,o,_⟩ := s
  obtain ⟨_,axis',o',_⟩ := m
  cases axis <;> cases axis' <;>
    simp_all [line,Vector3.plane,Vector3.shift]

theorem line_eq_of_turns (h : ∀ v, m.radius2 v = 0 → ∀ a, m.radius2 (s.rotate a v).1 = 0) :
    s.line = m.line := by
  refine line_eq_of_subset fun v hv => ?_
  have hhalf := h v hv Real.pi
  have hquarter := h v hv (Real.pi / 2)
  rw [radius2_eq_zero_iff] at hv hhalf hquarter ⊢
  obtain ⟨_,axis,o,_⟩ := s
  obtain ⟨_,axis',o',_⟩ := m
  cases axis <;> cases axis' <;>
    simp only [rotate,Vector3.rotate,Vector3.plane,Vector3.add,Vector3.sub,turn_real,Real.cos_pi,
      Real.sin_pi,Real.cos_pi_div_two,Real.sin_pi_div_two,Prod.mk.injEq] at * <;>
    constructor <;> linarith

/-- Of two points of a line that is across another, one is as far from that as from the middle. -/
theorem radius2_shift_across (h : s.rotateAxis ≠ m.rotateAxis) {ρ : ℝ} (hρ : 0 ≤ ρ) :
    ρ ^ 2 ≤ max (s.radius2 (m.offset.shift ρ m.rotateAxis))
      (s.radius2 (m.offset.shift (-ρ) m.rotateAxis)) := by
  have hside (x y k : ℝ) : ρ ^ 2 ≤ (x + ρ - y) * (x + ρ - y) + k * k ∨
      ρ ^ 2 ≤ (x + -ρ - y) * (x + -ρ - y) + k * k := by
    rcases le_total y x with hxy | hxy
    · exact .inl (by nlinarith [mul_nonneg hρ (sub_nonneg.2 hxy),mul_self_nonneg k])
    · exact .inr (by nlinarith [mul_nonneg hρ (sub_nonneg.2 hxy),mul_self_nonneg k])
  rw [le_max_iff]
  obtain ⟨_,axis,o,_⟩ := s
  obtain ⟨_,axis',o',_⟩ := m
  cases axis <;> cases axis' <;> first | exact absurd rfl h | skip
  all_goals
    simp only [radius2,Vector3.radius2,Vector3.plane,Vector3.sub,Vector3.shift]
    first
      | exact hside _ _ _
      | exact (hside _ _ _).imp (·.trans_eq (add_comm _ _)) (·.trans_eq (add_comm _ _))

theorem exists_angle {y : ℝ} (hy : 0 < y) : ∃ a, y < a ∧ a ≤ 2 * y ∧ Real.cos a ≠ 1 := by
  by_cases h : Real.cos (2 * y) = 1
  · have hsin : Real.sin (2 * y) = 0 := by
      have hsq := Real.sin_sq_add_cos_sq (2 * y)
      rw [h] at hsq
      exact pow_eq_zero_iff two_ne_zero |>.1 (by linarith)
    obtain ⟨δ,h0,hδy,h1⟩ : ∃ δ, 0 < δ ∧ δ < y ∧ δ ≤ 1 :=
      ⟨min (y / 2) 1,by positivity,(min_le_left _ _).trans_lt (by linarith),min_le_right _ _⟩
    refine ⟨2 * y - δ,by linarith,by linarith,fun hcos => ?_⟩
    rw [Real.cos_sub,h,hsin,one_mul,zero_mul,add_zero] at hcos
    have hsq := Real.sin_sq_add_cos_sq δ
    have hpos := Real.sin_pos_of_pos_of_le_one h0 h1
    nlinarith
  · exact ⟨2 * y,by linarith,le_rfl,h⟩

/-- The chord of a point turned both ways passes the point at a distance, unless it is on the line
turned around. -/
theorem radius2_eq_zero_of_parallel (haxis : s.rotateAxis = m.rotateAxis) {a : ℝ}
    (ha : Real.cos a ≠ 1)
    (hmid : m.radius2 ((s.rotate a m.offset).1.between (s.rotate (-a) m.offset).1 (1 / 2)) = 0) :
    s.radius2 m.offset = 0 := by
  rw [radius2_eq_zero_iff] at hmid ⊢
  obtain ⟨_,axis,o,_⟩ := s
  obtain ⟨_,axis',o',_⟩ := m
  obtain rfl : axis = axis' := haxis
  have hcancel (x y : ℝ) (h : (x - y) * (Real.cos a - 1) = 0) : x = y :=
    sub_eq_zero.1 ((mul_eq_zero.1 h).resolve_right (sub_ne_zero.2 ha))
  cases axis <;>
    simp only [rotate,Vector3.rotate,Vector3.plane,Vector3.add,Vector3.sub,Vector3.between,
      turn_real,Real.cos_neg,Real.sin_neg,Prod.mk.injEq] at hmid ⊢ <;>
    exact ⟨hcancel _ _ (by linarith [hmid.1]),hcancel _ _ (by linarith [hmid.2])⟩

/-- Of two points on either side of a line across, turned one way and the other, the chords leave the
line. -/
theorem not_both_chords (haxis : s.rotateAxis ≠ m.rotateAxis) {a ρ : ℝ} (h : 0 < ρ * Real.sin a)
    (h1 : m.radius2 ((s.rotate a (m.offset.shift ρ m.rotateAxis)).1.between
      (s.rotate (-a) (m.offset.shift (-ρ) m.rotateAxis)).1 (1 / 2)) = 0)
    (h2 : m.radius2 ((s.rotate a (m.offset.shift (-ρ) m.rotateAxis)).1.between
      (s.rotate (-a) (m.offset.shift ρ m.rotateAxis)).1 (1 / 2)) = 0) : False := by
  rw [radius2_eq_zero_iff] at h1 h2
  obtain ⟨_,axis,o,_⟩ := s
  obtain ⟨_,axis',o',_⟩ := m
  cases axis <;> cases axis' <;> first | exact absurd rfl haxis | skip
  all_goals
    simp only [rotate,Vector3.rotate,Vector3.plane,Vector3.add,Vector3.sub,Vector3.between,
      Vector3.shift,turn_real,Real.cos_neg,Real.sin_neg,Prod.mk.injEq] at h1 h2
    linarith [h1.1,h1.2,h2.1,h2.2]

/-- Chords of the circles around a line, from points of another line turned one way to points turned
the other way, by angles that keep the arc between a length and its double. Their mid-points are all
on the other line only if it is the same. -/
theorem line_eq_of_chords {ρ : ℝ} (hρ : 0 < ρ)
    (h : ∀ v w a, m.radius2 v = 0 → m.radius2 w = 0 → 0 < a →
      ρ < 2 * (a * √(max (s.radius2 v) (s.radius2 w))) →
      a * √(max (s.radius2 v) (s.radius2 w)) ≤ ρ →
      m.radius2 ((s.rotate a v).1.between (s.rotate (-a) w).1 (1 / 2)) = 0) :
    s.line = m.line := by
  by_contra hne
  have hzero : m.radius2 m.offset = 0 := radius2_eq_zero_iff.2 rfl
  by_cases haxis : s.rotateAxis = m.rotateAxis
  · -- all of a parallel line is equally far
    have hfar : 0 < s.radius2 m.offset := by
      refine (radius2_nonneg s _).lt_of_ne fun h0 => hne ?_
      have hplane := radius2_eq_zero_iff.1 h0.symm
      rw [line,line,← haxis,hplane]
    have hD := Real.sqrt_pos.2 hfar
    have hy : 0 < ρ / (2 * √(s.radius2 m.offset)) := by positivity
    obtain ⟨a,hlow,hhigh,hcos⟩ := exists_angle hy
    have ha := hy.trans hlow
    rw [div_lt_iff₀ (by positivity)] at hlow
    rw [← mul_div_assoc,mul_div_mul_left _ _ two_ne_zero,le_div_iff₀ hD] at hhigh
    refine hfar.ne' (radius2_eq_zero_of_parallel haxis hcos ?_)
    exact h _ _ a hzero hzero ha (by rw [max_self]; linarith) (by rwa [max_self])
  · -- on a line across there are points as far as one likes
    have hfar := radius2_shift_across haxis hρ.le
    set D := √(max (s.radius2 (m.offset.shift ρ m.rotateAxis))
      (s.radius2 (m.offset.shift (-ρ) m.rotateAxis))) with hD
    have hle : ρ ≤ D := Real.le_sqrt_of_sq_le hfar
    have hpos : 0 < D := hρ.trans_le hle
    have ha : 0 < ρ / D := div_pos hρ hpos
    have hmul : ρ / D * D = ρ := div_mul_cancel₀ _ hpos.ne'
    have hsin := Real.sin_pos_of_pos_of_le_one ha ((div_le_one hpos).2 hle)
    refine not_both_chords haxis (mul_pos hρ hsin) ?_ ?_
    · refine h _ _ _ (m.radius2_shift ρ) (m.radius2_shift (-ρ)) ha ?_ ?_ <;> rw [← hD] <;> linarith
    · refine h _ _ _ (m.radius2_shift (-ρ)) (m.radius2_shift ρ) ha ?_ ?_ <;>
        rw [max_comm,← hD] <;> linarith

section Walk
variable {f : ℝ} {θ : Nat → ℝ} {l : List (Stage ℝ)} {a b : Nat}

theorem place_of_line (hs : s.slot = some a) (h : s.line = m.line) (f : ℝ) (θ : Nat → ℝ)
    (v : Vector3 ℝ) : s.place f θ v = (m.rotate (θ a * f) v).1 := by
  rw [place_of_slot hs,@rotate_of_line _ _ .real h]

theorem walk_of_axis (hθ : ∀ s' ∈ l, ∀ i, s'.slot = some i → i ≠ a → θ i = 0)
    (hl : ∀ s' ∈ l, s'.slot = some a → s'.line = s.line) (v : Vector3 ℝ) :
    walk f θ l v = (s.rotate (l.countP (·.slot = some a) * (θ a * f)) v).1 := by
  induction l generalizing v with
  | nil => simp [rotate_zero]
  | cons s' l ih =>
    obtain ⟨hs',hθ⟩ := List.forall_mem_cons.1 hθ
    obtain ⟨hline,hl⟩ := List.forall_mem_cons.1 hl
    rw [walk_cons,ih hθ hl]
    by_cases ha : s'.slot = some a
    · rw [place_of_line ha (hline ha),rotate_add,List.countP_cons_of_pos (by simpa using ha)]
      congr 2
      push_cast
      ring
    · rw [List.countP_cons_of_neg (by simpa using ha),place_of_zero]
      exact fun i hi => hs' i hi fun hia => ha (hia ▸ hi)

/-- While two axes alone are turned, the second one only after the first, the stages of each make one
turn. -/
theorem walk_of_order (hne : a ≠ b)
    (hθ : ∀ s' ∈ l, ∀ i, s'.slot = some i → i ≠ a → i ≠ b → θ i = 0)
    (ha : ∀ s' ∈ l, s'.slot = some a → s'.line = s.line)
    (hb : ∀ s' ∈ l, s'.slot = some b → s'.line = m.line)
    (hab : l.Pairwise fun s' s'' => s'.slot = some b → s''.slot ≠ some a) (v : Vector3 ℝ) :
    walk f θ l v = (m.rotate (l.countP (·.slot = some b) * (θ b * f))
      (s.rotate (l.countP (·.slot = some a) * (θ a * f)) v).1).1 := by
  induction l generalizing v with
  | nil => simp [rotate_zero]
  | cons s' l ih =>
    obtain ⟨hs',hθ⟩ := List.forall_mem_cons.1 hθ
    obtain ⟨haline,ha⟩ := List.forall_mem_cons.1 ha
    obtain ⟨hbline,hb⟩ := List.forall_mem_cons.1 hb
    obtain ⟨hnone,hab⟩ := List.pairwise_cons.1 hab
    have hcount {c : Nat} (hc : s'.slot ≠ some c) :
        (s' :: l).countP (·.slot = some c) = l.countP (·.slot = some c) :=
      List.countP_cons_of_neg (by simpa using hc)
    have hcount' {c : Nat} (hc : s'.slot = some c) :
        (s' :: l).countP (·.slot = some c) = l.countP (·.slot = some c) + 1 :=
      List.countP_cons_of_pos (by simpa using hc)
    -- by `hab` no stage of the first axis is left once one of the second has come
    rw [walk_cons,ih hθ ha hb hab]
    by_cases hsa : s'.slot = some a
    · have hsb : s'.slot ≠ some b := fun hsb => hne (Option.some.inj (hsa.symm.trans hsb))
      rw [place_of_line hsa (haline hsa),rotate_add,hcount' hsa,hcount hsb]
      congr 4
      push_cast
      ring
    · rw [hcount hsa]
      by_cases hsb : s'.slot = some b
      · have hnil : l.countP (·.slot = some a) = 0 := by
          simpa [List.countP_eq_zero] using fun s'' hs'' => hnone s'' hs'' hsb
        rw [hnil,Nat.cast_zero,zero_mul,rotate_zero,rotate_zero,place_of_line hsb (hbline hsb),
          rotate_add,hcount' hsb]
        congr 2
        push_cast
        ring
      · rw [place_of_zero,hcount hsb]
        exact fun i hi => hs' i hi (fun h => hsa (h ▸ hi)) fun h => hsb (h ▸ hi)

theorem radius2_walk_of_order (hne : a ≠ b)
    (hθ : ∀ s' ∈ l, ∀ i, s'.slot = some i → i ≠ a → i ≠ b → θ i = 0)
    (ha : ∀ s' ∈ l, s'.slot = some a → s'.line = s.line)
    (hb : ∀ s' ∈ l, s'.slot = some b → s'.line = m.line)
    (hab : l.Pairwise fun s' s'' => s'.slot = some b → s''.slot ≠ some a) (v : Vector3 ℝ) :
    m.radius2 (walk f θ l v) =
      m.radius2 (s.rotate (l.countP (·.slot = some a) * (θ a * f)) v).1 := by
  rw [walk_of_order hne hθ ha hb hab,@radius2_rotate .real]

end Walk

end Stage

end Gantry
