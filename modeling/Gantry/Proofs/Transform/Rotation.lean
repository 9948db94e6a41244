import Mathlib
import Gantry.Proofs.Exact
import Gantry.Proofs.Transform.Passes

set_option autoImplicit false

namespace Gantry

/-- A sine and a cosine: a point of the unit circle for every angle, mirrored with the angle. -/
class Trigonometry where
  sin : ℝ → ℝ
  cos : ℝ → ℝ
  sin_sq_add_cos_sq : ∀ a, sin a ^ 2 + cos a ^ 2 = 1
  sin_neg : ∀ a, sin (-a) = -sin a
  cos_neg : ∀ a, cos (-a) = cos a

/-- The exact reading over any sine and cosine. -/
noncomputable instance circularScalar [Trigonometry] : Scalar ℝ where
  decLt := inferInstance
  decLe := inferInstance
  beq x y := decide (x = y)
  isFinite _ := true
  sqrt := Real.sqrt
  sin := Trigonometry.sin
  cos := Trigonometry.cos
  pi := Real.pi
  ceil := Nat.ceil

@[reducible] noncomputable def Trigonometry.real : Trigonometry where
  sin := Real.sin
  cos := Real.cos
  sin_sq_add_cos_sq := Real.sin_sq_add_cos_sq
  sin_neg := Real.sin_neg
  cos_neg := Real.cos_neg

theorem turn_real (a c0 c1 : ℝ) : turn a c0 c1 =
    (c0 * Real.cos a - c1 * Real.sin a,c0 * Real.sin a + c1 * Real.cos a) := rfl

def Vector3.gap2 (v w : Vector3 ℝ) : ℝ := (v.x - w.x) ^ 2 + (v.y - w.y) ^ 2 + (v.z - w.z) ^ 2

theorem Vector3.ext_iff {v w : Vector3 ℝ} : v = w ↔ v.x = w.x ∧ v.y = w.y ∧ v.z = w.z := by
  cases v; cases w; simp

variable [Trigonometry]

theorem turn_exact (a c0 c1 : ℝ) :
    turn a c0 c1 = (c0 * Trigonometry.cos a - c1 * Trigonometry.sin a,
      c0 * Trigonometry.sin a + c1 * Trigonometry.cos a) := rfl

theorem turn_neg_turn (a c0 c1 : ℝ) : turn (-a) (turn a c0 c1).1 (turn a c0 c1).2 = (c0,c1) := by
  have h := Trigonometry.sin_sq_add_cos_sq a
  simp only [turn_exact,Trigonometry.sin_neg,Trigonometry.cos_neg,Prod.mk.injEq]
  exact ⟨by linear_combination c0 * h,by linear_combination c1 * h⟩

theorem turn_norm (a c0 c1 : ℝ) :
    (turn a c0 c1).1 ^ 2 + (turn a c0 c1).2 ^ 2 = c0 ^ 2 + c1 ^ 2 := by
  have h := Trigonometry.sin_sq_add_cos_sq a
  simp only [turn_exact]
  linear_combination (c0 ^ 2 + c1 ^ 2) * h

theorem turn_sub (a c0 c1 d0 d1 : ℝ) :
    turn a (c0 - d0) (c1 - d1) =
      ((turn a c0 c1).1 - (turn a d0 d1).1,(turn a c0 c1).2 - (turn a d0 d1).2) := by
  simp only [turn_exact,Prod.mk.injEq]
  constructor <;> ring

namespace Stage
variable (s : Stage ℝ) (a : ℝ) (p q : Vector3 ℝ)

theorem rotate_neg_rotate : (s.rotate (-a) (s.rotate a p).1).1 = p := by
  obtain ⟨-,axis,o,-⟩ := s
  have h := turn_neg_turn a ((p.sub o).plane axis).1 ((p.sub o).plane axis).2
  rw [Prod.mk.injEq] at h
  cases axis <;>
    simp_all [rotate,Vector3.rotate,Vector3.plane,Vector3.add,Vector3.sub]

theorem gap2_rotate : (s.rotate a p).1.gap2 (s.rotate a q).1 = p.gap2 q := by
  obtain ⟨-,axis,o,-⟩ := s
  have h := turn_norm a (((p.sub o).plane axis).1 - ((q.sub o).plane axis).1)
    (((p.sub o).plane axis).2 - ((q.sub o).plane axis).2)
  rw [turn_sub] at h
  cases axis <;>
    simp only [rotate,Vector3.rotate,Vector3.plane,Vector3.add,Vector3.sub,Vector3.gap2] at h ⊢ <;>
    linear_combination h

theorem radius2_rotate : s.radius2 (s.rotate a p).1 = s.radius2 p := by
  obtain ⟨-,axis,o,-⟩ := s
  have h := turn_norm a ((p.sub o).plane axis).1 ((p.sub o).plane axis).2
  cases axis <;>
    simp only [radius2,rotate,Vector3.rotate,Vector3.radius2,Vector3.plane,Vector3.add,Vector3.sub]
      at h ⊢ <;>
    linear_combination h

end Stage

section Walk
variable (f : ℝ) (θ : Nat → ℝ) (p q : Vector3 ℝ) (s : Stage ℝ)

theorem Stage.place_neg_place : s.place (-f) θ (s.place f θ p) = p := by
  cases h : s.slot with
  | none => simp [place_of_none h]
  | some i => rw [place_of_slot h,place_of_slot h,mul_neg,rotate_neg_rotate]

theorem Stage.gap2_place : (s.place f θ p).gap2 (s.place f θ q) = p.gap2 q := by
  cases h : s.slot with
  | none => simp [place_of_none h]
  | some i => rw [place_of_slot h,place_of_slot h,gap2_rotate]

theorem Stage.radius2_place : s.radius2 (s.place f θ p) = s.radius2 p := by
  cases h : s.slot with
  | none => rw [place_of_none h]
  | some i => rw [place_of_slot h,radius2_rotate]

/-- The stages backwards, by the opposite angles, undo the stages. -/
theorem walk_neg_walk (l : List (Stage ℝ)) : walk (-f) θ l.reverse (walk f θ l p) = p := by
  induction l generalizing p with
  | nil => rfl
  | cons s l ih =>
    rw [List.reverse_cons,walk_append,walk_cons f,ih,walk_cons,walk_nil,s.place_neg_place]

theorem walk_walk_neg (l : List (Stage ℝ)) : walk f θ l (walk (-f) θ l.reverse p) = p := by
  have h := walk_neg_walk (-f) θ p l.reverse
  rwa [neg_neg,List.reverse_reverse] at h

theorem gap2_walk (l : List (Stage ℝ)) : (walk f θ l p).gap2 (walk f θ l q) = p.gap2 q := by
  induction l generalizing p q with
  | nil => rfl
  | cons s l ih => rw [walk_cons,walk_cons,ih,s.gap2_place]

end Walk

end Gantry
