import Mathlib
import Gantry.Proofs.Exact

/-!
Lawful scalars: what the order and the sums of numbers have to keep to so that times can be compared
and added. Rounding keeps to it as well as exact arithmetic does.
-/
set_option autoImplicit false

namespace Gantry

/-- Scalars of which those that are ordered at all are in one order, and whose sums and means do not
fall behind. -/
class LawfulScalar (α : Type) [Scalar α] : Prop where
  le_trans {x y z : α} : x ≤ y → y ≤ z → x ≤ z
  le_left {x y : α} : x ≤ y → x ≤ x
  le_right {x y : α} : x ≤ y → y ≤ y
  le_total {x y : α} : x ≤ x → y ≤ y → x ≤ y ∨ y ≤ x
  lt_iff {x y : α} : x < y ↔ x ≤ y ∧ ¬y ≤ x
  finite {x : α} : Scalar.isFinite x = true → x ≤ x
  zero : Scalar.isFinite (0 : α) = true
  slack : (0 : α) ≤ timeEpsilon
  add_slack {x y : α} : x ≤ y → x + timeEpsilon ≤ y + timeEpsilon
  le_add {x y : α} : Scalar.isFinite x = true ∨ 0 ≤ x → 0 ≤ y → x ≤ x + y
  le_mid {x y z : α} : 0 ≤ x → x ≤ y → x ≤ z → x ≤ 0.5 * (y + z)

instance : LawfulScalar ℝ where
  le_trans := le_trans
  le_left _ := le_rfl
  le_right _ := le_rfl
  le_total _ _ := le_total _ _
  lt_iff := lt_iff_le_not_ge
  finite _ := le_rfl
  zero := rfl
  slack := timeEpsilon_pos.le
  add_slack h := add_le_add_left h _
  le_add _ h := le_add_of_nonneg_right h
  le_mid _ h h' := by norm_num; linarith

namespace LawfulScalar
variable {α : Type} [Scalar α] [LawfulScalar α] {x y z : α}

theorem le_of_lt (h : x < y) : x ≤ y := (lt_iff.1 h).1

theorem not_lt_of_le (h : x ≤ y) : ¬y < x := fun hlt => (lt_iff.1 hlt).2 h

theorem le_of_not_lt (hx : x ≤ x) (hy : y ≤ y) (h : ¬x < y) : y ≤ x := by
  rcases le_total hx hy with hle | hle
  · by_contra hn
    exact h (lt_iff.2 ⟨hle,hn⟩)
  · exact hle

theorem lt_of_not_le (hx : x ≤ x) (hy : y ≤ y) (h : ¬x ≤ y) : y < x :=
  lt_iff.2 ⟨(le_total hx hy).resolve_left h,h⟩

theorem lt_of_le_of_lt (h : x ≤ y) (h' : y < z) : x < z :=
  lt_iff.2 ⟨le_trans h (le_of_lt h'),fun hn => (lt_iff.1 h').2 (le_trans hn h)⟩

theorem lt_of_lt_of_le (h : x < y) (h' : y ≤ z) : x < z :=
  lt_iff.2 ⟨le_trans (le_of_lt h) h',fun hn => (lt_iff.1 h).2 (le_trans h' hn)⟩

omit [LawfulScalar α] in
theorem isNaN_eq_false : Scalar.isNaN x = false ↔ x ≤ x := by
  simp [Scalar.isNaN]

theorem zero_le_zero : (0 : α) ≤ 0 := finite zero

theorem add_nonneg (hx : 0 ≤ x) (hy : 0 ≤ y) : 0 ≤ x + y := le_trans hx (le_add (Or.inr hx) hy)

theorem sortsBefore_trans (h : Scalar.sortsBefore x y = true) (h' : Scalar.sortsBefore y z = true) :
    Scalar.sortsBefore x z = true := by
  simp only [Scalar.sortsBefore,Bool.or_eq_true,decide_eq_true_eq] at h h' ⊢
  rcases h' with h' | h'
  · rcases h with h | h
    · exact Or.inl (le_trans h h')
    · rw [isNaN_eq_false.2 (le_left h')] at h
      cases h
  · exact Or.inr h'

theorem sortsBefore_total (x y : α) :
    (Scalar.sortsBefore x y || Scalar.sortsBefore y x) = true := by
  by_cases hx : x ≤ x
  · by_cases hy : y ≤ y
    · rcases le_total hx hy with h | h <;> simp [Scalar.sortsBefore,h]
    · simp [Scalar.sortsBefore,Scalar.isNaN,hy]
  · simp [Scalar.sortsBefore,Scalar.isNaN,hx]

end LawfulScalar

end Gantry
