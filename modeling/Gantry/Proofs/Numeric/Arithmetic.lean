import Mathlib
import Gantry.Proofs.Numeric.Unpacked

set_option autoImplicit false

namespace Gantry

open Float.Model Float.Model.UnpackedFloat

section Unpacked
variable {s s' : Sign} {y y' : ℝ} {u u' : UnpackedFloat}

theorem Amounts.exact (h : Amounts s y u) : Exact (signed s y) := by
  have habs : |signed s y| = |y| := by cases s <;> simp [signed]
  unfold Exact
  rw [habs]
  cases h with
  | zero => exact ⟨0,0,by norm_num,by norm_num,by simp⟩
  | @finite m e hm hlt he hc => exact ⟨m,e,hlt,he,abs_of_nonneg (by positivity)⟩

theorem Amounts.rounded (h : Amounts s y u) : Rounded y y := by
  cases h with
  | zero => exact .zero
  | @finite m e hm hlt he hc =>
    refine ⟨by positivity,e,m,he,natCast_mul_two_zpow_lt hlt e,?_,?_,rfl⟩
    · exact hc.symm.imp_right fun h => two_zpow_le_natCast_mul h e
    · rw [mul_div_cancel_right₀ _ (two_zpow_pos e).ne']
      exact nearest_natCast m

theorem Rounded.roundsTo {x : ℝ} (h : Rounded x y) (s : Sign) :
    RoundsTo (signed s x) (signed s y) := by
  cases s with
  | positive => exact Or.inl h
  | negative => exact Or.inr (by simpa [signed] using h)

theorem apply_eq_signed (s : Sign) (m : ℕ) : ((s.apply m : ℤ) : ℝ) = signed s m := by
  cases s <;> simp [Sign.apply,signed]

theorem signed_mul (s : Sign) (x y : ℝ) : signed s (x * y) = signed s x * y := by
  cases s <;> simp [signed]

theorem signed_zero (s : Sign) : signed s 0 = 0 := by cases s <;> simp [signed]

theorem signed_mul_signed (s s' : Sign) (x x' : ℝ) :
    signed s x * signed s' x' = signed (s * s') (x * x') := by
  cases s <;> cases s'
  · exact neg_mul_neg x x'
  · exact neg_mul x x'
  · exact mul_neg x x'
  · rfl

theorem decreaseExponent_fst (m : ℕ) {e t : ℤ} (h : t ≤ e) :
    ((decreaseExponent m e t).1 : ℝ) * 2 ^ t = m * 2 ^ e := by
  obtain ⟨n,hn⟩ := Int.eq_ofNat_of_zero_le (sub_nonneg.2 h)
  simp only [decreaseExponent,hn,Int.toNat_natCast,Nat.shiftLeft_eq]
  rw [show e = n + t by omega,two_zpow_add,zpow_natCast]
  push_cast
  ring

theorem amounts_add (h : Amounts s y u) (h' : Amounts s' y' u') : ∃ t z,
    RoundsTo (signed s y + signed s' y') (signed t z) ∧
      Amounts t z (UnpackedFloat.add .binary64 u u') := by
  have hzero : RoundsTo 0 0 := Or.inl .zero
  cases h with
  | zero =>
    rw [signed_zero,zero_add]
    cases h' with
    | zero =>
      rw [signed_zero]
      cases s <;> cases s'
      · exact ⟨.negative,0,by simpa [signed] using hzero,.zero⟩
      · exact ⟨.positive,0,hzero,.zero⟩
      · exact ⟨.positive,0,hzero,.zero⟩
      · exact ⟨.positive,0,hzero,.zero⟩
    | finite hm hlt he hc =>
      have ha := Amounts.finite (s := s') hm hlt he hc
      exact ⟨s',_,ha.rounded.roundsTo s',ha⟩
  | @finite m e hm hlt he hc =>
    have ha := Amounts.finite (s := s) hm hlt he hc
    cases h' with
    | zero =>
      rw [signed_zero,add_zero]
      exact ⟨s,_,ha.rounded.roundsTo s,ha⟩
    | @finite m' e' hm' hlt' he' hc' =>
      -- With the smaller of the exponents the mantissas add up to the exact sum.
      obtain ⟨t,z,hr,hz⟩ := amounts_normalize
        (s.apply (decreaseExponent m e (min e e')).1 +
          s'.apply (decreaseExponent m' e' (min e e')).1) (min e e')
      refine ⟨t,z,?_,hz⟩
      convert hr using 1
      push_cast
      rw [apply_eq_signed,apply_eq_signed,add_mul,← signed_mul,← signed_mul,
        decreaseExponent_fst m (min_le_left e e'),decreaseExponent_fst m' (min_le_right e e')]

/-- Products of canonical numbers have all the places they need. -/
theorem exponent_le_target {m m' : ℕ} {e e' : ℤ} (hm : 0 < m) (hm' : 0 < m')
    (hc : 2 ^ 52 ≤ m ∨ e = -1074) (hc' : 2 ^ 52 ≤ m' ∨ e' = -1074) :
    e + e' ≤ Format.binary64.targetExponent (totalExponent (m * m') (e + e')) := by
  have hpos := Nat.mul_pos hm hm'
  rw [targetExponent_binary64]
  unfold totalExponent
  by_cases hbig : 2 ^ 52 ≤ m * m'
  · have := (Nat.le_log2 hpos.ne').2 hbig
    omega
  · have hleft : m ≤ m * m' := Nat.le_mul_of_pos_right m hm'
    have hright : m' ≤ m * m' := Nat.le_mul_of_pos_left m' hm
    obtain rfl := hc.resolve_left (by omega)
    obtain rfl := hc'.resolve_left (by omega)
    omega

theorem amounts_mul (h : Amounts s y u) (h' : Amounts s' y' u') : ∃ t z,
    RoundsTo (signed s y * signed s' y') (signed t z) ∧
      Amounts t z (UnpackedFloat.mul .binary64 u u') := by
  have hzero : RoundsTo 0 (signed (s * s') 0) := by
    rw [signed_zero]
    exact Or.inl .zero
  cases h with
  | zero =>
    rw [signed_zero,zero_mul]
    cases h' <;> exact ⟨s * s',0,hzero,.zero⟩
  | @finite m e hm hlt he hc =>
    cases h' with
    | zero =>
      rw [signed_zero,mul_zero]
      exact ⟨s * s',0,hzero,.zero⟩
    | @finite m' e' hm' hlt' he' hc' =>
      obtain ⟨z,hr,hz⟩ := amounts_roundWithAccuracy (s := s * s') (.exact _)
        (Or.inl (Nat.mul_pos hm hm')) (exponent_le_target hm hm' hc hc')
      refine ⟨s * s',z,?_,hz⟩
      have hprod : (m : ℝ) * 2 ^ e * (m' * 2 ^ e') = (m * m' : ℕ) * 2 ^ (e + e') := by
        rw [two_zpow_add]
        push_cast
        ring
      rw [signed_mul_signed,hprod]
      exact hr.roundsTo (s * s')

end Unpacked

end Gantry
