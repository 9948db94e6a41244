import Mathlib
import Gantry.Proofs.Exact

set_option autoImplicit false

namespace Gantry

structure Nearest (x : ℝ) (r : ℕ) : Prop where
  le : |x - r| ≤ 1 / 2
  even : |x - r| = 1 / 2 → Even r

theorem nearest_natCast (n : ℕ) : Nearest n n := by
  constructor <;> norm_num

theorem Nearest.mono {x y : ℝ} {r s : ℕ} (h : Nearest x r) (h' : Nearest y s) (hxy : x ≤ y) :
    r ≤ s := by
  by_contra hlt
  rw [not_le] at hlt
  have hle : (s : ℝ) + 1 ≤ r := by exact_mod_cast hlt
  have hx := (abs_le.1 h.le).1
  have hy := (abs_le.1 h'.le).2
  have hxr : |x - r| = 1 / 2 := by rw [abs_of_neg] <;> linarith
  have hys : |y - s| = 1 / 2 := by rw [abs_of_pos] <;> linarith
  have hrs : r = s + 1 := by
    have : (r : ℝ) = s + 1 := by linarith
    exact_mod_cast this
  have hr := h.even hxr
  rw [hrs,Nat.even_add_one] at hr
  exact hr (h'.even hys)

/-- What a number that is not negative is rounded to. -/
structure Rounded (x y : ℝ) : Prop where
  nonneg : 0 ≤ x
  spec : ∃ (e : ℤ) (r : ℕ), -1074 ≤ e ∧ x < 2 ^ (53 + e) ∧ (e = -1074 ∨ 2 ^ (52 + e) ≤ x) ∧
    Nearest (x / 2 ^ e) r ∧ y = r * 2 ^ e

section Powers
variable {x y : ℝ} {m r : ℕ} {e k : ℤ}

theorem two_zpow_pos (e : ℤ) : (0 : ℝ) < 2 ^ e := by positivity

theorem two_zpow_add (e k : ℤ) : (2 : ℝ) ^ (e + k) = 2 ^ e * 2 ^ k := zpow_add₀ two_ne_zero e k

theorem two_zpow_le (h : e ≤ k) : (2 : ℝ) ^ e ≤ 2 ^ k := zpow_le_zpow_right₀ one_le_two h

theorem lt_of_two_zpow_lt (h : (2 : ℝ) ^ e < 2 ^ k) : e < k :=
  (zpow_lt_zpow_iff_right₀ one_lt_two).1 h

theorem exists_natCast_div (h : e ≤ k) (m : ℕ) : ∃ n : ℕ, (m : ℝ) * 2 ^ k / 2 ^ e = n := by
  obtain ⟨d,hd⟩ := Int.eq_ofNat_of_zero_le (sub_nonneg.2 h)
  refine ⟨m * 2 ^ d,?_⟩
  rw [div_eq_iff (two_zpow_pos e).ne',show k = d + e by omega,two_zpow_add]
  push_cast
  rw [zpow_natCast]
  ring

theorem natCast_mul_two_zpow_lt (h : m < 2 ^ 53) (e : ℤ) : (m : ℝ) * 2 ^ e < 2 ^ (53 + e) := by
  rw [two_zpow_add]
  refine mul_lt_mul_of_pos_right ?_ (two_zpow_pos e)
  exact_mod_cast h

theorem two_zpow_le_natCast_mul (h : 2 ^ 52 ≤ m) (e : ℤ) : (2 : ℝ) ^ (52 + e) ≤ m * 2 ^ e := by
  rw [two_zpow_add]
  refine mul_le_mul_of_nonneg_right ?_ (two_zpow_pos e).le
  exact_mod_cast h

theorem Nearest.le_of_le_mul (h : Nearest (x / 2 ^ e) r) (hx : x ≤ m * 2 ^ e) : r ≤ m :=
  h.mono (nearest_natCast m) ((div_le_iff₀ (two_zpow_pos e)).2 hx)

theorem Nearest.le_of_mul_le (h : Nearest (x / 2 ^ e) r) (hx : m * 2 ^ e ≤ x) : m ≤ r :=
  (nearest_natCast m).mono h ((le_div_iff₀ (two_zpow_pos e)).2 hx)

/-- A number below 53 places is nearest to a whole number of at most 53 places. -/
theorem Nearest.le_of_lt_two_zpow (h : Nearest (x / 2 ^ e) r) (hx : x < 2 ^ (53 + e)) :
    r ≤ 2 ^ 53 := by
  refine h.le_of_le_mul ?_
  rw [two_zpow_add] at hx
  exact_mod_cast hx.le

theorem Nearest.le_of_two_zpow_le (h : Nearest (x / 2 ^ e) r) (hx : 2 ^ (52 + e) ≤ x) :
    2 ^ 52 ≤ r := by
  refine h.le_of_mul_le ?_
  rw [two_zpow_add] at hx
  exact_mod_cast hx

end Powers

namespace Rounded
variable {x x' y y' : ℝ} {m : ℕ} {k : ℤ}

theorem mono (h : Rounded x y) (h' : Rounded x' y') (hx : x ≤ x') : y ≤ y' := by
  obtain ⟨e,r,hmin,hlt,he,hr,rfl⟩ := h.spec
  obtain ⟨e',r',hmin',hlt',he',hr',rfl⟩ := h'.spec
  rcases lt_trichotomy e e' with hee | rfl | hee
  · -- a power of two separates the numbers
    have hrg := hr'.le_of_two_zpow_le (he'.resolve_left (by omega))
    have hrl : (r : ℝ) ≤ 2 ^ (53 : ℤ) := by exact_mod_cast hr.le_of_lt_two_zpow hlt
    calc (r : ℝ) * 2 ^ e ≤ 2 ^ (53 : ℤ) * 2 ^ e :=
          mul_le_mul_of_nonneg_right hrl (two_zpow_pos e).le
      _ = 2 ^ (53 + e) := (two_zpow_add 53 e).symm
      _ ≤ 2 ^ (52 + e') := two_zpow_le (by omega)
      _ ≤ r' * 2 ^ e' := two_zpow_le_natCast_mul hrg e'
  · have hrr : r ≤ r' := hr.mono hr' (div_le_div_of_nonneg_right hx (two_zpow_pos e).le)
    exact mul_le_mul_of_nonneg_right (by exact_mod_cast hrr) (two_zpow_pos e).le
  · have hpow := (he.resolve_left (by omega)).trans_lt (hx.trans_lt hlt')
    have := lt_of_two_zpow_lt hpow
    omega

theorem le_of_le (h : Rounded x y) (hm : m < 2 ^ 53) (hk : -1074 ≤ k) (hx : m * 2 ^ k ≤ x) :
    m * 2 ^ k ≤ y := by
  obtain ⟨e,r,hmin,-,he,hr,rfl⟩ := h.spec
  rcases le_or_gt e k with hek | hek
  · obtain ⟨n,hn⟩ := exists_natCast_div hek m
    rw [div_eq_iff (two_zpow_pos e).ne'] at hn
    rw [hn] at hx ⊢
    have hnr : n ≤ r := hr.le_of_mul_le hx
    exact mul_le_mul_of_nonneg_right (by exact_mod_cast hnr) (two_zpow_pos e).le
  · have hrg := hr.le_of_two_zpow_le (he.resolve_left (by omega))
    calc (m : ℝ) * 2 ^ k ≤ 2 ^ (53 + k) := (natCast_mul_two_zpow_lt hm k).le
      _ ≤ 2 ^ (52 + e) := two_zpow_le (by omega)
      _ ≤ r * 2 ^ e := two_zpow_le_natCast_mul hrg e

theorem le_of_ge (h : Rounded x y) (hm : m < 2 ^ 53) (hk : -1074 ≤ k) (hx : x ≤ m * 2 ^ k) :
    y ≤ m * 2 ^ k := by
  obtain ⟨e,r,hmin,-,he,hr,rfl⟩ := h.spec
  have hek : e ≤ k := by
    rcases he with rfl | he
    · exact hk
    · have := lt_of_two_zpow_lt (he.trans_lt (hx.trans_lt (natCast_mul_two_zpow_lt hm k)))
      omega
  obtain ⟨n,hn⟩ := exists_natCast_div hek m
  rw [div_eq_iff (two_zpow_pos e).ne'] at hn
  rw [hn] at hx ⊢
  have hrn : r ≤ n := hr.le_of_le_mul hx
  exact mul_le_mul_of_nonneg_right (by exact_mod_cast hrn) (two_zpow_pos e).le

theorem result_nonneg (h : Rounded x y) : 0 ≤ y := by
  simpa using h.le_of_le (m := 0) (k := 0) (by norm_num) (by norm_num) (by simpa using h.nonneg)

theorem zero : Rounded 0 0 :=
  ⟨le_rfl,-1074,0,le_rfl,by positivity,Or.inl rfl,by simpa using nearest_natCast 0,by simp⟩

end Rounded

def RoundsTo (x y : ℝ) : Prop := Rounded x y ∨ Rounded (-x) (-y)

def Exact (z : ℝ) : Prop := ∃ (m : ℕ) (k : ℤ), m < 2 ^ 53 ∧ -1074 ≤ k ∧ |z| = m * 2 ^ k

namespace RoundsTo
variable {x x' y y' z : ℝ}

theorem mono (h : RoundsTo x y) (h' : RoundsTo x' y') (hx : x ≤ x') : y ≤ y' := by
  rcases h with h | h <;> rcases h' with h' | h'
  · exact h.mono h' hx
  · -- both numbers are zero
    have hy := (h.mono Rounded.zero (by linarith [h'.nonneg])).antisymm h.result_nonneg
    have hy' := h'.mono Rounded.zero (by linarith [h.nonneg])
    linarith
  · linarith [h.result_nonneg,h'.result_nonneg]
  · linarith [h'.mono h (by linarith)]

theorem le_of_le (h : RoundsTo x y) (hz : Exact z) (hzx : z ≤ x) : z ≤ y := by
  obtain ⟨m,k,hm,hk,habs⟩ := hz
  rcases h with h | h
  · rcases le_or_gt 0 z with hpos | hneg
    · rw [abs_of_nonneg hpos] at habs
      rw [habs] at hzx ⊢
      exact h.le_of_le hm hk hzx
    · exact hneg.le.trans h.result_nonneg
  · have hneg : z ≤ 0 := by linarith [h.nonneg]
    rw [abs_of_nonpos hneg] at habs
    have hle := h.le_of_ge hm hk (by linarith)
    linarith

end RoundsTo

end Gantry
