import Mathlib
import Gantry.Numeric.Binary64
import Gantry.Proofs.Numeric.Arithmetic
import Gantry.Proofs.Numeric.Lawful

set_option autoImplicit false

namespace Gantry

open Float.Model Float.Model.UnpackedFloat

/-- A binary64 number has a value, if it is a number at all. -/
def Measures (x : Float) (v : EReal) : Prop := Has x.toModel.unpack v

section Order
variable {x y : Float} {v w : EReal}

theorem le_iff_compare : x ≤ y ↔
    (x.toModel.unpack.compare y.toModel.unpack).any (·.isLE) = true := by
  change decide _ = true ↔ _
  rw [decide_eq_true_eq]
  rfl

theorem lt_iff_compare : x < y ↔
    (x.toModel.unpack.compare y.toModel.unpack == some .lt) = true := by
  change decide _ = true ↔ _
  rw [decide_eq_true_eq]
  rfl

theorem Measures.le_iff (h : Measures x v) (h' : Measures y w) : x ≤ y ↔ v ≤ w := by
  rw [le_iff_compare,compare_eq_cmp h h',Option.any_some]
  rcases lt_trichotomy v w with hlt | rfl | hlt
  · simp [(cmp_eq_lt_iff v w).2 hlt,hlt.le]
  · simp
  · simp [(cmp_eq_gt_iff v w).2 hlt,hlt]

theorem Measures.lt_iff (h : Measures x v) (h' : Measures y w) : x < y ↔ v < w := by
  rw [lt_iff_compare,compare_eq_cmp h h']
  simp

theorem Measures.unique (h : Measures x v) (h' : Measures x w) : v = w :=
  le_antisymm ((h.le_iff h').1 ((h.le_iff h).2 le_rfl)) ((h'.le_iff h).1 ((h.le_iff h).2 le_rfl))

theorem measures_of_compare (h : x.toModel.unpack.compare y.toModel.unpack ≠ none) :
    ∃ v w, Measures x v ∧ Measures y w := by
  rcases has_unpack x.toModel.toBits.toBitVec with hx | ⟨v,hx⟩
  · change x.toModel.unpack = _ at hx
    rw [hx] at h
    exact absurd rfl h
  rcases has_unpack y.toModel.toBits.toBitVec with hy | ⟨w,hy⟩
  · change y.toModel.unpack = _ at hy
    rw [hy] at h
    exact absurd (compare_notANumber _) h
  exact ⟨v,w,hx,hy⟩

theorem measures_of_le (h : x ≤ y) : ∃ v w, Measures x v ∧ Measures y w ∧ v ≤ w := by
  obtain ⟨v,w,hx,hy⟩ := measures_of_compare (x := x) (y := y) fun hn => by
    simp [le_iff_compare,hn] at h
  exact ⟨v,w,hx,hy,(hx.le_iff hy).1 h⟩

theorem measures_of_lt (h : x < y) : ∃ v w, Measures x v ∧ Measures y w ∧ v < w := by
  obtain ⟨v,w,hx,hy⟩ := measures_of_compare (x := x) (y := y) fun hn => by
    simp [lt_iff_compare,hn] at h
  exact ⟨v,w,hx,hy,(hx.lt_iff hy).1 h⟩

theorem measures_of_isFinite (h : x.isFinite = true) : ∃ a : ℝ, Measures x a := by
  change x.toModel.unpack.isFinite = true at h
  have hx := has_unpack x.toModel.toBits.toBitVec
  change x.toModel.unpack = _ ∨ ∃ v, Has x.toModel.unpack v at hx
  unfold Measures
  generalize x.toModel.unpack = u at h hx
  rcases hx with rfl | ⟨v,hx⟩
  · cases h
  · cases hx with
    | top => cases h
    | bot => cases h
    | real ha hlt => exact ⟨_,.real ha hlt⟩

end Order

section Arithmetic
variable {x y : Float} {a b c : ℝ} {v : EReal}

theorem has_top {u : UnpackedFloat} (h : Has u ⊤) : u = .infinity .positive := by
  generalize hv : (⊤ : EReal) = v at h
  cases h with
  | top => rfl
  | bot => exact absurd hv top_ne_bot
  | real ha hlt => exact absurd hv.symm (EReal.coe_ne_top _)

theorem has_bot {u : UnpackedFloat} (h : Has u ⊥) : u = .infinity .negative := by
  generalize hv : (⊥ : EReal) = v at h
  cases h with
  | top => exact absurd hv bot_ne_top
  | bot => rfl
  | real ha hlt => exact absurd hv.symm (EReal.coe_ne_bot _)

theorem infinity_add {u : UnpackedFloat} (h : Has u v) (hv : v ≠ ⊥) :
    UnpackedFloat.add .binary64 (.infinity .positive) u = .infinity .positive := by
  cases h with
  | top => rfl
  | bot => exact absurd rfl hv
  | real ha _ => cases ha <;> rfl

theorem add_infinity {u : UnpackedFloat} (h : Has u v) (hv : v ≠ ⊥) :
    UnpackedFloat.add .binary64 u (.infinity .positive) = .infinity .positive := by
  cases h with
  | top => rfl
  | bot => exact absurd rfl hv
  | real ha _ => cases ha <;> rfl

theorem neg_infinity_add {u : UnpackedFloat} (h : Has u v) (hv : v ≠ ⊤) :
    UnpackedFloat.add .binary64 (.infinity .negative) u = .infinity .negative := by
  cases h with
  | top => exact absurd rfl hv
  | bot => rfl
  | real ha _ => cases ha <;> rfl

theorem has_coe {u : UnpackedFloat} (h : Has u a) :
    ∃ s r, a = signed s r ∧ Amounts s r u ∧ r < 2 ^ (1024 : ℤ) := by
  generalize hv : (a : EReal) = v at h
  cases h with
  | top => exact absurd hv (EReal.coe_ne_top a)
  | bot => exact absurd hv (EReal.coe_ne_bot a)
  | @real s r u ha hlt => exact ⟨s,r,EReal.coe_injective hv,ha,hlt⟩

theorem Measures.exact (h : Measures x a) : Exact a := by
  obtain ⟨s,r,rfl,ha,-⟩ := has_coe h
  exact ha.exact

/-- No number is so small that packing would make it infinite. -/
theorem Measures.neg_lt (h : Measures x a) : -2 ^ (1024 : ℤ) < a := by
  obtain ⟨s,r,rfl,ha,hlt⟩ := has_coe h
  have hr := ha.rounded.nonneg
  cases s with
  | positive => exact (neg_neg_of_pos (two_zpow_pos 1024)).trans_le hr
  | negative => exact neg_lt_neg hlt

theorem Measures.add (h : Measures x a) (h' : Measures y b) :
    ∃ c, RoundsTo (a + b) c ∧ Measures (x + y) (clip c) := by
  obtain ⟨s,r,rfl,ha,-⟩ := has_coe h
  obtain ⟨s',r',rfl,hb,-⟩ := has_coe h'
  obtain ⟨t,z,hr,hz⟩ := amounts_add ha hb
  exact ⟨_,hr,has_pack hz⟩

theorem Measures.mul (h : Measures x a) (h' : Measures y b) :
    ∃ c, RoundsTo (a * b) c ∧ Measures (x * y) (clip c) := by
  obtain ⟨s,r,rfl,ha,-⟩ := has_coe h
  obtain ⟨s',r',rfl,hb,-⟩ := has_coe h'
  obtain ⟨t,z,hr,hz⟩ := amounts_mul ha hb
  exact ⟨_,hr,has_pack hz⟩

theorem Measures.top_add (h : Measures x ⊤) (h' : Measures y v) (hv : v ≠ ⊥) :
    Measures (x + y) ⊤ := by
  change Has (Float.Model.pack (UnpackedFloat.add .binary64 x.toModel.unpack
    y.toModel.unpack)).unpack ⊤
  rw [has_top h,infinity_add h' hv]
  exact .top

theorem Measures.add_top (h : Measures x v) (h' : Measures y ⊤) (hv : v ≠ ⊥) :
    Measures (x + y) ⊤ := by
  change Has (Float.Model.pack (UnpackedFloat.add .binary64 x.toModel.unpack
    y.toModel.unpack)).unpack ⊤
  rw [has_top h',add_infinity h hv]
  exact .top

theorem Measures.bot_add (h : Measures x ⊥) (h' : Measures y v) (hv : v ≠ ⊤) :
    Measures (x + y) ⊥ := by
  change Has (Float.Model.pack (UnpackedFloat.add .binary64 x.toModel.unpack
    y.toModel.unpack)).unpack ⊥
  rw [has_bot h,neg_infinity_add h' hv]
  exact .bot

end Arithmetic

section Constants

theorem measures_zero : Measures 0 (0 : ℝ) := by
  have hunpack : (0 : Float).toModel.unpack = .zero .positive := rfl
  unfold Measures
  rw [hunpack]
  exact .real .zero (two_zpow_pos 1024)

theorem measures_half : Measures 0.5 (1 / 2 : ℝ) := by
  have hunpack : (0.5 : Float).toModel.unpack =
      .finite .positive (2 ^ 52) (-53) (by decide) := rfl
  unfold Measures
  rw [hunpack]
  have hval : (1 / 2 : ℝ) = signed .positive ((2 ^ 52 : ℕ) * 2 ^ (-53 : ℤ)) := by
    norm_num [signed]
  rw [hval]
  exact .real (.finite _ (by norm_num) (by norm_num) (Or.inl le_rfl))
    (natCast_mul_lt_two_zpow (by norm_num) (by norm_num))

theorem measures_slack : ∃ a : ℝ, 0 < a ∧ Measures timeEpsilon a := by
  have hunpack : (timeEpsilon : Float).toModel.unpack =
      .finite .positive 4835703278458517 (-82) (by decide) := rfl
  refine ⟨signed .positive ((4835703278458517 : ℕ) * 2 ^ (-82 : ℤ)),?_,?_⟩
  · norm_num [signed]
  unfold Measures
  rw [hunpack]
  exact .real (.finite _ (by norm_num) (by norm_num) (Or.inl (by norm_num)))
    (natCast_mul_lt_two_zpow (by norm_num) (by norm_num))

end Constants

section Laws
variable {x y z : Float} {a b c : ℝ}

theorem le_clip (h : a ≤ c) (ha : -2 ^ (1024 : ℤ) < a) : (a : EReal) ≤ clip c := by
  unfold clip
  split
  · exact le_top
  · rw [if_neg (not_le.2 (ha.trans_le h))]
    exact_mod_cast h

theorem ordered_of_isFinite (h : x.isFinite = true) : x ≤ x := by
  obtain ⟨a,ha⟩ := measures_of_isFinite h
  exact (ha.le_iff ha).2 le_rfl

theorem add_slack_le (h : x ≤ y) : x + timeEpsilon ≤ y + timeEpsilon := by
  obtain ⟨v,w,hx,hy,hvw⟩ := measures_of_le h
  obtain ⟨s,-,hs⟩ := measures_slack
  induction v with
  | top =>
    obtain rfl := top_le_iff.1 hvw
    have hsx := hx.top_add hs (EReal.coe_ne_bot s)
    have hsy := hy.top_add hs (EReal.coe_ne_bot s)
    exact (hsx.le_iff hsy).2 le_rfl
  | bot =>
    have hsx := hx.bot_add hs (EReal.coe_ne_top s)
    induction w with
    | top => exact (hsx.le_iff (hy.top_add hs (EReal.coe_ne_bot s))).2 bot_le
    | bot => exact (hsx.le_iff (hy.bot_add hs (EReal.coe_ne_top s))).2 le_rfl
    | coe b =>
      obtain ⟨c,-,hc⟩ := hy.add hs
      exact (hsx.le_iff hc).2 bot_le
  | coe a =>
    obtain ⟨c,hac,hc⟩ := hx.add hs
    induction w with
    | top => exact (hc.le_iff (hy.top_add hs (EReal.coe_ne_bot s))).2 le_top
    | bot => exact absurd hvw (not_le.2 (EReal.bot_lt_coe a))
    | coe b =>
      obtain ⟨d,hbd,hd⟩ := hy.add hs
      have hab : a ≤ b := EReal.coe_le_coe_iff.1 hvw
      exact (hc.le_iff hd).2 (clip_mono (hac.mono hbd (by linarith)))

theorem le_add_of_nonneg (h : x.isFinite = true ∨ 0 ≤ x) (hy : 0 ≤ y) : x ≤ x + y := by
  obtain ⟨o,w,ho,hw,how⟩ := measures_of_le hy
  obtain rfl := ho.unique measures_zero
  have hx : ∃ v, Measures x v ∧ v ≠ ⊥ := by
    rcases h with h | h
    · obtain ⟨a,ha⟩ := measures_of_isFinite h
      exact ⟨a,ha,EReal.coe_ne_bot a⟩
    · obtain ⟨o,v,ho,hv,hov⟩ := measures_of_le h
      obtain rfl := ho.unique measures_zero
      exact ⟨v,hv,((EReal.bot_lt_coe 0).trans_le hov).ne'⟩
  obtain ⟨v,hv,hne⟩ := hx
  have hwne : w ≠ ⊥ := ((EReal.bot_lt_coe 0).trans_le how).ne'
  induction v with
  | bot => exact absurd rfl hne
  | top => exact (hv.le_iff (hv.top_add hw hwne)).2 le_rfl
  | coe a =>
    induction w with
    | bot => exact absurd rfl hwne
    | top => exact (hv.le_iff (hv.add_top hw hne)).2 le_top
    | coe b =>
      obtain ⟨c,hac,hc⟩ := hv.add hw
      have hb : 0 ≤ b := EReal.coe_nonneg.1 how
      exact (hv.le_iff hc).2 (le_clip (hac.le_of_le hv.exact (by linarith)) hv.neg_lt)

theorem Exact.double (h : Exact a) : Exact (2 * a) := by
  obtain ⟨m,k,hm,hk,ha⟩ := h
  refine ⟨m,k + 1,hm,by omega,?_⟩
  rw [abs_mul,ha,two_zpow_add,abs_of_pos two_pos,zpow_one]
  ring

theorem half_top (h : Measures x ⊤) : Measures (0.5 * x) ⊤ := by
  have hhalf : (0.5 : Float).toModel.unpack = .finite .positive (2 ^ 52) (-53) (by decide) := rfl
  change Has (Float.Model.pack (UnpackedFloat.mul .binary64 (0.5 : Float).toModel.unpack
    x.toModel.unpack)).unpack ⊤
  rw [has_top h,hhalf]
  exact .top

/-- The mean of two numbers is no less than either bound of both: twice a number is exact, and so is
half of that. -/
theorem le_half_add (hx : 0 ≤ x) (hy : x ≤ y) (hz : x ≤ z) : x ≤ 0.5 * (y + z) := by
  obtain ⟨o,v,ho,hv,hov⟩ := measures_of_le hx
  obtain rfl := ho.unique measures_zero
  obtain ⟨v',w,hv',hw,hvw⟩ := measures_of_le hy
  obtain rfl := hv.unique hv'
  obtain ⟨v'',u,hv'',hu,hvu⟩ := measures_of_le hz
  obtain rfl := hv.unique hv''
  have hwne : w ≠ ⊥ := ((EReal.bot_lt_coe 0).trans_le (hov.trans hvw)).ne'
  have hune : u ≠ ⊥ := ((EReal.bot_lt_coe 0).trans_le (hov.trans hvu)).ne'
  have htop : Measures (y + z) ⊤ → x ≤ 0.5 * (y + z) := fun h =>
    (hv.le_iff (half_top h)).2 le_top
  induction w with
  | bot => exact absurd rfl hwne
  | top => exact htop (hw.top_add hu hune)
  | coe b =>
    induction u with
    | bot => exact absurd rfl hune
    | top => exact htop (hw.add_top hu hwne)
    | coe c =>
      induction v with
      | bot => exact absurd hov (not_le.2 (EReal.bot_lt_coe 0))
      | top => exact absurd hvw (not_le.2 (EReal.coe_lt_top b))
      | coe a =>
        have ha : 0 ≤ a := EReal.coe_nonneg.1 hov
        have hab : a ≤ b := EReal.coe_le_coe_iff.1 hvw
        have hac : a ≤ c := EReal.coe_le_coe_iff.1 hvu
        obtain ⟨d,hd,hsum⟩ := hw.add hu
        have had : 2 * a ≤ d := hd.le_of_le hv.exact.double (by linarith)
        -- A sum that is too large is infinite, and so is its half.
        by_cases hbig : 2 ^ (1024 : ℤ) ≤ d
        · rw [clip_of_le hbig] at hsum
          exact htop hsum
        · have hd0 : 0 ≤ d := by linarith
          have hlo : -2 ^ (1024 : ℤ) < d := (neg_neg_of_pos (two_zpow_pos 1024)).trans_le hd0
          rw [clip_of_lt (abs_lt.2 ⟨hlo,not_le.1 hbig⟩)] at hsum
          obtain ⟨f,hf,hmean⟩ := measures_half.mul hsum
          exact (hv.le_iff hmean).2 (le_clip (hf.le_of_le hv.exact (by linarith)) hv.neg_lt)

instance : LawfulScalar Float where
  le_trans {x y z} hxy hyz := by
    obtain ⟨v,w,hx,hy,hvw⟩ := measures_of_le hxy
    obtain ⟨w',u,hy',hz,hwu⟩ := measures_of_le hyz
    obtain rfl := hy'.unique hy
    exact (hx.le_iff hz).2 (hvw.trans hwu)
  le_left {x y} h := by
    obtain ⟨v,w,hx,-,-⟩ := measures_of_le h
    exact (hx.le_iff hx).2 le_rfl
  le_right {x y} h := by
    obtain ⟨v,w,-,hy,-⟩ := measures_of_le h
    exact (hy.le_iff hy).2 le_rfl
  le_total {x y} hx hy := by
    obtain ⟨v,-,hx,-,-⟩ := measures_of_le hx
    obtain ⟨w,-,hy,-,-⟩ := measures_of_le hy
    rw [hx.le_iff hy,hy.le_iff hx]
    exact le_total v w
  lt_iff {x y} := by
    constructor
    · intro h
      obtain ⟨v,w,hx,hy,hvw⟩ := measures_of_lt h
      rw [hx.le_iff hy,hy.le_iff hx]
      exact ⟨hvw.le,not_le.2 hvw⟩
    · rintro ⟨h,hn⟩
      obtain ⟨v,w,hx,hy,-⟩ := measures_of_le h
      rw [hy.le_iff hx] at hn
      exact (hx.lt_iff hy).2 (not_le.1 hn)
  finite h := ordered_of_isFinite h
  zero := rfl
  slack := by
    obtain ⟨a,ha,hs⟩ := measures_slack
    exact (measures_zero.le_iff hs).2 (EReal.coe_le_coe_iff.2 ha.le)
  add_slack h := add_slack_le h
  le_add h hy := le_add_of_nonneg h hy
  le_mid hx hy hz := le_half_add hx hy hz

end Laws

end Gantry
