import Mathlib
import Gantry.Proofs.Numeric.Double

set_option autoImplicit false

namespace Gantry

open Float.Model Float.Model.UnpackedFloat

section Differences
variable {s s' : Sign} {x y z : Float} {a b c : ℝ} {v : EReal}

theorem RoundsTo.neg (h : RoundsTo a b) : RoundsTo (-a) (-b) := by
  rcases h with h | h
  · exact Or.inr (by simpa using h)
  · exact Or.inl h

theorem RoundsTo.le_of_ge (h : RoundsTo a b) (hc : Exact c) (hac : a ≤ c) : b ≤ c := by
  have hneg : Exact (-c) := by
    obtain ⟨m,k,hm,hk,habs⟩ := hc
    exact ⟨m,k,hm,hk,by rw [abs_neg,habs]⟩
  exact neg_le_neg_iff.1 (h.neg.le_of_le hneg (neg_le_neg hac))

theorem RoundsTo.eq_of_exact (h : RoundsTo a b) (ha : Exact a) : b = a :=
  (h.le_of_ge ha le_rfl).antisymm (h.le_of_le ha le_rfl)

theorem sub_eq_add_neg_unpacked (u w : UnpackedFloat) :
    UnpackedFloat.sub .binary64 u w = UnpackedFloat.add .binary64 u w.neg := by
  have happly (s : Sign) (m : ℕ) : (-s).apply m = -s.apply m := by
    cases s <;> simp [Sign.apply]
  rcases u with _ | s | s | ⟨s,m,e,hm⟩ <;> rcases w with _ | s' | s' | ⟨s',m',e',hm'⟩ <;>
    try rfl
  simp only [UnpackedFloat.sub,UnpackedFloat.add,UnpackedFloat.neg,happly,Int.sub_eq_add_neg]

theorem Amounts.neg {y : ℝ} {u : UnpackedFloat} (h : Amounts s y u) : Amounts (-s) y u.neg := by
  cases h with
  | zero => exact .zero
  | finite hm hlt he hc => exact .finite hm hlt he hc

theorem signed_neg (s : Sign) (r : ℝ) : signed (-s) r = -signed s r := by
  cases s
  · exact (neg_neg r).symm
  · rfl

theorem Has.neg {u : UnpackedFloat} (h : Has u v) : Has u.neg (-v) := by
  cases h with
  | top => exact EReal.neg_top ▸ .bot
  | bot => exact EReal.neg_bot ▸ .top
  | @real s r u ha hlt =>
    rw [← EReal.coe_neg,← signed_neg]
    exact .real ha.neg hlt

theorem Measures.sub (h : Measures x a) (h' : Measures y b) :
    ∃ c, RoundsTo (a - b) c ∧ Measures (x - y) (clip c) := by
  obtain ⟨s,r,rfl,ha,-⟩ := has_coe h
  obtain ⟨s',r',rfl,hb,-⟩ := has_coe h'
  obtain ⟨t,z,hr,hz⟩ := amounts_add ha hb.neg
  rw [signed_neg,← sub_eq_add_neg] at hr
  rw [← sub_eq_add_neg_unpacked] at hz
  exact ⟨_,hr,has_pack hz⟩

theorem Measures.top_sub (h : Measures x ⊤) (h' : Measures y a) : Measures (x - y) ⊤ := by
  change Has (Float.Model.pack (UnpackedFloat.sub .binary64 x.toModel.unpack
    y.toModel.unpack)).unpack ⊤
  rw [sub_eq_add_neg_unpacked,has_top h,infinity_add h'.neg (EReal.coe_ne_bot (-a))]
  exact .top

theorem Measures.bot_sub (h : Measures x ⊥) (h' : Measures y a) : Measures (x - y) ⊥ := by
  change Has (Float.Model.pack (UnpackedFloat.sub .binary64 x.toModel.unpack
    y.toModel.unpack)).unpack ⊥
  rw [sub_eq_add_neg_unpacked,has_bot h,neg_infinity_add h'.neg (EReal.coe_ne_top (-a))]
  exact .bot

theorem clip_le (h : c ≤ a) (ha : a < 2 ^ (1024 : ℤ)) : clip c ≤ a := by
  unfold clip
  rw [if_neg (not_le.2 (h.trans_lt ha))]
  split
  · exact bot_le
  · exact_mod_cast h

theorem Measures.lt_top (h : Measures x a) : a < 2 ^ (1024 : ℤ) := by
  obtain ⟨s,r,rfl,ha,hlt⟩ := has_coe h
  have hr := ha.rounded.nonneg
  cases s with
  | positive => exact hlt
  | negative => exact (neg_nonpos.2 hr).trans_lt (two_zpow_pos 1024)

theorem sub_slack_le (h : x ≤ x) : x - timeEpsilon ≤ x := by
  obtain ⟨v,-,hv,-⟩ := measures_of_le h
  obtain ⟨s,hs,hslack⟩ := measures_slack
  induction v with
  | top => exact ((hv.top_sub hslack).le_iff hv).2 le_rfl
  | bot => exact ((hv.bot_sub hslack).le_iff hv).2 le_rfl
  | coe a =>
    obtain ⟨c,hc,hsub⟩ := hv.sub hslack
    exact (hsub.le_iff hv).2 (clip_le (hc.le_of_ge hv.exact (by linarith)) hv.lt_top)

noncomputable def largest : ℝ := ((2 ^ 53 - 1 : ℕ) : ℝ) * 2 ^ (971 : ℤ)

theorem largest_lt : largest < 2 ^ (1024 : ℤ) := natCast_mul_two_zpow_lt (by norm_num) 971

theorem Exact.le_largest (h : Exact a) (ha : |a| < 2 ^ (1024 : ℤ)) : |a| ≤ largest := by
  obtain ⟨m,k,hm,hk,habs⟩ := h
  rw [habs] at ha ⊢
  have hpos := (two_zpow_pos 971).le
  rcases le_or_gt 971 k with hk | hk
  · obtain ⟨n,hn⟩ := exists_natCast_div hk m
    rw [div_eq_iff (two_zpow_pos 971).ne'] at hn
    rw [hn,show (1024 : ℤ) = 53 + 971 by norm_num,two_zpow_add,
      mul_lt_mul_iff_of_pos_right (two_zpow_pos 971)] at ha
    have hle : n ≤ 2 ^ 53 - 1 := Nat.le_sub_one_of_lt (by exact_mod_cast ha)
    rw [hn]
    exact mul_le_mul_of_nonneg_right (by exact_mod_cast hle) hpos
  · have hle : (m : ℝ) ≤ (2 ^ 53 - 1 : ℕ) := by exact_mod_cast Nat.le_sub_one_of_lt hm
    calc (m : ℝ) * 2 ^ k ≤ (2 ^ 53 - 1 : ℕ) * 2 ^ k :=
          mul_le_mul_of_nonneg_right hle (two_zpow_pos k).le
      _ ≤ largest := mul_le_mul_of_nonneg_left (two_zpow_le hk.le) (Nat.cast_nonneg _)

/-- The largest number stays finite with less than half a place more. -/
theorem rounded_largest : Rounded (largest + 2 ^ (969 : ℤ)) largest := by
  have hquot : (largest + 2 ^ (969 : ℤ)) / 2 ^ (971 : ℤ) = (2 ^ 53 - 1 : ℕ) + 1 / 4 := by
    rw [largest,add_div,mul_div_cancel_right₀ _ (two_zpow_pos 971).ne',
      show (971 : ℤ) = 969 + 2 by norm_num,two_zpow_add,div_mul_cancel_left₀ (two_zpow_pos 969).ne']
    norm_num
  have hnear : Nearest ((largest + 2 ^ (969 : ℤ)) / 2 ^ (971 : ℤ)) (2 ^ 53 - 1) := by
    rw [hquot]
    constructor <;> norm_num
  have hplace : largest + 2 ^ (969 : ℤ) = ((2 ^ 53 - 1 : ℕ) + 1 / 4) * 2 ^ (971 : ℤ) :=
    (div_eq_iff (two_zpow_pos 971).ne').1 hquot
  refine ⟨?_,971,2 ^ 53 - 1,by norm_num,?_,Or.inr ?_,hnear,rfl⟩
  · rw [hplace]
    positivity
  · rw [hplace,two_zpow_add,mul_lt_mul_iff_of_pos_right (two_zpow_pos 971)]
    norm_num
  · rw [hplace,two_zpow_add,mul_le_mul_iff_of_pos_right (two_zpow_pos 971)]
    norm_num

theorem isFinite_of_measures (h : Measures x a) : x.isFinite = true := by
  change x.toModel.unpack.isFinite = true
  unfold Measures at h
  generalize x.toModel.unpack = u at h ⊢
  obtain ⟨s,r,-,ha,-⟩ := has_coe h
  cases ha <;> rfl

/-- The slack taken from a number leaves it finite, even from the least one. -/
theorem isFinite_sub_slack (h : x.isFinite = true) : (x - timeEpsilon).isFinite = true := by
  obtain ⟨a,ha⟩ := measures_of_isFinite h
  obtain ⟨s,hs,hslack⟩ := measures_slack
  have hhalf : s < 1 / 2 :=
    EReal.coe_lt_coe_iff.1 ((hslack.lt_iff measures_half).1 (by decide +kernel))
  have hplace : s ≤ 2 ^ (969 : ℤ) :=
    (by linarith : s ≤ 1).trans (one_le_zpow₀ one_le_two (by norm_num))
  obtain ⟨c,hc,hsub⟩ := ha.sub hslack
  have hca : c ≤ a := hc.le_of_ge ha.exact (by linarith)
  have hlo : -largest ≤ a := by
    have := ha.exact.le_largest (abs_lt.2 ⟨ha.neg_lt,ha.lt_top⟩)
    exact (abs_le.1 this).1
  have hround : RoundsTo (-(largest + 2 ^ (969 : ℤ))) (-largest) :=
    Or.inr (by simpa using rounded_largest)
  have hlc : -largest ≤ c := hround.mono hc (by rw [neg_add']; exact sub_le_sub hlo hplace)
  have habs : |c| < 2 ^ (1024 : ℤ) :=
    abs_lt.2 ⟨(neg_lt_neg largest_lt).trans_le hlc,hca.trans_lt ha.lt_top⟩
  rw [clip_of_lt habs] at hsub
  exact isFinite_of_measures hsub

theorem isFinite_of_sub_slack_lt (hx : x.isFinite = true) (hxy : x ≤ y)
    (h : y - timeEpsilon < z) : y.isFinite = true := by
  obtain ⟨a,ha⟩ := measures_of_isFinite hx
  obtain ⟨v,w,hv,hw,hvw⟩ := measures_of_le hxy
  obtain rfl := hv.unique ha
  induction w with
  | bot => exact absurd hvw (not_le.2 (EReal.bot_lt_coe a))
  | top =>
    obtain ⟨s,-,hslack⟩ := measures_slack
    obtain ⟨u,u',hu,-,hlt⟩ := measures_of_lt h
    obtain rfl := hu.unique (hw.top_sub hslack)
    exact absurd le_top (not_le.2 hlt)
  | coe b => exact isFinite_of_measures hw

end Differences

section Quotients
variable {s s' : Sign} {y y' : ℝ} {u u' : UnpackedFloat} {m m' : ℕ} {e e' : ℤ}

theorem div_lt_half {r d : ℕ} (hd : 0 < d) (h : 2 * r < d) : (r : ℝ) / d < 1 / 2 := by
  have hcast : (2 * r : ℝ) < d := by exact_mod_cast h
  rw [div_lt_iff₀ (by exact_mod_cast hd)]
  linarith

theorem div_eq_half {r d : ℕ} (hd : 0 < d) (h : 2 * r = d) : (r : ℝ) / d = 1 / 2 := by
  have hcast : (2 * r : ℝ) = d := by exact_mod_cast h
  rw [div_eq_iff (by exact_mod_cast hd.ne')]
  linarith

theorem half_lt_div {r d : ℕ} (hd : 0 < d) (h : d < 2 * r) : 1 / 2 < (r : ℝ) / d := by
  have hcast : (d : ℝ) < 2 * r := by exact_mod_cast h
  rw [lt_div_iff₀ (by exact_mod_cast hd)]
  linarith

theorem Stands.fraction {d : ℕ} (hd : 0 < d) (m : ℕ) :
    Stands (.ofMantissaAndAccuracy (m / d) (accuracyOfFraction (m % d) d)) ((m : ℝ) / d) := by
  have hpos : (0 : ℝ) < d := by exact_mod_cast hd
  have hsplit : (m : ℝ) / d = (m / d : ℕ) + (m % d : ℕ) / d := by
    rw [div_eq_iff hpos.ne',add_mul,div_mul_cancel₀ _ hpos.ne']
    exact_mod_cast (Nat.div_add_mod' m d).symm
  have hlt : ((m % d : ℕ) : ℝ) / d < 1 := by
    rw [div_lt_one hpos]
    exact_mod_cast Nat.mod_lt m hd
  rw [hsplit]
  generalize m / d = q at *
  generalize hr : m % d = r at *
  unfold accuracyOfFraction
  split
  · rename_i hzero
    rw [hzero,Nat.cast_zero,zero_div,add_zero]
    exact .exact q
  · rename_i hne
    have hrpos : (0 : ℝ) < r / d := div_pos (by exact_mod_cast Nat.pos_of_ne_zero hne) hpos
    -- the residual bits tell the remainder from half of the divisor
    rcases lt_trichotomy (2 * r) d with hlt' | heq | hgt
    · have hhalf := div_lt_half hd hlt'
      rw [Nat.compare_eq_lt.2 hlt']
      simp [Stands,ExtendedMantissa.ofMantissaAndAccuracy]
      constructor <;> linarith
    · have hhalf := div_eq_half hd heq
      rw [Nat.compare_eq_eq.2 heq]
      simp [Stands,ExtendedMantissa.ofMantissaAndAccuracy]
      linarith
    · have hhalf := half_lt_div hd hgt
      rw [Nat.compare_eq_gt.2 hgt]
      simp [Stands,ExtendedMantissa.ofMantissaAndAccuracy]
      constructor <;> linarith

/-- The dividend is given enough places for a full quotient, or as many as there can be. -/
theorem divCore_spec (e e' : ℤ) (hm : 0 < m) (hlt : m < 2 ^ 53) (hm' : 0 < m') :
    ∃ (n : ℕ) (t : ℤ), divCore .binary64 m e m' e' =
        ((m <<< n) / m',t,accuracyOfFraction ((m <<< n) % m') m') ∧
      t + n = e - e' ∧ (2 ^ 52 ≤ (m <<< n) / m' ∨ t ≤ -1074) := by
  set t := min (e - e') (Format.binary64.targetExponent (totalExponent m e - totalExponent m' e'))
    with ht
  set n := (e - e' - t).toNat with hn
  refine ⟨n,t,rfl,by omega,?_⟩
  rw [targetExponent_binary64] at ht
  unfold totalExponent at ht
  have hlog : m.log2 < 53 := (Nat.log2_lt hm.ne').2 hlt
  rcases le_or_gt t (-1074) with hsmall | hbig
  · exact Or.inr hsmall
  · have hnlog : m.log2 + n = 53 + m'.log2 := by omega
    refine Or.inl ((Nat.le_div_iff_mul_le hm').2 ?_)
    calc 2 ^ 52 * m' ≤ 2 ^ 52 * 2 ^ (m'.log2 + 1) := Nat.mul_le_mul_left _ Nat.lt_log2_self.le
      _ = 2 ^ (m.log2 + n) := by rw [← pow_add,hnlog]; congr 1; omega
      _ = 2 ^ m.log2 * 2 ^ n := pow_add 2 m.log2 n
      _ ≤ m * 2 ^ n := Nat.mul_le_mul_right _ (Nat.log2_self_le hm.ne')
      _ = m <<< n := (Nat.shiftLeft_eq m n).symm

theorem amounts_div (h : Amounts s y u) (h' : Amounts s' y' u') (hy : 0 < y') :
    ∃ z, Rounded (y / y') z ∧ Amounts (s / s') z (UnpackedFloat.div .binary64 u u') := by
  cases h' with
  | zero => exact absurd hy (lt_irrefl 0)
  | @finite m' e' hm' hlt' he' hc' =>
    cases h with
    | zero =>
      rw [zero_div]
      exact ⟨0,.zero,.zero⟩
    | @finite m e hm hlt he hc =>
      obtain ⟨n,t,hcore,hexp,hplaces⟩ := divCore_spec e e' hm hlt hm'
      have hdiv : UnpackedFloat.div .binary64 (.finite s m e hm) (.finite s' m' e' hm') =
          roundWithAccuracy .binary64 (s / s') ((m <<< n) / m') t
            (accuracyOfFraction ((m <<< n) % m') m') := by
        simp only [UnpackedFloat.div,hcore]
      have htarget : t ≤ Format.binary64.targetExponent (totalExponent ((m <<< n) / m') t) := by
        rw [targetExponent_binary64]
        unfold totalExponent
        rcases hplaces with hfull | hsmall
        · have := (Nat.le_log2 (by omega)).2 hfull
          omega
        · omega
      obtain ⟨z,hr,hz⟩ := amounts_roundWithAccuracy (s := s / s') (Stands.fraction hm' (m <<< n))
        (hplaces.imp_left fun h => by omega) htarget
      refine ⟨z,?_,hdiv ▸ hz⟩
      have hvalue : ((m <<< n : ℕ) : ℝ) / m' * 2 ^ t = m * 2 ^ e / (m' * 2 ^ e') := by
        rw [Nat.shiftLeft_eq,show e = t + n + e' by omega,two_zpow_add,two_zpow_add,zpow_natCast]
        have := (two_zpow_pos e').ne'
        push_cast
        field_simp
      rwa [hvalue] at hr

theorem signed_div_signed (s s' : Sign) (x x' : ℝ) :
    signed s x / signed s' x' = signed (s / s') (x / x') := by
  cases s <;> cases s'
  · exact neg_div_neg_eq x x'
  · exact neg_div x' x
  · exact div_neg x
  · rfl

/-- A quotient is positive unless the exact one is no more than half of the least positive number. -/
theorem Rounded.pos_iff {x z : ℝ} (h : Rounded x z) : 0 < z ↔ 2 ^ (-1075 : ℤ) < x := by
  constructor
  · intro hz
    by_contra hx
    have hquot : (2 : ℝ) ^ (-1075 : ℤ) / 2 ^ (-1074 : ℤ) = 1 / 2 := by
      rw [div_eq_iff (two_zpow_pos _).ne',show (-1074 : ℤ) = -1075 + 1 by norm_num,two_zpow_add]
      ring
    have hhalf : Rounded (2 ^ (-1075 : ℤ)) 0 :=
      ⟨(two_zpow_pos _).le,-1074,0,le_rfl,zpow_lt_zpow_right₀ one_lt_two (by norm_num),Or.inl rfl,
        ⟨by rw [hquot]; norm_num,fun _ => Even.zero⟩,by simp⟩
    exact absurd (h.mono hhalf (not_lt.1 hx)) (not_le.2 hz)
  · intro hx
    obtain ⟨e,r,hmin,hlt,he,hr,rfl⟩ := h.spec
    have hrpos : 0 < r := by
      rcases he with rfl | he
      · have hquot : 1 / 2 < x / 2 ^ (-1074 : ℤ) := by
          rw [show (-1075 : ℤ) = -1 + -1074 by norm_num,two_zpow_add,zpow_neg_one,← one_div] at hx
          rwa [lt_div_iff₀ (two_zpow_pos _)]
        have hle := (abs_le.1 hr.le).2
        have : (0 : ℝ) < r := by linarith
        exact_mod_cast this
      · have := hr.le_of_two_zpow_le he
        omega
    exact mul_pos (by exact_mod_cast hrpos) (two_zpow_pos e)

end Quotients

section Counts
variable {n : ℕ}

theorem exact_natCast (h : n < 2 ^ 53) : Exact n :=
  ⟨n,0,h,by norm_num,by simp⟩

theorem clip_natCast (h : n < 2 ^ 53) : clip n = ((n : ℝ) : EReal) := by
  refine clip_of_lt ?_
  have hlt := natCast_mul_two_zpow_lt h 0
  rw [zpow_zero,mul_one] at hlt
  rw [abs_of_nonneg n.cast_nonneg]
  exact hlt.trans_le (two_zpow_le (by norm_num))

theorem measures_word (h : n < 2 ^ 53) : Measures n.toUInt64.toFloat (n : ℝ) := by
  obtain ⟨s,y,hr,ha⟩ := amounts_normalize n 0
  rw [zpow_zero,mul_one,Int.cast_natCast] at hr
  have hpack := has_pack ha
  rw [hr.eq_of_exact (exact_natCast h),clip_natCast h] at hpack
  have hword : n.toUInt64.toFloat = .ofModel (Float.Model.pack (ofNat .binary64 n.toUInt64.toNat)) :=
    rfl
  have hsmall : n.toUInt64.toNat = n := Nat.mod_eq_of_lt (h.trans (by norm_num))
  rw [hword,hsmall]
  exact hpack

theorem measures_one : Measures (.ofBits 0x3FF0000000000000) (1 : ℝ) := by
  have hunpack : (Float.ofBits 0x3FF0000000000000).toModel.unpack =
      .finite .positive (2 ^ 52) (-52) (by decide) := rfl
  unfold Measures
  rw [hunpack]
  have hval : (1 : ℝ) = signed .positive ((2 ^ 52 : ℕ) * 2 ^ (-52 : ℤ)) := by
    norm_num [signed]
  rw [hval]
  exact .real (.finite _ (by norm_num) (by norm_num) (Or.inl le_rfl))
    (natCast_mul_lt_two_zpow (by norm_num) (by norm_num))

theorem measures_natCast (h : n < 2 ^ 53) : Measures (n : Float) (n : ℝ) := by
  have hcast : ((n : ℕ) : Float) = n.toUInt64.toFloat * .ofBits 0x3FF0000000000000 := by
    change Float.ofScientific n false 0 = _
    unfold Float.ofScientific
    rw [dif_pos ⟨h,by norm_num⟩]
    rfl
  obtain ⟨c,hc,hm⟩ := (measures_word h).mul measures_one
  rw [mul_one] at hc
  rw [hc.eq_of_exact (exact_natCast h),clip_natCast h] at hm
  rwa [hcast]

end Counts

section Positive
variable {x y : Float} {a b c : ℝ} {v w : EReal} {u : UnpackedFloat}

theorem measures_or (x : Float) : x.toModel.unpack = .notANumber ∨ ∃ v, Measures x v :=
  has_unpack x.toModel.toBits.toBitVec

theorem not_has_pack_notANumber : ¬Has (Float.Model.pack .notANumber).unpack v := by
  have hunpack : (Float.Model.pack .notANumber).unpack = .notANumber := rfl
  rw [hunpack]
  intro h
  cases h with
  | real ha _ => cases ha

theorem notANumber_div (u : UnpackedFloat) :
    UnpackedFloat.div .binary64 .notANumber u = .notANumber := rfl

theorem div_notANumber (u : UnpackedFloat) :
    UnpackedFloat.div .binary64 u .notANumber = .notANumber := by
  cases u <;> rfl

theorem mul_notANumber (u : UnpackedFloat) :
    UnpackedFloat.mul .binary64 u .notANumber = .notANumber := by
  cases u <;> rfl

theorem div_infinity (u : UnpackedFloat) :
    UnpackedFloat.div .binary64 u (.infinity .positive) = .notANumber ∨
      ∃ s, UnpackedFloat.div .binary64 u (.infinity .positive) = .zero s := by
  rcases u with _ | s | s | ⟨s,m,e,hm⟩
  · exact Or.inl rfl
  · exact Or.inl rfl
  · exact Or.inr ⟨_,rfl⟩
  · exact Or.inr ⟨_,rfl⟩

theorem has_pos (h : Has u a) (ha : 0 < a) : ∃ r, a = r ∧ Amounts .positive r u := by
  obtain ⟨s,r,rfl,hr,-⟩ := has_coe h
  cases s with
  | positive => exact ⟨r,rfl,hr⟩
  | negative => exact absurd ha (not_lt.2 (neg_nonpos.2 hr.rounded.nonneg))

theorem infinity_div (h : Has u a) (ha : 0 < a) :
    UnpackedFloat.div .binary64 (.infinity .positive) u = .infinity .positive := by
  obtain ⟨r,rfl,hr⟩ := has_pos h ha
  cases hr <;> rfl

theorem mul_infinity (h : Has u a) (ha : 0 < a) :
    UnpackedFloat.mul .binary64 u (.infinity .positive) = .infinity .positive := by
  obtain ⟨r,rfl,hr⟩ := has_pos h ha
  cases hr with
  | zero => exact absurd ha (lt_irrefl 0)
  | finite hm hlt he hc => rfl

theorem Measures.of_div (h : Measures (x / y) v) :
    (∃ w, Measures x w) ∧ ∃ w, Measures y w := by
  change Has (Float.Model.pack (UnpackedFloat.div .binary64 x.toModel.unpack
    y.toModel.unpack)).unpack v at h
  constructor
  · refine (measures_or x).resolve_left fun hx => ?_
    rw [hx,notANumber_div] at h
    exact not_has_pack_notANumber h
  · refine (measures_or y).resolve_left fun hy => ?_
    rw [hy,div_notANumber] at h
    exact not_has_pack_notANumber h

theorem Measures.of_mul_right (h : Measures (x * y) v) : ∃ w, Measures y w := by
  change Has (Float.Model.pack (UnpackedFloat.mul .binary64 x.toModel.unpack
    y.toModel.unpack)).unpack v at h
  refine (measures_or y).resolve_left fun hy => ?_
  rw [hy,mul_notANumber] at h
  exact not_has_pack_notANumber h

theorem Measures.div (h : Measures x a) (h' : Measures y b) (hb : 0 < b) :
    ∃ c, RoundsTo (a / b) c ∧ Measures (x / y) (clip c) := by
  obtain ⟨s,r,rfl,hx,-⟩ := has_coe h
  obtain ⟨r',rfl,hy⟩ := has_pos h' hb
  obtain ⟨z,hr,hz⟩ := amounts_div hx hy hb
  have hround := hr.roundsTo (s / .positive)
  rw [← signed_div_signed] at hround
  exact ⟨_,hround,has_pack hz⟩

theorem Measures.top_div (h : Measures x ⊤) (h' : Measures y b) (hb : 0 < b) :
    Measures (x / y) ⊤ := by
  change Has (Float.Model.pack (UnpackedFloat.div .binary64 x.toModel.unpack
    y.toModel.unpack)).unpack ⊤
  rw [has_top h,infinity_div h' hb]
  exact .top

theorem Measures.mul_top (h : Measures x a) (ha : 0 < a) (h' : Measures y ⊤) :
    Measures (x * y) ⊤ := by
  change Has (Float.Model.pack (UnpackedFloat.mul .binary64 x.toModel.unpack
    y.toModel.unpack)).unpack ⊤
  rw [has_top h',mul_infinity h ha]
  exact .top

theorem Measures.div_top (h : Measures (x / y) v) (h' : Measures y ⊤) : v = 0 := by
  refine h.unique (w := ((0 : ℝ) : EReal)) ?_
  change Has (Float.Model.pack (UnpackedFloat.div .binary64 x.toModel.unpack
    y.toModel.unpack)).unpack v at h
  change Has (Float.Model.pack (UnpackedFloat.div .binary64 x.toModel.unpack
    y.toModel.unpack)).unpack _
  rw [has_top h'] at h ⊢
  rcases div_infinity x.toModel.unpack with hd | ⟨s,hd⟩ <;> rw [hd] at h ⊢
  · exact absurd h not_has_pack_notANumber
  · have hz := has_pack (.zero (s := s))
    rwa [signed_zero,clip_of_lt (by rw [abs_zero]; exact two_zpow_pos 1024)] at hz

theorem clip_pos : 0 < clip c ↔ 0 < c := by
  have hpos := two_zpow_pos 1024
  unfold clip
  split
  · rename_i h
    exact ⟨fun _ => hpos.trans_le h,fun _ => EReal.zero_lt_top⟩
  · split
    · rename_i h
      exact ⟨fun h' => absurd h' (not_lt.2 bot_le),
        fun h' => absurd h' (not_lt.2 (h.trans (neg_nonpos.2 hpos.le)))⟩
    · exact EReal.coe_pos

theorem pos_iff (h : Measures x v) : 0 < x ↔ 0 < v := measures_zero.lt_iff h

/-- When a quotient is positive whose parts are not at most zero. -/
theorem pos_div_iff (hx : ¬x ≤ 0) (hy : ¬y ≤ 0) : 0 < x / y ↔
    ∃ (v : EReal) (b : ℝ), Measures x v ∧ Measures y b ∧
      ((2 ^ (-1075 : ℤ) * b : ℝ) : EReal) < v := by
  have hpos {z : Float} {v : EReal} (hz : ¬z ≤ 0) (h : Measures z v) : 0 < v := by
    rwa [h.le_iff measures_zero,not_le] at hz
  have hquot {a b : ℝ} (ha : Measures x a) (hb : Measures y b) :
      0 < x / y ↔ 2 ^ (-1075 : ℤ) * b < a := by
    have hb' : 0 < b := EReal.coe_pos.1 (hpos hy hb)
    have ha' : 0 < a := EReal.coe_pos.1 (hpos hx ha)
    obtain ⟨c,hc,hd⟩ := ha.div hb hb'
    have hround : Rounded (a / b) c := by
      rcases hc with hc | hc
      · exact hc
      · exact absurd hc.nonneg (not_le.2 (neg_neg_of_pos (div_pos ha' hb')))
    rw [pos_iff hd,clip_pos,hround.pos_iff,lt_div_iff₀ hb']
  -- finite parts are compared in `hquot`; an infinite one decides by itself
  constructor
  · intro h
    obtain ⟨o,q,-,hq,-⟩ := measures_of_lt h
    obtain ⟨⟨v,hv⟩,w,hw⟩ := hq.of_div
    induction w with
    | bot => exact absurd (hpos hy hw) (not_lt.2 bot_le)
    | top =>
      rw [pos_iff hq,hq.div_top hw] at h
      exact absurd h (lt_irrefl 0)
    | coe b =>
      refine ⟨v,b,hv,hw,?_⟩
      induction v with
      | bot => exact absurd (hpos hx hv) (not_lt.2 bot_le)
      | top => exact EReal.coe_lt_top _
      | coe a => exact_mod_cast (hquot hv hw).1 h
  · rintro ⟨v,b,hv,hb,hlt⟩
    induction v with
    | bot => exact absurd hlt (not_lt.2 bot_le)
    | top => exact (pos_iff (hv.top_div hb (EReal.coe_pos.1 (hpos hy hb)))).2 EReal.zero_lt_top
    | coe a => exact (hquot hv hb).2 (by exact_mod_cast hlt)

end Positive

end Gantry
