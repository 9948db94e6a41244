import Mathlib
import Gantry.Proofs.Numeric.Rounding

/-!
Unpacked binary64 numbers: their values, their order and what arithmetic rounds to. A number that
was unpacked is canonical: it uses all places of its mantissa unless its exponent is the least one.
Packing keeps the value of a canonical number, or makes it infinite if it is too large.
-/
set_option autoImplicit false

namespace Gantry

open Float.Model Float.Model.UnpackedFloat

/-- The number that a mantissa with its two residual bits stands for. -/
def Stands (em : ExtendedMantissa) (x : ℝ) : Prop :=
  if em.roundBit then
    if em.stickyBit then em.mantissa + 1 / 2 < x ∧ x < em.mantissa + 1 else x = em.mantissa + 1 / 2
  else if em.stickyBit then em.mantissa < x ∧ x < em.mantissa + 1 / 2
  else x = em.mantissa

namespace Stands
variable {em : ExtendedMantissa} {x : ℝ}

theorem exact (m : ℕ) : Stands (.ofMantissaAndAccuracy m .exact) m := by
  simp [Stands,ExtendedMantissa.ofMantissaAndAccuracy]

theorem shiftRightOne (h : Stands em x) : Stands em.shiftRightOne (x / 2) := by
  obtain ⟨m,r,s⟩ := em
  have hm : (m : ℝ) = 2 * (m / 2 : ℕ) + (m % 2 : ℕ) := by exact_mod_cast (Nat.div_add_mod m 2).symm
  rcases Nat.mod_two_eq_zero_or_one m with hz | hz <;> rw [hz] at hm <;> push_cast at hm <;>
    cases r <;> cases s <;> simp [Stands,ExtendedMantissa.shiftRightOne,hz] at h ⊢
  all_goals first
    | constructor <;> linarith [h.1,h.2]
    | constructor <;> linarith
    | linarith

theorem shiftRight (h : Stands em x) (n : ℕ) : Stands (em >>> n) (x / 2 ^ n) := by
  change Stands (n.repeat ExtendedMantissa.shiftRightOne em) _
  induction n with
  | zero => simpa [Nat.repeat] using h
  | succ n ih =>
    rw [Nat.repeat,pow_succ,← div_div]
    exact ih.shiftRightOne

theorem bounds {m : ℕ} {a : Accuracy} (h : Stands (.ofMantissaAndAccuracy m a) x) :
    m ≤ x ∧ x < m + 1 := by
  rcases a with _ | (_ | _ | _) <;>
    simp [Stands,ExtendedMantissa.ofMantissaAndAccuracy] at h ⊢ <;> constructor <;> linarith

theorem nearest (h : Stands em x) : Nearest x em.roundedMantissa := by
  obtain ⟨m,r,s⟩ := em
  cases r <;> cases s <;>
    simp [Stands,ExtendedMantissa.roundedMantissa,ExtendedMantissa.accuracy,
      Accuracy.roundToNearestEven] at h ⊢
  · rw [h]; exact nearest_natCast m
  · have habs : |x - m| = x - m := abs_of_pos (by linarith [h.1])
    exact ⟨by rw [habs]; linarith [h.2],fun he => by rw [habs] at he; linarith [h.2]⟩
  · have heven : Even (m + m % 2) := by rw [Nat.even_iff]; omega
    rcases Nat.mod_two_eq_zero_or_one m with hz | hz <;> rw [hz] at heven ⊢ <;>
      refine ⟨?_,fun _ => heven⟩ <;> rw [h] <;> push_cast <;> norm_num [abs_le]
  · have habs : |x - (m + 1 : ℕ)| = m + 1 - x := by
      push_cast
      rw [abs_of_neg (by linarith [h.2])]
      ring
    exact ⟨by rw [habs]; linarith [h.1],fun he => by rw [habs] at he; linarith [h.1]⟩

end Stands

inductive Amounts (s : Sign) : ℝ → UnpackedFloat → Prop where
  | zero : Amounts s 0 (.zero s)
  | finite {m : ℕ} {e : ℤ} (h : 0 < m) : m < 2 ^ 53 → -1074 ≤ e → 2 ^ 52 ≤ m ∨ e = -1074 →
      Amounts s (m * 2 ^ e) (.finite s m e h)

section Round
variable {s : Sign} {m : ℕ} {e : ℤ}

theorem targetExponent_binary64 (t : ℤ) :
    Format.binary64.targetExponent t = max (t - 53) (-1074) := by
  unfold Format.targetExponent
  rfl

theorem shiftToTargetExponent_small (hm : m < 2 ^ 53) (he : -1074 ≤ e) :
    shiftToTargetExponent .binary64 m e .exact = (.ofMantissaAndAccuracy m .exact,e) := by
  have hlog : m.log2 < 53 := by
    rcases Nat.eq_zero_or_pos m with rfl | hpos
    · decide
    · exact (Nat.log2_lt hpos.ne').2 hm
  have hzero : (Format.binary64.targetExponent (totalExponent m e) - e).toNat = 0 := by
    rw [targetExponent_binary64]
    unfold totalExponent
    omega
  simp only [shiftToTargetExponent,shiftToExponent,hzero]
  exact Prod.ext rfl (by simp)

/-- A mantissa that was rounded up to one place too many loses its last place, a zero. -/
theorem shiftToTargetExponent_carry (he : -1074 ≤ e) :
    shiftToTargetExponent .binary64 (2 ^ 53) e .exact =
      (.ofMantissaAndAccuracy (2 ^ 52) .exact,e + 1) := by
  have hone : (Format.binary64.targetExponent (totalExponent (2 ^ 53) e) - e).toNat = 1 := by
    rw [targetExponent_binary64]
    unfold totalExponent
    rw [Nat.log2_two_pow]
    omega
  simp only [shiftToTargetExponent,shiftToExponent,hone]
  rfl

/-- The last step of rounding, which takes back a carry. -/
def settle (s : Sign) (m : ℕ) (e : ℤ) : UnpackedFloat :=
  let shifted := shiftToTargetExponent .binary64 m e .exact
  if h : shifted.1.mantissa = 0 then .zero s
  else .finite s shifted.1.mantissa shifted.2 (Nat.pos_of_ne_zero h)

theorem amounts_settle (hm : m ≤ 2 ^ 53) (he : -1074 ≤ e) (hc : 2 ^ 52 ≤ m ∨ e = -1074) :
    Amounts s (m * 2 ^ e) (settle s m e) := by
  unfold settle
  rcases hm.lt_or_eq with hlt | rfl
  · simp only [shiftToTargetExponent_small hlt he,ExtendedMantissa.ofMantissaAndAccuracy]
    split
    · rename_i hz
      rw [hz,Nat.cast_zero,zero_mul]
      exact .zero
    · exact .finite _ hlt he hc
  · have hpow : ((2 ^ 53 : ℕ) : ℝ) * 2 ^ e = (2 ^ 52 : ℕ) * 2 ^ (e + 1) := by
      rw [two_zpow_add]
      push_cast
      ring
    simp only [shiftToTargetExponent_carry he,ExtendedMantissa.ofMantissaAndAccuracy]
    rw [dif_neg (by positivity),hpow]
    exact .finite _ (by norm_num) (by omega) (Or.inl le_rfl)

theorem roundWithAccuracy_eq_settle (s : Sign) (m : ℕ) (e : ℤ) (a : Accuracy) :
    roundWithAccuracy .binary64 s m e a =
      settle s (shiftToTargetExponent .binary64 m e a).1.roundedMantissa
        (shiftToTargetExponent .binary64 m e a).2 := rfl

theorem amounts_roundWithAccuracy {a : Accuracy} {x : ℝ}
    (hx : Stands (.ofMantissaAndAccuracy m a) x) (hm : 0 < m ∨ e ≤ -1074)
    (he : e ≤ Format.binary64.targetExponent (totalExponent m e)) :
    ∃ y, Rounded (x * 2 ^ e) y ∧ Amounts s y (roundWithAccuracy .binary64 s m e a) := by
  set t := Format.binary64.targetExponent (totalExponent m e) with ht
  rw [targetExponent_binary64] at ht
  unfold totalExponent at ht
  -- `n` places are shifted out, which leaves the exponent `t` that rounding is to.
  set n := (t - e).toNat with hn
  have hnt : e + n = t := by omega
  set em := ExtendedMantissa.ofMantissaAndAccuracy m a >>> n with hem
  obtain ⟨hmx,hxm⟩ := hx.bounds
  have hhi : x * 2 ^ e < 2 ^ ((m.log2 : ℤ) + 1 + e) := by
    rw [two_zpow_add]
    refine mul_lt_mul_of_pos_right (hxm.trans_le ?_) (two_zpow_pos e)
    exact_mod_cast Nat.lt_log2_self (n := m)
  have hnear : Nearest (x * 2 ^ e / 2 ^ t) em.roundedMantissa := by
    have hdiv : x * 2 ^ e / 2 ^ t = x / 2 ^ n := by
      rw [← hnt,two_zpow_add,zpow_natCast,mul_comm x,mul_div_mul_left _ _ (two_zpow_pos e).ne']
    rw [hdiv]
    exact (hx.shiftRight n).nearest
  have hbelow : x * 2 ^ e < 2 ^ (53 + t) := hhi.trans_le (two_zpow_le (by omega))
  have habove : t = -1074 ∨ (2 : ℝ) ^ (52 + t) ≤ x * 2 ^ e := by
    rcases eq_or_ne t (-1074) with htm | htm
    · exact Or.inl htm
    · have hpos : m ≠ 0 := by
        rintro rfl
        rw [show (0 : ℕ).log2 = 0 from rfl] at ht
        omega
      have hlo : (2 : ℝ) ^ ((m.log2 : ℤ) + e) ≤ x * 2 ^ e := by
        rw [two_zpow_add,zpow_natCast]
        refine mul_le_mul_of_nonneg_right (le_trans ?_ hmx) (two_zpow_pos e).le
        exact_mod_cast Nat.log2_self_le hpos
      exact Or.inr (hlo.trans' (two_zpow_le (by omega)))
  have hnonneg : 0 ≤ x := m.cast_nonneg.trans hmx
  refine ⟨_,⟨by positivity,t,_,by omega,hbelow,habove,hnear,rfl⟩,?_⟩
  have hshift : shiftToTargetExponent .binary64 m e a = (em,t) := Prod.ext rfl hnt
  rw [roundWithAccuracy_eq_settle,hshift]
  exact amounts_settle (hnear.le_of_lt_two_zpow hbelow) (by omega)
    (habove.symm.imp_left hnear.le_of_two_zpow_le)

theorem log2_shiftLeft (hm : 0 < m) (n : ℕ) : (m <<< n).log2 = m.log2 + n := by
  rw [Nat.shiftLeft_eq]
  refine (Nat.log2_eq_iff (by positivity)).2 ⟨?_,?_⟩
  · rw [pow_add]
    exact Nat.mul_le_mul_right _ (Nat.log2_self_le hm.ne')
  · rw [show m.log2 + n + 1 = m.log2 + 1 + n by omega,pow_add]
    exact Nat.mul_lt_mul_of_pos_right Nat.lt_log2_self (by positivity)

theorem amounts_round (hm : 0 < m) :
    ∃ y, Rounded (m * 2 ^ e) y ∧ Amounts s y (round .binary64 s m e) := by
  set t := Format.binary64.targetExponent (totalExponent m e) with ht
  set n := (e - t).toNat with hn
  have hround : round .binary64 s m e =
      roundWithAccuracy .binary64 s (m <<< n) (e - n) .exact := rfl
  have hpos : 0 < m <<< n := by rw [Nat.shiftLeft_eq]; positivity
  have htotal : totalExponent (m <<< n) (e - n) = totalExponent m e := by
    unfold totalExponent
    rw [log2_shiftLeft hm]
    push_cast
    ring
  have hvalue : ((m <<< n : ℕ) : ℝ) * 2 ^ (e - n) = m * 2 ^ e := by
    rw [Nat.shiftLeft_eq,show e = (e - n) + n by ring,two_zpow_add]
    push_cast
    rw [zpow_natCast,add_sub_cancel_right]
    ring
  rw [hround,← hvalue]
  exact amounts_roundWithAccuracy (.exact _) (Or.inl hpos) (by rw [htotal,← ht]; omega)

end Round

def signed : Sign → ℝ → ℝ
  | .positive,y => y
  | .negative,y => -y

theorem amounts_normalize (m e : ℤ) : ∃ s y, RoundsTo (m * 2 ^ e) (signed s y) ∧
    Amounts s y (UnpackedFloat.normalize .binary64 m e .positive) := by
  unfold UnpackedFloat.normalize
  rcases lt_trichotomy m 0 with hm | rfl | hm
  · obtain ⟨y,hy,ha⟩ := amounts_round (s := .negative) (m := (-m).toNat) (e := e) (by omega)
    have hcast : (((-m).toNat : ℕ) : ℝ) = -m := by
      exact_mod_cast Int.toNat_of_nonneg (by omega : 0 ≤ -m)
    rw [hcast,neg_mul] at hy
    rw [Int.compare_eq_lt.2 hm]
    exact ⟨.negative,y,Or.inr (by simpa [signed] using hy),ha⟩
  · exact ⟨.positive,0,Or.inl (by simpa [signed] using Rounded.zero),.zero⟩
  · obtain ⟨y,hy,ha⟩ := amounts_round (s := .positive) (m := m.toNat) (e := e) (by omega)
    have hcast : ((m.toNat : ℕ) : ℝ) = m := by exact_mod_cast Int.toNat_of_nonneg hm.le
    rw [hcast] at hy
    rw [Int.compare_eq_gt.2 hm]
    exact ⟨.positive,y,Or.inl hy,ha⟩

noncomputable def clip (y : ℝ) : EReal :=
  if 2 ^ (1024 : ℤ) ≤ y then ⊤ else if y ≤ -2 ^ (1024 : ℤ) then ⊥ else y

theorem clip_of_lt {y : ℝ} (h : |y| < 2 ^ (1024 : ℤ)) : clip y = y := by
  obtain ⟨hlo,hhi⟩ := abs_lt.1 h
  rw [clip,if_neg (not_le.2 hhi),if_neg (not_le.2 hlo)]

theorem clip_of_le {y : ℝ} (h : 2 ^ (1024 : ℤ) ≤ y) : clip y = ⊤ := if_pos h

theorem clip_neg_of_le {y : ℝ} (h : 2 ^ (1024 : ℤ) ≤ y) : clip (-y) = ⊥ := by
  have hpos := two_zpow_pos 1024
  have hneg : -y < 2 ^ (1024 : ℤ) := (neg_nonpos.2 (hpos.le.trans h)).trans_lt hpos
  rw [clip,if_neg (not_le.2 hneg),if_pos (neg_le_neg h)]

theorem clip_mono : Monotone clip := by
  intro x y hxy
  have hpos := two_zpow_pos 1024
  unfold clip
  split
  · rw [if_pos (by linarith)]
  · split
    · exact bot_le
    · rename_i hx hx'
      split
      · exact le_top
      · rw [if_neg (by linarith)]
        exact_mod_cast hxy

inductive Has : UnpackedFloat → EReal → Prop where
  | top : Has (.infinity .positive) ⊤
  | bot : Has (.infinity .negative) ⊥
  | real {s : Sign} {y : ℝ} {u : UnpackedFloat} : Amounts s y u → y < 2 ^ (1024 : ℤ) →
      Has u (signed s y : ℝ)

section Pack
variable {s : Sign} {m : ℕ} {e : ℤ}

theorem unpackSign_packComponents (s : Sign) (e : BitVec 11) (m : BitVec 52) :
    Sign.ofBitVec (unpackSign (packComponents .binary64 s e m)) = s := by
  have hsign : unpackSign (packComponents .binary64 s e m) = s.toBitVec := by
    refine BitVec.eq_of_getLsbD_eq fun i hi => ?_
    obtain rfl : i = 0 := by omega
    have hbit : ((s.toBitVec ++ e) ++ m).getLsbD 63 = s.toBitVec.getLsbD 0 := by
      rw [BitVec.getLsbD_append,if_neg (by norm_num),BitVec.getLsbD_append,if_neg (by norm_num)]
    rw [← hbit]
    simp only [unpackSign,packComponents,BitVec.getLsbD_cast,BitVec.getLsbD_extractLsb]
    rfl
  rw [hsign]
  cases s <;> rfl

theorem toNat_one_append (m : BitVec 52) : (1#1 ++ m).toNat = 2 ^ 52 + m.toNat := by
  rw [BitVec.toNat_append,← Nat.shiftLeft_add_eq_or_of_lt m.isLt]
  rfl

theorem unpack_packComponents (s : Sign) (e : BitVec 11) (m : BitVec 52) :
    unpack .binary64 (packComponents .binary64 s e m) =
      if e = -1#11 then if m = 0#52 then .infinity s else .notANumber
      else if e = 0#11 then
        if h : m = 0#52 then .zero s
        else .finite s m.toNat ((e.toNat : ℤ) - 1075 + 1) (by
          simpa [BitVec.toNat_pos,BitVec.pos_iff_ne_zero])
      else .finite s (1#1 ++ m).toNat ((e.toNat : ℤ) - 1075) (by
        rw [toNat_one_append]; positivity) := by
  unfold UnpackedFloat.unpack
  simp only [unpackMantissa_packComponents,unpackExponent_packComponents,unpackSign_packComponents]
  rfl

theorem unpack_pack_normal (hm : 0 < m) (hlo : 2 ^ 52 ≤ m) (hhi : m < 2 ^ 53) (he : -1074 ≤ e)
    (he' : e ≤ 971) : unpack .binary64 (UnpackedFloat.pack .binary64 (.finite s m e hm)) =
      .finite s m e hm := by
  have hlog : m.log2 = 52 := (Nat.log2_eq_iff hm.ne').2 ⟨hlo,hhi⟩
  have hpack : UnpackedFloat.pack .binary64 (.finite s m e hm) =
      packComponents .binary64 s (BitVec.ofNat 11 (e + 1075).toNat) (BitVec.ofNat 52 m) := by
    unfold UnpackedFloat.pack
    have hbias : (e + Format.binary64.exponentBias +
        Format.binary64.mantissaBitsWithoutImplicit).toNat = (e + 1075).toNat := by
      change (e + (1023 : ℕ) + (52 : ℕ)).toNat = _
      omega
    simp only [hbias,hlog]
    rw [if_neg (by omega),if_pos (by rfl)]
  -- neither field overflows, and the exponent is neither of the two special ones
  have hexp : (BitVec.ofNat 11 (e + 1075).toNat).toNat = (e + 1075).toNat := by
    rw [BitVec.toNat_ofNat,Nat.mod_eq_of_lt (by omega)]
  have hmant : (1#1 ++ BitVec.ofNat 52 m).toNat = m := by
    rw [toNat_one_append,BitVec.toNat_ofNat]
    omega
  have hneg : BitVec.ofNat 11 (e + 1075).toNat ≠ -1#11 := fun h => by
    have := congrArg BitVec.toNat h
    rw [hexp] at this
    change _ = 2047 at this
    omega
  have hzero : BitVec.ofNat 11 (e + 1075).toNat ≠ 0#11 := fun h => by
    have := congrArg BitVec.toNat h
    rw [hexp] at this
    change _ = 0 at this
    omega
  rw [hpack,unpack_packComponents,if_neg hneg,if_neg hzero]
  simp only [hmant,hexp]
  congr 1
  omega

theorem unpack_pack_subnormal (hm : 0 < m) (hhi : m < 2 ^ 52) :
    unpack .binary64 (UnpackedFloat.pack .binary64 (.finite s m (-1074) hm)) =
      .finite s m (-1074) hm := by
  have hlog : m.log2 < 52 := (Nat.log2_lt hm.ne').2 hhi
  have hpack : UnpackedFloat.pack .binary64 (.finite s m (-1074) hm) =
      packComponents .binary64 s 0#11 (BitVec.ofNat 52 m) := by
    unfold UnpackedFloat.pack
    have hne : ¬m.log2 + 1 = Format.binary64.mantissaBits := by
      change ¬m.log2 + 1 = 53
      omega
    simp only [hne]
    rw [if_neg (by decide),if_neg not_false]
  have hmant : (BitVec.ofNat 52 m).toNat = m := by
    rw [BitVec.toNat_ofNat,Nat.mod_eq_of_lt hhi]
  have hzero : BitVec.ofNat 52 m ≠ 0#52 := fun h => by
    have := congrArg BitVec.toNat h
    rw [hmant] at this
    exact hm.ne' this
  rw [hpack,unpack_packComponents,if_neg (by decide),if_pos rfl,dif_neg hzero]
  simp only [hmant]
  rfl

theorem unpack_pack_overflow (hm : 0 < m) (he : 972 ≤ e) :
    unpack .binary64 (UnpackedFloat.pack .binary64 (.finite s m e hm)) = .infinity s := by
  have hpack : UnpackedFloat.pack .binary64 (.finite s m e hm) = packedInfinity .binary64 s := by
    unfold UnpackedFloat.pack
    have hbias : 2 ^ Format.binary64.exponentBits ≤ (e + Format.binary64.exponentBias +
        Format.binary64.mantissaBitsWithoutImplicit).toNat + 1 := by
      change 2 ^ 11 ≤ (e + (1023 : ℕ) + (52 : ℕ)).toNat + 1
      omega
    simp only [hbias,if_true]
  rw [hpack]
  cases s <;> rfl

theorem natCast_mul_lt_two_zpow (hm : m < 2 ^ 53) (he : e ≤ 971) :
    (m : ℝ) * 2 ^ e < 2 ^ (1024 : ℤ) :=
  (natCast_mul_two_zpow_lt hm e).trans_le (two_zpow_le (by linarith))

theorem has_pack {y : ℝ} {u : UnpackedFloat} (h : Amounts s y u) :
    Has (unpack .binary64 (UnpackedFloat.pack .binary64 u)) (clip (signed s y)) := by
  have habs : |signed s y| = |y| := by cases s <;> simp [signed]
  cases h with
  | zero =>
    rw [clip_of_lt (by rw [habs,abs_zero]; exact two_zpow_pos 1024)]
    cases s <;> exact .real .zero (two_zpow_pos 1024)
  | @finite m e hm hhi he hc =>
    have hmag : |(m : ℝ) * 2 ^ e| = m * 2 ^ e := abs_of_nonneg (by positivity)
    rcases le_or_gt e 971 with hle | hgt
    · have hlt := natCast_mul_lt_two_zpow hhi hle
      have hunpack : unpack .binary64 (UnpackedFloat.pack .binary64 (.finite s m e hm)) =
          .finite s m e hm := by
        rcases le_or_gt (2 ^ 52) m with hlo | hlo
        · exact unpack_pack_normal hm hlo hhi he hle
        · obtain rfl := hc.resolve_left (by omega)
          exact unpack_pack_subnormal hm hlo
      rw [clip_of_lt (by rwa [habs,hmag]),hunpack]
      exact .real (.finite hm hhi he hc) hlt
    · have hle : (2 : ℝ) ^ (1024 : ℤ) ≤ m * 2 ^ e := by
        refine (two_zpow_le ?_).trans (two_zpow_le_natCast_mul (hc.resolve_right (by omega)) e)
        omega
      rw [unpack_pack_overflow hm hgt]
      cases s with
      | positive =>
        rw [signed,clip_of_le hle]
        exact .top
      | negative =>
        rw [signed,clip_neg_of_le hle]
        exact .bot

theorem has_unpack (b : BitVec 64) :
    unpack .binary64 b = .notANumber ∨ ∃ v, Has (unpack .binary64 b) v := by
  have hmlt : (@unpackMantissa .binary64 b).toNat < 2 ^ 52 :=
    (@unpackMantissa .binary64 b).isLt
  have helt : (@unpackExponent .binary64 b).toNat < 2 ^ 11 :=
    (@unpackExponent .binary64 b).isLt
  -- infinite and undefined numbers have the largest exponent, subnormal ones the least
  unfold UnpackedFloat.unpack
  dsimp only
  split
  · split
    · right
      cases Sign.ofBitVec (@unpackSign .binary64 b) with
      | positive => exact ⟨⊤,.top⟩
      | negative => exact ⟨⊥,.bot⟩
    · exact Or.inl rfl
  · rename_i hmax
    right
    have hne : (@unpackExponent .binary64 b).toNat ≠ 2047 := fun h =>
      hmax (BitVec.eq_of_toNat_eq h)
    split
    · rename_i hzero
      split
      · exact ⟨_,.real .zero (two_zpow_pos 1024)⟩
      · refine ⟨_,.real (.finite _ (by omega) ?_ (Or.inr ?_))
          (natCast_mul_lt_two_zpow (by omega) ?_)⟩ <;> rw [hzero] <;> decide
    · rename_i hzero
      have hpos : 0 < (@unpackExponent .binary64 b).toNat :=
        (BitVec.toNat_pos _).2 ((BitVec.pos_iff_ne_zero _).2 hzero)
      have happ := toNat_one_append (@unpackMantissa .binary64 b)
      have hbias : ((Format.binary64.exponentBias : ℕ) : ℤ) = 1023 := rfl
      have hlt : (1#1 ++ @unpackMantissa .binary64 b).toNat < 2 ^ 53 := by omega
      have hle : 2 ^ 52 ≤ (1#1 ++ @unpackMantissa .binary64 b).toNat := by omega
      refine ⟨_,.real (.finite _ hlt ?_ (Or.inl hle)) (natCast_mul_lt_two_zpow hlt ?_)⟩ <;>
        rw [hbias] <;> push_cast <;> omega

end Pack

section Compare
variable {m m' : ℕ} {e e' : ℤ}

/-- Canonical magnitudes are in the order of their exponents, then in that of their mantissas. -/
theorem compare_magnitude (hm : m < 2 ^ 53) (he : -1074 ≤ e) (hc : 2 ^ 52 ≤ m ∨ e = -1074)
    (hm' : m' < 2 ^ 53) (he' : -1074 ≤ e') (hc' : 2 ^ 52 ≤ m' ∨ e' = -1074) :
    (compare e e').then (compare m m') = cmp ((m : ℝ) * 2 ^ e) (m' * 2 ^ e') := by
  rcases lt_trichotomy e e' with hlt | rfl | hlt
  · have hval : (m : ℝ) * 2 ^ e < m' * 2 ^ e' :=
      (natCast_mul_two_zpow_lt hm e).trans_le ((two_zpow_le (by omega)).trans
        (two_zpow_le_natCast_mul (hc'.resolve_right (by omega)) e'))
    rw [Int.compare_eq_lt.2 hlt,(cmp_eq_lt_iff _ _).2 hval]
    rfl
  · have hpow := two_zpow_pos e
    rw [show compare e e = .eq from Int.compare_eq_eq.2 rfl]
    change compare m m' = _
    rcases lt_trichotomy m m' with hlt | rfl | hlt
    · rw [Nat.compare_eq_lt.2 hlt,eq_comm,cmp_eq_lt_iff]
      exact mul_lt_mul_of_pos_right (by exact_mod_cast hlt) hpow
    · rw [Nat.compare_eq_eq.2 rfl,cmp_self_eq_eq]
    · rw [Nat.compare_eq_gt.2 hlt,eq_comm,cmp_eq_gt_iff]
      exact mul_lt_mul_of_pos_right (by exact_mod_cast hlt) hpow
  · have hval : (m' : ℝ) * 2 ^ e' < m * 2 ^ e :=
      (natCast_mul_two_zpow_lt hm' e').trans_le ((two_zpow_le (by omega)).trans
        (two_zpow_le_natCast_mul (hc.resolve_right (by omega)) e))
    rw [Int.compare_eq_gt.2 hlt,(cmp_eq_gt_iff _ _).2 hval]
    rfl

theorem compare_amounts {s s' : Sign} {y y' : ℝ} {u u' : UnpackedFloat} (h : Amounts s y u)
    (h' : Amounts s' y' u') : u.compare u' = some (cmp (signed s y) (signed s' y')) := by
  have hswap (a b : ℝ) : cmp (-a) (-b) = (cmp a b).swap := by
    rw [cmp_swap]
    simp [cmp,cmpUsing]
  cases h with
  | zero =>
    cases h' with
    | zero => cases s <;> cases s' <;> simp [UnpackedFloat.compare,signed]
    | @finite m' e' hm' =>
      have hpos : 0 < (m' : ℝ) * 2 ^ e' := mul_pos (Nat.cast_pos.2 hm') (two_zpow_pos e')
      cases s' with
      | positive =>
        cases s <;> exact congrArg some ((cmp_eq_lt_iff _ _).2 (by simpa [signed] using hpos)).symm
      | negative =>
        cases s <;> exact congrArg some ((cmp_eq_gt_iff _ _).2 (by simpa [signed] using hpos)).symm
  | @finite m e hm hlt he hc =>
    have hpos : 0 < (m : ℝ) * 2 ^ e := mul_pos (Nat.cast_pos.2 hm) (two_zpow_pos e)
    cases h' with
    | zero =>
      cases s with
      | positive =>
        cases s' <;> exact congrArg some ((cmp_eq_gt_iff _ _).2 (by simpa [signed] using hpos)).symm
      | negative =>
        cases s' <;> exact congrArg some ((cmp_eq_lt_iff _ _).2 (by simpa [signed] using hpos)).symm
    | @finite m' e' hm' hlt' he' hc' =>
      have hpos' : 0 < (m' : ℝ) * 2 ^ e' := mul_pos (Nat.cast_pos.2 hm') (two_zpow_pos e')
      have hmag := compare_magnitude hlt he hc hlt' he' hc'
      -- of two numbers of one sign the magnitudes decide, the other way round for negative ones
      cases s <;> cases s'
      · change some ((compare e e').then (compare m m')).swap = _
        rw [hmag,signed,signed,hswap]
      · exact congrArg some ((cmp_eq_lt_iff _ _).2 (by simp only [signed]; linarith)).symm
      · exact congrArg some ((cmp_eq_gt_iff _ _).2 (by simp only [signed]; linarith)).symm
      · change some ((compare e e').then (compare m m')) = _
        rw [hmag]
        rfl

theorem compare_notANumber (u : UnpackedFloat) : u.compare .notANumber = none := by
  cases u <;> rfl

theorem compare_eq_cmp {u u' : UnpackedFloat} {v v' : EReal} (h : Has u v) (h' : Has u' v') :
    u.compare u' = some (cmp v v') := by
  cases h with
  | top =>
    cases h' with
    | top => rw [cmp_self_eq_eq]; rfl
    | bot => rw [(cmp_eq_gt_iff _ _).2 bot_lt_top]; rfl
    | real ha _ => rw [(cmp_eq_gt_iff _ _).2 (EReal.coe_lt_top _)]; cases ha <;> rfl
  | bot =>
    cases h' with
    | top => rw [(cmp_eq_lt_iff _ _).2 bot_lt_top]; rfl
    | bot => rw [cmp_self_eq_eq]; rfl
    | real ha _ => rw [(cmp_eq_lt_iff _ _).2 (EReal.bot_lt_coe _)]; cases ha <;> rfl
  | real ha _ =>
    cases h' with
    | top => rw [(cmp_eq_lt_iff _ _).2 (EReal.coe_lt_top _)]; cases ha <;> cases ‹Sign› <;> rfl
    | bot => rw [(cmp_eq_gt_iff _ _).2 (EReal.bot_lt_coe _)]; cases ha <;> cases ‹Sign› <;> rfl
    | real ha' _ => rw [EReal.coe_strictMono.cmp_map_eq,compare_amounts ha ha']

end Compare

end Gantry
