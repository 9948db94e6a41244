import Mathlib
import Gantry.Proofs.Motion.Profile
import Gantry.Proofs.Motion.Quadratic
import Gantry.Proofs.Queue.Seamless
import Gantry.Proofs.Rail.Crossing
import Gantry.Proofs.Rail.HalfStep

/-!
Pieces: the windows of a range isolate what is monotone in the motion of a rail. Between cuts, the
slack behind the first of them left out, no segment of its channels begins, ends or changes its part,
so the rail follows one quadratic. A window is cut once more at the vertex, if that lies inside and
further from its ends than the slack, and then on either side of it the position does not turn.
-/
set_option autoImplicit false

namespace Gantry

namespace RailMotion

/-- A motion is one quadratic from a time on, and comes to a later time with it. -/
structure Follows (m : RailMotion ℝ) (f : Quadratic) (s b : ℝ) : Prop where
  position : ∀ t, s ≤ t → t < b → m.position t = f.eval t
  positionBefore : ∀ t, s < t → t ≤ b → m.positionBefore t = f.eval t

end RailMotion

noncomputable def Timeline.motion (l : Timeline ℝ) : RailMotion ℝ where
  position t := (l.positionAt t).getD 0
  positionBefore t := (l.positionBefore t).getD 0

def Timeline.Even (l : Timeline ℝ) (s b : ℝ) : Prop := ∀ m ∈ l, ∀ t ∈ m.boundaries, t ≤ s ∨ b ≤ t

theorem Segment.startTime_mem_boundaries (m : Segment ℝ) : m.startTime ∈ m.boundaries :=
  List.mem_cons_self

theorem Timeline.Even.exists_quadratic {l : Timeline ℝ} {s b : ℝ} (h : l.Even s b)
    (hs : ∀ m ∈ l, m.Sound) : ∃ f, l.motion.Follows f s b := by
  have hat : ∀ t, s ≤ t → t < b → (l.find? fun m => decide (m.startTime ≤ t)) =
      l.find? fun m => decide (m.startTime ≤ s) := by
    intro t hst htb
    refine List.find?_congr fun m hm => decide_eq_decide.2 ⟨fun hle => ?_,fun hle => hle.trans hst⟩
    exact (h m hm _ m.startTime_mem_boundaries).resolve_right fun hb => by linarith
  have hbefore : ∀ t, s < t → t ≤ b → (l.find? fun m => decide (m.startTime < t)) =
      l.find? fun m => decide (m.startTime ≤ s) := by
    intro t hst htb
    refine List.find?_congr fun m hm =>
      decide_eq_decide.2 ⟨fun hlt => ?_,fun hle => hle.trans_lt hst⟩
    exact (h m hm _ m.startTime_mem_boundaries).resolve_right fun hb => by linarith
  cases hf : l.find? fun m => decide (m.startTime ≤ s) with
  | none =>
    refine ⟨.still (l.origin.getD 0),fun t hst htb => ?_,fun t hst htb => ?_⟩
    · simp only [motion,positionAt,hat t hst htb,hf,Quadratic.eval_still]
    · simp only [motion,positionBefore,hbefore t hst htb,hf,Quadratic.eval_still]
  | some m =>
    have hm := List.mem_of_find?_eq_some hf
    obtain ⟨f,hpos⟩ := (hs m hm).exists_quadratic (h m hm)
    refine ⟨f,fun t hst htb => ?_,fun t hst htb => ?_⟩
    · simp only [motion,positionAt,hat t hst htb,hf]
      exact hpos t hst htb.le
    · simp only [motion,positionBefore,hbefore t hst htb,hf]
      exact hpos t hst.le htb

namespace Allocator
variable {a : Allocator} {s b : ℝ}

noncomputable def quadratic (a : Allocator) (f : Nat → Quadratic) : Quadratic :=
  ⟨a.combined fun i => (f i).square,a.combined fun i => (f i).linear,
    a.combined fun i => (f i).constant⟩

theorem eval_quadratic (a : Allocator) (f : Nat → Quadratic) (t : ℝ) :
    (a.quadratic f).eval t = a.combined fun i => (f i).eval t := by
  cases a <;> simp only [quadratic,Quadratic.eval,combined,terms,List.foldl_cons,List.foldl_nil] <;>
    ring

end Allocator

namespace Rail
variable {r : Rail ℝ} {q : SegmentQueue ℝ} {s b : ℝ}

noncomputable def trackIn (r : Rail ℝ) (q : SegmentQueue ℝ) : Track ℝ :=
  r.allocator.trackOf fun i => (q.channels[i]?).getD {}

theorem track_eq_trackIn (h : ∀ i ∈ r.allocator.channels, i < q.channels.length) :
    r.track q = .ok (r.trackIn q) := by
  refine track_eq fun i hi => ?_
  rw [List.getElem?_eq_getElem (h i hi),Option.getD_some]

/-- Where all its channels run evenly a rail follows one quadratic. One of which a channel never had
a segment stays where it is. -/
theorem exists_quadratic (hs : ∀ i ∈ r.allocator.channels, ∀ m ∈ q.line i, m.Sound)
    (h : ∀ i ∈ r.allocator.channels, (q.line i).Even s b) (rest : ℝ) :
    ∃ f, ((r.trackIn q).motion rest).Follows f s b := by
  by_cases hfed : r.allocator.Fed q
  · have hex : ∀ i, ∃ f, i ∈ r.allocator.channels → (q.line i).motion.Follows f s b := by
      intro i
      by_cases hi : i ∈ r.allocator.channels
      · obtain ⟨f,hf⟩ := (h i hi).exists_quadratic (hs i hi)
        exact ⟨f,fun _ => hf⟩
      · exact ⟨.still 0,fun hn => absurd hn hi⟩
    choose f hf using hex
    refine ⟨r.allocator.quadratic f,fun t hst htb => ?_,fun t hst htb => ?_⟩
    · rw [Allocator.eval_quadratic,trackIn,motion_position_of_fed hfed]
      exact Allocator.combined_congr fun i hi => (hf i hi).position t hst htb
    · rw [Allocator.eval_quadratic,trackIn,motion_positionBefore_of_fed hfed]
      exact Allocator.combined_congr fun i hi => (hf i hi).positionBefore t hst htb
  · obtain ⟨i,hi,hn⟩ : ∃ i ∈ r.allocator.channels, q.line i = [] := by
      unfold Allocator.Fed at hfed
      push Not at hfed
      exact hfed
    have hat (t : ℝ) : (r.trackIn q).positionAt t = none :=
      Allocator.positionAt_trackOf_eq_none (c := fun i => (q.channels[i]?).getD {}) hi hn
    have hbefore (t : ℝ) : (r.trackIn q).positionBefore t = none :=
      Allocator.positionBefore_trackOf_eq_none (c := fun i => (q.channels[i]?).getD {}) hi hn
    refine ⟨.still rest,fun t _ _ => ?_,fun t _ _ => ?_⟩
    · simp only [Track.motion,hat,Option.getD_none,Quadratic.eval_still]
    · simp only [Track.motion,hbefore,Option.getD_none,Quadratic.eval_still]

end Rail

namespace Rail
variable {r : Rail ℝ} {q : SegmentQueue ℝ} {start stop : ℝ}

theorem mem_touching_trackIn {m : Segment ℝ} : m ∈ (r.trackIn q).touching start stop ↔
    (∃ i ∈ r.allocator.channels, m ∈ q.line i) ∧ start < m.endTime ∧ m.startTime < stop :=
  Allocator.mem_touching

theorem exists_cut_of_mem (hs : ∀ i ∈ r.allocator.channels, ∀ m ∈ q.line i, m.Sound)
    (h : start < stop) {i : Nat} (hi : i ∈ r.allocator.channels) {m : Segment ℝ}
    (hm : m ∈ q.line i) {t : ℝ} (ht : t ∈ m.boundaries) (hlo : start < t) (hhi : t < stop) :
    ∃ u ∈ breakpoints (r.trackIn q) start stop, u ≤ t ∧ t < u + timeEpsilon := by
  have hsound := hs i hi m hm
  exact exists_cut h (mem_touching_trackIn.2 ⟨⟨i,hi,hm⟩,hlo.trans_le (hsound.le_endTime_of_mem ht),
    (hsound.startTime_le_of_mem ht).trans_lt hhi⟩) ht hlo hhi

/-- From the slack behind its start on, all channels run evenly through a window. -/
theorem even_of_window (hs : ∀ i ∈ r.allocator.channels, ∀ m ∈ q.line i, m.Sound)
    (h : start < stop) {w : ℝ × ℝ} (hw : w ∈ windows (breakpoints (r.trackIn q) start stop)) :
    ∀ i ∈ r.allocator.channels, (q.line i).Even (w.1 + timeEpsilon) w.2 := by
  intro i hi m hm t ht
  obtain ⟨-,hapart,-⟩ := breakpoints_ends (r.trackIn q) h
  obtain ⟨hfst,hsnd,-,hclear⟩ := windows_clear hapart w hw
  by_contra hin
  obtain ⟨hlo,hhi⟩ := not_or.1 hin
  have he := timeEpsilon_pos
  have hstart := (mem_breakpoints h hfst).1
  have hstop := (mem_breakpoints h hsnd).2
  obtain ⟨u,hu,hut,htu⟩ := exists_cut_of_mem hs h hi hm ht (by linarith) (by linarith)
  rcases hclear u hu with hle | hle <;> linarith

end Rail

namespace Quadratic
variable {f : Quadratic} {lo hi v : ℝ}

noncomputable def slope (f : Quadratic) (t : ℝ) : ℝ := 2 * f.square * t + f.linear

theorem sign_ofDistance_mul_self (x : ℝ) : (Direction.ofDistance x).sign * x = |x| := by
  unfold Direction.ofDistance
  split
  · rename_i h
    rw [Direction.sign,one_mul,abs_of_nonneg h]
  · rename_i h
    rw [Direction.sign,neg_one_mul,abs_of_neg (not_le.1 h)]

theorem eval_after (hv : f.slope v = 0) (x y : ℝ) :
    (Direction.ofDistance f.square).sign * f.eval y =
      (Direction.ofDistance f.square).sign * f.eval x +
        |f.square| * ((y - v) ^ 2 - (x - v) ^ 2) := by
  have hy : f.eval y = f.eval x + f.square * ((y - v) ^ 2 - (x - v) ^ 2) := by
    unfold slope at hv
    unfold eval
    linear_combination (y - x) * hv
  rw [← sign_ofDistance_mul_self,hy]
  ring

theorem eval_before (hv : f.slope v = 0) (x y : ℝ) :
    (Direction.ofDistance (-f.square)).sign * f.eval y =
      (Direction.ofDistance (-f.square)).sign * f.eval x +
        |f.square| * ((x - v) ^ 2 - (y - v) ^ 2) := by
  have hy : f.eval y = f.eval x + -f.square * ((x - v) ^ 2 - (y - v) ^ 2) := by
    unfold slope at hv
    unfold eval
    linear_combination (y - x) * hv
  rw [← abs_neg,← sign_ofDistance_mul_self,hy]
  ring

theorem along_after (hv : f.slope v = 0) (h : v ≤ lo) :
    (Direction.ofDistance f.square).Along f.eval lo hi := by
  intro x hx y _ hxy
  have hsq : (x - v) ^ 2 ≤ (y - v) ^ 2 :=
    pow_le_pow_left₀ (sub_nonneg.2 (h.trans hx.1)) (sub_le_sub_right hxy v) 2
  exact (le_add_of_nonneg_right (mul_nonneg (abs_nonneg _) (sub_nonneg.2 hsq))).trans_eq
    (eval_after hv x y).symm

theorem along_before (hv : f.slope v = 0) (h : hi ≤ v) :
    (Direction.ofDistance (-f.square)).Along f.eval lo hi := by
  intro x _ y hy hxy
  have hsq : (y - v) ^ 2 ≤ (x - v) ^ 2 := by
    rw [← neg_sub v,← neg_sub v x,neg_sq,neg_sq]
    exact pow_le_pow_left₀ (sub_nonneg.2 (hy.2.trans h)) (sub_le_sub_left hxy v) 2
  exact (le_add_of_nonneg_right (mul_nonneg (abs_nonneg _) (sub_nonneg.2 hsq))).trans_eq
    (eval_before hv x y).symm

/-- A quadratic whose vertex lies just behind the start of a range goes back by what it does in the
time up to there at most. -/
theorem back_after {s : ℝ} (hv : f.slope v = 0) (h : v ≤ lo + s) {x y : ℝ} (hx : lo ≤ x)
    (hxy : x ≤ y) : (Direction.ofDistance f.square).sign * f.eval x ≤
      (Direction.ofDistance f.square).sign * f.eval y + |f.square| * s ^ 2 := by
  have hsq : (x - v) ^ 2 ≤ (y - v) ^ 2 + s ^ 2 := by
    rcases le_total v x with hvx | hxv
    · nlinarith
    · nlinarith
  rw [eval_after hv x y]
  nlinarith [abs_nonneg f.square]

theorem back_before {s : ℝ} (hv : f.slope v = 0) (h : hi - s ≤ v) {x y : ℝ} (hy : y ≤ hi)
    (hxy : x ≤ y) : (Direction.ofDistance (-f.square)).sign * f.eval x ≤
      (Direction.ofDistance (-f.square)).sign * f.eval y + |f.square| * s ^ 2 := by
  have hsq : (y - v) ^ 2 ≤ (x - v) ^ 2 + s ^ 2 := by
    rcases le_total y v with hyv | hvy
    · nlinarith
    · nlinarith
  rw [eval_before hv x y]
  nlinarith [abs_nonneg f.square]

theorem along_of_linear (h : f.square = 0) : (Direction.ofDistance f.linear).Along f.eval lo hi := by
  intro x _ y _ hxy
  have hy : (Direction.ofDistance f.linear).sign * f.eval y =
      (Direction.ofDistance f.linear).sign * f.eval x + |f.linear| * (y - x) := by
    rw [← sign_ofDistance_mul_self,eval,eval,h]
    ring
  exact (le_add_of_nonneg_right (mul_nonneg (abs_nonneg _) (sub_nonneg.2 hxy))).trans_eq hy.symm

theorem ofDistance_neg_ne (h : f.square ≠ 0) :
    Direction.ofDistance (-f.square) ≠ Direction.ofDistance f.square := by
  unfold Direction.ofDistance
  rcases lt_or_gt_of_ne h with hlt | hlt
  · simp [hlt.le,not_le.2 hlt]
  · simp [hlt.le,not_le.2 hlt]

theorem slope_eq_zero (h : f.square ≠ 0) : f.slope v = 0 ↔ v = -f.linear / (2 * f.square) := by
  unfold slope
  rw [eq_div_iff (mul_ne_zero two_ne_zero h)]
  constructor <;> intro h <;> linarith

/-- Three samples give back the vertex, if it lies inside the window. -/
theorem turningPoint_eq_some {a b t : ℝ} (h : a < b) (f : Quadratic) :
    turningPoint a b (f.eval a) (f.eval (0.5 * (a + b))) (f.eval b) = some t ↔
      f.square ≠ 0 ∧ f.slope t = 0 ∧ a + timeEpsilon < t ∧ t < b - timeEpsilon := by
  have hh : b - a ≠ 0 := (sub_pos.2 h).ne'
  -- the samples give back the coefficients, and with them the vertex
  have hc2 : 2.0 * (f.eval a + f.eval b - 2.0 * f.eval (0.5 * (a + b))) / ((b - a) * (b - a)) =
      f.square := by
    rw [div_eq_iff (mul_ne_zero hh hh)]
    simp only [eval]
    norm_num
    ring
  have hc1 : (f.eval b - f.eval a) / (b - a) - f.square * (b - a) =
      2 * f.square * a + f.linear := by
    rw [div_sub' hh,div_eq_iff hh]
    simp only [eval]
    ring
  simp only [turningPoint,hc2,hc1,Scalar.beq_exact,Scalar.isFinite_exact,Bool.not_true,
    Bool.or_false,decide_eq_true_eq]
  by_cases hsq : f.square = 0
  · simp [hsq]
  have hv : a + -(2 * f.square * a + f.linear) / (2.0 * f.square) =
      -f.linear / (2 * f.square) := by
    norm_num
    field_simp
    ring
  rw [if_neg hsq,slope_eq_zero hsq,hv]
  constructor
  · intro ht
    split at ht
    · rename_i hin
      obtain rfl := Option.some.inj ht
      exact ⟨hsq,rfl,by linarith [hin.1],by linarith [hin.2]⟩
    · cases ht
  · rintro ⟨-,rfl,hlo,hhi⟩
    rw [if_pos ⟨by linarith,by linarith⟩]

theorem turningPoint_none {a b : ℝ} (h : a < b)
    (hn : turningPoint a b (f.eval a) (f.eval (0.5 * (a + b))) (f.eval b) = none) :
    ∃ d : Direction, (d.Along f.eval (a + timeEpsilon) b ∨ d.Along f.eval a (b - timeEpsilon)) ∧
      ∀ x y, a ≤ x → x ≤ y → y ≤ b →
        d.sign * f.eval x ≤ d.sign * f.eval y + |f.square| * timeEpsilon ^ 2 := by
  by_cases hsq : f.square = 0
  · refine ⟨_,Or.inl (along_of_linear hsq),fun x y hx hxy hy => ?_⟩
    rw [hsq,abs_zero,zero_mul,add_zero]
    exact along_of_linear hsq ⟨hx,hxy.trans hy⟩ ⟨hx.trans hxy,hy⟩ hxy
  have hv := (slope_eq_zero (v := -f.linear / (2 * f.square)) hsq).2 rfl
  rcases le_or_gt (-f.linear / (2 * f.square)) (a + timeEpsilon) with hle | hlt
  · exact ⟨_,Or.inl (along_after hv hle),fun x y hx hxy _ => back_after hv hle hx hxy⟩
  · have hge : b - timeEpsilon ≤ -f.linear / (2 * f.square) := by
      refine not_lt.1 fun hhi => ?_
      have hsome := (turningPoint_eq_some h f).2 ⟨hsq,hv,hlt,hhi⟩
      rw [hn] at hsome
      cases hsome
    exact ⟨_,Or.inr (along_before hv hge),fun x y _ hxy hy => back_before hv hge hy hxy⟩

/-- How a window of one quadratic is cut: at its vertex, if this is further than the slack from both
ends. Without such a vertex the position does not turn, the slack at one of the ends left out, and in
the whole window it goes back by no more than a turn within the slack allows. -/
structure CutAt (f : Quadratic) (a b : ℝ) (turn : Option ℝ) : Prop where
  vertex : ∀ t, turn = some t ↔ f.square ≠ 0 ∧ 2 * f.square * t + f.linear = 0 ∧
    a + timeEpsilon < t ∧ t < b - timeEpsilon
  halves : ∀ t, turn = some t →
    ∃ d e : Direction, d ≠ e ∧ d.Along f.eval a t ∧ e.Along f.eval t b
  whole : turn = none → ∃ d : Direction,
    (d.Along f.eval (a + timeEpsilon) b ∨ d.Along f.eval a (b - timeEpsilon)) ∧
    ∀ x y, a ≤ x → x ≤ y → y ≤ b →
      d.sign * f.eval x ≤ d.sign * f.eval y + |f.square| * timeEpsilon ^ 2

theorem cutAt_turningPoint {a b : ℝ} (h : a < b) (f : Quadratic) :
    f.CutAt a b (turningPoint a b (f.eval a) (f.eval (0.5 * (a + b))) (f.eval b)) where
  vertex _ := turningPoint_eq_some h f
  halves t ht := by
    obtain ⟨hsq,hv,-⟩ := (turningPoint_eq_some h f).1 ht
    exact ⟨_,_,ofDistance_neg_ne hsq,along_before hv le_rfl,along_after hv le_rfl⟩
  whole := turningPoint_none h

end Quadratic

namespace RailMotion.Follows
variable {m : RailMotion ℝ} {f : Quadratic} {a b : ℝ}

theorem turningPoint_eq (h : m.Follows f a b) (hab : a < b) :
    turningPoint a b (m.position a) (m.position (0.5 * (a + b))) (m.positionBefore b) =
      turningPoint a b (f.eval a) (f.eval (0.5 * (a + b))) (f.eval b) := by
  have hmid : a ≤ 0.5 * (a + b) ∧ 0.5 * (a + b) < b := by
    constructor <;> norm_num <;> linarith
  rw [h.position a le_rfl hab,h.position _ hmid.1 hmid.2,h.positionBefore b hab le_rfl]

end RailMotion.Follows

namespace Rail
variable {r : Rail ℝ} {q : SegmentQueue ℝ} {start stop : ℝ}

/-- How a range is cut into windows along the track of a rail. No start, end or change of part of a
segment inside it is further than the slack behind a cut, so in each window the rail follows one
quadratic from the slack behind its start on. -/
structure Isolated (r : Rail ℝ) (q : SegmentQueue ℝ) (k : Track ℝ) (start stop : ℝ) : Prop where
  first : (breakpoints k start stop).head? = some start
  apart : (breakpoints k start stop).Pairwise fun u v => u + timeEpsilon ≤ v
  last : ∃ e, (breakpoints k start stop).getLast? = some e ∧ stop - timeEpsilon < e ∧ e ≤ stop
  near : ∀ i ∈ r.allocator.channels, ∀ m ∈ q.line i, ∀ t ∈ m.boundaries, start < t → t < stop →
    ∃ u ∈ breakpoints k start stop, u ≤ t ∧ t < u + timeEpsilon
  single : ∀ w ∈ windows (breakpoints k start stop), ∀ rest, ∃ f,
    (k.motion rest).Follows f (w.1 + timeEpsilon) w.2
  covers : k.covers start stop = true ↔
    ∃ i ∈ r.allocator.channels, ∃ m ∈ q.line i, start < m.endTime ∧ m.startTime < stop

theorem isolated_trackIn (hs : ∀ i ∈ r.allocator.channels, ∀ m ∈ q.line i, m.Sound)
    (h : start < stop) : r.Isolated q (r.trackIn q) start stop := by
  obtain ⟨hfirst,hapart,hlast⟩ := breakpoints_ends (r.trackIn q) h
  refine ⟨hfirst,hapart,hlast,fun i hi m hm t => exists_cut_of_mem hs h hi hm,
    fun w hw => exists_quadratic hs (even_of_window hs h hw),?_⟩
  rw [Track.covers_eq_true]
  simp only [mem_touching_trackIn]
  constructor
  · rintro ⟨m,⟨i,hi,hm⟩,ht⟩
    exact ⟨i,hi,m,hm,ht⟩
  · rintro ⟨i,hi,m,hm,ht⟩
    exact ⟨m,⟨i,hi,hm⟩,ht⟩

/-- The windows of a range isolate monotone pieces of the motion of a rail, and a window of one
quadratic is cut once more where that turns. -/
theorem windows_isolate (hq : q.Reachable)
    (hc : ∀ i ∈ r.allocator.channels, i < q.channels.length) (h : start < stop) :
    (∃ k, r.track q = .ok k ∧ r.Isolated q k start stop) ∧
      ∀ (m : RailMotion ℝ) (f : Quadratic) (a b : ℝ), a < b → m.Follows f a b →
        f.CutAt a b (turningPoint a b (m.position a) (m.position (0.5 * (a + b)))
          (m.positionBefore b)) := by
  have hs : ∀ i ∈ r.allocator.channels, ∀ m ∈ q.line i, m.Sound := by
    intro i hi m hm
    have hi := List.getElem?_eq_getElem (hc i hi)
    rw [SegmentQueue.line_eq hi,Channel.mem_timeline] at hm
    exact Segment.sound_of_validate (hq.validate hi hm)
  refine ⟨⟨r.trackIn q,track_eq_trackIn hc,isolated_trackIn hs h⟩,fun m f a b hab hm => ?_⟩
  rw [hm.turningPoint_eq hab]
  exact Quadratic.cutAt_turningPoint hab f

/-- A range over two segments is covered, and cut where the first one comes to its cruise. A parabola
is cut at its vertex. -/
theorem windows_isolate_climbed :
    let r : Rail ℝ := ofName "r"
    let f : Quadratic := ⟨1,-2,0⟩
    SegmentQueue.climbed.Reachable ∧
      (∀ i ∈ r.allocator.channels, i < SegmentQueue.climbed.channels.length) ∧
      (∃ k, r.track SegmentQueue.climbed = .ok k ∧ k.covers 0 8 = true ∧
        ∃ u ∈ breakpoints k 0 8, u ≤ 1 ∧ 1 < u + timeEpsilon) ∧
      (RailMotion.steady f.eval).Follows f 0 4 ∧
      turningPoint 0 4 (f.eval 0) (f.eval (0.5 * (0 + 4))) (f.eval 4) = some 1 := by
  intro r f
  have hchannels : ∀ i ∈ r.allocator.channels, i < SegmentQueue.climbed.channels.length := by
    intro i hi
    obtain rfl := List.mem_singleton.1 hi
    exact Nat.one_pos
  have hclimb : SegmentQueue.climb ∈ SegmentQueue.climbed.line 0 :=
    List.mem_cons_of_mem _ List.mem_cons_self
  have hpart : (1 : ℝ) ∈ SegmentQueue.climb.boundaries := by
    simp [Segment.boundaries,SegmentQueue.climb]
  have hf : (RailMotion.steady f.eval).Follows f 0 4 := ⟨fun _ _ _ => rfl,fun _ _ _ => rfl⟩
  obtain ⟨⟨k,hk,hcut⟩,hturn⟩ :=
    windows_isolate SegmentQueue.reachable_climbed hchannels (show (0 : ℝ) < 8 by norm_num)
  refine ⟨SegmentQueue.reachable_climbed,hchannels,⟨k,hk,hcut.covers.2 ⟨0,?_,_,hclimb,?_,?_⟩,
    hcut.near 0 ?_ _ hclimb 1 hpart one_pos (by norm_num)⟩,hf,?_⟩
  · exact List.mem_cons_self
  · rw [SegmentQueue.endTime_climb]
    norm_num
  · norm_num [SegmentQueue.climb]
  · exact List.mem_cons_self
  · refine ((hturn _ f 0 4 (by norm_num) hf).vertex 1).2 ?_
    rw [timeEpsilon_exact]
    norm_num [f]

end Rail

end Gantry
