import Mathlib
import Gantry.Proofs.Motion.Profile
import Gantry.Proofs.Rail.Agreement
import Gantry.Proofs.Rail.Tracking

set_option autoImplicit false

namespace Gantry

def RailMotion.steady (p : ℝ → ℝ) : RailMotion ℝ := ⟨p,p⟩

section Window
variable {m : RailMotion ℝ} {d : Direction} {v a b start stop : ℝ} {p : ℝ → ℝ}
  {ss : List (Stepper ℝ)}

theorem stepWindow_near (h : ∀ s ∈ ss, s.Near (m.position a)) :
    ∀ s ∈ stepWindow m ss a b, s.Near (m.positionBefore b) := by
  cases ht : turningPoint a b (m.position a) (m.position (0.5 * (a + b)))
      (m.positionBefore b) with
  | none => rw [stepWindow_of_none ht]; exact stepMonotone_near h
  | some t => rw [stepWindow_of_some ht]; exact stepMonotone_near (stepMonotone_near h)

/-- No motor goes past the end of a window that nowhere leads past it, a jump at its start apart. -/
theorem stepWindow_behind (h : ∀ s ∈ ss, s.Behind d (m.positionBefore b))
    (hp : ∀ t, a < t → t < b →
      m.position t = m.position a ∨ 0 ≤ d.sign * (m.positionBefore b - m.position t)) :
    ∀ s ∈ stepWindow m ss a b, s.Behind d (m.positionBefore b) := by
  have he := timeEpsilon_pos
  have hb : 0 ≤ d.sign * (m.positionBefore b - m.positionBefore b) := by simp
  cases ht : turningPoint a b (m.position a) (m.position (0.5 * (a + b)))
      (m.positionBefore b) with
  | none => rw [stepWindow_of_none ht]; exact stepMonotone_behind h hb
  | some t =>
    obtain ⟨hat,htb⟩ := turningPoint_mem ht
    rw [stepWindow_of_some ht]
    refine stepMonotone_behind ?_ hb
    rcases hp t (by linarith) (by linarith) with hs | hs
    · rw [hs]
      simpa [stepMonotone,Direction.between?] using h
    · exact stepMonotone_behind h hs

/-- A motor that is not past the start of a window is led to its end if the rail goes on. -/
theorem stepWindow_catch (hg : Glide d v p start stop) (hs : start ≤ a) (hab : a < b)
    (hb : b ≤ stop) (h : ∀ s ∈ ss, s.Behind d (p a)) :
    ∀ s ∈ stepWindow (.steady p) ss a b, s.Near (p b) := by
  have he := timeEpsilon_pos
  cases ht : turningPoint a b (p a) (p (0.5 * (a + b))) (p b) with
  | none =>
    rw [stepWindow_of_none ht]
    exact stepMonotone_catch (fun s hm => (h s hm).forward (hg.forward a b hab.le))
      (hg.strict a b hs hab hb)
  | some t =>
    obtain ⟨hat,htb⟩ := turningPoint_mem ht
    rw [stepWindow_of_some ht]
    refine stepMonotone_near (stepMonotone_catch (d := d) (fun s hm => ?_) ?_)
    · exact (h s hm).forward (hg.forward a t (by linarith))
    · exact hg.strict a t hs (by linarith) (by linarith)

/-- A window whose turn is found leads the motors to its end, whatever jump it begins with. -/
theorem stepWindow_turned {t : ℝ} (ht : turningPoint a b (m.position a)
      (m.position (0.5 * (a + b))) (m.positionBefore b) = some t)
    (hp : 0 < d.sign * (m.positionBefore b - m.position t))
    (h : ∀ s ∈ ss, s.Behind d (m.positionBefore b)) :
    ∀ s ∈ stepWindow m ss a b, s.Near (m.positionBefore b) := by
  rw [stepWindow_of_some ht]
  exact stepMonotone_catch (stepMonotone_behind h hp.le) hp

end Window

/-- The turn of a parabola through a point beyond the end of a window is found, if the window is
long and the position went evenly through its second half. -/
theorem turningPoint_of_beyond {d : Direction} {v a b o posM posB : ℝ}
    (h : a + 4 * timeEpsilon ≤ b) (hv : 0 < v) (ha : 0 ≤ d.sign * (o - posB))
    (hm : d.sign * (posB - posM) = v * ((b - a) / 2)) :
    ∃ t, turningPoint a b o posM posB = some t ∧ (a + b) / 2 ≤ t ∧ t < b := by
  have he := timeEpsilon_pos
  have hh : 0 < b - a := by linarith
  have hsign := d.sign_mul_sign
  set w := d.sign * (o - posB) with hw
  set q := w + v * (b - a) with hq
  have hqpos : 0 < q := by have := mul_pos hv hh; linarith
  have hd : (d.sign : ℝ) ≠ 0 := by cases d <;> simp [Direction.sign]
  have hc2 : 2.0 * (o + posB - 2.0 * posM) / ((b - a) * (b - a)) =
      2 * (d.sign * q) / ((b - a) * (b - a)) := by
    have : o + posB - 2 * posM = d.sign * q := by
      rw [hq,hw]
      linear_combination (2 * posM - o - posB) * hsign + 2 * d.sign * hm
    norm_num [this]
  have hs : -((posB - o) / (b - a) - 2 * (d.sign * q) / ((b - a) * (b - a)) * (b - a)) /
      (2.0 * (2 * (d.sign * q) / ((b - a) * (b - a)))) = (b - a) / 2 + w * (b - a) / (4 * q) := by
    have hpos : posB - o = -(d.sign * w) := by
      rw [hw]; linear_combination (o - posB) * hsign
    rw [hpos]
    norm_num
    field_simp
    ring
  have hlt : w * (b - a) / (4 * q) < (b - a) / 4 := by
    rw [div_lt_div_iff₀ (by positivity) (by norm_num)]
    have := mul_pos hv hh
    nlinarith
  have hnn : 0 ≤ w * (b - a) / (4 * q) := by positivity
  refine ⟨a + ((b - a) / 2 + w * (b - a) / (4 * q)),?_,by linarith,by linarith⟩
  have hne : 2 * (d.sign * q) / ((b - a) * (b - a)) ≠ 0 := by positivity
  simp only [turningPoint,hc2,hs,Scalar.beq_exact,hne,decide_false,Scalar.isFinite_exact]
  rw [if_neg (by simp),if_pos ⟨by linarith,by linarith⟩]

/-- No turn is found in a short window that begins with a jump: neither if it rests up to its middle,
nor if it comes from far enough away. -/
theorem turningPoint_of_short {a h o posM posB : ℝ} (hh : 0 < h) (hs : h < 4 * timeEpsilon)
    (hb : posB < o) (hm : posM = o ∨ 0 ≤ posM ∧ posM ≤ posB ∧
      (4 * timeEpsilon - h) * posB + 2 * h * posB ≤ (4 * timeEpsilon - h) * o) :
    turningPoint a (a + h) o posM posB = none := by
  have hne : 0 < o - posB := by linarith
  unfold turningPoint
  simp only [add_sub_cancel_left,Scalar.beq_exact,Scalar.isFinite_exact,Bool.not_true,Bool.or_false,
    decide_eq_true_eq]
  split
  · rfl
  refine if_neg fun ⟨hlo,hhi⟩ => ?_
  -- the vertex is at a quarter of the window, or within the slack of its end
  rcases hm with rfl | ⟨h0,hle,hfar⟩
  · have hval : -((posB - posM) / h - 2.0 * (posM + posB - 2.0 * posM) / (h * h) * h) /
        (2.0 * (2.0 * (posM + posB - 2.0 * posM) / (h * h))) = h / 4 := by
      norm_num
      have hd : posM + posB - 2 * posM ≠ 0 := by linarith
      field_simp
      ring
    rw [hval] at hlo
    linarith
  · have hden : 0 < o + posB - 2 * posM := by linarith
    have hval : -((posB - o) / h - 2.0 * (o + posB - 2.0 * posM) / (h * h) * h) /
        (2.0 * (2.0 * (o + posB - 2.0 * posM) / (h * h))) =
          h - h * (o + 3 * posB - 4 * posM) / (4 * (o + posB - 2 * posM)) := by
      norm_num
      field_simp
      ring
    rw [hval] at hhi
    have hlt : timeEpsilon < h * (o + 3 * posB - 4 * posM) / (4 * (o + posB - 2 * posM)) := by
      linarith
    rw [lt_div_iff₀ (by linarith)] at hlt
    have hn : 0 ≤ h * posM := mul_nonneg hh.le h0
    have hr : 0 ≤ (4 * timeEpsilon - h) * (posB - posM) :=
      mul_nonneg (by linarith) (by linarith)
    linarith

/-- A long window that begins with a jump leads the motors to its end, if the position went evenly
through its second half. -/
theorem stepWindow_of_long {m : RailMotion ℝ} {d : Direction} {v a b s stop o : ℝ} {p : ℝ → ℝ}
    {ss : List (Stepper ℝ)} (hm : m.AgreeFrom s (.steady p)) (hg : Glide d v p s stop)
    (hv : 0 < v) (ho : ∀ t, a ≤ t → t < s → m.position t = o) (has : a < s)
    (hs : s ≤ (a + b) / 2) (hl : a + 4 * timeEpsilon ≤ b) (hb : b ≤ stop)
    (hh : d.sign * (p b - p ((a + b) / 2)) = v * ((b - a) / 2))
    (h : ∀ s ∈ ss, s.Behind d (p b)) : ∀ s ∈ stepWindow m ss a b, s.Near (p b) := by
  have he := timeEpsilon_pos
  have hpa := ho a le_rfl has
  have hpb : m.positionBefore b = p b := hm.positionBefore b (by linarith)
  have hpm : m.position (0.5 * (a + b)) = p ((a + b) / 2) := by
    rw [show (0.5 : ℝ) * (a + b) = (a + b) / 2 by norm_num; ring]
    exact hm.position _ hs
  -- a turn is behind the jump or not; either way the rest of the window leads to its end
  have hturned : ∀ t, turningPoint a b o (p ((a + b) / 2)) (p b) = some t →
      0 < d.sign * (p b - m.position t) → ∀ s ∈ stepWindow m ss a b, s.Near (p b) := by
    intro t ht hp
    rw [← hpb] at h hp ⊢
    exact stepWindow_turned (by rw [hpa,hpm,hpb]; exact ht) hp h
  by_cases hj : 0 < d.sign * (p b - o)
  · cases ht : turningPoint a b o (p ((a + b) / 2)) (p b) with
    | none =>
      rw [stepWindow_of_none (by rw [hpa,hpm,hpb]; exact ht),hpa,hpb]
      exact stepMonotone_catch h hj
    | some t =>
      obtain ⟨hat,htb⟩ := turningPoint_mem ht
      refine hturned t ht ?_
      rcases lt_or_ge t s with hts | hts
      · rw [ho t (by linarith) hts]; exact hj
      · rw [hm.position t hts]
        exact hg.strict t b hts (by linarith) hb
  · obtain ⟨t,ht,hmt,htb⟩ := turningPoint_of_beyond (d := d) (o := o) hl hv (by linarith) hh
    refine hturned t ht ?_
    rw [hm.position t (hs.trans hmt)]
    exact hg.strict t b (hs.trans hmt) htb hb

section Windows
variable {d : Direction} {v a t start stop : ℝ} {p : ℝ → ℝ} {ss : List (Stepper ℝ)}

theorem stepWindows_near {m : RailMotion ℝ} {us : List ℝ}
    (hm : ∀ u ∈ us, m.positionBefore u = m.position u) (h : ∀ s ∈ ss, s.Near (m.position a)) :
    ∀ s ∈ stepWindows m (a :: us ++ [t]) ss, s.Near (m.positionBefore t) := by
  induction us generalizing a ss with
  | nil => exact stepWindow_near h
  | cons u us ih =>
    obtain ⟨hu,hus⟩ := List.forall_mem_cons.1 hm
    exact ih hus (hu ▸ stepWindow_near h)

theorem stepWindows_catch {us : List ℝ} (hg : Glide d v p start stop)
    (hs : start ≤ a) (ht : t ≤ stop) (hp : (a :: us ++ [t]).Pairwise (· < ·))
    (h : ∀ s ∈ ss, s.Behind d (p a)) :
    ∀ s ∈ stepWindows (.steady p) (a :: us ++ [t]) ss, s.Near (p t) := by
  obtain ⟨ha,hp⟩ := List.pairwise_cons.1 hp
  cases us with
  | nil => exact stepWindow_catch hg hs (ha t (by simp)) ht h
  | cons u us =>
    have hut : u < t := (List.pairwise_cons.1 hp).1 t (by simp)
    exact stepWindows_near (m := .steady p) (a := u) (fun _ _ => rfl)
      (stepWindow_catch hg hs (ha u (by simp)) (hut.le.trans ht) h)

end Windows

namespace Rail
variable {β : Type} {f : Stepper ℝ → β} {r r' : Rail ℝ} {q : Option (SegmentQueue ℝ)} {upto : ℝ}

theorem generateSteps_kept (hf : ∀ s t d, f (s.step t d) = f s)
    (hc : ∀ (s : Stepper ℝ) pos, f { s with commandedPos := pos } = f s)
    (h : r.generateSteps q upto = .ok r') : r'.steppers.map f = r.steppers.map f := by
  unfold generateSteps at h
  split at h
  · cases h
  split at h
  · rw [← Except.ok.inj h]
  obtain ⟨k,-,h⟩ := Results.bind_eq_ok.1 h
  split at h
  · rw [← Except.ok.inj h,advance_eq]
    dsimp only
    split
    · simp only [noteCommanded,List.map_map,Function.comp_def,hc]
      exact stepWindows_kept hf _ _ _
    · exact stepWindows_kept hf _ _ _
  · rw [← Except.ok.inj h]

end Rail

end Gantry
