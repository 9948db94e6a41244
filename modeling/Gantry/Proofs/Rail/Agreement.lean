import Mathlib
import Gantry.Proofs.Rail.Flush

set_option autoImplicit false

namespace Gantry

/-- Times from `s` on are not left by halving, nor by going on by more than the slack. -/
structure Onward {α : Type} [Scalar α] (s : α) : Prop where
  mid {a b : α} : s ≤ a → s ≤ b → s ≤ 0.5 * (a + b)
  on {a d : α} : s ≤ a → timeEpsilon < d → s ≤ a + d

theorem onward_exact (s : ℝ) : Onward s where
  mid ha hb := by norm_num; linarith
  on ha hd := by have := timeEpsilon_pos; linarith

theorem onward_of_nonneg {α : Type} [Scalar α] [LawfulScalar α] {s : α} (h : 0 ≤ s) : Onward s where
  mid ha hb := LawfulScalar.le_mid h ha hb
  on ha hd := LawfulScalar.le_trans ha <| LawfulScalar.le_add (Or.inr (LawfulScalar.le_trans h ha))
    (LawfulScalar.le_trans LawfulScalar.slack (LawfulScalar.le_of_lt hd))

section Steps
variable {α : Type} [Scalar α] {p p' : α → α} {s lo hi : α}

theorem bisect_congr (hs : Onward s) (h : ∀ t, s ≤ t → p t = p' t) (hlo : s ≤ lo) (hhi : s ≤ hi)
    (target : α) (d : Direction) (n : Nat) :
    bisect p target d n lo hi = bisect p' target d n lo hi := by
  induction n generalizing lo hi with
  | zero => rfl
  | succ n ih =>
    have hmid := hs.mid hlo hhi
    simp only [bisect,h _ hmid,ih hmid hhi,ih hlo hmid]

theorem stepWhile_congr (hs : Onward s) (h : ∀ t, s ≤ t → p t = p' t) (hlo : s ≤ lo)
    (hhi : s ≤ hi) (posHi : α) (d : Direction) (fuel : Nat) (st : Stepper α) :
    st.stepWhile p lo hi posHi d fuel = st.stepWhile p' lo hi posHi d fuel := by
  induction fuel generalizing st with
  | zero => rfl
  | succ n ih => simp only [Stepper.stepWhile,findCrossing,bisect_congr hs h hlo hhi,ih]

theorem stepMonotone_congr (hs : Onward s) (h : ∀ t, s ≤ t → p t = p' t) (hlo : s ≤ lo)
    (hhi : s ≤ hi) (posLo posHi : α) (ss : List (Stepper α)) :
    stepMonotone p lo hi posLo posHi ss = stepMonotone p' lo hi posLo posHi ss := by
  unfold stepMonotone
  cases Direction.between? posLo posHi with
  | none => rfl
  | some d =>
    refine List.map_congr_left fun st _ => ?_
    simp only [Stepper.follow,stepWhile_congr hs h hlo hhi]

theorem turningPoint_eq_some {a b posA posM posB t : α}
    (h : turningPoint a b posA posM posB = some t) :
    ∃ d, t = a + d ∧ timeEpsilon < d ∧ d < (b - a) - timeEpsilon := by
  simp only [turningPoint] at h
  split at h
  · cases h
  · split at h
    · rename_i hd
      exact ⟨_,(Option.some.inj h).symm,hd⟩
    · cases h

theorem turningPoint_mem {a b posA posM posB t : ℝ} (h : turningPoint a b posA posM posB = some t) :
    a + timeEpsilon < t ∧ t < b - timeEpsilon := by
  obtain ⟨d,rfl,hd,hb⟩ := turningPoint_eq_some h
  constructor <;> linarith

end Steps

section Turning
variable {α : Type} [Scalar α] {m : RailMotion α} {a b t : α} {ss : List (Stepper α)}

theorem stepWindow_of_none
    (h : turningPoint a b (m.position a) (m.position (0.5 * (a + b))) (m.positionBefore b) = none) :
    stepWindow m ss a b =
      stepMonotone m.position a b (m.position a) (m.positionBefore b) ss := by
  simp only [stepWindow,h]

theorem stepWindow_of_some (h : turningPoint a b (m.position a) (m.position (0.5 * (a + b)))
      (m.positionBefore b) = some t) :
    stepWindow m ss a b = stepMonotone m.position t b (m.position t) (m.positionBefore b)
      (stepMonotone m.position a t (m.position a) (m.position t) ss) := by
  simp only [stepWindow,h]

end Turning

structure RailMotion.AgreeFrom {α : Type} [Scalar α] (s : α) (m m' : RailMotion α) : Prop where
  position : ∀ t, s ≤ t → m.position t = m'.position t
  positionBefore : ∀ t, s < t → m.positionBefore t = m'.positionBefore t

section Agree
variable {α : Type} [Scalar α] [LawfulScalar α] {m m' : RailMotion α} {s a b : α}

theorem stepWindow_congr (hs : Onward s) (h : m.AgreeFrom s m') (ha : s ≤ a) (hb : s < b)
    (ss : List (Stepper α)) : stepWindow m ss a b = stepWindow m' ss a b := by
  have hsb := LawfulScalar.le_of_lt hb
  have hpa := h.position a ha
  have hpb := h.positionBefore b hb
  have hpm := h.position _ (hs.mid ha hsb)
  cases ht : turningPoint a b (m.position a) (m.position (0.5 * (a + b)))
      (m.positionBefore b) with
  | none =>
    have ht' := ht
    rw [hpa,hpb,hpm] at ht'
    rw [stepWindow_of_none ht,stepWindow_of_none ht',hpa,hpb,
      stepMonotone_congr hs h.position ha hsb]
  | some t =>
    have ht' := ht
    rw [hpa,hpb,hpm] at ht'
    obtain ⟨d,rfl,hd,-⟩ := turningPoint_eq_some ht
    have hst := hs.on ha hd
    rw [stepWindow_of_some ht,stepWindow_of_some ht',hpa,hpb,h.position _ hst,
      stepMonotone_congr hs h.position ha hst,stepMonotone_congr hs h.position hst hsb]

theorem stepWindows_agree (hs : Onward s) (h : m.AgreeFrom s m') {times : List α}
    (hw : ∀ w ∈ windows times, s ≤ w.1 ∧ s < w.2) (ss : List (Stepper α)) :
    stepWindows m times ss = stepWindows m' times ss := by
  refine List.foldl_ext _ _ _ fun ss w hmem => ?_
  exact stepWindow_congr hs h (hw w hmem).1 (hw w hmem).2 ss

theorem windows_of_cut {us : List α} (h : ∀ t ∈ us, s < t) {w : α × α}
    (hw : w ∈ windows (s :: us)) : s ≤ w.1 ∧ s < w.2 := by
  obtain ⟨h₁,h₂⟩ := List.of_mem_zip hw
  have hlt := h _ h₂
  refine ⟨?_,hlt⟩
  rcases List.mem_cons.1 h₁ with h₁ | h₁
  · rw [h₁]
    exact LawfulScalar.le_left (LawfulScalar.le_of_lt hlt)
  · exact LawfulScalar.le_of_lt (h _ h₁)

end Agree

section Windows
variable {m m' : RailMotion ℝ} {s a b : ℝ}

theorem stepWindow_of_still (hm : m.position (0.5 * (a + b)) = m.position a)
    (hb : m.positionBefore b = m.position a) (ss : List (Stepper ℝ)) :
    stepWindow m ss a b = ss := by
  have ht : turningPoint a b (m.position a) (m.position a) (m.position a) = none := by
    have hc : (2.0 : ℝ) * (m.position a + m.position a - 2.0 * m.position a) = 0 := by
      norm_num; ring
    simp [turningPoint,hc]
  rw [stepWindow_of_none (by rw [hm,hb]; exact ht),hb]
  simp [stepMonotone,Direction.between?]

/-- A motion that has come to rest soon enough steps straight to where it rests. -/
theorem stepWindow_of_early {p : ℝ} (hp : ∀ t, a + timeEpsilon ≤ t → m.position t = p)
    (hb : m.positionBefore b = p) (ss : List (Stepper ℝ)) :
    ∃ t, stepWindow m ss a b = stepMonotone m.position a t (m.position a) p ss := by
  cases ht : turningPoint a b (m.position a) (m.position (0.5 * (a + b)))
      (m.positionBefore b) with
  | none => exact ⟨b,by rw [stepWindow_of_none ht,hb]⟩
  | some t =>
    refine ⟨t,?_⟩
    rw [stepWindow_of_some ht,hb,hp t (turningPoint_mem ht).1.le]
    simp [stepMonotone,Direction.between?]

theorem stepWindows_congr (h : m.AgreeFrom s m') {times : List ℝ}
    (hw : ∀ w ∈ windows times, s ≤ w.1 ∧ w.1 < w.2) (ss : List (Stepper ℝ)) :
    stepWindows m times ss = stepWindows m' times ss :=
  stepWindows_agree (onward_exact s) h (fun w hm => ⟨(hw w hm).1,(hw w hm).1.trans_lt (hw w hm).2⟩)
    ss

theorem stepWindows_of_still {times : List ℝ} (h : ∀ w ∈ windows times,
      m.position (0.5 * (w.1 + w.2)) = m.position w.1 ∧ m.positionBefore w.2 = m.position w.1)
    (ss : List (Stepper ℝ)) : stepWindows m times ss = ss := by
  unfold stepWindows
  generalize windows times = ws at h
  induction ws with
  | nil => rfl
  | cons w ws ih =>
    obtain ⟨hm,hb⟩ := h w List.mem_cons_self
    have hw : stepWindow m ss w.1 w.2 = ss := stepWindow_of_still hm hb ss
    simp only [List.foldl_cons,hw]
    exact ih fun v hv => h v (List.mem_cons_of_mem w hv)

theorem windows_ascending {ts : List ℝ} (h : (s :: ts).Pairwise (· < ·)) {w : ℝ × ℝ}
    (hw : w ∈ windows (s :: ts)) : s ≤ w.1 ∧ w.1 < w.2 := by
  induction ts generalizing s with
  | nil => simp [windows] at hw
  | cons t ts ih =>
    obtain ⟨hs,ht⟩ := List.pairwise_cons.1 h
    have hst := hs t List.mem_cons_self
    rw [windows_cons_cons,List.mem_cons] at hw
    rcases hw with rfl | hw
    · exact ⟨le_rfl,hst⟩
    · obtain ⟨h1,h2⟩ := ih ht hw
      exact ⟨hst.le.trans h1,h2⟩

theorem windows_spaced {ts : List ℝ} (h : (s :: ts).Pairwise (· ≤ ·)) {w : ℝ × ℝ}
    (hw : w ∈ windows (spaced s ts)) : s ≤ w.1 ∧ w.1 < w.2 := by
  have he := timeEpsilon_pos
  have hp := spaced_apart h
  obtain ⟨us,hu⟩ := spaced_head s ts
  rw [hu] at hw hp
  exact windows_ascending (hp.imp fun {a b} hab => by linarith) hw

theorem windows_spaced_ne_nil {ts : List ℝ} {t : ℝ} (h : (s :: ts).Pairwise (· ≤ ·)) (ht : t ∈ ts)
    (hs : s + timeEpsilon ≤ t) : windows (spaced s ts) ≠ [] := by
  obtain ⟨b,hb,-,htb⟩ := exists_mem_spaced h (List.mem_cons_of_mem s ht)
  obtain ⟨us,hu⟩ := spaced_head s ts
  rw [hu] at hb ⊢
  cases us with
  | nil =>
    rw [List.mem_singleton] at hb
    subst hb
    linarith
  | cons u us => exact List.cons_ne_nil _ _

end Windows

theorem stepWindows_cons (m : RailMotion ℝ) (a b : ℝ) (ts : List ℝ) (ss : List (Stepper ℝ)) :
    stepWindows m (a :: b :: ts) ss = stepWindows m (b :: ts) (stepWindow m ss a b) := rfl

namespace Rail
variable {α : Type} [Scalar α] {r : Rail α} {k k' : Track α} {start start' upto : α}

def lastPosition (m : RailMotion α) (times : List α) (start : α) : α :=
  (windows times).getLast?.elim start fun w => m.positionBefore w.2

theorem advance_eq : r.advance k start upto =
    let times := breakpoints k r.lastFlushTime upto
    let stepped := { r with
      steppers := stepWindows (k.motion start) times r.steppers
      lastFlushTime := upto }
    if k.covers r.lastFlushTime upto then
      stepped.noteCommanded (lastPosition (k.motion start) times start)
    else stepped := by
  simp only [advance,lastPosition]
  cases (windows (breakpoints k r.lastFlushTime upto)).getLast? <;> rfl

theorem advance_steps :
    (r.advance k start upto).steppers.map (fun s => (s.counter,s.sink.events)) =
      (stepWindows (k.motion start) (breakpoints k r.lastFlushTime upto) r.steppers).map
        fun s => (s.counter,s.sink.events) := by
  rw [advance_eq]
  split
  · simp [noteCommanded]
  · rfl

theorem advance_congr (ht : k.touching r.lastFlushTime upto = k'.touching r.lastFlushTime upto)
    (hs : stepWindows (k.motion start) (breakpoints k r.lastFlushTime upto) r.steppers =
      stepWindows (k'.motion start') (breakpoints k r.lastFlushTime upto) r.steppers)
    (hl : k.covers r.lastFlushTime upto = true →
      lastPosition (k.motion start) (breakpoints k r.lastFlushTime upto) start =
        lastPosition (k'.motion start') (breakpoints k r.lastFlushTime upto) start') :
    r.advance k start upto = r.advance k' start' upto := by
  have hb : breakpoints k r.lastFlushTime upto = breakpoints k' r.lastFlushTime upto := by
    simp only [breakpoints,ht]
  have hc : k.covers r.lastFlushTime upto = k'.covers r.lastFlushTime upto := by
    simp only [Track.covers,ht]
  rw [hc,hb] at hl
  rw [hb] at hs
  simp only [advance_eq,hs,hb,hc]
  split
  · rename_i hcov
    rw [hl hcov]
  · rfl

end Rail

end Gantry
