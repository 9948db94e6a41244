import Mathlib
import Gantry.Proofs.Rail.CatchUp
import Gantry.Proofs.Rail.Renewal

set_option autoImplicit false

namespace Gantry

structure Segment.Course (m : Segment ℝ) (d : Direction) (v : ℝ) : Prop where
  sound : m.Sound
  speed : 0 < v
  glide : Glide d v m.positionAt m.startTime m.endTime
  equal : m.decelT = m.accelT
  even : ∀ t, m.startTime + m.accelT ≤ t → t ≤ m.startTime + m.accelT + m.cruiseT →
    d.sign * (m.positionAt (m.startTime + m.accelT + m.cruiseT) - m.positionAt t) =
      v * (m.startTime + m.accelT + m.cruiseT - t)

theorem Profile.Planned.course {p : Profile ℝ} {distance speed accel t₀ start : ℝ}
    (h : p.Planned distance speed accel) (ha : 0 ≤ accel) :
    (p.segment t₀ start accel).Course p.direction p.cruiseV where
  sound := h.sound
  speed := h.cruiseV_pos
  glide := by rw [segment_endTime]; exact h.glide ha
  equal := rfl
  even _ := h.even

def Rail.Settled (r : Rail ℝ) : Prop :=
  ∀ s ∈ r.steppers, s.Near r.commandedPos ∧ s.commandedPos = r.commandedPos

def Rail.Arrived (r : Rail ℝ) (m : Segment ℝ) : Prop :=
  r.Settled ∧ ∃ t, t ≤ m.endTime ∧ m.endTime < t + timeEpsilon ∧ r.commandedPos = m.positionAt t

theorem Rail.Arrived.abs_sub_le {r : Rail ℝ} {m : Segment ℝ} {d : Direction} {v : ℝ}
    (h : r.Arrived m) (hm : m.Course d v) :
    |r.commandedPos - m.endPosition| ≤ v * timeEpsilon := by
  obtain ⟨-,t,ht,hlt,hp⟩ := h
  have hf := hm.glide.forward t m.endTime ht
  have hb := hm.glide.bounded t m.endTime ht
  have hv : v * (m.endTime - t) ≤ v * timeEpsilon :=
    mul_le_mul_of_nonneg_left (by linarith) hm.speed.le
  rw [hp,abs_sub_comm,Segment.endPosition,abs_le]
  cases d <;> simp only [Direction.sign] at hf hb <;> constructor <;> linarith

namespace Rail
variable {r : Rail ℝ} {k : Track ℝ} {m : Segment ℝ} {d : Direction} {v start upto : ℝ}

theorem settled_advance (pos : ℝ) (hc : k.covers r.lastFlushTime upto = true)
    (hl : lastPosition (k.motion start) (breakpoints k r.lastFlushTime upto) start = pos)
    (hn : ∀ s ∈ stepWindows (k.motion start) (breakpoints k r.lastFlushTime upto) r.steppers,
      s.Near pos) :
    (r.advance k start upto).Settled ∧ (r.advance k start upto).commandedPos = pos := by
  rw [advance_eq]
  simp only [hc,if_true,hl]
  refine ⟨fun s hs => ?_,rfl⟩
  obtain ⟨s',hs',rfl⟩ := List.mem_map.1 hs
  have hs' := hn s' hs'
  exact ⟨⟨hs'.stepDistance,hs'.le⟩,rfl⟩

theorem lastPosition_append (m : RailMotion ℝ) (a : ℝ) (us : List ℝ) (t start : ℝ) :
    lastPosition m (a :: us ++ [t]) start = m.positionBefore t := by
  obtain ⟨b,hb⟩ := getLast?_windows a us t
  simp only [lastPosition,hb,Option.elim_some]

theorem arrived_of_steady (hf : r.lastFlushTime < m.endTime)
    (hs : r.Settled) (hp : r.commandedPos = m.positionAt r.lastFlushTime)
    (ha : (k.motion start).AgreeFrom r.lastFlushTime (.steady m.positionAt))
    (hst : start = m.positionAt r.lastFlushTime)
    (hc : k.covers r.lastFlushTime m.endTime = true) :
    (r.advance k start m.endTime).Arrived m := by
  have hnear : ∀ s ∈ r.steppers, s.Near (m.positionAt r.lastFlushTime) := fun s hmem =>
    hp ▸ (hs s hmem).1
  rcases breakpoints_cases (k := k) hf with ⟨hb,hlt⟩ | ⟨us,t,hb,hpw,ht,hlt⟩
  · obtain ⟨h1,h2⟩ := settled_advance (m.positionAt r.lastFlushTime) hc
      (by rw [hb]; exact hst) (by rw [hb]; exact hnear)
    exact ⟨h1,r.lastFlushTime,hf.le,hlt,h2⟩
  · have hw : ∀ w ∈ windows (r.lastFlushTime :: us ++ [t]), r.lastFlushTime ≤ w.1 ∧ w.1 < w.2 := by
      rw [← hb,breakpoints_eq hf]
      exact fun w hw => windows_spaced (sorted_inside hf) hw
    have hft : r.lastFlushTime < t := by
      have := (List.pairwise_cons.1 hpw).1 t (by simp)
      linarith [timeEpsilon_pos]
    obtain ⟨h1,h2⟩ := settled_advance (m.positionAt t) hc
      (by rw [hb,lastPosition_append]; exact ha.positionBefore t hft)
      (by rw [hb,stepWindows_congr ha hw]; exact stepWindows_near (fun _ _ => rfl) hnear)
    exact ⟨h1,t,ht,hlt,h2⟩

section Jump
variable {c : Channel ℝ}

theorem agreeFrom_cartesian (start : ℝ) {p : ℝ → ℝ} {s : ℝ}
    (h : ∀ t, s ≤ t → c.timeline.positionAt t = some (p t))
    (hb : ∀ t, s < t → c.timeline.positionBefore t = some (p t)) :
    (((Allocator.cartesian .x).trackOf fun _ => c).motion start).AgreeFrom s (.steady p) := by
  constructor
  · intro t ht
    rw [Allocator.motion_position (p := fun _ => p t) fun _ _ => h t ht,
      Allocator.combined_cartesian]
    rfl
  · intro t ht
    rw [Allocator.motion_positionBefore (p := fun _ => p t) fun _ _ => hb t ht,
      Allocator.combined_cartesian]
    rfl

theorem agreeFrom_alone (start : ℝ) (hs : m.Sound) (hl : c.timeline = [m]) (s : ℝ) :
    (((Allocator.cartesian .x).trackOf fun _ => c).motion start).AgreeFrom s
      (.steady m.positionAt) := by
  refine agreeFrom_cartesian start (fun t _ => ?_) (fun t _ => ?_) <;> rw [hl]
  · rcases le_or_gt m.startTime t with ht | ht
    · rw [Timeline.positionAt_cons_of_le ht]
    · rw [Timeline.positionAt_single_of_lt ht,hs.positionAt_of_le_startTime ht.le]
  · rcases lt_or_ge m.startTime t with ht | ht
    · rw [Timeline.positionBefore_cons_of_lt ht]
    · rw [Timeline.positionBefore_single_of_le ht,hs.positionAt_of_le_startTime ht]

theorem agreeFrom_of_rest (start : ℝ) {l : Timeline ℝ} {f : ℝ} (hs : m.Sound)
    (hl : c.timeline = m :: l) (hls : ∀ n ∈ l, n.Sound ∧ n.endTime ≤ f)
    (hr : ∀ o ∈ l.rest, o = m.startPos) :
    (((Allocator.cartesian .x).trackOf fun _ => c).motion start).AgreeFrom f
      (.steady m.positionAt) := by
  cases hrest : l.rest with
  | none =>
    have hnil : l = [] := by cases l with
      | nil => rfl
      | cons n l => cases hrest
    exact agreeFrom_alone start hs (hl.trans (hnil ▸ rfl)) f
  | some o =>
    have ho : o = m.startPos := hr o hrest
    refine agreeFrom_cartesian start (fun t ht => ?_) (fun t ht => ?_) <;> rw [hl]
    · rcases le_or_gt m.startTime t with hm | hm
      · rw [Timeline.positionAt_cons_of_le hm]
      · rw [Timeline.positionAt_cons_of_rest hm (fun n hn => ⟨(hls n hn).1,(hls n hn).2.trans ht⟩)
          hrest,hs.positionAt_of_le_startTime hm.le,ho]
    · rcases lt_or_ge m.startTime t with hm | hm
      · rw [Timeline.positionBefore_cons_of_lt hm]
      · rw [Timeline.positionBefore_cons_of_rest hm
          (fun n hn => ⟨(hls n hn).1,(hls n hn).2.trans_lt ht⟩) hrest,
          hs.positionAt_of_le_startTime hm,ho]

theorem agreeFrom_jump (start : ℝ) {f : ℝ} (h : Timeline.Renewed f m.startTime c.timeline [m])
    (hs : m.Sound) :
    (((Allocator.cartesian .x).trackOf fun _ => c).motion start).AgreeFrom m.startTime
      (.steady m.positionAt) := by
  have hr : ∀ i ∈ (Allocator.cartesian .x).channels,
      Timeline.Renewed f m.startTime c.timeline (Channel.timeline { active := [m] }) := fun _ _ => h
  have ha : (((Allocator.cartesian .x).trackOf fun _ => c).motion start).AgreeFrom m.startTime
      (((Allocator.cartesian .x).trackOf fun _ => { active := [m] }).motion start) :=
    Allocator.agreeFrom_renewed start start hr
  have hm : (((Allocator.cartesian .x).trackOf fun _ => { active := [m] }).motion start).AgreeFrom
      m.startTime (.steady m.positionAt) := agreeFrom_alone start hs rfl m.startTime
  exact ⟨fun t ht => (ha.position t ht).trans (hm.position t ht),
    fun t ht => (ha.positionBefore t ht).trans (hm.positionBefore t ht)⟩

theorem covers_jump {f : ℝ} (h : Timeline.Renewed f m.startTime c.timeline [m])
    (hf : f < m.endTime) (hm : m.startTime < m.endTime) :
    ((Allocator.cartesian .x).trackOf fun _ => c).covers f m.endTime = true := by
  obtain ⟨old,hc,-⟩ := h.split
  refine Track.covers_eq_true.2 ⟨m,Allocator.mem_touching.2 ⟨⟨0,?_,?_⟩,hf,hm⟩⟩
  · simp [Allocator.channels,Axis.index]
  · rw [hc]; simp

/-- What is left of the conditions on a jump behind the last flush: the first window may span it,
but either another one follows or the turn in the first one is found. -/
def Caught (f : ℝ) (m : Segment ℝ) : Prop :=
  f + timeEpsilon ≤ m.startTime + m.accelT ∧ timeEpsilon ≤ m.accelT + m.cruiseT ∨
    f + 4 * timeEpsilon ≤ m.startTime + m.accelT + m.cruiseT

theorem mem_inside_renewed {f t : ℝ} (h : Timeline.Renewed f m.startTime c.timeline [m])
    (hf : f < m.endTime) (hm : m.startTime < m.endTime) :
    t ∈ ((Allocator.cartesian .x).trackOf fun _ => c).inside f m.endTime ↔
      t ∈ m.boundaries ∧ f < t ∧ t < m.endTime := by
  obtain ⟨old,hc,-,ho⟩ := h.split
  rw [Track.mem_inside]
  refine and_congr_left fun _ => ⟨?_,fun hb => ⟨m,?_,hb⟩⟩
  · rintro ⟨n,hn,hb⟩
    obtain ⟨⟨-,-,hnc⟩,hfn,-⟩ := Allocator.mem_touching.1 hn
    rw [hc,List.singleton_append,List.mem_cons] at hnc
    rcases hnc with rfl | hno
    · exact hb
    · linarith [ho n hno]
  · refine Allocator.mem_touching.2 ⟨⟨0,by simp [Allocator.channels,Axis.index],?_⟩,hf,hm⟩
    rw [hc]; simp

theorem boundary_near_of_single {f t x : ℝ} (h : Timeline.Renewed f m.startTime c.timeline [m])
    (hs : m.Sound) (hf : f < m.endTime) (hm : m.startTime < m.endTime)
    (hb : breakpoints ((Allocator.cartesian .x).trackOf fun _ => c) f m.endTime = [f,t])
    (hx : x ∈ m.boundaries) (hfx : f < x) :
    x < f + timeEpsilon ∨ t ≤ x ∧ x < t + timeEpsilon := by
  rw [breakpoints_eq hf] at hb
  have hmem : x ∈ f :: (inOrder (((Allocator.cartesian .x).trackOf fun _ => c).inside f
      m.endTime) ++ [m.endTime]) := by
    rcases (hs.le_endTime_of_mem hx).lt_or_eq with hlt | heq
    · exact List.mem_cons_of_mem _ (List.mem_append_left _
        (mem_inOrder.2 ((mem_inside_renewed h hf hm).2 ⟨hx,hfx,hlt⟩)))
    · rw [heq]; simp
  obtain ⟨u,hu,hux,hxu⟩ := exists_mem_spaced (sorted_inside hf) hmem
  rw [hb] at hu
  simp only [List.mem_cons,List.not_mem_nil,or_false] at hu
  rcases hu with rfl | rfl
  · exact Or.inl hxu
  · exact Or.inr ⟨hux,hxu⟩

theorem mem_boundaries_of_single {f t : ℝ} (h : Timeline.Renewed f m.startTime c.timeline [m])
    (hf : f < m.endTime) (hm : m.startTime < m.endTime)
    (hb : breakpoints ((Allocator.cartesian .x).trackOf fun _ => c) f m.endTime = [f,t])
    (hft : f < t) : t ∈ m.boundaries := by
  rw [breakpoints_eq hf] at hb
  have ht : t ∈ spaced f (inOrder (((Allocator.cartesian .x).trackOf fun _ => c).inside f
      m.endTime) ++ [m.endTime]) := by rw [hb]; simp
  rcases mem_of_mem_spaced ht with heq | ht
  · exact absurd heq hft.ne'
  · rcases List.mem_append.1 ht with ht | ht
    · exact ((mem_inside_renewed h hf hm).1 (mem_inOrder.1 ht)).1
    · rw [List.mem_singleton.1 ht]; simp [Segment.boundaries]

/-- If a jump is spanned by the only window, that window is long and ends with the cruise. -/
theorem single_window (h : Timeline.Renewed r.lastFlushTime m.startTime c.timeline [m])
    (hm : m.Course d v) (hg : m.startTime < r.lastFlushTime + timeEpsilon)
    (hd : m.startTime + timeEpsilon ≤ m.endTime) (hr : r.lastFlushTime < m.startTime)
    (hc : Caught r.lastFlushTime m) {t : ℝ}
    (hb : breakpoints ((Allocator.cartesian .x).trackOf fun _ => c) r.lastFlushTime m.endTime =
      [r.lastFlushTime,t]) (hpw : r.lastFlushTime + timeEpsilon ≤ t) :
    t = m.startTime + m.accelT + m.cruiseT ∧ r.lastFlushTime + 4 * timeEpsilon ≤ t ∧
      m.startTime + m.accelT < r.lastFlushTime + timeEpsilon := by
  have he := timeEpsilon_pos
  have ha := hm.sound.accelT
  have hct := hm.sound.cruiseT
  have hend := m.endTime_exact
  rw [hm.equal] at hend
  have hf : r.lastFlushTime < m.endTime := by linarith
  have hse : m.startTime < m.endTime := by linarith
  have hnear := fun {x} => boundary_near_of_single (x := x) h hm.sound hf hse hb
  have h1 := hnear (x := m.startTime + m.accelT) (by simp [Segment.boundaries]) (by linarith)
  have h2 := hnear (x := m.startTime + m.accelT + m.cruiseT) (by simp [Segment.boundaries])
    (by linarith)
  have h3 : t ≤ m.endTime ∧ m.endTime < t + timeEpsilon :=
    (hnear (x := m.endTime) (by simp [Segment.boundaries]) hf).resolve_left fun h3 => by linarith
  have hmem := mem_boundaries_of_single h hf hse hb (by linarith)
  simp only [Segment.boundaries,List.mem_cons,List.not_mem_nil,or_false] at hmem
  rcases hc with ⟨hc1,hc2⟩ | hc
  · -- the window would end with the first ramp, less than the slack before the end of the move
    have h1 := h1.resolve_left fun h1 => by linarith
    linarith
  · have h2 := h2.resolve_left fun h2 => by linarith
    have h1 : m.startTime + m.accelT < r.lastFlushTime + timeEpsilon := by
      by_contra hn
      have := h1.resolve_left hn
      linarith
    refine ⟨?_,?_,h1⟩ <;> rcases hmem with heq | heq | heq | heq <;> linarith

theorem Settled.behind (hs : r.Settled) (hm : m.Course d v) (hp : r.commandedPos = m.startPos)
    (t : ℝ) : ∀ s ∈ r.steppers, s.Behind d (m.positionAt t) := by
  intro s hmem
  have hmt := hm.glide.forward (min t m.startTime) t (min_le_left _ _)
  rw [hm.sound.positionAt_of_le_startTime (min_le_right _ _),← hp] at hmt
  exact ((hs s hmem).1.behind d).forward hmt

theorem stepWindow_behind_of_jump {p : RailMotion ℝ} {f o u : ℝ} {ss : List (Stepper ℝ)}
    (hp : p.AgreeFrom m.startTime (.steady m.positionAt)) (hm : m.Course d v)
    (ho : ∀ t, f ≤ t → t < m.startTime → p.position t = o) (hf : f < m.startTime)
    (hu : m.startTime < u) (hs : ∀ s ∈ ss, s.Behind d (m.positionAt u)) :
    ∀ s ∈ stepWindow p ss f u, s.Behind d (m.positionAt u) := by
  have hpu : p.positionBefore u = m.positionAt u := hp.positionBefore u hu
  rw [← hpu] at hs ⊢
  refine stepWindow_behind hs fun x hx hxu => ?_
  rcases lt_or_ge x m.startTime with hxs | hxs
  · exact Or.inl ((ho x hx.le hxs).trans (ho _ le_rfl hf).symm)
  · rw [hpu,hp.position x hxs]
    exact Or.inr (hm.glide.forward x u hxu.le)

/-- Motors that a jump has led astray are caught by the last window of the flush. -/
theorem stepWindows_near_of_caught
    (h : Timeline.Renewed r.lastFlushTime m.startTime c.timeline [m]) (hm : m.Course d v)
    (hr : r.lastFlushTime < m.startTime) (hg : m.startTime < r.lastFlushTime + timeEpsilon)
    (hd : m.startTime + timeEpsilon ≤ m.endTime) (hc : Caught r.lastFlushTime m)
    (hs : r.Settled) (hp : r.commandedPos = m.startPos) {us : List ℝ} {t : ℝ}
    (hb : breakpoints ((Allocator.cartesian .x).trackOf fun _ => c) r.lastFlushTime m.endTime =
      r.lastFlushTime :: us ++ [t])
    (hpw : (r.lastFlushTime :: us ++ [t]).Pairwise fun a b => a + timeEpsilon ≤ b)
    (ht : t ≤ m.endTime) :
    ∀ s ∈ stepWindows (((Allocator.cartesian .x).trackOf fun _ => c).motion start)
      (r.lastFlushTime :: us ++ [t]) r.steppers, s.Near (m.positionAt t) := by
  have he := timeEpsilon_pos
  have hag := agreeFrom_jump start h hm.sound
  obtain ⟨o,ho⟩ : ∃ o, ∀ t, r.lastFlushTime ≤ t → t < m.startTime →
      (((Allocator.cartesian .x).trackOf fun _ => c).motion start).position t = o := by
    have hren : ∀ i ∈ (Allocator.cartesian .x).channels, Timeline.Renewed r.lastFlushTime
        m.startTime c.timeline (Channel.timeline { active := [m] }) := fun _ _ => h
    obtain ⟨o,ho,-⟩ := Allocator.exists_rest_renewed start hren
    exact ⟨o,ho⟩
  have hbehind := hs.behind hm hp
  obtain ⟨hft,hpw⟩ := List.pairwise_cons.1 hpw
  cases us with
  | nil =>
    obtain ⟨heq,hlong,hat⟩ := single_window h hm hg hd hr hc hb (hft t (by simp))
    refine stepWindow_of_long hag hm.glide hm.speed ho hr (by linarith) hlong ht ?_ (hbehind t)
    rw [heq] at hlong ⊢
    rw [hm.even _ (by linarith) (by linarith)]; ring
  | cons u us =>
    -- the first window spans the jump, the others follow the move
    have hfu := hft u (by simp)
    have hut := (List.pairwise_cons.1 hpw).1 t (by simp)
    have hlt : (u :: us ++ [t]).Pairwise (· < ·) := hpw.imp fun {a b} hab => by linarith
    rw [List.cons_append,List.cons_append,stepWindows_cons,← List.cons_append,
      stepWindows_congr hag]
    · exact stepWindows_catch hm.glide (by linarith) ht hlt
        (stepWindow_behind_of_jump hag hm ho hr (by linarith) (hbehind u))
    · intro w hw
      have := windows_ascending hlt hw
      exact ⟨by linarith [this.1],this.2⟩

theorem arrived_of_caught (h : Timeline.Renewed r.lastFlushTime m.startTime c.timeline [m])
    (hm : m.Course d v) (hr : r.lastFlushTime < m.startTime)
    (hg : m.startTime < r.lastFlushTime + timeEpsilon)
    (hd : m.startTime + timeEpsilon ≤ m.endTime) (hc : Caught r.lastFlushTime m)
    (hs : r.Settled) (hp : r.commandedPos = m.startPos) :
    (r.advance ((Allocator.cartesian .x).trackOf fun _ => c) start m.endTime).Arrived m := by
  have he := timeEpsilon_pos
  have hf : r.lastFlushTime < m.endTime := by linarith
  have hag := agreeFrom_jump start h hm.sound
  have hcov := covers_jump h hf (by linarith)
  rcases breakpoints_cases (k := (Allocator.cartesian .x).trackOf fun _ => c) hf with
    ⟨-,hlt⟩ | ⟨us,t,hb,hpw,ht,hlt⟩
  · linarith
  have hft : r.lastFlushTime + timeEpsilon ≤ t := (List.pairwise_cons.1 hpw).1 t (by simp)
  obtain ⟨h1,h2⟩ := settled_advance (m.positionAt t) hcov
    (by rw [hb,lastPosition_append]; exact hag.positionBefore t (by linarith))
    (by rw [hb]; exact stepWindows_near_of_caught h hm hr hg hd hc hs hp hb hpw ht)
  exact ⟨h1,t,ht,hlt,h2⟩

end Jump

/-- When a move with ramps of one length and a cruise of another may follow a jump, after a gap
since the last flush: it takes no time, or there is no gap, or move and gap are long enough. -/
def Clear (gap accelT cruiseT : ℝ) : Prop :=
  2 * accelT + cruiseT = 0 ∨ gap = 0 ∨ timeEpsilon ≤ 2 * accelT + cruiseT ∧
    (timeEpsilon ≤ gap ∨ timeEpsilon ≤ gap + accelT ∧ timeEpsilon ≤ accelT + cruiseT ∨
      4 * timeEpsilon ≤ gap + accelT + cruiseT)

section Arrive
variable {c : Channel ℝ} {l : Timeline ℝ}

theorem renewed_of_ended {f : ℝ} (hs : m.Sound) (hl : c.timeline = m :: l)
    (hls : ∀ n ∈ l, n.Sound ∧ n.endTime ≤ f) : Timeline.Renewed f m.startTime c.timeline [m] := by
  refine ⟨⟨l,hl,fun n hn => (hls n hn).1,fun n hn => (hls n hn).2⟩,?_,?_,?_⟩ <;> simp [hs]

theorem arrived_of_instant (h : Timeline.Renewed r.lastFlushTime m.startTime c.timeline [m])
    (hm : m.Sound) (hf : r.lastFlushTime < m.endTime) (he : m.startTime = m.endTime)
    (hs : r.Settled) (hp : r.commandedPos = m.startPos) :
    (r.advance (r.allocator.trackOf fun _ => c) start m.endTime).Arrived m := by
  have hren : ∀ i ∈ r.allocator.channels, Timeline.Renewed r.lastFlushTime m.startTime
      c.timeline (Channel.timeline { active := [m] }) := fun _ _ => h
  rw [advance_renewed_of_ahead hf he.ge hren]
  refine ⟨hs,m.endTime,le_rfl,by linarith [timeEpsilon_pos],?_⟩
  rw [hm.positionAt_of_le_startTime he.ge]
  exact hp

theorem arrived_of_seamless (hl : c.timeline = m :: l)
    (hls : ∀ n ∈ l, n.Sound ∧ n.endTime ≤ r.lastFlushTime) (hm : m.Sound)
    (hf : r.lastFlushTime < m.endTime) (hse : m.startTime < m.endTime) (hs : r.Settled)
    (hp : r.commandedPos = m.positionAt r.lastFlushTime)
    (hstart : c.positionAt r.lastFlushTime = some start)
    (hj : (∀ o ∈ l.rest, o = m.startPos) ∨ m.startTime = r.lastFlushTime) :
    (r.advance ((Allocator.cartesian .x).trackOf fun _ => c) start m.endTime).Arrived m := by
  have hren := renewed_of_ended hm hl hls
  have hag : (((Allocator.cartesian .x).trackOf fun _ => c).motion start).AgreeFrom
      r.lastFlushTime (.steady m.positionAt) := by
    rcases hj with hj | hj
    · exact agreeFrom_of_rest start hm hl hls hj
    · rw [← hj]; exact agreeFrom_jump start hren hm
  refine arrived_of_steady hf hs hp hag ?_ (covers_jump hren hf hse)
  have hpos := hag.position r.lastFlushTime le_rfl
  rw [Allocator.motion_position (p := fun _ => start) fun _ _ => hstart,
    Allocator.combined_cartesian] at hpos
  exact hpos

theorem arrived_of_clear (ha : r.allocator = .cartesian .x)
    (h : Timeline.Renewed r.lastFlushTime m.startTime c.timeline [m]) (hm : m.Course d v)
    (hf : r.lastFlushTime < m.startTime) (hse : m.startTime < m.endTime) (hs : r.Settled)
    (hp : r.commandedPos = m.startPos)
    (hc : Clear (m.startTime - r.lastFlushTime) m.accelT m.cruiseT) :
    (r.advance (r.allocator.trackOf fun _ => c) start m.endTime).Arrived m := by
  have he := timeEpsilon_pos
  have hend := m.endTime_exact
  rw [hm.equal] at hend
  obtain ⟨hd,hclear⟩ := (hc.resolve_left (by linarith)).resolve_left (by linarith)
  rcases le_or_gt timeEpsilon (m.startTime - r.lastFlushTime) with hg | hg
  · -- the jump falls between two windows
    have hren : ∀ i ∈ r.allocator.channels, Timeline.Renewed r.lastFlushTime m.startTime
        c.timeline (Channel.timeline { active := [m] }) := fun _ _ => h
    have hal : Channel.timeline { active := [m] } = [m] := rfl
    have hrest : m.positionAt r.lastFlushTime = m.startPos :=
      hm.sound.positionAt_of_le_startTime hf.le
    have hadv : r.advance (r.allocator.trackOf fun _ => c) start m.endTime =
        r.advance (r.allocator.trackOf fun _ => { active := [m] }) m.startPos m.endTime :=
      advance_renewed_of_far (by linarith) (by linarith) hren
    rw [hadv,ha]
    exact arrived_of_steady (by linarith) hs (by rw [hrest,hp])
      (agreeFrom_alone m.startPos hm.sound hal _) hrest.symm
      (covers_jump (renewed_of_ended hm.sound hal (by simp)) (by linarith) hse)
  · rw [ha]
    refine arrived_of_caught h hm hf (by linarith) (by linarith) ?_ hs hp
    rcases hclear with hclear | ⟨h1,h2⟩ | hclear
    · linarith
    · exact Or.inl ⟨by linarith,h2⟩
    · exact Or.inr (by linarith)

/-- A flush to the end of a planned move arrives there, if the move goes on where the channel
stood or is clear of the jump. -/
theorem generateSteps_arrived {q : SegmentQueue ℝ} (ha : r.allocator = .cartesian .x)
    (hq : q.channels[0]? = some c) (hl : c.timeline = m :: l)
    (hls : ∀ n ∈ l, n.Sound ∧ n.endTime ≤ r.lastFlushTime) (hm : m.Course d v)
    (hf : r.lastFlushTime ≤ m.startTime) (hs : r.Settled) (hp : r.commandedPos = m.startPos)
    (hc : (∀ o ∈ l.rest, o = m.startPos) ∨
      Clear (m.startTime - r.lastFlushTime) m.accelT m.cruiseT) :
    ∃ r', r.generateSteps (some q) m.endTime = .ok r' ∧ r'.allocator = r.allocator ∧
      r'.lastFlushTime = m.endTime ∧ r'.Arrived m := by
  have he := timeEpsilon_pos
  have hle := hm.sound.startTime_le_endTime
  have hren := renewed_of_ended hm.sound hl hls
  rcases le_or_gt m.endTime r.lastFlushTime with hef | hfe
  · -- no time passes
    refine ⟨r,generateSteps_of_le hef,rfl,by linarith,hs,m.endTime,le_rfl,by linarith,?_⟩
    rw [hp,hm.sound.positionAt_of_le_startTime (hef.trans hf)]
  obtain ⟨start,hstart⟩ := Timeline.positionAt_isSome hren.ne_nil r.lastFlushTime
  refine ⟨_,generateSteps_cartesian ha hfe hq hstart,by simp,by simp,?_⟩
  rcases hle.lt_or_eq with hlt | heq
  · by_cases hj : (∀ o ∈ l.rest, o = m.startPos) ∨ m.startTime = r.lastFlushTime
    · exact arrived_of_seamless hl hls hm.sound hfe hlt hs
        (by rw [hm.sound.positionAt_of_le_startTime hf,hp]) hstart hj
    · obtain ⟨hjump,hgap⟩ := not_or.1 hj
      rw [← ha]
      exact arrived_of_clear ha hren hm (lt_of_le_of_ne hf (Ne.symm hgap)) hlt hs hp
        (hc.resolve_left hjump)
  · rw [← ha]
    exact arrived_of_instant hren hm.sound hfe heq hs hp

end Arrive

end Rail

end Gantry
