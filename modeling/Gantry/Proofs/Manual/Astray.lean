import Mathlib
import Gantry.Proofs.Manual.Session

/-!
Astray: what a jump does that a move is not clear of. Either the slack swallows the move, and the
axis believes to be back where it was before it was placed; or it swallows the first windows of the
move, whose steps are then lost.
-/
set_option autoImplicit false

namespace Gantry

namespace Rail
variable {r : Rail ℝ} {c : Channel ℝ} {m : Segment ℝ} {v u o : ℝ}

theorem nonneg_of_forward (hm : m.Course .positive v) (hzero : m.startPos = 0) (t : ℝ) :
    0 ≤ m.positionAt t := by
  have hforward := hm.glide.forward (min t m.startTime) t (min_le_left _ _)
  rw [hm.sound.positionAt_of_le_startTime (min_le_right _ _),hzero] at hforward
  simpa [Direction.sign] using hforward

section Short
variable {p : RailMotion ℝ} {f : ℝ} (hp : p.AgreeFrom m.startTime (.steady m.positionAt))
  (hm : m.Course .positive v) (hzero : m.startPos = 0)
  (ho : ∀ t, f ≤ t → t < m.startTime → p.position t = o) (hf : f < m.startTime)
  (hu : m.startTime < u) (hshort : u < f + 4 * timeEpsilon) (hlt : m.positionAt u < o)
  (hfar : (4 * timeEpsilon - (u - f)) * m.positionAt u + 2 * (u - f) * m.positionAt u ≤
    (4 * timeEpsilon - (u - f)) * o)
include hp hm hzero ho hf hu hshort hlt hfar

/-- No turn is found in a short window that begins with a jump from far away. -/
theorem turningPoint_of_far :
    turningPoint f u (p.position f) (p.position (0.5 * (f + u))) (p.positionBefore u) = none := by
  have hforward := hm.glide.forward
  simp only [Direction.sign,one_mul,sub_nonneg] at hforward
  have hhalf : f ≤ 0.5 * (f + u) ∧ 0.5 * (f + u) ≤ u := by constructor <;> norm_num <;> linarith
  have hmid : p.position (0.5 * (f + u)) = o ∨
      0 ≤ p.position (0.5 * (f + u)) ∧ p.position (0.5 * (f + u)) ≤ m.positionAt u := by
    rcases lt_or_ge (0.5 * (f + u)) m.startTime with hts | hts
    · exact Or.inl (ho _ hhalf.1 hts)
    · rw [hp.position _ hts]
      exact Or.inr ⟨nonneg_of_forward hm hzero _,hforward _ _ hhalf.2⟩
  have hnone := turningPoint_of_short (a := f) (h := u - f) (by linarith) (by linarith) hlt
    (hmid.imp_right fun hmid => ⟨hmid.1,hmid.2,hfar⟩)
  have hpu : p.positionBefore u = m.positionAt u := hp.positionBefore u hu
  rw [add_sub_cancel] at hnone
  rw [ho _ le_rfl hf,hpu]
  exact hnone

theorem stepWindow_of_far {ss : List (Stepper ℝ)}
    (hs : ∀ s ∈ ss, 0 < s.stepDistance ∧ s.place = 0) : stepWindow p ss f u = ss := by
  have hdown : Direction.between? o (m.positionAt u) = some .negative := by
    rw [Direction.between?_eq_some]
    simp only [Direction.sign]
    linarith
  have hpu : p.positionBefore u = m.positionAt u := hp.positionBefore u hu
  rw [stepWindow_of_none (turningPoint_of_far hp hm hzero ho hf hu hshort hlt hfar),ho _ le_rfl hf,
    hpu,stepMonotone,hdown]
  refine (List.map_congr_left fun s hmem => ?_).trans (List.map_id _)
  obtain ⟨hd,hplace⟩ := hs s hmem
  refine Stepper.follow_of_short ?_
  rw [Stepper.ahead,hplace]
  simp only [Direction.sign]
  linarith [nonneg_of_forward hm hzero u]

end Short

theorem advance_of_short (start : ℝ) (h : Timeline.Renewed r.lastFlushTime m.startTime c.timeline [m])
    (hm : m.Course .positive v) (hzero : m.startPos = 0) (hr : r.lastFlushTime < m.startTime)
    (hg : m.startTime < r.lastFlushTime + timeEpsilon)
    (ho : ∀ t, r.lastFlushTime ≤ t → t < m.startTime → c.positionAt t = some o)
    (hu : u ∈ m.boundaries) (hfu : r.lastFlushTime + timeEpsilon ≤ u)
    (hend : m.endTime < u + timeEpsilon)
    (hb : ∀ t ∈ m.boundaries, t < r.lastFlushTime + timeEpsilon ∨ u ≤ t)
    (hshort : u < r.lastFlushTime + 4 * timeEpsilon) (hlt : m.positionAt u < o)
    (hfar : (4 * timeEpsilon - (u - r.lastFlushTime)) * m.positionAt u +
      2 * (u - r.lastFlushTime) * m.positionAt u ≤ (4 * timeEpsilon - (u - r.lastFlushTime)) * o)
    (hs : ∀ s ∈ r.steppers, 0 < s.stepDistance ∧ s.place = 0) :
    r.advance ((Allocator.cartesian .x).trackOf fun _ => c) start m.endTime =
      { r with
        steppers := r.steppers.map fun s => { s with commandedPos := m.positionAt u }
        commandedPos := m.positionAt u
        lastFlushTime := m.endTime } := by
  have he := timeEpsilon_pos
  have hue := hm.sound.le_endTime_of_mem hu
  have hf : r.lastFlushTime < m.endTime := by linarith
  have hse : m.startTime < m.endTime := by linarith
  have hin := fun t => mem_inside_renewed (t := t) h hf hse
  have hbreak : breakpoints ((Allocator.cartesian .x).trackOf fun _ => c) r.lastFlushTime
      m.endTime = [r.lastFlushTime,u] := by
    refine breakpoints_of_pair hfu hue hend ?_ fun t ht => hb t ((hin t).1 ht).1
    rcases hue.lt_or_eq with hlt | heq
    · exact Or.inr ((hin u).2 ⟨hu,by linarith,hlt⟩)
    · exact Or.inl heq
  have hag := agreeFrom_jump start h hm.sound
  set motion := ((Allocator.cartesian .x).trackOf fun _ => c).motion start
  have hrest : ∀ t, r.lastFlushTime ≤ t → t < m.startTime → motion.position t = o := by
    intro t ht hts
    rw [Allocator.motion_position (p := fun _ => o) fun _ _ => ho t ht hts,
      Allocator.combined_cartesian]
  have hpu : motion.positionBefore u = m.positionAt u := hag.positionBefore u (by linarith)
  have hstay : stepWindows motion [r.lastFlushTime,u] r.steppers = r.steppers :=
    stepWindow_of_far hag hm hzero hrest hr (by linarith) hshort hlt hfar hs
  rw [advance_eq]
  simp only [hbreak,covers_jump h hf hse,if_true]
  change noteCommanded { r with
      steppers := stepWindows motion [r.lastFlushTime,u] r.steppers
      lastFlushTime := m.endTime } (motion.positionBefore u) = _
  rw [hstay,hpu]
  rfl

end Rail

theorem Profile.symmetric_of_times {ramp cruise : ℝ} (hr : 0 ≤ ramp) (hc : 0 ≤ cruise)
    (h : 0 < ramp + cruise) :
    symmetric (ramp + cruise) 1 (1 / ramp) = ⟨.positive,ramp,cruise,1⟩ := by
  have hdir : Direction.ofDistance (ramp + cruise) = .positive := by
    simp [Direction.ofDistance,not_lt.2 h.le]
  rcases hr.eq_or_lt with rfl | hr
  · rw [zero_add] at hdir
    simp [symmetric,hdir,abs_of_nonneg hc]
  · have hpeak : ¬(ramp + cruise) * (1 / ramp) < 1 * 1 := by
      rw [not_lt,mul_one_div,le_div_iff₀ hr]
      linarith
    unfold symmetric
    simp only [hdir,Scalar.abs_exact,abs_of_pos h,Scalar.beq_exact,Scalar.larger_exact,
      if_neg hpeak]
    simp [hr.ne',h.ne',hc]

namespace ManualAxis
variable {σ : Type} [MotionClock σ ℝ] {a : ManualAxis ℝ} {speed accel o : ℝ}

theorem Ready.drive_of_rest (h : a.Ready) (s : σ) (target : ℝ) (hv : 0 < speed) (ha : 0 ≤ accel)
    (ho : o ∈ (a.queue.line 0).rest)
    (hs : a.rail.lastFlushTime < (a.planned s target speed accel).startTime)
    (synchronize : Bool) :
    ∃ c b s', a.drive s target speed accel synchronize = (.ok (),b,s') ∧
      Timeline.Renewed a.rail.lastFlushTime (a.planned s target speed accel).startTime c.timeline
        [a.planned s target speed accel] ∧
      (∀ t, a.rail.lastFlushTime ≤ t → t < (a.planned s target speed accel).startTime →
        c.positionAt t = some o) ∧
      b.rail = a.rail.advance ((Allocator.cartesian .x).trackOf fun _ => c) o
        (a.planned s target speed accel).endTime := by
  obtain ⟨c,queue,hq,hended,happ,hq'⟩ := h.append s hv ha
  obtain ⟨d,v,hm,-⟩ := planned_course a s target hv ha
  rw [SegmentQueue.line_eq hq] at ho
  set m := a.planned s target speed accel
  have hrest : ∀ t, a.rail.lastFlushTime ≤ t → t < m.startTime →
      (c.push m).positionAt t = some o := by
    intro t ht hts
    rw [Channel.positionAt,Channel.timeline_push]
    exact Timeline.positionAt_cons_of_rest hts
      (fun n hn => ⟨(hended n hn).1,(hended n hn).2.trans ht⟩) ho
  have hg := Rail.generateSteps_cartesian h.allocator
    (hs.trans_le hm.sound.startTime_le_endTime) hq' (hrest _ le_rfl hs)
  have hren := Rail.renewed_of_ended hm.sound (c.timeline_push m) hended
  obtain ⟨b,s',hd,hr,-⟩ := drive_ok synchronize happ hg
  exact ⟨c.push m,b,s',hd,hren,hrest,hr⟩

/-- A move that the slack swallows brings the axis back to where its queue rested. -/
theorem Ready.drive_of_swallowed (h : a.Ready) (s : σ) (target : ℝ) (hv : 0 < speed)
    (ha : 0 ≤ accel) (ho : o ∈ (a.queue.line 0).rest)
    (hs : a.rail.lastFlushTime < (a.planned s target speed accel).startTime)
    (he : (a.planned s target speed accel).startTime < (a.planned s target speed accel).endTime)
    (hn : (a.planned s target speed accel).endTime < a.rail.lastFlushTime + timeEpsilon ∨
      a.rail.lastFlushTime + timeEpsilon ≤ (a.planned s target speed accel).startTime ∧
      (a.planned s target speed accel).endTime <
        (a.planned s target speed accel).startTime + timeEpsilon) (synchronize : Bool) :
    ∃ b s', a.drive s target speed accel synchronize = (.ok (),b,s') ∧
      b.rail.commandedPos = o := by
  obtain ⟨c,b,s',hd,hren,hrest,hb⟩ := h.drive_of_rest s target hv ha ho hs synchronize
  have hren' : ∀ i ∈ a.rail.allocator.channels, Timeline.Renewed a.rail.lastFlushTime
      (a.planned s target speed accel).startTime c.timeline
      (Channel.timeline { active := [a.planned s target speed accel] }) := fun _ _ => hren
  have hback : (a.rail.advance (a.rail.allocator.trackOf fun _ => c) o
      (a.planned s target speed accel).endTime).commandedPos = o := by
    refine Rail.advance_renewed_commandedPos hs he hn hren' ?_
    rw [Allocator.motion_position (p := fun _ => o) fun _ _ => hrest _ le_rfl hs,h.allocator,
      Allocator.combined_cartesian]
  rw [h.allocator] at hback
  exact ⟨b,s',hd,by rw [hb]; exact hback⟩

end ManualAxis

namespace Session
variable {step speed o pos t : ℝ}

noncomputable def built (step speed : ℝ) : Session (Toolhead ℝ) where
  axis := .ofRail "a" { Rail.ofName "r" with steppers := [.ofName "s" "mcu" step] } speed 0
  surroundings := { clock := 0 }
  goal := .placed 0

theorem built_fresh (speed : ℝ) (h : 0 < step) : (built step speed).Fresh where
  axis := ⟨_,_,_,_,rfl⟩
  allocator := rfl
  commandedPos := rfl
  lastFlushTime := rfl
  steppers s hs := by
    rw [List.mem_singleton.1 hs]
    exact ⟨h,rfl,rfl,rfl⟩
  goal := rfl

/-- The session when the axis has moved to `o` and was placed elsewhere, and the toolhead has gone on
to a time. -/
noncomputable def resting (step speed o pos t : ℝ) : Session (Toolhead ℝ) :=
  { ((built step speed).move o none none false).place pos with surroundings := { clock := t } }

theorem built_calm (target v w : ℝ) : (built step speed).Calm target v w :=
  Or.inl fun _ h => nomatch h

theorem run_resting : Relation.ReflTransGen Step (built step speed) (resting step speed o pos t) :=
  .tail (.tail (.single (.move _ o none none false fun v w _ => built_calm o v w))
    (.place _ pos)) (.elapse _ ({ clock := t } : Toolhead ℝ))

structure Rests (x : Session (Toolhead ℝ)) (step speed o pos f t : ℝ) : Prop where
  ready : x.axis.Ready
  commandable : x.axis.checkCommandable = .ok ()
  speeds : x.axis.speeds none none = .ok (speed,0)
  flushed : x.axis.rail.lastFlushTime = f
  next : x.axis.nextCmdTime = f
  rest : o ∈ (x.axis.queue.line 0).rest
  commandedPos : x.axis.rail.commandedPos = pos
  steppers : ∃ s, x.axis.rail.steppers = [s] ∧ s.place = pos ∧ s.stepDistance = step
  clock : x.surroundings.clock = t

theorem resting_rests (o pos t : ℝ) (hs : 0 < step) (hv : 0 < speed) :
    (resting step speed o pos t).Rests step speed o pos (|o| / speed) t := by
  have hready := (built_fresh speed hs).invariant.ready
  have hspeeds : (built step speed).axis.speeds none none = .ok (speed,0) :=
    ManualAxis.speeds_eq_ok.2 ⟨rfl,rfl,hv,le_rfl⟩
  obtain ⟨queue,rail,happ,hg,hdriven,hf,hrest,-⟩ :=
    hready.driven (built step speed).surroundings hv le_rfl (built_calm o speed 0)
  have hend : ((built step speed).axis.planned (built step speed).surroundings o speed 0).endTime =
      |o| / speed := by
    rw [ManualAxis.planned_endTime,ManualAxis.sync_fst]
    change max 0 0 + (Profile.symmetric (o - 0) speed 0).duration = _
    simp [Profile.symmetric,Profile.duration]
  have hmove := move_eq rfl hspeeds (ManualAxis.drive_of_stepped false happ hg)
  rw [hend] at hdriven hf hrest hmove
  have hkept := Rail.generateSteps_kept (f := fun s => s.stepDistance) (fun _ _ _ => rfl)
    (fun _ _ => rfl) hg
  obtain ⟨st,hst,hstep⟩ : ∃ st, rail.steppers = [st] ∧ st.stepDistance = step := by
    obtain ⟨st,l,hl,hd,hnil⟩ := List.map_eq_cons_iff.1 hkept
    rw [List.map_eq_nil_iff.1 hnil] at hl
    exact ⟨st,hl,hd⟩
  have hresting : resting step speed o pos t =
      ⟨((built step speed).axis.driven rail queue (|o| / speed)).placed pos,{ clock := t },
        .placed pos⟩ := by
    unfold resting
    rw [hmove,place_eq rfl hdriven.allocator]
  rw [hresting]
  refine ⟨hdriven.placed pos,rfl,hspeeds,hf,rfl,hrest,rfl,
    ⟨st.setPosition pos,?_,st.place_setPosition pos,hstep⟩,rfl⟩
  simp only [ManualAxis.placed,ManualAxis.driven,hst]
  rfl

theorem Rests.sync {x : Session (Toolhead ℝ)} {f : ℝ} (h : x.Rests step speed o pos f t)
    (hft : f ≤ t) : (x.axis.sync x.surroundings).1.nextCmdTime = t := by
  rw [ManualAxis.sync_fst]
  change max x.axis.nextCmdTime x.surroundings.clock = t
  rw [h.next,h.clock,max_eq_right hft]

section Moves
variable {gap ramp cruise : ℝ}

noncomputable def course (t ramp cruise : ℝ) : Segment ℝ :=
  (⟨.positive,ramp,cruise,1⟩ : Profile ℝ).segment t 0 (1 / ramp)

theorem course_course (hr : 0 ≤ ramp) (hc : 0 ≤ cruise) (h : 0 < ramp + cruise) :
    (course t ramp cruise).Course .positive 1 ∧
      (course t ramp cruise).endPosition = ramp + cruise := by
  have hp : (Profile.symmetric (ramp + cruise) 1 (1 / ramp)).Planned (ramp + cruise) 1 (1 / ramp) :=
    Profile.symmetric_planned one_pos (one_div_nonneg.2 hr)
  rw [Profile.symmetric_of_times hr hc h] at hp
  refine ⟨hp.course (one_div_nonneg.2 hr),?_⟩
  rw [course,hp.endPosition,zero_add]

theorem course_endTime : (course t ramp cruise).endTime = t + (2 * ramp + cruise) := by
  rw [course,Profile.segment_endTime,Profile.duration]
  norm_num

theorem mem_course_boundaries {u : ℝ} : u ∈ (course t ramp cruise).boundaries ↔
    u = t ∨ u = t + ramp ∨ u = t + ramp + cruise ∨ u = t + (2 * ramp + cruise) := by
  simp only [Segment.boundaries,course_endTime,List.mem_cons,List.not_mem_nil,or_false]
  rfl

theorem course_positionAt (hr : 0 ≤ ramp) (hc : 0 ≤ cruise) (h : 0 < ramp + cruise) {u : ℝ}
    (hu : t < u) (hle : u ≤ (course t ramp cruise).endTime) :
    0 < (course t ramp cruise).positionAt u ∧ (course t ramp cruise).positionAt u ≤ ramp + cruise := by
  obtain ⟨hm,hend⟩ := course_course (t := t) hr hc h
  constructor
  · have hstrict := hm.glide.strict t u le_rfl hu hle
    have hstart : (course t ramp cruise).positionAt t = 0 :=
      hm.sound.positionAt_of_le_startTime le_rfl
    rw [hstart,sub_zero] at hstrict
    simpa [Direction.sign] using hstrict
  · have hforward := hm.glide.forward u _ hle
    rw [Segment.endPosition] at hend
    rw [hend] at hforward
    simpa [Direction.sign] using hforward

noncomputable def poised (step o gap : ℝ) : Session (Toolhead ℝ) := resting step 1 o 0 (o + gap)

theorem poised_rests (gap : ℝ) (hs : 0 < step) (ho : 0 < o) :
    (poised step o gap).Rests step 1 o 0 o (o + gap) := by
  have h := resting_rests o 0 (o + gap) hs one_pos
  rwa [abs_of_pos ho,div_one] at h

theorem planned_poised (hs : 0 < step) (ho : 0 < o) (hg : 0 ≤ gap) (hr : 0 ≤ ramp) (hc : 0 ≤ cruise)
    (h : 0 < ramp + cruise) :
    (poised step o gap).axis.planned (poised step o gap).surroundings (ramp + cruise) 1
      (1 / ramp) = course (o + gap) ramp cruise := by
  have hx := poised_rests gap hs ho
  rw [ManualAxis.planned,hx.sync (by linarith),hx.commandedPos,sub_zero,
    Profile.symmetric_of_times hr hc h,course]

/-- Some move with the given times, and the given gap behind the last flush, leads astray. -/
def Astray (gap ramp cruise : ℝ) : Prop :=
  ∃ (x y : Session (Toolhead ℝ)) (target speed accel : ℝ), x.Fresh ∧
    Relation.ReflTransGen Step x y ∧
    (y.axis.planned y.surroundings target speed accel).startTime - y.axis.rail.lastFlushTime =
      gap ∧
    (y.axis.planned y.surroundings target speed accel).accelT = ramp ∧
    (y.axis.planned y.surroundings target speed accel).cruiseT = cruise ∧
    (y.axis.moveTo y.surroundings target (some speed) (some accel) true).1 = .ok () ∧
    ¬(y.move target (some speed) (some accel) true).Located

theorem astray_of_poised (hs : 0 < step) (ho : 0 < o) (hg : 0 ≤ gap) (hr : 0 ≤ ramp)
    (hc : 0 ≤ cruise) (h : 0 < ramp + cruise) {b : ManualAxis ℝ} {s : Toolhead ℝ}
    (hd : (poised step o gap).axis.drive (poised step o gap).surroundings (ramp + cruise) 1
      (1 / ramp) true = (.ok (),b,s))
    (hn : ¬Located ⟨b,s,.moved (ramp + cruise) 1⟩) : Astray gap ramp cruise := by
  have hx := poised_rests gap hs ho
  have hspeeds : (poised step o gap).axis.speeds (some 1) (some (1 / ramp)) = .ok (1,1 / ramp) :=
    ManualAxis.speeds_eq_ok.2 ⟨rfl,rfl,one_pos,one_div_nonneg.2 hr⟩
  refine ⟨built step 1,poised step o gap,ramp + cruise,1,1 / ramp,built_fresh 1 hs,run_resting,?_⟩
  rw [planned_poised hs ho hg hr hc h,hx.flushed]
  refine ⟨add_sub_cancel_left o gap,rfl,rfl,?_,?_⟩
  · rw [ManualAxis.moveTo_eq _ _ hx.commandable hspeeds,hd]
  · rw [move_eq hx.commandable hspeeds hd]
    exact hn

theorem astray_of_swallowed (hg : 0 < gap) (hr : 0 ≤ ramp) (hc : 0 ≤ cruise)
    (h : 0 < ramp + cruise) (hn : gap + (2 * ramp + cruise) < timeEpsilon ∨
      timeEpsilon ≤ gap ∧ 2 * ramp + cruise < timeEpsilon) : Astray gap ramp cruise := by
  have ho : 0 < ramp + cruise + 2 := by linarith
  have hx := poised_rests gap one_pos ho
  have hp := planned_poised one_pos ho hg.le hr hc h
  have hstart : (course (ramp + cruise + 2 + gap) ramp cruise).startTime =
      ramp + cruise + 2 + gap := rfl
  obtain ⟨b,s,hd,hb⟩ := hx.ready.drive_of_swallowed _ (ramp + cruise) one_pos
    (one_div_nonneg.2 hr) hx.rest
    (by rw [hp,hx.flushed,hstart]; linarith)
    (by rw [hp,course_endTime,hstart]; linarith)
    (by
      rw [hp,hx.flushed,course_endTime,hstart]
      exact hn.imp (fun hn => by linarith) fun hn => ⟨by linarith,by linarith⟩) true
  refine astray_of_poised one_pos ho hg.le hr hc h hd fun hl => ?_
  have hgoal : |b.rail.commandedPos - (ramp + cruise)| ≤ 1 * timeEpsilon := hl.goal
  rw [hb,timeEpsilon_exact,abs_le] at hgoal
  linarith [hgoal.2]

/-- The end of the one window that is left of a move whose start the slack swallows. -/
theorem exists_window (h0 : 0 ≤ gap) (hr : 0 ≤ ramp) (hc : 0 ≤ cruise) (hg : gap < timeEpsilon)
    (he : timeEpsilon ≤ gap + (2 * ramp + cruise)) (hn : ¬Rail.Clear gap ramp cruise) :
    ∃ h, timeEpsilon ≤ h ∧ h < 4 * timeEpsilon ∧ gap + (2 * ramp + cruise) < h + timeEpsilon ∧
      (h = gap + ramp ∨ h = gap + ramp + cruise ∨ h = gap + (2 * ramp + cruise)) ∧
      ∀ k, k = gap ∨ k = gap + ramp ∨ k = gap + ramp + cruise ∨ k = gap + (2 * ramp + cruise) →
        k < timeEpsilon ∨ h ≤ k := by
  unfold Rail.Clear at hn
  push Not at hn
  obtain ⟨-,-,hn⟩ := hn
  have hd : 2 * ramp + cruise < timeEpsilon ∨ timeEpsilon ≤ 2 * ramp + cruise := lt_or_ge _ _
  rcases le_or_gt timeEpsilon (gap + ramp) with h1 | h1
  · have hlt : ramp + cruise < timeEpsilon := hd.elim (fun hd => by linarith) fun hd => (hn hd).2.1 h1
    refine ⟨gap + ramp,h1,by linarith,by linarith,Or.inl rfl,?_⟩
    rintro k (rfl | rfl | rfl | rfl)
    · exact Or.inl hg
    all_goals exact Or.inr (by linarith)
  rcases le_or_gt timeEpsilon (gap + ramp + cruise) with h2 | h2
  · have hlt : gap + ramp + cruise < 4 * timeEpsilon :=
      hd.elim (fun hd => by linarith) fun hd => (hn hd).2.2
    refine ⟨gap + ramp + cruise,h2,hlt,by linarith,Or.inr (Or.inl rfl),?_⟩
    rintro k (rfl | rfl | rfl | rfl)
    · exact Or.inl hg
    · exact Or.inl h1
    all_goals exact Or.inr (by linarith)
  · refine ⟨gap + (2 * ramp + cruise),he,by linarith,by linarith,Or.inr (Or.inr rfl),?_⟩
    rintro k (rfl | rfl | rfl | rfl)
    · exact Or.inl hg
    · exact Or.inl h1
    · exact Or.inl h2
    · exact Or.inr le_rfl

theorem course_window {w o : ℝ}
    (hw : w = gap + ramp ∨ w = gap + ramp + cruise ∨ w = gap + (2 * ramp + cruise))
    (hk : ∀ k, k = gap ∨ k = gap + ramp ∨ k = gap + ramp + cruise ∨
      k = gap + (2 * ramp + cruise) → k < timeEpsilon ∨ w ≤ k) :
    o + w ∈ (course (o + gap) ramp cruise).boundaries ∧
      ∀ t ∈ (course (o + gap) ramp cruise).boundaries, t < o + timeEpsilon ∨ o + w ≤ t := by
  constructor
  · rw [mem_course_boundaries]
    rcases hw with hw | hw | hw
    · exact Or.inr (Or.inl (by linarith))
    · exact Or.inr (Or.inr (Or.inl (by linarith)))
    · exact Or.inr (Or.inr (Or.inr (by linarith)))
  · intro t ht
    rw [mem_course_boundaries] at ht
    have hk := hk (t - o) (by rcases ht with rfl | rfl | rfl | rfl <;> ring_nf <;> simp)
    exact hk.imp (fun hk => by linarith) fun hk => by linarith

/-- A jump may come from so far away that no turn is found in a short window. -/
theorem exists_far {w l : ℝ} (hw : 0 ≤ w) (hs : w < 4 * timeEpsilon) (hl : 0 ≤ l) : ∃ o, l < o ∧
    ∀ p, p ≤ l → (4 * timeEpsilon - w) * p + 2 * w * p ≤ (4 * timeEpsilon - w) * o := by
  have hroom : 0 < 4 * timeEpsilon - w := by linarith
  have hfar : 0 ≤ 2 * l * w / (4 * timeEpsilon - w) := div_nonneg (by positivity) hroom.le
  refine ⟨l + 2 * l * w / (4 * timeEpsilon - w) + 1,by linarith,fun p hp => ?_⟩
  have hcancel : (4 * timeEpsilon - w) * (2 * l * w / (4 * timeEpsilon - w)) = 2 * l * w :=
    mul_div_cancel₀ _ hroom.ne'
  have h1 : (4 * timeEpsilon - w) * p ≤ (4 * timeEpsilon - w) * l :=
    mul_le_mul_of_nonneg_left hp hroom.le
  have h2 : w * p ≤ w * l := mul_le_mul_of_nonneg_left hp hw
  linarith

/-- A move of which one short window is left makes no steps, though they would be due. -/
theorem astray_of_window (hg : 0 < gap) (hr : 0 ≤ ramp) (hc : 0 ≤ cruise) (h : 0 < ramp + cruise)
    (hge : gap < timeEpsilon) (he : timeEpsilon ≤ gap + (2 * ramp + cruise))
    (hn : ¬Rail.Clear gap ramp cruise) : Astray gap ramp cruise := by
  have hep := timeEpsilon_pos
  obtain ⟨w,hw,hw4,hend,hwm,hwk⟩ := exists_window hg.le hr hc hge he hn
  obtain ⟨o,hlo,hfar⟩ := exists_far (hep.le.trans hw) hw4 h.le
  have ho : 0 < o := h.trans hlo
  obtain ⟨hm,-⟩ := course_course (t := o + gap) hr hc h
  have hstart : (course (o + gap) ramp cruise).startTime = o + gap := rfl
  obtain ⟨hmem,hboundary⟩ := course_window (o := o) hwm hwk
  have hle := hm.sound.le_endTime_of_mem hmem
  obtain ⟨hp,hpl⟩ := course_positionAt hr hc h (by linarith) hle
  set p := (course (o + gap) ramp cruise).positionAt (o + w)
  -- a step is longer than what is lost, so the motor is more than half of one away
  have hx := poised_rests gap hp ho
  obtain ⟨st,hst,hplace,hdist⟩ := hx.steppers
  have hplan := planned_poised hp ho hg.le hr hc h
  obtain ⟨c,b,s,hd,hren,hrest,hb⟩ := hx.ready.drive_of_rest _ (ramp + cruise)
    one_pos (one_div_nonneg.2 hr) hx.rest
    (by rw [hplan,hx.flushed,hstart]; linarith) true
  rw [hplan] at hren hrest hb
  have hsteppers : ∀ s ∈ (poised p o gap).axis.rail.steppers, 0 < s.stepDistance ∧ s.place = 0 := by
    rw [hst]
    intro s hs
    rw [List.mem_singleton.1 hs]
    exact ⟨hdist ▸ hp,hplace⟩
  have hadv := Rail.advance_of_short o hren hm rfl
    (by rw [hx.flushed,hstart]; linarith) (by rw [hx.flushed,hstart]; linarith) hrest hmem
    (by rw [hx.flushed]; linarith) (by rw [course_endTime]; linarith)
    (by rw [hx.flushed]; exact hboundary) (by rw [hx.flushed]; linarith) (hpl.trans_lt hlo)
    (by rw [hx.flushed,add_sub_cancel_left]; exact hfar p hpl) hsteppers
  rw [hadv] at hb
  refine astray_of_poised hp ho hg.le hr hc h hd fun hl => ?_
  have hcount := hl.counter { st with commandedPos := p } (by
    change _ ∈ b.rail.steppers
    rw [hb]
    exact List.mem_map.2 ⟨st,by rw [hst]; exact List.mem_singleton_self st,rfl⟩)
  change |st.place - b.rail.commandedPos| ≤ st.stepDistance / 2 at hcount
  rw [hplace,hdist,hb] at hcount
  change |0 - p| ≤ p / 2 at hcount
  rw [zero_sub,abs_neg,abs_of_pos hp] at hcount
  linarith

theorem astray_of_not_clear (hg : 0 ≤ gap) (hr : 0 ≤ ramp) (hc : 0 ≤ cruise)
    (hn : ¬Rail.Clear gap ramp cruise) : Astray gap ramp cruise := by
  have hne := hn
  unfold Rail.Clear at hne
  push Not at hne
  obtain ⟨hd,hg0,hne⟩ := hne
  have hg : 0 < gap := lt_of_le_of_ne hg (Ne.symm hg0)
  have h : 0 < ramp + cruise := by
    rcases hr.eq_or_lt with rfl | hr
    · have hc : 0 < cruise := lt_of_le_of_ne hc fun hc => hd (by rw [← hc]; ring)
      linarith
    · linarith
  rcases lt_or_ge gap timeEpsilon with hge | hge
  · rcases lt_or_ge (gap + (2 * ramp + cruise)) timeEpsilon with he | he
    · exact astray_of_swallowed hg hr hc h (Or.inl he)
    · exact astray_of_window hg hr hc h hge he hn
  · refine astray_of_swallowed hg hr hc h (Or.inr ⟨hge,?_⟩)
    by_contra hlong
    exact absurd hge (not_le.2 (hne (not_lt.1 hlong)).1)

end Moves

/-- After every run of calm commands a fresh axis is where it was asked to be, with all its motors,
and homing moves are such runs. What makes a move calm is exact: with a gap behind the last flush,
and ramps and a cruise of given times, no move leads astray if and only if it is clear of a jump. -/
theorem located_iff (σ : Type) [MotionClock σ ℝ] [StepperEnable σ ℝ] (gap ramp cruise : ℝ) :
    (∀ x y : Session σ, x.Fresh → Relation.ReflTransGen Step x y → y.Located) ∧
    (∀ (x : Session σ) (coordinator : HomingRequest ℝ → HomingPlan ℝ) (target : ℝ)
      (speed accel : Option ℝ) (triggered checkTrigger : Bool),
      (∀ v w, x.axis.checkHoming speed accel = .ok (v,w) → (x.begin w).CalmPlan
        (coordinator ⟨x.axis.rail.endstops,[target,0,0,0],v,triggered,checkTrigger⟩)) →
      ∃ goal, Relation.ReflTransGen Step x
        ⟨(x.axis.homingMove x.surroundings coordinator target speed accel triggered
            checkTrigger).2.axis,
          (x.axis.homingMove x.surroundings coordinator target speed accel triggered
            checkTrigger).2.surroundings,goal⟩) ∧
    (0 ≤ gap → 0 ≤ ramp → 0 ≤ cruise → (¬Astray gap ramp cruise ↔ Rail.Clear gap ramp cruise)) := by
  refine ⟨fun x y hf run => (hf.invariant.of_run run).located,run_homingMove,
    fun hg hr hc => ⟨fun hn => ?_,?_⟩⟩
  · exact not_not.1 fun hclear => hn (astray_of_not_clear hg hr hc hclear)
  · rintro hclear ⟨x,y,target,speed,accel,hf,run,rfl,rfl,rfl,-,hn⟩
    have hstep : Step y (y.move target (some speed) (some accel) true) := by
      refine .move y target _ _ true fun v w hs => ?_
      obtain ⟨rfl,rfl,-⟩ := ManualAxis.speeds_eq_ok.1 hs
      exact Or.inr hclear
    exact hn (hf.invariant.of_run (run.tail hstep)).located

/-- An axis that was placed at a hundred believes to be back at five when it makes a short move. -/
theorem commandedPos_returns : (built 1 5).Fresh ∧
    ((resting 1 5 5 100 2).move (100 + 1 / 10 ^ 9) none none true).axis.rail.commandedPos = 5 ∧
    ¬((resting 1 5 5 100 2).move (100 + 1 / 10 ^ 9) none none true).Located := by
  have hx := resting_rests 5 100 2 one_pos (show (0 : ℝ) < 5 by norm_num)
  set x := resting 1 5 5 100 2
  have hflushed : x.axis.rail.lastFlushTime = 1 := by rw [hx.flushed]; norm_num
  have hsync := hx.sync (by norm_num)
  have hstart : (x.axis.planned x.surroundings (100 + 1 / 10 ^ 9) 5 0).startTime = 2 := hsync
  have hend : (x.axis.planned x.surroundings (100 + 1 / 10 ^ 9) 5 0).endTime = 2 + 2 / 10 ^ 10 := by
    rw [ManualAxis.planned_endTime,hsync,hx.commandedPos]
    norm_num [Profile.symmetric,Profile.duration]
  obtain ⟨b,s,hd,hb⟩ := hx.ready.drive_of_swallowed x.surroundings
    (100 + 1 / 10 ^ 9) (show (0 : ℝ) < 5 by norm_num) le_rfl hx.rest (by rw [hflushed,hstart]; norm_num)
    (by rw [hstart,hend]; norm_num)
    (Or.inr (by rw [hflushed,hstart,hend,timeEpsilon_exact]; norm_num)) true
  rw [move_eq hx.commandable hx.speeds hd]
  refine ⟨built_fresh 5 one_pos,hb,fun hl => ?_⟩
  have hgoal : |b.rail.commandedPos - (100 + 1 / 10 ^ 9)| ≤ 5 * timeEpsilon := hl.goal
  rw [hb,timeEpsilon_exact] at hgoal
  norm_num [abs_le] at hgoal

end Session

end Gantry
