import Mathlib
import Gantry.Proofs.Queue.Swept
import Gantry.Proofs.Rail.Arrival
import Gantry.Manual.ManualAxis

set_option autoImplicit false

namespace Gantry

namespace ManualAxis
variable {σ : Type} [MotionClock σ ℝ] {a : ManualAxis ℝ} {s : σ} {target speed accel : ℝ}

theorem sync_fst (a : ManualAxis ℝ) (s : σ) : (a.sync s).1 =
    { a with nextCmdTime := max a.nextCmdTime (MotionClock.lastMoveTime s).1 } := by
  unfold sync
  split
  rename_i t s' ht
  rw [ht]
  split
  · rename_i hlt
    rw [max_eq_left hlt.le]
  · rename_i hlt
    rw [max_eq_right (not_lt.1 hlt)]

@[simp] theorem sync_rail (a : ManualAxis ℝ) (s : σ) : (a.sync s).1.rail = a.rail := by
  rw [sync_fst]

@[simp] theorem sync_queue (a : ManualAxis ℝ) (s : σ) : (a.sync s).1.queue = a.queue := by
  rw [sync_fst]

@[simp] theorem sync_letter (a : ManualAxis ℝ) (s : σ) : (a.sync s).1.letter = a.letter := by
  rw [sync_fst]

theorem le_sync_nextCmdTime (a : ManualAxis ℝ) (s : σ) :
    a.nextCmdTime ≤ (a.sync s).1.nextCmdTime := by
  rw [sync_fst]; exact le_max_left _ _

noncomputable def planned (a : ManualAxis ℝ) (s : σ) (target speed accel : ℝ) : Segment ℝ :=
  (Profile.symmetric (target - a.rail.commandedPos) speed accel).segment
    (a.sync s).1.nextCmdTime a.rail.commandedPos accel

noncomputable def driven (a : ManualAxis ℝ) (rail : Rail ℝ) (queue : SegmentQueue ℝ) (t : ℝ) :
    ManualAxis ℝ :=
  { a with
    rail
    queue := queue.finalize (t + finalizeHorizon) (t + finalizeHorizon)
    nextCmdTime := t }

theorem planned_endTime (a : ManualAxis ℝ) (s : σ) (target speed accel : ℝ) :
    (a.planned s target speed accel).endTime = (a.sync s).1.nextCmdTime +
      (Profile.symmetric (target - a.rail.commandedPos) speed accel).duration :=
  Profile.segment_endTime

theorem planned_course (a : ManualAxis ℝ) (s : σ) (target : ℝ) (hv : 0 < speed) (ha : 0 ≤ accel) :
    ∃ d v, (a.planned s target speed accel).Course d v ∧ v ≤ speed := by
  have hp : (Profile.symmetric (target - a.rail.commandedPos) speed accel).Planned
      (target - a.rail.commandedPos) speed accel := Profile.symmetric_planned hv ha
  exact ⟨_,_,hp.course ha,hp.cruiseV_le⟩

theorem planned_endPosition (a : ManualAxis ℝ) (s : σ) (target : ℝ) (hv : 0 < speed)
    (ha : 0 ≤ accel) : (a.planned s target speed accel).endPosition = target := by
  rw [planned,(Profile.symmetric_planned hv ha).endPosition]
  ring

theorem drive_eq (a : ManualAxis ℝ) (s : σ) (target speed accel : ℝ) (synchronize : Bool) :
    a.drive s target speed accel synchronize =
      match a.queue.append 0 (a.planned s target speed accel) with
      | .error e => (.error (.queue e),a.sync s)
      | .ok queue =>
        let t := (a.planned s target speed accel).endTime
        match a.rail.generateSteps (some queue) t with
        | .error e => (.error e,{ a with queue, nextCmdTime := t },(a.sync s).2)
        | .ok rail =>
          let b := a.driven rail queue t
          let s' := MotionClock.noteActivity t (a.sync s).2
          (.ok (),if synchronize then b.sync s' else (b,s')) := by
  have hs := sync_fst a s
  rw [planned_endTime]
  unfold drive planned
  generalize a.sync s = x at *
  obtain ⟨b,s₁⟩ := x
  simp only at hs ⊢
  subst hs
  cases happ : a.queue.append 0 _ with
  | error e => rfl
  | ok queue =>
    simp only [generateSteps]
    cases hg : a.rail.generateSteps (some queue) _ with
    | error e => rfl
    | ok rail => rfl

/-- However a move ends, it changes the rail, the queue and the clock of an axis only. -/
theorem drive_frame (a : ManualAxis ℝ) (s : σ) (target speed accel : ℝ) (synchronize : Bool) :
    ∃ rail queue t, (a.drive s target speed accel synchronize).2.1 =
      { a with rail, queue, nextCmdTime := t } := by
  rw [drive_eq]
  split
  · rw [sync_fst]
    exact ⟨_,_,_,rfl⟩
  · dsimp only
    split
    · exact ⟨_,_,_,rfl⟩
    · cases synchronize with
      | true =>
        simp only [if_true]
        rw [sync_fst]
        exact ⟨_,_,_,rfl⟩
      | false => exact ⟨_,_,_,rfl⟩

section Stepped
variable {queue : SegmentQueue ℝ} {rail : Rail ℝ}

theorem drive_of_stepped (synchronize : Bool)
    (ha : a.queue.append 0 (a.planned s target speed accel) = .ok queue)
    (hg : a.rail.generateSteps (some queue) (a.planned s target speed accel).endTime = .ok rail) :
    a.drive s target speed accel synchronize = (.ok (),
      let b := a.driven rail queue (a.planned s target speed accel).endTime
      let s' := MotionClock.noteActivity b.nextCmdTime (a.sync s).2
      if synchronize then b.sync s' else (b,s')) := by
  rw [drive_eq,ha]
  dsimp only
  rw [hg]
  rfl

theorem drive_ok (synchronize : Bool)
    (ha : a.queue.append 0 (a.planned s target speed accel) = .ok queue)
    (hg : a.rail.generateSteps (some queue) (a.planned s target speed accel).endTime = .ok rail) :
    ∃ b s', a.drive s target speed accel synchronize = (.ok (),b,s') ∧ b.rail = rail ∧
      b.queue = (a.driven rail queue (a.planned s target speed accel).endTime).queue ∧
      (a.planned s target speed accel).endTime ≤ b.nextCmdTime := by
  have hdrive := drive_of_stepped synchronize ha hg
  set b := a.driven rail queue (a.planned s target speed accel).endTime
  set s' := MotionClock.noteActivity b.nextCmdTime (a.sync s).2
  cases synchronize with
  | true =>
    exact ⟨(b.sync s').1,(b.sync s').2,hdrive,b.sync_rail s',b.sync_queue s',
      b.le_sync_nextCmdTime s'⟩
  | false => exact ⟨b,s',hdrive,rfl,rfl,le_rfl⟩

end Stepped

/-- An axis between two commands: stepped behind all its segments, with its motors settled. -/
structure Ready (a : ManualAxis ℝ) : Prop where
  allocator : a.rail.allocator = .cartesian .x
  settled : a.rail.Settled
  flushed : a.rail.lastFlushTime ≤ a.nextCmdTime
  ended : ∃ c, a.queue.channels[0]? = some c ∧
    ∀ m ∈ c.timeline, m.Sound ∧ m.endTime ≤ a.rail.lastFlushTime

/-- A segment that a jump behind the last flush does not disturb. There is no jump if it goes on
where the queue ended. -/
def Calm (a : ManualAxis ℝ) (m : Segment ℝ) : Prop :=
  (∀ o ∈ (a.queue.line 0).rest, o = m.startPos) ∨
    Rail.Clear (m.startTime - a.rail.lastFlushTime) m.accelT m.cruiseT

theorem Ready.later {b : ManualAxis ℝ} (h : a.Ready) (hr : b.rail = a.rail)
    (hq : b.queue = a.queue) (ht : a.nextCmdTime ≤ b.nextCmdTime) : b.Ready := by
  refine ⟨?_,?_,?_,?_⟩ <;> rw [hr]
  · exact h.allocator
  · exact h.settled
  · exact h.flushed.trans ht
  · rw [hq]; exact h.ended

theorem Ready.append (h : a.Ready) (s : σ) (hv : 0 < speed) (ha : 0 ≤ accel) :
    ∃ c queue, a.queue.channels[0]? = some c ∧
      (∀ m ∈ c.timeline, m.Sound ∧ m.endTime ≤ a.rail.lastFlushTime) ∧
      a.queue.append 0 (a.planned s target speed accel) = .ok queue ∧
      queue.channels[0]? = some (c.push (a.planned s target speed accel)) := by
  obtain ⟨c,hc,hended⟩ := h.ended
  have htaken : c.admits (a.planned s target speed accel) = .ok () := by
    refine Channel.admits_of_endTime_le fun m ht => ?_
    rw [Channel.tail?_eq_head?] at ht
    have hend := (hended m (List.mem_of_mem_head? ht)).2.trans h.flushed
    exact hend.trans (a.le_sync_nextCmdTime s)
  have hvalid : (a.planned s target speed accel).validate = .ok () :=
    (Profile.symmetric_planned hv ha).validate
  refine ⟨c,_,hc,hended,SegmentQueue.append_eq_ok.2
    ⟨SegmentQueue.admits_eq_ok.2 ⟨hvalid,c,hc,htaken⟩,rfl⟩,?_⟩
  rw [SegmentQueue.getElem?_push,if_pos rfl,hc]
  rfl

/-- A calm segment is stepped, and leaves the axis between two commands, at its target up to what
the slack hides. -/
theorem Ready.driven (h : a.Ready) (s : σ) (hv : 0 < speed) (ha : 0 ≤ accel)
    (hc : a.Calm (a.planned s target speed accel)) :
    ∃ queue rail, a.queue.append 0 (a.planned s target speed accel) = .ok queue ∧
      a.rail.generateSteps (some queue) (a.planned s target speed accel).endTime = .ok rail ∧
      (a.driven rail queue (a.planned s target speed accel).endTime).Ready ∧
      rail.lastFlushTime = (a.planned s target speed accel).endTime ∧
      ((a.driven rail queue (a.planned s target speed accel).endTime).queue.line 0).rest =
        some target ∧
      |rail.commandedPos - target| ≤ speed * timeEpsilon := by
  obtain ⟨c,queue,hq,hended,happ,hq'⟩ := h.append s hv ha
  obtain ⟨d,v,hm,hle⟩ := planned_course a s target hv ha
  have hend := planned_endPosition a s target hv ha
  have hline : a.queue.line 0 = c.timeline := SegmentQueue.line_eq hq
  obtain ⟨rail,hg,hal,hf,har⟩ := Rail.generateSteps_arrived h.allocator hq' (c.timeline_push _)
    hended hm (h.flushed.trans (a.le_sync_nextCmdTime s)) h.settled rfl
    (by rw [← hline]; exact hc)
  set m := a.planned s target speed accel
  -- finalizing leaves segments that have ended, the newest among them
  have hfin := SegmentQueue.getElem?_finalize queue (m.endTime + finalizeHorizon)
    (m.endTime + finalizeHorizon) 0
  rw [hq'] at hfin
  obtain ⟨e,he,htail,hsub⟩ := SegmentQueue.mem_of_mem_finalize hfin
  obtain rfl := Option.some.inj (hq'.symm.trans he)
  refine ⟨queue,rail,happ,hg,⟨hal.trans h.allocator,har.1,hf.le,_,hfin,fun n hn => ?_⟩,hf,?_,?_⟩
  · have hn := hsub n ((Channel.mem_timeline _ n).1 hn)
    rw [← Channel.mem_timeline,Channel.timeline_push,List.mem_cons] at hn
    change n.Sound ∧ n.endTime ≤ rail.lastFlushTime
    rw [hf]
    rcases hn with rfl | hn
    · exact ⟨hm.sound,le_rfl⟩
    · have hend := (hended n hn).2.trans (h.flushed.trans (a.le_sync_nextCmdTime s))
      exact ⟨(hended n hn).1,hend.trans hm.sound.startTime_le_endTime⟩
  · rw [Channel.tail?_push,Channel.tail?_eq_head?] at htail
    change (SegmentQueue.line (queue.finalize _ _) 0).rest = _
    rw [SegmentQueue.line_eq hfin,← hend]
    exact Timeline.rest_of_head? htail
  · rw [← hend]
    exact (har.abs_sub_le hm).trans (mul_le_mul_of_nonneg_right hle timeEpsilon_pos.le)

theorem Ready.drive (h : a.Ready) (hv : 0 < speed) (ha : 0 ≤ accel)
    (hc : a.Calm (a.planned s target speed accel)) (synchronize : Bool) :
    ∃ b s', a.drive s target speed accel synchronize = (.ok (),b,s') ∧ b.Ready ∧
      |b.rail.commandedPos - target| ≤ speed * timeEpsilon := by
  obtain ⟨queue,rail,happ,hg,hready,-,-,hat⟩ := h.driven s hv ha hc
  obtain ⟨b,s',hd,hr,hq,ht⟩ := drive_ok synchronize happ hg
  exact ⟨b,s',hd,hready.later hr hq ht,by rw [hr]; exact hat⟩

end ManualAxis

end Gantry
