import Mathlib
import Gantry.Proofs.Manual.Handover

/-!
Punctual axes: a manual axis that the toolhead never drives, and the clock of the machine around it.
The clock may run on by itself, but it never falls, and a delay adds what was asked for. Then no move
is refused for its order, no delay that is asked for is empty or negative, the time of the axis never
goes back, and where the axis brings both clocks together they show the same time.
-/
set_option autoImplicit false

namespace Gantry

section Surroundings
variable {σ : Type} [MotionClock σ ℝ] [StepperEnable σ ℝ]

/-- What a clock shows. It reports what it shows then, and no call lets it fall. -/
structure ClockFace (σ : Type) [MotionClock σ ℝ] [StepperEnable σ ℝ] where
  shown : σ → ℝ
  time_eq : ∀ s, time s = shown (MotionClock.lastMoveTime s).2
  le_read : ∀ s, shown s ≤ shown (MotionClock.lastMoveTime s).2
  shown_dwell : ∀ d s, 0 < d → shown (MotionClock.dwell d s) = shown s + d
  le_note : ∀ t s, shown s ≤ shown (MotionClock.noteActivity t s)
  le_enable : ∀ name on t s, shown s ≤ shown (StepperEnable.setEnabled name on t s)

inductive Call : σ → σ → Prop where
  | read (s : σ) : Call s (MotionClock.lastMoveTime s).2
  | dwell (d : ℝ) (s : σ) : 0 < d → Call s (MotionClock.dwell d s)
  | note (t : ℝ) (s : σ) : Call s (MotionClock.noteActivity t s)
  | enable (name : Name) (on : Bool) (t : ℝ) (s : σ) : Call s (StepperEnable.setEnabled name on t s)

def Calls : σ → σ → Prop := Relation.ReflTransGen Call

structure ClockFace.Still (clock : ClockFace σ) : Prop where
  shown_read : ∀ s, clock.shown (MotionClock.lastMoveTime s).2 = clock.shown s
  shown_note : ∀ t s, clock.shown (MotionClock.noteActivity t s) = clock.shown s

theorem ClockFace.shown_le (clock : ClockFace σ) {s s' : σ} (h : Calls s s') :
    clock.shown s ≤ clock.shown s' := by
  induction h with
  | refl => exact le_rfl
  | tail _ call ih =>
    refine ih.trans ?_
    cases call with
    | read => exact clock.le_read _
    | dwell d _ hd =>
      rw [clock.shown_dwell d _ hd]
      linarith
    | note t => exact clock.le_note t _
    | enable name on t => exact clock.le_enable name on t _

theorem calls_setEnabled (refs : List StepperRef) (on : Bool) (t : ℝ) (s : σ) :
    Calls s (refs.foldl (fun s r => StepperEnable.setEnabled r.name on t s) s) := by
  induction refs generalizing s with
  | nil => exact .refl
  | cons r refs ih => exact .head (.enable r.name on t s) (ih _)

end Surroundings

namespace Toolhead

def face : ClockFace (Toolhead ℝ) where
  shown t := t.clock
  time_eq _ := rfl
  le_read _ := le_rfl
  shown_dwell _ _ _ := rfl
  le_note _ _ := le_rfl
  le_enable _ _ _ _ := le_rfl

end Toolhead

theorem Rail.generateSteps_fed {r : Rail ℝ} {q : SegmentQueue ℝ} {c : Channel ℝ} {axis : Axis}
    (ha : r.allocator = .cartesian axis) (hc : q.channels[axis.index]? = some c)
    (hne : c.timeline ≠ []) (upto : ℝ) :
    ∃ r', r.generateSteps (some q) upto = .ok r' ∧ r'.allocator = r.allocator := by
  rcases le_or_gt upto r.lastFlushTime with hle | hlt
  · exact ⟨r,generateSteps_of_le hle,rfl⟩
  · obtain ⟨p,hp⟩ := Timeline.positionAt_isSome hne r.lastFlushTime
    exact ⟨_,generateSteps_cartesian ha hlt hc hp,advance_allocator⟩

namespace ManualAxis
variable {σ : Type} [MotionClock σ ℝ] {a b : ManualAxis ℝ} {s : σ} {target v w : ℝ}

/-- An axis that takes commands of its own alone. All segments in its queue are finalized, and end by
its time. -/
structure Swept (a : ManualAxis ℝ) : Prop where
  letter : a.letter = none
  allocator : a.rail.allocator = .cartesian .x
  queue : a.queue.Swept a.nextCmdTime
  accel : a.state = .homing → 0 ≤ a.homingAccel

theorem Swept.later (h : a.Swept) (hl : b.letter = a.letter)
    (hr : b.rail.allocator = a.rail.allocator) (hq : b.queue = a.queue)
    (ht : a.nextCmdTime ≤ b.nextCmdTime) (ha : b.state = .homing → 0 ≤ b.homingAccel) :
    b.Swept := by
  refine ⟨hl.trans h.letter,hr.trans h.allocator,?_,ha⟩
  rw [hq]
  exact h.queue.mono ht

noncomputable def arrival (a : ManualAxis ℝ) (s : σ) (target v w : ℝ) : ℝ :=
  max a.nextCmdTime (time s) + (Profile.symmetric (target - a.rail.commandedPos) v w).duration

theorem sync_nextCmdTime (a : ManualAxis ℝ) (s : σ) :
    (a.sync s).1.nextCmdTime = max a.nextCmdTime (time s) := by
  rw [sync_fst]
  rfl

theorem planned_arrival (a : ManualAxis ℝ) (s : σ) (target v w : ℝ) :
    (a.planned s target v w).startTime = max a.nextCmdTime (time s) ∧
      (a.planned s target v w).endTime = a.arrival s target v w := by
  refine ⟨a.sync_nextCmdTime s,?_⟩
  rw [planned_endTime,sync_nextCmdTime,arrival]

theorem le_arrival (a : ManualAxis ℝ) (s : σ) (target : ℝ) (hv : 0 < v) (hw : 0 ≤ w) :
    max a.nextCmdTime (time s) ≤ a.arrival s target v w := by
  obtain ⟨d,u,hm,-⟩ := a.planned_course s target hv hw
  rw [← (a.planned_arrival s target v w).1,← (a.planned_arrival s target v w).2]
  exact hm.sound.startTime_le_endTime

theorem Swept.driven (h : a.Swept) (s : σ) (target : ℝ) (hv : 0 < v) (hw : 0 ≤ w) :
    ∃ b : ManualAxis ℝ, b.Swept ∧ b.nextCmdTime = a.arrival s target v w ∧
      b.queue.segments 0 = .ok [a.planned s target v w] ∧
      ∀ synchronize, a.drive s target v w synchronize = (.ok (),
        let s' := MotionClock.noteActivity b.nextCmdTime (a.sync s).2
        if synchronize then b.sync s' else (b,s')) := by
  obtain ⟨hstart,hend⟩ := a.planned_arrival s target v w
  have hle := (le_max_left _ _).trans (a.le_arrival s target hv hw)
  have hvalid : (a.planned s target v w).validate = .ok () :=
    (Profile.symmetric_planned hv hw).validate
  set m := a.planned s target v w
  set t := a.arrival s target v w
  have hhorizon : t < t + finalizeHorizon := by norm_num [finalizeHorizon]
  have happ : a.queue.append 0 m = .ok (a.queue.push 0 m) :=
    h.queue.append hvalid (hstart ▸ le_max_left _ _)
  obtain ⟨c,hc⟩ := h.queue.push m
  obtain ⟨rail,hg,hal⟩ := Rail.generateSteps_fed h.allocator hc
    (by rw [Channel.timeline_push]; exact List.cons_ne_nil _ _) m.endTime
  obtain ⟨hswept,hkept⟩ := h.queue.finalize_push (hend.trans_le hhorizon.le) (hle.trans_lt hhorizon)
  refine ⟨a.driven rail (a.queue.push 0 m) t,⟨h.letter,hal.trans h.allocator,?_,h.accel⟩,rfl,hkept,
    fun synchronize => ?_⟩
  · rw [hend] at hswept
    exact hswept
  · rw [drive_of_stepped synchronize happ hg,hend]

section Calls
variable [StepperEnable σ ℝ]

theorem calls_sync (a : ManualAxis ℝ) (s : σ) : Calls s (a.sync s).2 := by
  have hread := Call.read s
  unfold sync
  split
  rename_i t s' ht
  rw [ht] at hread
  split
  · rename_i hlt
    exact .tail (.single hread) (.dwell _ _ (sub_pos.2 hlt))
  · exact .single hread

theorem shown_sync (clock : ClockFace σ) (a : ManualAxis ℝ) (s : σ) :
    clock.shown (a.sync s).2 = (a.sync s).1.nextCmdTime := by
  have hread := clock.time_eq s
  unfold time at hread
  unfold sync
  split
  rename_i t s' ht
  rw [ht] at hread
  split
  · rename_i hlt
    rw [clock.shown_dwell _ _ (sub_pos.2 hlt),← hread]
    exact add_sub_cancel _ _
  · exact hread.symm

/-- What has become of an axis and its surroundings: the axis is swept again, delays were positive,
and the time of the axis has not gone back. -/
structure Onward (a : ManualAxis ℝ) (s : σ) (r : ManualAxis ℝ × σ) : Prop where
  swept : r.1.Swept
  calls : Calls s r.2
  le : a.nextCmdTime ≤ r.1.nextCmdTime

theorem Swept.onward (h : a.Swept) (s : σ) : a.Onward s (a,s) := ⟨h,.refl,le_rfl⟩

theorem Onward.trans {s' : σ} {r : ManualAxis ℝ × σ} (h : a.Onward s (b,s'))
    (hr : b.Onward s' r) : a.Onward s r :=
  ⟨hr.swept,h.calls.trans hr.calls,h.le.trans hr.le⟩

theorem Swept.sync (h : a.Swept) (s : σ) : a.Onward s (a.sync s) := by
  refine ⟨h.later (a.sync_letter s) (by rw [sync_rail]) (a.sync_queue s) (a.le_sync_nextCmdTime s) ?_,
    a.calls_sync s,a.le_sync_nextCmdTime s⟩
  rw [sync_fst]
  exact h.accel

theorem Swept.place (h : a.Swept) (s : σ) {pos : ℝ} (hb : a.place pos = .ok b) :
    a.Onward s (b,s) := by
  rw [place_eq h.allocator] at hb
  cases hb
  exact ⟨h.later rfl rfl rfl le_rfl h.accel,.refl,le_rfl⟩

/-- What a move leaves: its segment alone, which is finalized and lies between the start and the
arrival. The time of the axis is that of the arrival. A synchronized move brings it to the clock, if
that has run past the arrival by itself, and otherwise the clock to it. -/
structure Moved (clock : ClockFace σ) (a : ManualAxis ℝ) (s : σ) (target v w : ℝ)
    (synchronize : Bool) (r : ManualAxis ℝ × σ) : Prop where
  kept : ∃ m, r.1.queue.segments 0 = .ok [m] ∧ m.startTime = max a.nextCmdTime (time s) ∧
    m.endTime = a.arrival s target v w
  pending : r.1.queue.pending 0 = .ok 0
  next : synchronize = false ∨ clock.Still → r.1.nextCmdTime = a.arrival s target v w
  met : synchronize = true → clock.shown r.2 = r.1.nextCmdTime ∧
    r.1.nextCmdTime = max (a.arrival s target v w)
      (time (MotionClock.noteActivity (a.arrival s target v w) (a.sync s).2))

theorem time_le_arrival {clock : ClockFace σ} (h : clock.Still) (a : ManualAxis ℝ) (s : σ)
    (target : ℝ) (hv : 0 < v) (hw : 0 ≤ w) :
    time (MotionClock.noteActivity (a.arrival s target v w) (a.sync s).2) ≤
      a.arrival s target v w := by
  rw [clock.time_eq,h.shown_read,h.shown_note,shown_sync,sync_nextCmdTime]
  exact a.le_arrival s target hv hw

theorem Swept.drive (h : a.Swept) (clock : ClockFace σ) (s : σ) (target : ℝ) (hv : 0 < v)
    (hw : 0 ≤ w) (synchronize : Bool) :
    (a.drive s target v w synchronize).1 = .ok () ∧
      a.Onward s (a.drive s target v w synchronize).2 ∧
      a.Moved clock s target v w synchronize (a.drive s target v w synchronize).2 := by
  obtain ⟨b,hb,ht,hkept,hdrive⟩ := h.driven s target hv hw
  have hplan := a.planned_arrival s target v w
  have honward : a.Onward s (b,MotionClock.noteActivity b.nextCmdTime (a.sync s).2) := by
    refine ⟨hb,(a.calls_sync s).tail (.note _ _),?_⟩
    rw [ht]
    exact (le_max_left _ _).trans (a.le_arrival s target hv hw)
  rw [hdrive]
  cases synchronize with
  | false =>
    exact ⟨rfl,honward,⟨_,hkept,hplan⟩,hb.queue.pending,fun _ => ht,nofun⟩
  | true =>
    set s' := MotionClock.noteActivity b.nextCmdTime (a.sync s).2 with hs'
    have hnext : (b.sync s').1.nextCmdTime = max (a.arrival s target v w)
        (time (MotionClock.noteActivity (a.arrival s target v w) (a.sync s).2)) := by
      rw [sync_nextCmdTime,hs',ht]
    refine ⟨rfl,honward.trans (hb.sync s'),⟨_,?_,hplan⟩,?_,?_,fun _ => ⟨?_,hnext⟩⟩
    · change (b.sync s').1.queue.segments 0 = _
      rw [sync_queue]; exact hkept
    · exact (hb.sync s').swept.queue.pending
    · rintro (hfalse | hstill)
      · cases hfalse
      · exact hnext.trans (max_eq_left (time_le_arrival hstill a s target hv hw))
    · exact shown_sync clock b s'

theorem Swept.moveTo (h : a.Swept) (clock : ClockFace σ) (s : σ) (target : ℝ)
    (speed accel : Option ℝ) (synchronize : Bool) :
    a.Onward s (a.moveTo s target speed accel synchronize).2 := by
  rcases a.moveTo_cases s target speed accel synchronize with ⟨hc,v,w,hs⟩ | ⟨e,he⟩
  · obtain ⟨-,-,hv,hw⟩ := speeds_eq_ok.1 hs
    rw [moveTo_eq target synchronize hc hs]
    exact (h.drive clock s target hv hw synchronize).2.1
  · rw [he]
    exact h.onward s

def switched (a : ManualAxis ℝ) (s : σ) (on : Bool) : σ :=
  a.rail.stepperRefs.foldl (fun s r => StepperEnable.setEnabled r.name on a.nextCmdTime s) s

theorem enable_eq (hc : a.checkCommandable = .ok ()) (s : σ) (on : Bool) :
    a.enable s on = (.ok (),(a.sync s).1.sync ((a.sync s).1.switched (a.sync s).2 on)) := by
  unfold ManualAxis.enable
  rw [hc]
  rfl

theorem Swept.enable (h : a.Swept) (clock : ClockFace σ) (s : σ) (on : Bool)
    (hidle : a.state = .idle) : (a.enable s on).1 = .ok () ∧ a.Onward s (a.enable s on).2 ∧
      clock.shown (a.enable s on).2.2 = (a.enable s on).2.1.nextCmdTime := by
  have hsync := h.sync s
  have hcalls : Calls s ((a.sync s).1.switched (a.sync s).2 on) :=
    hsync.calls.trans (calls_setEnabled _ on _ _)
  have hswitch : a.Onward s ((a.sync s).1,(a.sync s).1.switched (a.sync s).2 on) :=
    ⟨hsync.swept,hcalls,hsync.le⟩
  rw [enable_eq (checkCommandable_eq_ok.2 ⟨h.letter,hidle⟩)]
  exact ⟨rfl,hswitch.trans (hsync.swept.sync _),shown_sync clock _ _⟩

theorem enable_refused (hbusy : a.state ≠ .idle) (s : σ) (on : Bool) :
    (a.enable s on).2 = (a,s) := by
  unfold ManualAxis.enable
  rcases a.checkCommandable_cases with hc | ⟨e,hc⟩
  · exact absurd (checkCommandable_eq_ok.1 hc).2 hbusy
  · rw [hc]

end Calls

end ManualAxis

def HomingAction.Forward : HomingAction ℝ → Prop
  | .dripMove _ speed => 0 < speed
  | _ => True

namespace ManualAxis
variable {σ : Type} [MotionClock σ ℝ] [StepperEnable σ ℝ] {a : ManualAxis ℝ}

theorem Swept.answer (h : a.Swept) (clock : ClockFace σ) (s : σ) (hs : a.state = .homing)
    {action : HomingAction ℝ} (hf : action.Forward) : a.Onward s (a.answer s action).2 := by
  cases action with
  | setPosition coord =>
    simp only [ManualAxis.answer]
    cases hp : firstOf coord >>= a.place with
    | ok b =>
      obtain ⟨pos,-,hp⟩ := Results.bind_eq_ok.1 hp
      exact h.place s hp
    | error e => exact h.onward s
  | flush => exact h.sync s
  | lastMoveTime => exact h.sync s
  | dwell d =>
    have hle : a.nextCmdTime ≤ (a.delay d).nextCmdTime := by simp [delay]
    exact ⟨h.later rfl rfl rfl hle h.accel,.refl,hle⟩
  | dripMove coord speed =>
    simp only [ManualAxis.answer]
    cases coord with
    | nil => exact h.onward s
    | cons target coord => exact (h.drive clock s target hf (h.accel hs) true).2.1
  | position => exact h.onward s
  | steppers => exact h.onward s
  | calcPosition p => exact h.onward s
  | stepperPositions => exact h.onward s

end ManualAxis

namespace Session
variable {σ : Type} {x y : Session σ}

structure New (x : Session σ) : Prop where
  axis : ∃ name rail velocity accel, x.axis = .ofRail name rail velocity accel
  allocator : x.axis.rail.allocator = default

theorem New.swept (h : x.New) : x.axis.Swept := by
  obtain ⟨name,rail,velocity,accel,ha⟩ := h.axis
  refine ⟨?_,h.allocator,?_,?_⟩ <;> rw [ha]
  · rfl
  · exact SegmentQueue.swept_ofChannels _
  · exact fun hs => nomatch hs

variable [MotionClock σ ℝ] [StepperEnable σ ℝ]

inductive Act : Session σ → Session σ → Prop where
  | place (x : Session σ) (pos : ℝ) : Act x (x.place pos)
  | move (x : Session σ) (target : ℝ) (speed accel : Option ℝ) (synchronize : Bool) :
      Act x (x.move target speed accel synchronize)
  | enable (x : Session σ) (on : Bool) : Act x (x.enable on)
  | begin (x : Session σ) (speed accel : Option ℝ) (v w : ℝ) :
      x.axis.checkHoming speed accel = .ok (v,w) → Act x (x.begin w)
  | ask (x : Session σ) (action : HomingAction ℝ) :
      x.axis.state = .homing → action.Forward → Act x (x.ask action)
  | finish (x : Session σ) : x.axis.state = .homing → Act x x.finish

inductive Passage (clock : ClockFace σ) : Session σ → Session σ → Prop where
  | act {x y : Session σ} : Act x y → Passage clock x y
  | elapse (x : Session σ) (surroundings : σ) :
      clock.shown x.surroundings ≤ clock.shown surroundings → Passage clock x { x with surroundings }

omit [StepperEnable σ ℝ] in
theorem move_snd (x : Session σ) (target : ℝ) (speed accel : Option ℝ) (synchronize : Bool) :
    ((x.move target speed accel synchronize).axis,
      (x.move target speed accel synchronize).surroundings) =
      (x.axis.moveTo x.surroundings target speed accel synchronize).2 := by
  unfold Session.move
  split <;> rename_i h <;> rw [h]

theorem onward_of_act (clock : ClockFace σ) (h : x.axis.Swept) (act : Act x y) :
    x.axis.Onward x.surroundings (y.axis,y.surroundings) := by
  cases act with
  | place pos =>
    unfold Session.place
    split
    · rename_i b hb
      exact h.place _ (Results.check_eq_ok.1 hb).2
    · exact h.onward _
  | move target speed accel synchronize =>
    rw [move_snd]
    exact h.moveTo clock _ target speed accel synchronize
  | enable on =>
    by_cases hidle : x.axis.state = .idle
    · exact (h.enable clock _ on hidle).2.1
    · have henable := ManualAxis.enable_refused hidle x.surroundings on
      change x.axis.Onward _ (x.axis.enable x.surroundings on).2
      rw [henable]
      exact h.onward _
  | begin speed accel v w hc =>
    exact ⟨h.later rfl rfl rfl le_rfl fun _ => ManualAxis.accel_of_checkHoming hc,.refl,le_rfl⟩
  | ask action hs hf => exact h.answer clock _ hs hf
  | finish hs => exact ⟨h.later rfl rfl rfl le_rfl nofun,.refl,le_rfl⟩

theorem swept_of_run (clock : ClockFace σ) (h : x.axis.Swept)
    (run : Relation.ReflTransGen (Passage clock) x y) : y.axis.Swept ∧
      clock.shown x.surroundings ≤ clock.shown y.surroundings ∧
      x.axis.nextCmdTime ≤ y.axis.nextCmdTime := by
  induction run with
  | refl => exact ⟨h,le_rfl,le_rfl⟩
  | tail _ passage ih =>
    obtain ⟨hs,hshown,hnext⟩ := ih
    cases passage with
    | act hact =>
      have hon := onward_of_act clock hs hact
      exact ⟨hon.swept,hshown.trans (clock.shown_le hon.calls),hnext.trans hon.le⟩
    | elapse s hle => exact ⟨hs,hshown.trans hle,hnext⟩

def Forward (x : Session σ) : HomingPlan ℝ → Prop
  | .finish _ => True
  | .ask action next => action.Forward ∧
      (x.ask action).Forward (next (x.axis.answer x.surroundings action).1)

theorem acts_homingMove (x : Session σ) (coordinator : HomingRequest ℝ → HomingPlan ℝ) (target : ℝ)
    (speed accel : Option ℝ) (triggered checkTrigger : Bool)
    (hf : ∀ v w, x.axis.checkHoming speed accel = .ok (v,w) → (x.begin w).Forward
      (coordinator ⟨x.axis.rail.endstops,[target,0,0,0],v,triggered,checkTrigger⟩)) :
    ∃ y, Relation.ReflTransGen Act x y ∧
      y.axis = (x.axis.homingMove x.surroundings coordinator target speed accel triggered
        checkTrigger).2.axis ∧
      y.surroundings = (x.axis.homingMove x.surroundings coordinator target speed accel triggered
        checkTrigger).2.surroundings ∧
      (x.axis.state = .idle → y.axis.state = .idle) :=
  exists_run_homingMove (R := Act) .begin
    (fun x action _ hs hp => ⟨.ask x action hs hp.1,hp.2⟩) .finish x coordinator target speed
    accel triggered checkTrigger hf

/-- Nothing is pending, and all that the queue knows ends by the time of the axis. No act asks for a
delay that is not positive, or brings the time of the axis back. A move with a speed succeeds, also
the drip move of a coordinator. What synchronizes leaves both clocks at the same time. Homing moves
are runs of acts. -/
structure Punctual (clock : ClockFace σ) (x : Session σ) : Prop where
  pending : x.axis.queue.pending 0 = .ok 0
  tailEnd : ∃ e, x.axis.queue.tailEnd 0 = .ok e ∧ ∀ t ∈ e, t ≤ x.axis.nextCmdTime
  act : ∀ y, Act x y → Calls x.surroundings y.surroundings ∧
    x.axis.nextCmdTime ≤ y.axis.nextCmdTime
  move : ∀ target speed accel synchronize, x.axis.state = .idle →
    0 < speed.getD x.axis.velocity → 0 ≤ accel.getD x.axis.accel →
    (x.axis.moveTo x.surroundings target speed accel synchronize).1 = .ok () ∧
      x.axis.Moved clock x.surroundings target (speed.getD x.axis.velocity)
        (accel.getD x.axis.accel) synchronize
        (x.axis.moveTo x.surroundings target speed accel synchronize).2
  drip : ∀ target rest speed, x.axis.state = .homing → 0 < speed →
    (x.axis.answer x.surroundings (.dripMove (target :: rest) speed)).1 = .ok .done ∧
      x.axis.Moved clock x.surroundings target speed x.axis.homingAccel true
        (x.axis.answer x.surroundings (.dripMove (target :: rest) speed)).2
  enable : ∀ on, x.axis.state = .idle → (x.axis.enable x.surroundings on).1 = .ok () ∧
    clock.shown (x.axis.enable x.surroundings on).2.2 =
      (x.axis.enable x.surroundings on).2.1.nextCmdTime
  flush : clock.shown (x.axis.answer x.surroundings .flush).2.2 =
    (x.axis.answer x.surroundings .flush).2.1.nextCmdTime
  lastMoveTime : ∃ t, (x.axis.answer x.surroundings .lastMoveTime).1 = .ok (.time t) ∧
    (x.axis.answer x.surroundings .lastMoveTime).2.1.nextCmdTime = t ∧
    clock.shown (x.axis.answer x.surroundings .lastMoveTime).2.2 = t
  homingMove : ∀ coordinator target speed accel triggered checkTrigger,
    (∀ v w, x.axis.checkHoming speed accel = .ok (v,w) → (x.begin w).Forward
      (coordinator ⟨x.axis.rail.endstops,[target,0,0,0],v,triggered,checkTrigger⟩)) →
    ∃ y, Relation.ReflTransGen Act x y ∧
      y.axis = (x.axis.homingMove x.surroundings coordinator target speed accel triggered
        checkTrigger).2.axis ∧
      y.surroundings = (x.axis.homingMove x.surroundings coordinator target speed accel triggered
        checkTrigger).2.surroundings ∧
      (x.axis.state = .idle → y.axis.state = .idle)

theorem punctual_of_swept (clock : ClockFace σ) (h : x.axis.Swept) : x.Punctual clock where
  pending := h.queue.pending
  tailEnd := h.queue.tailEnd
  act y hact := ⟨(onward_of_act clock h hact).calls,(onward_of_act clock h hact).le⟩
  move target speed accel synchronize hidle hv hw := by
    rw [ManualAxis.moveTo_eq target synchronize
      (ManualAxis.checkCommandable_eq_ok.2 ⟨h.letter,hidle⟩)
      (ManualAxis.speeds_eq_ok.2 ⟨rfl,rfl,hv,hw⟩)]
    obtain ⟨hok,-,hmoved⟩ := h.drive clock x.surroundings target hv hw synchronize
    exact ⟨hok,hmoved⟩
  drip target rest speed hs hv := by
    obtain ⟨hok,-,hmoved⟩ := h.drive clock x.surroundings target hv (h.accel hs) true
    simp only [ManualAxis.answer,ManualAxis.firstOf,hok]
    exact ⟨rfl,hmoved⟩
  enable on hidle := by
    obtain ⟨hok,-,hshown⟩ := h.enable clock x.surroundings on hidle
    exact ⟨hok,hshown⟩
  flush := ManualAxis.shown_sync clock _ _
  lastMoveTime := ⟨_,rfl,rfl,ManualAxis.shown_sync clock _ _⟩
  homingMove := acts_homingMove x

/-- A manual axis that the toolhead never drives is punctual after every run, and neither its time nor
the clock around it ever goes back. -/
theorem punctual_of_run (clock : ClockFace σ) (new : x.New)
    (run : Relation.ReflTransGen (Passage clock) x y) : y.Punctual clock ∧
      clock.shown x.surroundings ≤ clock.shown y.surroundings ∧
      x.axis.nextCmdTime ≤ y.axis.nextCmdTime := by
  obtain ⟨hs,hle⟩ := swept_of_run clock new.swept run
  exact ⟨punctual_of_swept clock hs,hle⟩

noncomputable def late : Session (Toolhead ℝ) :=
  { built 1 2 with surroundings := { clock := 3 } }

theorem punctual_late : Toolhead.face.Still ∧ (built 1 2).New ∧
    Relation.ReflTransGen (Passage Toolhead.face) (built 1 2) (late.move 4 none none true) ∧
    (late.move 4 none none true).Punctual Toolhead.face ∧
    Toolhead.face.shown (built 1 2).surroundings ≤
      Toolhead.face.shown (late.move 4 none none true).surroundings ∧
    (built 1 2).axis.nextCmdTime ≤ (late.move 4 none none true).axis.nextCmdTime := by
  have hstill : Toolhead.face.Still := ⟨fun _ => rfl,fun _ _ => rfl⟩
  have hnew : (built 1 2).New := ⟨⟨_,_,_,_,rfl⟩,rfl⟩
  have hlater : Passage Toolhead.face (built 1 2) late :=
    .elapse _ _ (by norm_num [Toolhead.face,built])
  have hrun : Relation.ReflTransGen (Passage Toolhead.face) (built 1 2)
      (late.move 4 none none true) :=
    .tail (.single hlater) (.act (.move late 4 none none true))
  exact ⟨hstill,hnew,hrun,punctual_of_run Toolhead.face hnew hrun⟩

end Session

end Gantry
