import Mathlib
import Gantry.Proofs.Manual.Drive
import Gantry.Proofs.Manual.Refusals

/-!
Sessions: a manual axis takes commands while its surroundings go on. As long as no move meets a jump
that it is not clear of, every command leaves the axis where it was asked to be, and its motors
with it.
-/
set_option autoImplicit false

namespace Gantry

namespace ManualAxis
variable {σ : Type} [MotionClock σ ℝ] {a b : ManualAxis ℝ} {speed accel : Option ℝ} {v w : ℝ}

theorem speeds_eq_ok : a.speeds speed accel = .ok (v,w) ↔
    speed.getD a.velocity = v ∧ accel.getD a.accel = w ∧ 0 < v ∧ 0 ≤ w := by
  unfold speeds
  simp only [Scalar.isNaN_exact,Bool.false_eq_true,false_or]
  split_ifs with hv hw
  · simp only [false_iff]
    rintro ⟨rfl,-,h,-⟩
    exact absurd hv (not_le.2 h)
  · simp only [false_iff]
    rintro ⟨-,rfl,-,h⟩
    exact absurd hw (not_lt.2 h)
  · simp only [Except.ok.injEq,Prod.mk.injEq]
    constructor
    · rintro ⟨rfl,rfl⟩
      exact ⟨rfl,rfl,not_le.1 hv,not_lt.1 hw⟩
    · exact fun h => ⟨h.1,h.2.1⟩

theorem accel_of_checkHoming (h : a.checkHoming speed accel = .ok (v,w)) : 0 ≤ w := by
  unfold checkHoming at h
  obtain ⟨-,h⟩ := Results.check_eq_ok.1 h
  split at h
  · exact (speeds_eq_ok.1 h).2.2.2
  · cases h

theorem answer_state (a : ManualAxis ℝ) (s : σ) (action : HomingAction ℝ) :
    (a.answer s action).2.1.state = a.state := by
  cases action with
  | setPosition coord =>
    simp only [answer]
    split
    · rename_i b hb
      obtain ⟨pos,-,hp⟩ := Results.bind_eq_ok.1 hb
      obtain ⟨rail,-,rfl⟩ := Results.map_eq_ok.1 hp
      rfl
    · rfl
  | flush => simp only [answer,sync_fst]
  | lastMoveTime => simp only [answer,sync_fst]
  | dripMove coord speed =>
    simp only [answer]
    split
    · rfl
    · rename_i target _
      obtain ⟨rail,queue,t,hf⟩ := a.drive_frame s target speed a.homingAccel true
      simp only [hf]
  | position => rfl
  | dwell d => rfl
  | steppers => rfl
  | calcPosition p => rfl
  | stepperPositions => rfl

noncomputable def placed (a : ManualAxis ℝ) (pos : ℝ) : ManualAxis ℝ :=
  { a with rail := { a.rail with
    steppers := a.rail.steppers.map (·.setPosition pos)
    commandedPos := pos } }

theorem place_eq (h : a.rail.allocator = .cartesian .x) (pos : ℝ) :
    a.place pos = .ok (a.placed pos) := by
  have hc : ∀ i ∈ a.rail.allocator.channels, [pos,0,0][i]? = some pos := by
    intro i hi
    rw [h] at hi
    obtain rfl : i = 0 := List.mem_singleton.1 hi
    rfl
  have hset := Rail.setPosition_eq (p := fun _ => pos) hc
  have hpos : a.rail.allocator.combined (fun _ => pos) = pos := by
    rw [h,Allocator.combined_cartesian]
  rw [hpos] at hset
  rw [place,hset]
  rfl

theorem Ready.placed (h : a.Ready) (pos : ℝ) : (a.placed pos).Ready := by
  refine ⟨h.allocator,fun s hs => ?_,h.flushed,h.ended⟩
  obtain ⟨s',hs',rfl⟩ := List.mem_map.1 hs
  have hd := (h.settled s' hs').1.stepDistance
  exact ⟨Stepper.near_of_place hd (s'.place_setPosition pos),rfl⟩

end ManualAxis

/-- Where the last command that changed the position wants an axis to be. -/
inductive Goal where
  | placed (pos : ℝ)
  | moved (target speed : ℝ)

namespace Goal

/-- A declared position holds exactly, the target of a move up to what the slack hides. -/
def Met (pos : ℝ) : Goal → Prop
  | placed p => pos = p
  | moved target speed => |pos - target| ≤ speed * timeEpsilon

def after (g : Goal) : HomingAction ℝ → Except (Error ℝ) (HomingReply ℝ) → Goal
  | .setPosition (pos :: _), .ok _ => placed pos
  | .dripMove (target :: _) speed, .ok _ => moved target speed
  | _, _ => g

end Goal

structure Session (σ : Type) where
  axis : ManualAxis ℝ
  surroundings : σ
  goal : Goal

namespace Session
variable {σ : Type} {x y : Session σ}

structure Fresh (x : Session σ) : Prop where
  axis : ∃ name rail velocity accel, x.axis = .ofRail name rail velocity accel
  allocator : x.axis.rail.allocator = default
  commandedPos : x.axis.rail.commandedPos = 0
  lastFlushTime : x.axis.rail.lastFlushTime = 0
  steppers : ∀ s ∈ x.axis.rail.steppers, 0 < s.stepDistance ∧ s.commandedPos = 0 ∧
    s.counter = 0 ∧ s.offset = 0
  goal : x.goal = .placed 0

/-- The axis is where it was asked to be, and so are its motors, whose counters are the closest
ones. -/
structure Located (x : Session σ) : Prop where
  goal : x.goal.Met x.axis.rail.commandedPos
  commandedPos : ∀ s ∈ x.axis.rail.steppers, s.commandedPos = x.axis.rail.commandedPos
  counter : ∀ s ∈ x.axis.rail.steppers,
    |s.positionOfSteps s.counter - x.axis.rail.commandedPos| ≤ s.stepDistance / 2

noncomputable def place (x : Session σ) (pos : ℝ) : Session σ :=
  match x.axis.setPosition pos with
  | .ok axis => { x with axis, goal := .placed pos }
  | .error _ => x

def begin (x : Session σ) (accel : ℝ) : Session σ :=
  { x with axis := { x.axis with homingAccel := accel, state := .homing } }

def finish (x : Session σ) : Session σ := { x with axis := { x.axis with state := .idle } }

structure Invariant (x : Session σ) : Prop where
  ready : x.axis.Ready
  goal : x.goal.Met x.axis.rail.commandedPos
  accel : x.axis.state = .homing → 0 ≤ x.axis.homingAccel

theorem Fresh.invariant (h : x.Fresh) : x.Invariant := by
  obtain ⟨name,rail,velocity,accel,ha⟩ := h.axis
  refine ⟨⟨h.allocator,fun s hs => ?_,?_,{},?_,?_⟩,?_,?_⟩
  · obtain ⟨hd,hp,hc,ho⟩ := h.steppers s hs
    rw [h.commandedPos]
    refine ⟨Stepper.near_of_place hd ?_,hp⟩
    simp [Stepper.place,Stepper.positionOfSteps,stepsToDistance,hc,ho]
  · rw [h.lastFlushTime,ha]; exact le_rfl
  · rw [ha]; rfl
  · simp [Channel.timeline,Channel.segments]
  · rw [h.goal]; exact h.commandedPos
  · intro hs
    rw [ha] at hs
    cases hs

theorem Invariant.located (h : x.Invariant) : x.Located where
  goal := h.goal
  commandedPos s hs := (h.ready.settled s hs).2
  counter s hs := (h.ready.settled s hs).1.le

theorem Invariant.later (h : x.Invariant) (hr : y.axis.rail = x.axis.rail)
    (hq : y.axis.queue = x.axis.queue) (ht : x.axis.nextCmdTime ≤ y.axis.nextCmdTime)
    (hg : y.goal = x.goal) (ha : y.axis.state = .homing → 0 ≤ y.axis.homingAccel) :
    y.Invariant := by
  refine ⟨h.ready.later hr hq ht,?_,ha⟩
  rw [hr,hg]
  exact h.goal

theorem place_eq (hc : x.axis.checkCommandable = .ok ())
    (ha : x.axis.rail.allocator = .cartesian .x) (pos : ℝ) :
    x.place pos = { x with axis := x.axis.placed pos, goal := .placed pos } := by
  unfold place ManualAxis.setPosition
  rw [hc,Results.ok_bind,ManualAxis.place_eq ha]

theorem Invariant.place (h : x.Invariant) (pos : ℝ) : (x.place pos).Invariant := by
  cases hc : x.axis.checkCommandable with
  | error e =>
    unfold Session.place ManualAxis.setPosition
    rw [hc]; exact h
  | ok u =>
    rw [place_eq hc h.ready.allocator]
    exact ⟨h.ready.placed pos,rfl,h.accel⟩

section Clock
variable [MotionClock σ ℝ]

def Calm (x : Session σ) (target speed accel : ℝ) : Prop :=
  x.axis.Calm (x.axis.planned x.surroundings target speed accel)

def CalmAction (x : Session σ) : HomingAction ℝ → Prop
  | .dripMove (target :: _) speed => 0 < speed ∧ x.Calm target speed x.axis.homingAccel
  | _ => True

noncomputable def move (x : Session σ) (target : ℝ) (speed accel : Option ℝ) (synchronize : Bool) :
    Session σ :=
  match x.axis.moveTo x.surroundings target speed accel synchronize with
  | (.ok (),axis,surroundings) => ⟨axis,surroundings,.moved target (speed.getD x.axis.velocity)⟩
  | (.error _,axis,surroundings) => ⟨axis,surroundings,x.goal⟩

noncomputable def enable [StepperEnable σ ℝ] (x : Session σ) (on : Bool) : Session σ :=
  let (_,axis,surroundings) := x.axis.enable x.surroundings on
  ⟨axis,surroundings,x.goal⟩

noncomputable def ask (x : Session σ) (action : HomingAction ℝ) : Session σ :=
  let (reply,axis,surroundings) := x.axis.answer x.surroundings action
  ⟨axis,surroundings,x.goal.after action reply⟩

inductive Step [StepperEnable σ ℝ] : Session σ → Session σ → Prop where
  | elapse (x : Session σ) (surroundings : σ) : Step x { x with surroundings }
  | place (x : Session σ) (pos : ℝ) : Step x (x.place pos)
  | move (x : Session σ) (target : ℝ) (speed accel : Option ℝ) (synchronize : Bool) :
      (∀ v w, x.axis.speeds speed accel = .ok (v,w) → x.Calm target v w) →
      Step x (x.move target speed accel synchronize)
  | enable (x : Session σ) (on : Bool) : Step x (x.enable on)
  | begin (x : Session σ) (speed accel : Option ℝ) (v w : ℝ) :
      x.axis.checkHoming speed accel = .ok (v,w) → Step x (x.begin w)
  | ask (x : Session σ) (action : HomingAction ℝ) :
      x.axis.state = .homing → x.CalmAction action → Step x (x.ask action)
  | finish (x : Session σ) : x.axis.state = .homing → Step x x.finish

/-- A move that the axis takes is one that it carries out. -/
theorem Invariant.drive (h : x.Invariant) {target speed accel : ℝ} (hv : 0 < speed) (ha : 0 ≤ accel)
    (hc : x.Calm target speed accel) (synchronize : Bool) :
    ∃ b s, x.axis.drive x.surroundings target speed accel synchronize = (.ok (),b,s) ∧
      Invariant ⟨b,s,.moved target speed⟩ := by
  obtain ⟨b,s,hd,hb,hp⟩ := h.ready.drive hv ha hc synchronize
  obtain ⟨rail,queue,t,hf⟩ :=
    x.axis.drive_frame x.surroundings target speed accel synchronize
  rw [hd] at hf
  subst hf
  exact ⟨_,s,hd,hb,hp,h.accel⟩

theorem move_eq {target : ℝ} {speed accel : Option ℝ} {v w : ℝ} {synchronize : Bool}
    {b : ManualAxis ℝ} {s : σ} (hc : x.axis.checkCommandable = .ok ())
    (hs : x.axis.speeds speed accel = .ok (v,w))
    (hd : x.axis.drive x.surroundings target v w synchronize = (.ok (),b,s)) :
    x.move target speed accel synchronize = ⟨b,s,.moved target v⟩ := by
  unfold Session.move
  rw [ManualAxis.moveTo_eq target synchronize hc hs,hd,(ManualAxis.speeds_eq_ok.1 hs).1]

theorem Invariant.move (h : x.Invariant) {target : ℝ} {speed accel : Option ℝ}
    (hc : ∀ v w, x.axis.speeds speed accel = .ok (v,w) → x.Calm target v w) (synchronize : Bool) :
    (x.move target speed accel synchronize).Invariant := by
  rcases x.axis.moveTo_cases x.surroundings target speed accel synchronize with
    ⟨hok,v,w,hs⟩ | ⟨e,he⟩
  · obtain ⟨-,-,hv,hw⟩ := ManualAxis.speeds_eq_ok.1 hs
    obtain ⟨b,s,hd,hi⟩ := h.drive hv hw (hc v w hs) synchronize
    rw [move_eq hok hs hd]
    exact hi
  · unfold Session.move
    rw [he]; exact h

theorem Invariant.sync (h : x.Invariant) (s s' : σ) :
    Invariant ⟨(x.axis.sync s).1,s',x.goal⟩ := by
  refine h.later (x.axis.sync_rail s) (x.axis.sync_queue s) (x.axis.le_sync_nextCmdTime s) rfl ?_
  rw [ManualAxis.sync_fst]
  exact h.accel

theorem Invariant.enable [StepperEnable σ ℝ] (h : x.Invariant) (on : Bool) :
    (x.enable on).Invariant := by
  unfold Session.enable ManualAxis.enable
  cases x.axis.checkCommandable with
  | error e => exact h
  | ok u => exact (h.sync x.surroundings x.surroundings).sync _ _

theorem Invariant.ask (h : x.Invariant) {action : HomingAction ℝ} (hs : x.axis.state = .homing)
    (hc : x.CalmAction action) : (x.ask action).Invariant := by
  unfold Session.ask
  cases action with
  | setPosition coord =>
    cases coord with
    | nil => exact h
    | cons pos coord =>
      simp only [ManualAxis.answer,ManualAxis.firstOf,Results.ok_bind,
        ManualAxis.place_eq h.ready.allocator]
      exact ⟨h.ready.placed pos,rfl,h.accel⟩
  | flush => exact h.sync x.surroundings _
  | lastMoveTime => exact h.sync x.surroundings _
  | dwell d =>
    refine h.later rfl rfl ?_ rfl h.accel
    simp [ManualAxis.answer,ManualAxis.delay]
  | dripMove coord speed =>
    cases coord with
    | nil => exact h
    | cons target coord =>
      obtain ⟨b,s,hd,hi⟩ := h.drive hc.1 (h.accel hs) hc.2 true
      simp only [ManualAxis.answer,ManualAxis.firstOf,hd]
      exact hi
  | position => exact h
  | steppers => exact h
  | calcPosition p => exact h.later rfl rfl le_rfl rfl h.accel
  | stepperPositions => exact h

theorem Invariant.step [StepperEnable σ ℝ] (h : x.Invariant) (st : Step x y) : y.Invariant := by
  cases st with
  | elapse s => exact h.later rfl rfl le_rfl rfl h.accel
  | place pos => exact h.place pos
  | move target speed accel synchronize hc => exact h.move hc synchronize
  | enable on => exact h.enable on
  | begin speed accel v w hc => exact h.later rfl rfl le_rfl rfl fun _ =>
      ManualAxis.accel_of_checkHoming hc
  | ask action hs hc => exact h.ask hs hc
  | finish hs => exact h.later rfl rfl le_rfl rfl (nofun)

section Homing
variable {R : Session σ → Session σ → Prop} {P : Session σ → HomingPlan ℝ → Prop}

/-- A plan is followed in single steps while what it has to satisfy makes each action one. -/
theorem exists_run_follow
    (ask : ∀ x action next, x.axis.state = .homing → P x (.ask action next) →
      R x (x.ask action) ∧ P (x.ask action) (next (x.axis.answer x.surroundings action).1))
    (plan : HomingPlan ℝ) (hs : x.axis.state = .homing) (hp : P x plan) :
    ∃ goal, Relation.ReflTransGen R x
      ⟨(x.axis.follow x.surroundings plan).axis,
        (x.axis.follow x.surroundings plan).surroundings,goal⟩ ∧
      (x.axis.follow x.surroundings plan).axis.state = .homing := by
  induction plan generalizing x with
  | finish result => exact ⟨x.goal,.refl,hs⟩
  | ask action next ih =>
    have hstate : (x.ask action).axis.state = .homing :=
      (x.axis.answer_state x.surroundings action).trans hs
    obtain ⟨hstep,hnext⟩ := ask x action next hs hp
    obtain ⟨goal,hr,hend⟩ := ih _ hstate hnext
    exact ⟨goal,.head hstep hr,hend⟩

/-- A homing move is a run of single steps, after which an axis that took commands takes them
again. -/
theorem exists_run_homingMove
    (begin : ∀ (x : Session σ) speed accel v w, x.axis.checkHoming speed accel = .ok (v,w) →
      R x (x.begin w))
    (ask : ∀ x action next, x.axis.state = .homing → P x (.ask action next) →
      R x (x.ask action) ∧ P (x.ask action) (next (x.axis.answer x.surroundings action).1))
    (finish : ∀ x, x.axis.state = .homing → R x x.finish) (x : Session σ)
    (coordinator : HomingRequest ℝ → HomingPlan ℝ) (target : ℝ) (speed accel : Option ℝ)
    (triggered checkTrigger : Bool)
    (hp : ∀ v w, x.axis.checkHoming speed accel = .ok (v,w) → P (x.begin w)
      (coordinator ⟨x.axis.rail.endstops,[target,0,0,0],v,triggered,checkTrigger⟩)) :
    ∃ y, Relation.ReflTransGen R x y ∧
      y.axis = (x.axis.homingMove x.surroundings coordinator target speed accel triggered
        checkTrigger).2.axis ∧
      y.surroundings = (x.axis.homingMove x.surroundings coordinator target speed accel triggered
        checkTrigger).2.surroundings ∧
      (x.axis.state = .idle → y.axis.state = .idle) := by
  unfold ManualAxis.homingMove
  cases h : x.axis.checkHoming speed accel with
  | error e => exact ⟨x,.refl,rfl,rfl,id⟩
  | ok p =>
    obtain ⟨v,w⟩ := p
    obtain ⟨goal,hr,hend⟩ := exists_run_follow ask _ (x := x.begin w) rfl (hp v w h)
    exact ⟨_,.head (begin x speed accel v w h) (.tail hr (finish _ hend)),rfl,rfl,fun _ => rfl⟩

end Homing

def CalmPlan (x : Session σ) : HomingPlan ℝ → Prop
  | .finish _ => True
  | .ask action next => x.CalmAction action ∧
      (x.ask action).CalmPlan (next (x.axis.answer x.surroundings action).1)

theorem run_homingMove [StepperEnable σ ℝ] (x : Session σ)
    (coordinator : HomingRequest ℝ → HomingPlan ℝ) (target : ℝ) (speed accel : Option ℝ)
    (triggered checkTrigger : Bool)
    (hc : ∀ v w, x.axis.checkHoming speed accel = .ok (v,w) → (x.begin w).CalmPlan
      (coordinator ⟨x.axis.rail.endstops,[target,0,0,0],v,triggered,checkTrigger⟩)) :
    ∃ goal, Relation.ReflTransGen Step x
      ⟨(x.axis.homingMove x.surroundings coordinator target speed accel triggered
          checkTrigger).2.axis,
        (x.axis.homingMove x.surroundings coordinator target speed accel triggered
          checkTrigger).2.surroundings,goal⟩ := by
  obtain ⟨y,hr,ha,hs,-⟩ := exists_run_homingMove (R := Step) .begin
    (fun x action _ hs hp => ⟨.ask x action hs hp.1,hp.2⟩) .finish x coordinator target speed
    accel triggered checkTrigger hc
  refine ⟨y.goal,?_⟩
  rw [← ha,← hs]
  exact hr

theorem Invariant.of_run [StepperEnable σ ℝ] (h : x.Invariant)
    (run : Relation.ReflTransGen Step x y) : y.Invariant := by
  induction run with
  | refl => exact h
  | tail _ st ih => exact ih.step st

end Clock

end Session

end Gantry
