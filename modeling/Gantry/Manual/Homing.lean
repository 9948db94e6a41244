import Gantry.Manual.ManualAxis

/-!
Homing: a coordinator drives a manual axis towards an endstop. What it asks for next may depend on
every answer so far, so a coordinator is a plan: it ends with a result, or asks for an action and
goes on with the answer. While a plan runs the axis is homing; afterwards it is idle again.
-/
set_option autoImplicit false

namespace Gantry

inductive HomingAction (α : Type) where
  | position
  | setPosition (coord : List α)
  | flush
  | lastMoveTime
  | dwell (delay : α)
  | dripMove (coord : List α) (speed : α)
  | steppers
  | calcPosition (positions : RailPositions α)
  | stepperPositions

inductive HomingReply (α : Type) where
  | done
  | coord (pos : List α)
  | time (t : α)
  | steppers (refs : List StepperRef)
  | positions (p : RailPositions α)

inductive HomingPlan (α : Type) where
  | finish (result : Except (Error α) Unit)
  | ask (action : HomingAction α) (next : Except (Error α) (HomingReply α) → HomingPlan α)

structure HomingRequest (α : Type) where
  endstops : List Endstop
  target : List α
  speed : α
  triggered : Bool
  checkTrigger : Bool

variable {α : Type}

def HomingPlan.ofActions (result : Except (Error α) Unit) : List (HomingAction α) → HomingPlan α
  | [] => .finish result
  | action :: actions =>
    .ask action fun
      | .ok _ => ofActions result actions
      | .error e => .finish (.error e)

variable [Scalar α] {σ : Type} [MotionClock σ α]

namespace ManualAxis

def firstOf (coord : List α) : Except (Error α) α :=
  match coord with
  | pos :: _ => .ok pos
  | [] => .error (.motion (.coordinateTooShort 0 0))

def answer (a : ManualAxis α) (s : σ) :
    HomingAction α → Except (Error α) (HomingReply α) × ManualAxis α × σ
  | .position => (.ok (.coord a.position),a,s)
  | .setPosition coord =>
    match firstOf coord >>= a.place with
    | .ok a => (.ok .done,a,s)
    | .error e => (.error e,a,s)
  | .flush => (.ok .done,a.sync s)
  | .lastMoveTime =>
    let (a,s) := a.sync s
    (.ok (.time a.nextCmdTime),a,s)
  | .dwell d => (.ok .done,a.delay d,s)
  | .dripMove coord speed =>
    match firstOf coord with
    | .error e => (.error e,a,s)
    | .ok target =>
      let (r,a,s) := a.drive s target speed a.homingAccel true
      (r.map fun _ => .done,a,s)
  | .steppers => (.ok (.steppers a.rail.stepperRefs),a,s)
  | .calcPosition p => ((a.calcPosition p).map fun (x,y,z) => .coord [x,y,z],a,s)
  | .stepperPositions => (.ok (.positions a.stepperPositions),a,s)

/-- The outcome of a plan: its result, the answers that were given in order, and what the axis and
its surroundings have become. -/
structure HomingOutcome (α σ : Type) where
  result : Except (Error α) Unit
  replies : List (Except (Error α) (HomingReply α))
  axis : ManualAxis α
  surroundings : σ

def follow (a : ManualAxis α) (s : σ) : HomingPlan α → HomingOutcome α σ
  | .finish result => ⟨result,[],a,s⟩
  | .ask action next =>
    let (reply,a,s) := a.answer s action
    let outcome := follow a s (next reply)
    { outcome with replies := reply :: outcome.replies }

def checkHoming (a : ManualAxis α) (speed accel : Option α) : Except (Error α) (α × α) := do
  a.checkCommandable
  if a.canHome then a.speeds speed accel else .error (.command (.noEndstop a.name))

/-- Homes an axis. The coordinator is asked only if nothing is refused before; then the request it
got is given as well. -/
def homingMove (a : ManualAxis α) (s : σ) (coordinator : HomingRequest α → HomingPlan α)
    (target : α) (speed accel : Option α) (triggered checkTrigger : Bool) :
    Option (HomingRequest α) × HomingOutcome α σ :=
  match a.checkHoming speed accel with
  | .error e => (none,⟨.error e,[],a,s⟩)
  | .ok (speed,accel) =>
    let request := ⟨a.rail.endstops,[target,0,0,0],speed,triggered,checkTrigger⟩
    let a := { a with homingAccel := accel, state := .homing }
    -- however the coordinator ends, the axis takes commands again
    let outcome := a.follow s (coordinator request)
    (some request,{ outcome with axis := { outcome.axis with state := .idle } })

end ManualAxis

end Gantry
