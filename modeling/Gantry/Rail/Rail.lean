import Gantry.Rail.Endstop
import Gantry.Rail.Stepping

set_option autoImplicit false

namespace Gantry

structure Rail (α : Type) where
  name : Name
  steppers : List (Stepper α) := []
  endstops : List Endstop := []
  allocator : Allocator := default
  commandedPos : α
  /-- The time up to which steps have been made. -/
  lastFlushTime : α

namespace Rail
variable {α : Type}

def stepperRefs (r : Rail α) : List StepperRef := r.steppers.map Stepper.ref

def addStepper (r : Rail α) (s : Stepper α) : Except (ConfigError α) (Rail α) := do
  let endstops ← r.endstops.mapM (Endstop.addStepper · s.ref)
  return { r with endstops, steppers := r.steppers ++ [s] }

def addEndstop (r : Rail α) (e : Endstop) : Except (ConfigError α) (Rail α) := do
  let e ← e.addSteppers r.stepperRefs
  return { r with endstops := r.endstops ++ [e] }

/-- Adds motors of another rail to all endstops, or to none. -/
def addSteppersToEndstops (r : Rail α) (steppers : List StepperRef) :
    Except (ConfigError α) (Rail α) := do
  let endstops ← r.endstops.mapM (Endstop.addSteppers · steppers)
  return { r with endstops }

def withAllocator (r : Rail α) (allocator : Allocator) : Rail α := { r with allocator }

variable [Scalar α]

def ofName (name : String) : Rail α :=
  { name := .clip name, commandedPos := 0, lastFlushTime := 0 }

def setPosition (r : Rail α) (coord : List α) : Except (Error α) (Rail α) :=
  match r.allocator.calcPosition coord with
  | some pos =>
    .ok { r with steppers := r.steppers.map (·.setPosition pos), commandedPos := pos }
  | none => .error (.motion (.coordinateTooShort coord.length r.allocator.maxChannel))

/-- The channels that the rail follows, or the first one that the queue lacks. -/
def track (r : Rail α) (q : SegmentQueue α) : Except (Error α) (Track α) :=
  r.allocator.terms.mapM fun (i,w) =>
    match q.channels[i]? with
    | some c => .ok (c.timeline,w)
    | none => .error (.motion (.channelOutOfRange r.name i))

def noteCommanded (r : Rail α) (pos : α) : Rail α :=
  { r with
    steppers := r.steppers.map fun s => { s with commandedPos := pos }
    commandedPos := pos }

/-- The steps along a track up to a time, from the position at the last flush. Without motion in
the range the commanded position stays: it may have been declared since. -/
def advance (r : Rail α) (k : Track α) (start : α) (upto : α) : Rail α :=
  let motion := k.motion start
  let times := breakpoints k r.lastFlushTime upto
  let stepped := { r with steppers := stepWindows motion times r.steppers, lastFlushTime := upto }
  if k.covers r.lastFlushTime upto then
    stepped.noteCommanded <|
      match (windows times).getLast? with
      | some (_,b) => motion.positionBefore b
      | none => start
  else stepped

def generateSteps (r : Rail α) (queue : Option (SegmentQueue α)) (upto : α) :
    Except (Error α) (Rail α) :=
  match queue with
  | none => .error (.motion (.unboundQueue r.name))
  | some q =>
    if upto ≤ r.lastFlushTime then .ok r
    else do
      let k ← r.track q
      match k.positionAt r.lastFlushTime with
      | some start => return r.advance k start upto
      -- there is nothing to follow yet, but the time has passed
      | none => return { r with lastFlushTime := upto }

end Rail

end Gantry
