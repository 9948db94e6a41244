import Gantry.Motion.Segment

/-!
Steppers: a counter of steps and the offset that maps rail positions to it. A step is due where the
rail position crosses the middle between two counts. Setting the position keeps the counter.
-/
set_option autoImplicit false

namespace Gantry

/-- A step: when, in which direction, with which level of the direction pin, and the counter after
it. -/
structure StepEvent (α : Type) where
  time : α
  direction : Direction
  dirPin : Bool
  position : Int

/-- Where steps go: nowhere, or into a record in order. -/
inductive StepSink (α : Type) where
  | discard
  | record (events : Array (StepEvent α))

namespace StepSink
variable {α : Type}

def events : StepSink α → Array (StepEvent α)
  | .discard => #[]
  | .record events => events

@[inline] def put (e : StepEvent α) : StepSink α → StepSink α
  | .discard => .discard
  | .record events => .record (events.push e)

def clear : StepSink α → StepSink α
  | .discard => .discard
  | .record _ => .record #[]

end StepSink

def Direction.count : Direction → Int
  | .positive => 1
  | .negative => -1

def netSteps {α : Type} (events : List (StepEvent α)) : Int :=
  events.foldr (fun e net => e.direction.count + net) 0

structure Stepper (α : Type) where
  name : Name
  controller : Name
  stepDistance : α
  inverted : Bool := false
  /-- The rail position that it was last driven to. -/
  commandedPos : α
  /-- The counter of its controller. -/
  counter : Int := 0
  /-- The counter as a distance, less the rail position. -/
  offset : α
  sink : StepSink α := .discard

structure StepperRef where
  name : Name
  controller : Name
  deriving DecidableEq

variable {α : Type} [Scalar α]

@[inline] def stepsToDistance (steps : Int) (stepDistance : α) : α := (steps : α) * stepDistance

namespace Stepper

def ofName (name controller : String) (stepDistance : α) : Stepper α :=
  { name := .clip name
    controller := .clip controller
    stepDistance
    commandedPos := 0
    offset := 0 }

omit [Scalar α] in
def ref (s : Stepper α) : StepperRef := ⟨s.name,s.controller⟩

def positionOfSteps (s : Stepper α) (steps : Int) : α :=
  stepsToDistance steps s.stepDistance - s.offset

/-- Declares the rail position without stepping. -/
def setPosition (s : Stepper α) (pos : α) : Stepper α :=
  { s with offset := stepsToDistance s.counter s.stepDistance - pos, commandedPos := pos }

/-- The rail position at which the next step in a direction is due. -/
@[specialize] def nextStepPosition (s : Stepper α) (d : Direction) : α :=
  ((s.counter : α) + 0.5 * d.sign) * s.stepDistance - s.offset

omit [Scalar α] in
@[inline] def step (s : Stepper α) (time : α) (d : Direction) : Stepper α :=
  let counter := s.counter + d.count
  { s with
    counter
    sink := s.sink.put ⟨time,d,(d == .positive) != s.inverted,counter⟩ }

end Stepper

end Gantry
