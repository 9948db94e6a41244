import Gantry.Error
import Gantry.Numeric.Scalar

/-!
Segments: one straight move on one channel. The velocity ramps up, holds and ramps down with the
opposite acceleration; positions and velocities outside the segment are those at its nearer end.
-/
set_option autoImplicit false

namespace Gantry

inductive Direction where
  | positive
  | negative
  deriving DecidableEq

inductive Phase where
  | accelerating
  | cruising
  | decelerating
  | complete
  deriving DecidableEq

/-- A move on one channel. Velocities and acceleration are signed. -/
structure Segment (α : Type) where
  startTime : α
  startPos : α
  accelT : α
  cruiseT : α
  decelT : α
  startV : α
  cruiseV : α
  accel : α

variable {α : Type} [Scalar α]

namespace Direction

/-- The direction of a distance; none at all counts as positive. -/
def ofDistance (distance : α) : Direction := if 0 ≤ distance then .positive else .negative

@[inline] def sign : Direction → α
  | .positive => 1
  | .negative => -1

end Direction

namespace Segment

def hold (startTime pos duration : α) : Segment α := ⟨startTime,pos,0,duration,0,0,0,0⟩

def quantities (m : Segment α) : List (Quantity × α) :=
  [(.startTime,m.startTime),(.startPos,m.startPos),(.accelT,m.accelT),(.cruiseT,m.cruiseT),
    (.decelT,m.decelT),(.startV,m.startV),(.cruiseV,m.cruiseV),(.accel,m.accel)]

def durations (m : Segment α) : List (Ramp × α) :=
  [(.accel,m.accelT),(.cruise,m.cruiseT),(.decel,m.decelT)]

/-- How far the velocity after the first ramp may be from the cruise velocity, relative to the
larger of both velocities and one. -/
def velocityTolerance : α := 1e-6

/-- Whether the first ramp leads to the cruise velocity. A ramp without duration is a jump. -/
def reachesCruise (m : Segment α) : Bool :=
  if 0 < m.accelT then
    let reached := m.startV + m.accel * m.accelT
    let scale := Scalar.larger (Scalar.larger (Scalar.abs m.cruiseV) (Scalar.abs m.startV)) 1
    !decide (velocityTolerance * scale < Scalar.abs (reached - m.cruiseV))
  else true

/-- The first thing wrong with a segment: a number that is not finite, a negative duration, or a
cruise velocity that its ramp does not lead to. -/
def validate (m : Segment α) : Except (QueueError α) Unit :=
  match m.quantities.find? fun q => !Scalar.isFinite q.2 with
  | some (quantity,_) => .error (.nonFinite quantity)
  | none =>
    match m.durations.find? fun d => d.2 < 0 with
    | some (part,value) => .error (.negativeDuration part value)
    | none =>
      if m.reachesCruise then .ok ()
      else .error (.unreachableCruise m.startV m.cruiseV m.accel m.accelT)

@[inline] def duration (m : Segment α) : α := m.accelT + m.cruiseT + m.decelT

@[inline] def endTime (m : Segment α) : α := m.startTime + m.duration

def endVelocity (m : Segment α) : α := m.cruiseV - m.accel * m.decelT

def boundaries (m : Segment α) : List α :=
  let cruiseStart := m.startTime + m.accelT
  [m.startTime,cruiseStart,cruiseStart + m.cruiseT,m.endTime]

/-- The part that a time lies in; times before the start count to the first part. -/
def phaseAt (m : Segment α) (t : α) : Phase :=
  let rel := t - m.startTime
  if m.duration ≤ rel then .complete
  else if rel < m.accelT then .accelerating
  else if rel < m.accelT + m.cruiseT then .cruising
  else .decelerating

/-- Whether times can be brought into the segment: its duration is defined and not negative. -/
def Coherent (m : Segment α) : Prop := 0 ≤ m.duration

instance (m : Segment α) : Decidable m.Coherent := inferInstanceAs (Decidable (0 ≤ m.duration))

@[inline] def elapsed (m : Segment α) (t : α) : α := Scalar.clamp (t - m.startTime) 0 m.duration

/-- The position at a time. The parts are added one by one, each for as long as it lasted. -/
@[specialize] def positionAt (m : Segment α) (t : α) : α :=
  let rel := m.elapsed t
  let ramp := Scalar.smaller rel m.accelT
  let pos := m.startPos + (m.startV + 0.5 * m.accel * ramp) * ramp
  let rel := rel - ramp
  let cruise := Scalar.smaller rel m.cruiseT
  let pos := pos + m.cruiseV * cruise
  let rel := rel - cruise
  pos + (m.cruiseV - 0.5 * m.accel * rel) * rel

@[specialize] def velocityAt (m : Segment α) (t : α) : α :=
  let rel := m.elapsed t
  if rel < m.accelT then m.startV + m.accel * rel
  else if rel < m.accelT + m.cruiseT then m.cruiseV
  else m.cruiseV - m.accel * (rel - m.accelT - m.cruiseT)

def endPosition (m : Segment α) : α := m.positionAt m.endTime

def positionAt? (m : Segment α) (t : α) : Option α :=
  if m.Coherent then some (m.positionAt t) else none

def velocityAt? (m : Segment α) (t : α) : Option α :=
  if m.Coherent then some (m.velocityAt t) else none

end Segment

end Gantry
