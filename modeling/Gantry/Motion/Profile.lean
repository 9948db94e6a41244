import Gantry.Motion.Segment

set_option autoImplicit false

namespace Gantry

/-- A move from rest to rest. `accelT` is the duration of each ramp, `cruiseV` has no sign. -/
structure Profile (α : Type) where
  direction : Direction
  accelT : α
  cruiseT : α
  cruiseV : α

namespace Profile
variable {α : Type} [Scalar α]

/-- Plans a move over a distance with a speed above zero that is not exceeded. -/
def symmetric (distance speed accel : α) : Profile α :=
  let direction := Direction.ofDistance distance
  let dist := Scalar.abs distance
  if accel == 0 || dist == 0 then ⟨direction,0,dist / speed,speed⟩
  else
    -- the square of the speed at which the ramps alone make the distance
    let peak := dist * accel
    let cruiseV := if peak < speed * speed then Scalar.sqrt peak else speed
    let accelT := cruiseV / accel
    ⟨direction,accelT,Scalar.larger ((dist - accelT * cruiseV) / cruiseV) 0,cruiseV⟩

def duration (p : Profile α) : α := 2.0 * p.accelT + p.cruiseT

def distance (p : Profile α) : α := p.cruiseV * (p.accelT + p.cruiseT)

def segment (p : Profile α) (startTime startPos accel : α) : Segment α :=
  let sign := p.direction.sign
  ⟨startTime,startPos,p.accelT,p.cruiseT,p.accelT,0,sign * p.cruiseV,sign * accel⟩

end Profile

end Gantry
