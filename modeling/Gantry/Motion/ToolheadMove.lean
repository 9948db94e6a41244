import Gantry.Motion.Segment

set_option autoImplicit false

namespace Gantry

inductive Axis where
  | x
  | y
  | z
  deriving DecidableEq

namespace Axis

def index : Axis → Nat
  | .x => 0
  | .y => 1
  | .z => 2

def name : Axis → String
  | .x => "x"
  | .y => "y"
  | .z => "z"

def all : List Axis := [.x,.y,.z]

def ofName? (s : String) : Option Axis := all.find? fun a => a.name == s

theorem ofName?_name (a : Axis) : ofName? a.name = some a := by
  cases a <;> decide

end Axis

structure Ramps (α : Type) where
  accelT : α
  cruiseT : α
  decelT : α
  startV : α
  cruiseV : α
  accel : α

/-- A move of several axes. `axesR` is the share of each axis in the distance. -/
structure ToolheadMove (α : Type) extends Ramps α where
  startPos : List α
  axesR : List α
  maxCruiseV2 : α

namespace ToolheadMove
variable {α : Type} [Scalar α]

def squaredLength (xs : List α) : α := xs.foldl (fun sum x => sum + x * x) 0

/-- The distance that the shares refer to: along x, y and z, or along all axes if those stand
still. -/
def pathLength (deltas : List α) : α :=
  let dist := Scalar.sqrt (squaredLength (deltas.take 3))
  if dist == 0 then Scalar.sqrt (squaredLength deltas) else dist

def between (start stop : List α) (ramps : Ramps α) : ToolheadMove α :=
  let deltas := List.zipWith (fun s e => e - s) start stop
  let dist := pathLength deltas
  { ramps with
    startPos := start
    axesR := deltas.map fun d => if 0 < dist then d / dist else 0
    maxCruiseV2 := ramps.cruiseV * ramps.cruiseV }

def duration (mv : ToolheadMove α) : α := mv.accelT + mv.cruiseT + mv.decelT

def axisSegment (mv : ToolheadMove α) (printTime : α) (axis : Nat) : Option (Segment α) :=
  match mv.startPos[axis]?,mv.axesR[axis]? with
  | some startPos,some r =>
    some ⟨printTime,startPos,mv.accelT,mv.cruiseT,mv.decelT,mv.startV * r,mv.cruiseV * r,
      mv.accel * r⟩
  | _,_ => none

end ToolheadMove

end Gantry
