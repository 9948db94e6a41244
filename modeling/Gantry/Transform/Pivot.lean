import Gantry.Motion.ToolheadMove
import Gantry.Numeric.Scalar
import Gantry.Transform.ExtraAxes

/-!
Pivots: chains of rotations of the x, y, z part of a coordinate. Each stage turns around a fixed
point by the angle of an extra axis; a stage whose axis is not registered does nothing. The reverse
pass undoes the stages from the last to the first. A move that turns an axis is split, so that no
piece sweeps more than a given length of arc.
-/
set_option autoImplicit false

namespace Gantry

structure Vector3 (α : Type) where
  x : α
  y : α
  z : α

structure Stage (α : Type) where
  control : String
  rotateAxis : Axis
  /-- The point that stays in place. -/
  offset : Vector3 α
  /-- The slot of the extra axis, while it is registered. -/
  slot : Option Nat := none

/-- A chain of rotations, with the last position before them and the squared distances from the
pivots there. -/
structure Pivot (α : Type) where
  stages : List (Stage α) := []
  invResolution : α
  axisToRadians : α
  lastPos : List α := []
  lastRadii2 : List α := []

variable {α : Type} [Scalar α]

def turn (angle c0 c1 : α) : α × α :=
  let s := Scalar.sin angle
  let c := Scalar.cos angle
  (c0 * c - c1 * s,c0 * s + c1 * c)

namespace Vector3

def plane (v : Vector3 α) : Axis → α × α
  | .x => (v.y,v.z)
  | .y => (v.z,v.x)
  | .z => (v.x,v.y)

def rotate (v : Vector3 α) (axis : Axis) (angle : α) : Vector3 α :=
  let (c0,c1) := v.plane axis
  let (n0,n1) := turn angle c0 c1
  match axis with
  | .x => ⟨v.x,n0,n1⟩
  | .y => ⟨n1,v.y,n0⟩
  | .z => ⟨n0,n1,v.z⟩

def radius2 (v : Vector3 α) (axis : Axis) : α :=
  let (c0,c1) := v.plane axis
  c0 * c0 + c1 * c1

def sub (v w : Vector3 α) : Vector3 α := ⟨v.x - w.x,v.y - w.y,v.z - w.z⟩

def add (v w : Vector3 α) : Vector3 α := ⟨v.x + w.x,v.y + w.y,v.z + w.z⟩

end Vector3

inductive Pass where
  | forward
  | reverse
  deriving DecidableEq

namespace Stage

def resolve (s : Stage α) (axes : ExtraAxes) : Stage α := { s with slot := axes.slot? s.control }

def rotate (s : Stage α) (angle : α) (p : Vector3 α) : Vector3 α × α :=
  let v := p.sub s.offset
  ((v.rotate s.rotateAxis angle).add s.offset,v.radius2 s.rotateAxis)

end Stage

/-- A coordinate under way through the stages: its point in space, the rest of its entries, and the
squared distances from the pivots by slot. -/
structure Turned (α : Type) where
  point : Vector3 α
  rest : List α
  radii2 : List α

namespace Turned

def coord (t : Turned α) : List α := t.point.x :: t.point.y :: t.point.z :: t.rest

/-- Passes one stage. The factor turns the position of an axis into an angle. -/
def pass (factor : α) (t : Turned α) (s : Stage α) : Except (Error α) (Turned α) :=
  match s.slot with
  | none => .ok t
  | some slot =>
    match t.coord[slot]? with
    | none => .error (.motion (.coordinateTooShort t.coord.length slot))
    | some pos =>
      -- of several stages with one slot the last one leaves its distance
      let (point,radius2) := s.rotate (pos * factor) t.point
      .ok { t with point, radii2 := t.radii2.set slot radius2 }

end Turned

namespace Pivot

/-- A pivot without stages. A piece of a move sweeps at most `resolution` of arc, and an axis that
moves by `fullRotation` turns once. -/
def ofResolution (resolution fullRotation : α) : Except (ConfigError α) (Pivot α) :=
  let usable (x : α) : Bool := Scalar.isFinite x && decide (0 < x)
  if !usable resolution then .error (.invalidValue (.clip "resolution") resolution .positive)
  else if !usable fullRotation then
    .error (.invalidValue (.clip "axis_full_rotation") fullRotation .positive)
  else
    .ok { invResolution := 1 / resolution, axisToRadians := 2.0 * Scalar.pi / fullRotation }

def maxStages : Nat := 99

def addStage (p : Pivot α) (control : String) (rotateAxis : Axis) (offset : Vector3 α) :
    Except (ConfigError α) (Pivot α) :=
  if maxStages ≤ p.stages.length then .error (.tooManyStages maxStages)
  else .ok { p with stages := p.stages ++ [{ control, rotateAxis, offset }] }

def resolve (p : Pivot α) (axes : ExtraAxes) : Pivot α :=
  { p with stages := p.stages.map (·.resolve axes) }

def along (p : Pivot α) : Pass → List (Stage α)
  | .forward => p.stages
  | .reverse => p.stages.reverse

def factor (p : Pivot α) : Pass → α
  | .forward => p.axisToRadians
  | .reverse => -p.axisToRadians

/-- Takes a coordinate through all stages, and gives the squared distances from the pivots by slot,
zero where no stage turns. -/
def coords (p : Pivot α) (coord : List α) (pass : Pass) : Except (Error α) (List α × List α) :=
  match coord with
  | x :: y :: z :: rest => do
    let t ← (p.along pass).foldlM (Turned.pass (p.factor pass))
      ⟨⟨x,y,z⟩,rest,List.replicate coord.length 0⟩
    return (t.coord,t.radii2)
  | _ => .error (.motion (.coordinateTooShort coord.length 2))

/-- The arc that a stage sweeps between the last position and a target, taken at the larger of the
distances from its pivot. -/
def sweep (p : Pivot α) (target nextRadii2 : List α) (s : Stage α) : Option α :=
  match s.slot with
  | none => none
  | some i =>
    match target[i]?,p.lastPos[i]? with
    | some new,some last =>
      if new == last then none
      else
        let radius2 := Scalar.larger ((p.lastRadii2[i]?).getD 0) ((nextRadii2[i]?).getD 0)
        some (Scalar.abs (new - last) * p.axisToRadians * Scalar.sqrt radius2)
    | _,_ => none

def travel (p : Pivot α) (target nextRadii2 : List α) : α :=
  (p.stages.filterMap (p.sweep target nextRadii2)).foldl Scalar.larger 0

def cuts (last target : List α) (n : Nat) : List (List α) :=
  let inv : α := 1 / (n : α)
  (List.range (n - 1)).map fun i =>
    let frac := ((i + 1 : Nat) : α) * inv
    List.zipWith (fun lp np => lp + (np - lp) * frac) last target

/-- What a move to a target sends on: the images of its cuts and of the target, with the squared
distances from the pivots at the target. -/
structure Plan (α : Type) where
  targets : List (List α)
  radii2 : List α

def plan (p : Pivot α) (target : List α) : Except (Error α) (Plan α) := do
  let (image,radii2) ← p.coords target .forward
  let pieces := Scalar.ceil (p.travel target radii2 * p.invResolution)
  let images ← if 2 ≤ pieces then
      (cuts p.lastPos target pieces).mapM fun c => (p.coords c .forward).map (·.1)
    else pure []
  return ⟨images ++ [image],radii2⟩

def arrive (p : Pivot α) (pos radii2 : List α) : Pivot α :=
  { p with lastPos := pos, lastRadii2 := radii2 }

end Pivot

end Gantry
