import Gantry.Rail.Rail
import Gantry.Topology.Positions

/-!
Topologies: rails whose belts drive several axes at once. Each topology lets its rails follow the
right channels, lets coupled endstops stop each other's motors, and maps the positions of its rails
back to a coordinate.
-/
set_option autoImplicit false

namespace Gantry

inductive Topology where
  /-- Two belts drive x and y together. -/
  | coreXY
  /-- Two belts drive x and z together. -/
  | coreXZ
  /-- The x rail rides on the y rail, perhaps with a second carriage. -/
  | hybridCoreXY
  deriving DecidableEq

inductive Carriage where
  | first
  | second
  deriving DecidableEq

/-- The rail of the second carriage, and the carriage that follows the toolhead. -/
structure SecondCarriage (α : Type) where
  rail : Rail α
  active : Carriage := .first

structure Kinematics (α : Type) where
  topology : Topology
  x : Rail α
  y : Rail α
  z : Rail α
  second : Option (SecondCarriage α) := none

namespace Kinematics
variable {α : Type}

/-- Two belts that drive x and y: their sum and their difference. -/
def coreXY (a b z : Rail α) : Except (ConfigError α) (Kinematics α) := do
  let a ← a.addSteppersToEndstops b.stepperRefs
  let b ← b.addSteppersToEndstops a.stepperRefs
  return {
    topology := .coreXY
    x := a.withAllocator (.coreXY .plus)
    y := b.withAllocator (.coreXY .minus)
    z := z.withAllocator (.cartesian .z) }

def coreXZ (a y b : Rail α) : Except (ConfigError α) (Kinematics α) := do
  let b ← b.addSteppersToEndstops a.stepperRefs
  let a ← a.addSteppersToEndstops b.stepperRefs
  return {
    topology := .coreXZ
    x := a.withAllocator (.coreXZ .plus)
    y := y.withAllocator (.cartesian .y)
    z := b.withAllocator (.coreXZ .minus) }

def singleStepper (r : Rail α) : Except (ConfigError α) Unit :=
  if r.steppers.length = 1 then .ok () else .error (.tooManySteppers r.name)

/-- A carriage on the y rail, and perhaps a second one on the same rail. The y endstop stops the
motors of both. -/
def hybridCoreXY (x y z : Rail α) (second : Option (Rail α)) :
    Except (ConfigError α) (Kinematics α) := do
  singleStepper x
  let y ← y.addSteppersToEndstops x.stepperRefs
  let x := x.withAllocator (.coreXY .minus)
  let y := y.withAllocator (.cartesian .y)
  let z := z.withAllocator (.cartesian .z)
  match second with
  | none => return { topology := .hybridCoreXY, x, y, z }
  | some r =>
    singleStepper r
    let y ← y.addSteppersToEndstops r.stepperRefs
    let second := some { rail := r.withAllocator (.coreXY .plus) }
    return { topology := .hybridCoreXY, x, y, z, second }

def rails (k : Kinematics α) : List (Rail α) :=
  [k.x,k.y,k.z] ++ (k.second.map (·.rail)).toList

/-- Changes the rails one after another. At the first refusal the rails before it stay changed and
those after it are left alone. -/
def updateRails (k : Kinematics α) (f : Rail α → Except (Error α) (Rail α)) :
    Except (Error α) Unit × Kinematics α :=
  match f k.x with
  | .error e => (.error e,k)
  | .ok x =>
    let k := { k with x }
    match f k.y with
    | .error e => (.error e,k)
    | .ok y =>
      let k := { k with y }
      match f k.z with
      | .error e => (.error e,k)
      | .ok z =>
        let k := { k with z }
        match k.second with
        | none => (.ok (),k)
        | some s =>
          match f s.rail with
          | .error e => (.error e,k)
          | .ok rail => (.ok (),{ k with second := some { s with rail } })

def activate (k : Kinematics α) (carriage : Carriage) : Kinematics α :=
  { k with second := k.second.map fun s => { s with active := carriage } }

def carriageRail (k : Kinematics α) (s : SecondCarriage α) : Carriage → Rail α
  | .first => k.x
  | .second => s.rail

def railPosition (p : RailPositions α) (r : Rail α) : Except (Error α) α :=
  match p.get? r.name with
  | some pos => .ok pos
  | none => .error (.motion (.missingRailPosition r.name))

variable [Scalar α]

def stepperPositions (k : Kinematics α) : RailPositions α :=
  .ofList (k.rails.map fun r => (r.name,r.commandedPos))

/-- The coordinate x, y, z that rail positions stand for. -/
def calcPosition (k : Kinematics α) (p : RailPositions α) : Except (Error α) (α × α × α) := do
  let a ← railPosition p k.x
  let b ← railPosition p k.y
  let c ← railPosition p k.z
  match k.topology with
  | .coreXY => return (0.5 * (a + b),0.5 * (a - b),c)
  | .coreXZ => return (0.5 * (a + c),b,0.5 * (a - c))
  | .hybridCoreXY =>
    match k.second with
    | some ⟨r,.second⟩ => return ((← railPosition p r) - b,b,c)
    | _ => return (a + b,b,c)

def generateSteps (k : Kinematics α) (queue : Option (SegmentQueue α)) (upto : α) :
    Except (Error α) Unit × Kinematics α :=
  k.updateRails fun r => r.generateSteps queue upto

def setPosition (k : Kinematics α) (coord : List α) : Except (Error α) Unit × Kinematics α :=
  k.updateRails fun r => r.setPosition coord

end Kinematics

end Gantry
