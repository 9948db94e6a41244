import Gantry.Settings.Validation

set_option autoImplicit false

namespace Gantry

variable {α : Type} [Scalar α]

def Stepper.ofSettings (s : StepperSettings α) : Stepper α :=
  { Stepper.ofName s.name.text s.controller.text s.stepDistance with inverted := s.inverted }

omit [Scalar α] in
def Endstop.ofSettings (name : Name) (s : EndstopSettings) : Endstop := ⟨name,s.pin,s.controller,[]⟩

def Rail.ofParts (name : Name) (endstop : Option EndstopSettings)
    (steppers : List (StepperSettings α)) : Except (ConfigError α) (Rail α) := do
  let rail : Rail α := .ofName name.text
  let rail ← match endstop with
    | some e => rail.addEndstop (.ofSettings name e)
    | none => pure rail
  (steppers.map Stepper.ofSettings).foldlM Rail.addStepper rail

def Rail.ofSettings (r : RailSettings α) : Except (ConfigError α) (Rail α) :=
  if r.steppers.isEmpty then .error (.emptyRail r.name)
  else Rail.ofParts r.name r.endstop r.steppers

/-- The coupled rails of settings. Only a hybrid machine has a second carriage, which is built
first. -/
def Kinematics.ofSettings (k : KinematicsSettings α) : Except (ConfigError α) (Kinematics α) := do
  let second ← match k.topology,k.second with
    | .hybridCoreXY,some r => (Rail.ofSettings r).map some
    | _,_ => pure none
  let x ← Rail.ofSettings k.x
  let y ← Rail.ofSettings k.y
  let z ← Rail.ofSettings k.z
  match k.topology with
  | .coreXY => coreXY x y z
  | .coreXZ => coreXZ x y z
  | .hybridCoreXY => hybridCoreXY x y z second

def ManualAxis.ofSettings (name : Name) (s : ManualSettings α) :
    Except (ConfigError α) (ManualAxis α) := do
  checkPositive "velocity" s.velocity
  checkNonNegative "accel" s.accel
  let rail ← Rail.ofParts s.stepper.name s.endstop [s.stepper]
  return .ofRail name.text rail s.velocity s.accel

def Pivot.ofSettings (p : PivotSettings α) : Except (ConfigError α) (Pivot α) := do
  let pivot ← Pivot.ofResolution p.resolution p.fullRotation
  let stages ← p.options.stages
  stages.foldlM (fun pivot s => pivot.addStage s.control s.rotateAxis s.offset) pivot

end Gantry
