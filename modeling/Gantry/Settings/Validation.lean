import Gantry.Manual.ManualAxis
import Gantry.Settings.Machine

/-!
Validation of settings. The first refusal counts: rails before the pivot, the pivot before the
manual axes. A number is refused by comparison with zero.
-/
set_option autoImplicit false

namespace Gantry

variable {α : Type}

def claimName (names : List Name) (name : Name) : Except (ConfigError α) (List Name) :=
  if name ∈ names then .error (.duplicateStepperName name) else .ok (names ++ [name])

/-- Refuses a rail of a carriage that does not have exactly one motor. -/
def RailSettings.checkSingle (r : RailSettings α) : Except (ConfigError α) Unit :=
  if r.steppers.length = 1 then .ok () else .error (.tooManySteppers r.name)

variable [Scalar α]

def checkPositive (option : String) (x : α) : Except (ConfigError α) Unit :=
  if x ≤ 0 then .error (.invalidValue (.clip option) x .positive) else .ok ()

def checkNonNegative (option : String) (x : α) : Except (ConfigError α) Unit :=
  if x < 0 then .error (.invalidValue (.clip option) x .nonNegative) else .ok ()

/-- Refuses mechanics from which no step distance follows. -/
def StepperSettings.check (s : StepperSettings α) : Except (ConfigError α) Unit := do
  checkPositive "rotation_distance" s.rotationDistance
  if s.fullSteps = 0 then .error (.invalidValue (.clip "full_steps_per_rotation") 0 .positive)
  else checkPositive "gear_ratio" s.gearRatio

def RailSettings.check (r : RailSettings α) : Except (ConfigError α) Unit :=
  if r.steppers.isEmpty then .error (.emptyRail r.name) else r.steppers.forM StepperSettings.check

namespace KinematicsSettings

def checkRail (names : List Name) (r : RailSettings α) : Except (ConfigError α) (List Name) := do
  r.check
  if r.endstop.isNone then .error (.missingEndstop r.name)
  else (r.steppers.map (·.name)).foldlM claimName names

/-- Checks all rails, and gives the names of their motors. Only a hybrid machine has carriages. -/
def check (k : KinematicsSettings α) : Except (ConfigError α) (List Name) := do
  let names ← k.rails.foldlM checkRail []
  match k.topology,k.second with
  | .hybridCoreXY,second => do
    k.x.checkSingle
    second.forM RailSettings.checkSingle
  | _,some r => .error (.unknownOption r.name)
  | _,none => .ok ()
  return names

end KinematicsSettings

namespace MachineSettings

def checkControl (m : MachineSettings α) (s : StageSettings α) (i : Nat) :
    Except (ConfigError α) Unit :=
  if m.manual.any fun e => ManualAxis.objectNameOf e.1.text == s.control then .ok ()
  else .error (.invalidChoice (.clip (StageField.control.key i)) (.clip s.control))

def checkPivot (m : MachineSettings α) (p : PivotSettings α) : Except (ConfigError α) Unit := do
  checkPositive "resolution" p.resolution
  checkPositive "axis_full_rotation" p.fullRotation
  let stages ← p.options.stages
  stages.zipIdx.forM fun (s,i) => m.checkControl s i

def checkManual (names : List Name) (s : ManualSettings α) :
    Except (ConfigError α) (List Name) := do
  s.stepper.check
  let names ← claimName names s.stepper.name
  checkPositive "velocity" s.velocity
  checkNonNegative "accel" s.accel
  return names

def validate (m : MachineSettings α) : Except (ConfigError α) Unit := do
  let names ← match m.kinematics with
    | some k => k.check
    | none => pure []
  m.pivot.forM m.checkPivot
  let _ ← (m.manual.map (·.2)).foldlM checkManual names

end MachineSettings

end Gantry
