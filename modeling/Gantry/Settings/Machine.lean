import Gantry.Settings.Stage
import Gantry.Settings.Stepper
import Gantry.Topology.Kinematics

set_option autoImplicit false

namespace Gantry

structure KinematicsSettings (α : Type) where
  topology : Topology
  x : RailSettings α
  y : RailSettings α
  z : RailSettings α
  second : Option (RailSettings α) := none

def KinematicsSettings.rails {α : Type} (k : KinematicsSettings α) : List (RailSettings α) :=
  [k.x,k.y,k.z] ++ k.second.toList

/-- A pivot: how finely moves are split, the travel of an axis that makes a full turn, and the
options of its stages. -/
structure PivotSettings (α : Type) where
  resolution : α
  fullRotation : α
  options : StageOptions α := {}

/-- A manual axis with its speed and acceleration where a move gives none. -/
structure ManualSettings (α : Type) where
  stepper : StepperSettings α
  velocity : α
  accel : α
  endstop : Option EndstopSettings := none

structure MachineSettings (α : Type) where
  kinematics : Option (KinematicsSettings α) := none
  pivot : Option (PivotSettings α) := none
  manual : List (Name × ManualSettings α) := []

variable {α : Type}

/-- A pivot without stages that is split at a tenth and turns once in 360. -/
def PivotSettings.plain [Scalar α] : PivotSettings α := { resolution := 0.1, fullRotation := 360.0 }

namespace MachineSettings

def maxManual : Nat := 8

def manual? (m : MachineSettings α) (name : String) : Option (ManualSettings α) :=
  (m.manual.find? fun e => e.1.text == name).map (·.2)

end MachineSettings

end Gantry
