import Gantry.Rail.Stepper

set_option autoImplicit false

namespace Gantry

structure Endstop where
  name : Name
  pin : Name
  controller : Name
  steppers : List StepperRef := []
  deriving DecidableEq

namespace Endstop

def ofPin (name pin controller : String) : Endstop :=
  { name := .clip name, pin := .clip pin, controller := .clip controller }

def hasStepper (e : Endstop) (name : String) : Bool := e.steppers.any fun s => s.name.text == name

variable {α : Type}

def addStepper (e : Endstop) (s : StepperRef) : Except (ConfigError α) Endstop :=
  if s.controller ≠ e.controller then
    .error (.controllerMismatch e.name e.controller s.name s.controller)
  else if e.hasStepper s.name.text then .ok e
  else .ok { e with steppers := e.steppers ++ [s] }

def addSteppers (e : Endstop) (steppers : List StepperRef) : Except (ConfigError α) Endstop :=
  steppers.foldlM addStepper e

end Endstop

end Gantry
