import Gantry.Error
import Gantry.Numeric.Scalar

set_option autoImplicit false

namespace Gantry

def Microsteps.divisors : List Nat := [1,2,4,8,16,32,64,128,256]

structure Microsteps where
  divisor : Nat
  isDivisor : divisor ∈ Microsteps.divisors
  deriving DecidableEq

namespace Microsteps

def sixteenth : Microsteps := ⟨16,by decide⟩

def ofNat? (n : Nat) : Option Microsteps := if h : n ∈ divisors then some ⟨n,h⟩ else none

def ofNat {α : Type} (n : Nat) : Except (ConfigError α) Microsteps :=
  match ofNat? n with
  | some m => .ok m
  | none => .error (.invalidMicrosteps n)

end Microsteps

structure StepperSettings (α : Type) where
  name : Name
  controller : Name := .clip "mcu"
  stepPin : Name
  dirPin : Name
  enablePin : Option Name := none
  /-- The travel of one turn. -/
  rotationDistance : α
  fullSteps : UInt16 := 200
  microsteps : Microsteps := .sixteenth
  /-- Turns of the motor for one turn of what it drives. -/
  gearRatio : α
  inverted : Bool := false

structure EndstopSettings where
  pin : Name
  controller : Name := .clip "mcu"
  deriving DecidableEq

structure RailSettings (α : Type) where
  steppers : List (StepperSettings α)
  endstop : Option EndstopSettings := none

variable {α : Type}

def StepperSettings.stepDistance [Scalar α] (s : StepperSettings α) : α :=
  s.rotationDistance / ((s.fullSteps.toNat : α) * (s.microsteps.divisor : α) * s.gearRatio)

def RailSettings.name (r : RailSettings α) : Name :=
  match r.steppers with
  | s :: _ => s.name
  | [] => .clip ""

end Gantry
