import Gantry.Numeric.Binary64
import Gantry.Settings.Decoder
import Gantry.Settings.Validation
import Gantry.Toml.Document

set_option autoImplicit false

namespace Gantry
open Toml

namespace Decoder

def microsteps : Decoder Microsteps := fun v => do
  let n ← word v
  match Microsteps.ofNat? n.toNat with
  | some m => return m
  | none => .error (.invalidMicrosteps n.toNat)

def name : Decoder Name := label 32

def controller : Fields Name := defaulted "controller" (.clip "mcu") name

def stepper : Decoder (StepperSettings Float) :=
  record "struct StepperConfig" <|
    StepperSettings.mk <$> required "name" name <*> controller <*> required "step_pin" name
      <*> required "dir_pin" name <*> optional "enable_pin" name
      <*> required "rotation_distance" number <*> defaulted "full_steps_per_rotation" 200 word
      <*> defaulted "microsteps" .sixteenth microsteps <*> defaulted "gear_ratio" 1.0 number
      <*> defaulted "invert_direction" false truth

def endstop : Decoder EndstopSettings :=
  record "struct EndstopConfig" <| EndstopSettings.mk <$> required "pin" name <*> controller

def rail : Decoder (RailSettings Float) :=
  record "struct RailConfig" <|
    RailSettings.mk <$> required "steppers" (listOf stepper)
      <*> optional "endstop" endstop

def topologies : List (String × Topology) :=
  [("corexy",.coreXY),("corexz",.coreXZ),("hybrid_corexy",.hybridCoreXY)]

def kinematics : Decoder (KinematicsSettings Float) :=
  record "struct KinematicsConfig" <|
    KinematicsSettings.mk <$> required "kind" (choice topologies)
      <*> required "stepper_x" rail <*> required "stepper_y" rail
      <*> required "stepper_z" rail <*> optional "dual_carriage" rail

def manual : Decoder (ManualSettings Float) :=
  record "struct ManualStepperConfig" <|
    ManualSettings.mk <$> required "stepper" stepper <*> defaulted "velocity" 5.0 number
      <*> defaulted "accel" 0.0 number <*> optional "endstop" endstop

def stageValue : Decoder (StageValue Float)
  | .string s => .ok (.text s)
  | v =>
    match number v with
    | .ok x => .ok (.number x)
    | .error _ => .error .notStageValue

def pivotKeys : List String := ["resolution","axis_full_rotation"]

/-- A pivot: its own keys first, then every other key as an option of a stage. -/
def pivot : Decoder (PivotSettings Float) := fun v =>
  match entries? v with
  | none => .error (.wrongType v "struct PivotCoordConfig")
  | some entries => do
    let plain : PivotSettings Float := .plain
    let fields : Fields (StageOptions Float → PivotSettings Float) :=
      PivotSettings.mk <$> defaulted "resolution" plain.resolution number
        <*> defaulted "axis_full_rotation" plain.fullRotation number
    let pivot ← ofTable fields entries
    let options ← (entries.filter fun e => !pivotKeys.contains e.1).foldlM
      (fun (o : StageOptions Float) (key,v) => return o.insert key (← stageValue v)) {}
    return pivot options

def machine : Decoder (MachineSettings Float) :=
  record "struct SystemConfig" <|
    MachineSettings.mk <$> optional "kinematics" kinematics
      <*> optional "pivot_coord" pivot
      <*> defaulted "manual_steppers" [] (mapOf 32 MachineSettings.maxManual manual)

end Decoder

namespace MachineSettings

def decode (text : String) : Except (ConfigError Float) (MachineSettings Float) :=
  match parse? text with
  | none => .error .malformed
  | some entries => (Decoder.machine (.table entries)).mapError fun m => .misfit (.clip m.message)

def ofText (text : String) : Except (ConfigError Float) (MachineSettings Float) := do
  let m ← decode text
  m.validate
  return m

def ofFile (content : Option ByteArray) : Except (ConfigError Float) (MachineSettings Float) :=
  match content.bind String.fromUTF8? with
  | some text => ofText text
  | none => .error .unreadable

end MachineSettings

end Gantry
