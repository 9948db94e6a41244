import Gantry.Text.Label

/-!
Why an operation is refused. There are four categories: the description of the machine is wrong, a
command is refused, a segment does not fit its queue, or motion finds something missing.
-/
set_option autoImplicit false

namespace Gantry

inductive Requirement where
  | positive
  | nonNegative
  | objectName
  | axisName
  deriving DecidableEq

inductive ConfigError (α : Type) where
  | malformed
  | misfit (reason : Label 128)
  | unreadable
  | invalidMicrosteps (value : Nat)
  | invalidValue (option : Name) (value : α) (required : Requirement)
  | invalidChoice (option value : Name)
  | missingOption (option : Name)
  | unknownOption (option : Name)
  | emptyRail (rail : Name)
  | tooManySteppers (rail : Name)
  | missingEndstop (rail : Name)
  /-- An endstop can stop only the steppers of its own controller. -/
  | controllerMismatch (endstop endstopController stepper stepperController : Name)
  | duplicateStepperName (stepper : Name)
  | tooManyStages (limit : Nat)

inductive CommandError (α : Type) where
  | noEndstop (axis : Name)
  | transformAlreadyActive
  | transformAlreadySet
  | transformNotOnTop
  | invalidGcodeAxis (letter : Label 8)
  | axisRegistered (axis : Name)
  | duplicateExtraAxis (axis : Name)
  | notIdle (axis : Name)
  | invalidSpeed (speed : α)
  | invalidAccel (accel : α)

inductive Quantity where
  | startTime
  | startPos
  | accelT
  | cruiseT
  | decelT
  | startV
  | cruiseV
  | accel
  | rangeStart
  | rangeEnd
  deriving DecidableEq

inductive Ramp where
  | accel
  | cruise
  | decel
  deriving DecidableEq

inductive QueueError (α : Type) where
  | outOfOrder (startTime tailEnd : α)
  | negativeDuration (part : Ramp) (value : α)
  | unreachableCruise (startV cruiseV accel accelT : α)
  | nonFinite (quantity : Quantity)
  | unknownChannel (channel : Nat)
  | rangeReclaimed (start reclaimed : α)
  | invalidInterval (interval : α)

inductive MotionError where
  | unboundQueue (rail : Name)
  | channelOutOfRange (rail : Name) (channel : Nat)
  | transformDetached (transform : String)
  | missingRailPosition (rail : Name)
  | coordinateTooShort (length index : Nat)
  deriving DecidableEq

inductive Error (α : Type) where
  | config (e : ConfigError α)
  | command (e : CommandError α)
  | queue (e : QueueError α)
  | motion (e : MotionError)

end Gantry
