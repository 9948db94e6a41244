import Gantry.Error
import Gantry.Numeric.Plain

set_option autoImplicit false

namespace Gantry

def Requirement.message : Requirement → String
  | .positive => "must be > 0"
  | .nonNegative => "must be >= 0"
  | .objectName => "expected an object name"
  | .axisName => "expected one of x, y, z"

def invalidMicrostepsMessage (value : Nat) : String :=
  s!"Invalid microsteps: {value}. Valid values: 1, 2, 4, 8, 16, 32, 64, 128, 256"

def ConfigError.message : ConfigError Float → String
  | .malformed => "Parse error: not a TOML document"
  | .misfit reason => s!"Parse error: {reason.text}"
  | .unreadable => "I/O error: the file cannot be read as text"
  | .invalidMicrosteps value => invalidMicrostepsMessage value
  | .invalidValue option value required =>
    s!"Invalid value {plainText value} for '{option.text}': {required.message}"
  | .invalidChoice option value => s!"Choice '{value.text}' for option '{option.text}' is not valid"
  | .missingOption option => s!"Option '{option.text}' must be specified"
  | .unknownOption option => s!"Option '{option.text}' is not valid in this section"
  | .emptyRail rail => s!"Rail '{rail.text}' has no steppers"
  | .tooManySteppers rail => s!"Rail '{rail.text}' supports only a single stepper"
  | .missingEndstop rail => s!"Rail '{rail.text}' requires an endstop"
  | .controllerMismatch endstop endstopController stepper stepperController =>
    s!"Endstop '{endstop.text}' on '{endstopController.text}' cannot home stepper " ++
      s!"'{stepper.text}' on '{stepperController.text}'"
  | .duplicateStepperName stepper => s!"Duplicate stepper name: '{stepper.text}'"
  | .tooManyStages limit => s!"Too many pivot stages (max {limit})"

def CommandError.message : CommandError Float → String
  | .noEndstop axis => s!"No endstop for manual stepper '{axis.text}'"
  | .transformAlreadyActive => "Pivot transform already activated"
  | .transformAlreadySet => "Move transform already specified"
  | .transformNotOnTop => "Active move transform is not the pivot transform"
  | .invalidGcodeAxis letter => s!"Not a valid GCODE_AXIS: '{letter.text}'"
  | .axisRegistered axis => s!"Manual stepper '{axis.text}' must unregister from gcode axis first"
  | .duplicateExtraAxis axis => s!"Extra axis '{axis.text}' already registered"
  | .notIdle axis => s!"Manual stepper '{axis.text}' is homing"
  | .invalidSpeed speed => s!"Invalid speed {plainText speed}: must be > 0"
  | .invalidAccel accel => s!"Invalid acceleration {plainText accel}: must be >= 0"

def Quantity.text : Quantity → String
  | .startTime => "start_time"
  | .startPos => "start_pos"
  | .accelT => "accel_t"
  | .cruiseT => "cruise_t"
  | .decelT => "decel_t"
  | .startV => "start_v"
  | .cruiseV => "cruise_v"
  | .accel => "accel"
  | .rangeStart => "range.start"
  | .rangeEnd => "range.end"

def Ramp.text : Ramp → String
  | .accel => "accel"
  | .cruise => "cruise"
  | .decel => "decel"

def QueueError.message : QueueError Float → String
  | .outOfOrder startTime tailEnd =>
    s!"Segment at {plainText startTime} precedes channel tail end {plainText tailEnd}"
  | .negativeDuration part value => s!"Negative {part.text} duration {plainText value}"
  | .unreachableCruise startV cruiseV accel accelT =>
    s!"Cruise velocity {plainText cruiseV} unreachable from {plainText startV} " ++
      s!"with accel {plainText accel} over {plainText accelT}s"
  | .nonFinite quantity => s!"Value '{quantity.text}' is not finite"
  | .unknownChannel channel => s!"Unknown channel {channel}"
  | .rangeReclaimed start reclaimed =>
    s!"Range starting at {plainText start} reaches reclaimed history " ++
      s!"(before {plainText reclaimed})"
  | .invalidInterval interval => s!"Invalid sample interval {plainText interval}"

def MotionError.message : MotionError → String
  | .unboundQueue rail => s!"Rail '{rail.text}' has no move queue bound"
  | .channelOutOfRange rail channel =>
    s!"Rail '{rail.text}' references channel {channel} outside the queue"
  | .transformDetached transform =>
    s!"Transform '{transform}' is not attached to an inner transform"
  | .missingRailPosition rail => s!"No position for rail '{rail.text}'"
  | .coordinateTooShort length index => s!"Coordinate has {length} axes, index {index} requested"

def Error.message : Error Float → String
  | .config e => "Configuration error: " ++ e.message
  | .command e => "Command error: " ++ e.message
  | .queue e => "Queue error: " ++ e.message
  | .motion e => "Motion error: " ++ e.message

end Gantry
