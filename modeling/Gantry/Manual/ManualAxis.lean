import Gantry.Manual.Toolhead
import Gantry.Motion.Profile
import Gantry.Rail.Rail
import Gantry.Text.Uppercase
import Gantry.Topology.Positions

/-!
Manual axes: a rail with a queue and a clock of its own. Its moves start at its clock, which is
brought together with the clock of the toolhead wherever one could overtake the other; neither ever
goes back. An axis either takes commands or, registered under a letter, follows the moves of the
toolhead.
-/
set_option autoImplicit false

namespace Gantry

inductive AxisState where
  | idle
  | homing
  deriving DecidableEq

structure ManualAxis (α : Type) where
  name : Name
  objectName : String
  rail : Rail α
  queue : SegmentQueue α
  canHome : Bool
  velocity : α
  accel : α
  homingAccel : α
  nextCmdTime : α
  state : AxisState := .idle
  /-- The letter under which toolhead moves drive the axis. -/
  letter : Option Char := none

namespace ManualAxis
variable {α : Type}

def reservedLetters : List Char := ['X','Y','Z','E','F','N']

/-- The letter that a text names an axis by: a single upper case one that is not reserved. -/
def letter? (s : String) : Option Char :=
  match s.toList with
  | [c] => if isUppercase c && !reservedLetters.contains c then some c else none
  | _ => none

def objectNameOf (name : String) : String := "manual_stepper " ++ name

def checkCommandable (a : ManualAxis α) : Except (Error α) Unit :=
  if a.letter.isSome then .error (.command (.axisRegistered a.name))
  else if a.state ≠ .idle then .error (.command (.notIdle a.name))
  else .ok ()

variable [Scalar α]

def finalizeHorizon : α := 99999.9

/-- An axis around a rail, with a queue of one channel. It can home if the rail has an endstop. -/
def ofRail (name : String) (rail : Rail α) (velocity accel : α) : ManualAxis α :=
  { name := .clip name
    objectName := objectNameOf name
    rail
    queue := .ofChannels 1
    canHome := !rail.endstops.isEmpty
    velocity, accel
    homingAccel := accel
    nextCmdTime := 0 }

def position (a : ManualAxis α) : List α := [a.rail.commandedPos,0,0,0]

omit [Scalar α] in
def stepperPositions (a : ManualAxis α) : RailPositions α :=
  .ofList [(a.rail.name,a.rail.commandedPos)]

def calcPosition (a : ManualAxis α) (p : RailPositions α) : Except (Error α) (α × α × α) :=
  match p.get? a.rail.name with
  | some pos => .ok (pos,0,0)
  | none => .error (.motion (.missingRailPosition a.rail.name))

def place (a : ManualAxis α) (pos : α) : Except (Error α) (ManualAxis α) :=
  (a.rail.setPosition [pos,0,0]).map fun rail => { a with rail }

def setPosition (a : ManualAxis α) (pos : α) : Except (Error α) (ManualAxis α) := do
  a.checkCommandable
  a.place pos

/-- The speed and the acceleration of a move, where not given those of the axis. -/
def speeds (a : ManualAxis α) (speed accel : Option α) : Except (Error α) (α × α) :=
  let speed := speed.getD a.velocity
  let accel := accel.getD a.accel
  if Scalar.isNaN speed ∨ speed ≤ 0 then .error (.command (.invalidSpeed speed))
  else if Scalar.isNaN accel ∨ accel < 0 then .error (.command (.invalidAccel accel))
  else .ok (speed,accel)

/-- Delays the next command; a negative delay does nothing. -/
def delay (a : ManualAxis α) (d : α) : ManualAxis α :=
  { a with nextCmdTime := a.nextCmdTime + Scalar.larger d 0 }

def generateSteps (a : ManualAxis α) (upto : α) : Except (Error α) (ManualAxis α) :=
  (a.rail.generateSteps (some a.queue) upto).map fun rail => { a with rail }

def processMove (a : ManualAxis α) (printTime : α) (mv : ToolheadMove α) (slot : Nat) :
    Except (Error α) (ManualAxis α) :=
  match mv.axisSegment printTime slot with
  | none =>
    .error (.motion (.coordinateTooShort (min mv.startPos.length mv.axesR.length) slot))
  | some segment =>
    match a.queue.append 0 segment with
    | .error e => .error (.queue e)
    | .ok queue => .ok { a with queue }

variable {σ : Type}

section Clock
variable [MotionClock σ α]

def sync (a : ManualAxis α) (s : σ) : ManualAxis α × σ :=
  let (printTime,s) := MotionClock.lastMoveTime s
  if printTime < a.nextCmdTime then (a,MotionClock.dwell (a.nextCmdTime - printTime) s)
  else ({ a with nextCmdTime := printTime },s)

def drive (a : ManualAxis α) (s : σ) (target speed accel : α) (synchronize : Bool) :
    Except (Error α) Unit × ManualAxis α × σ :=
  let (a,s) := a.sync s
  let start := a.rail.commandedPos
  let profile := Profile.symmetric (target - start) speed accel
  match a.queue.append 0 (profile.segment a.nextCmdTime start accel) with
  | .error e => (.error (.queue e),a,s)
  | .ok queue =>
    let a := { a with queue, nextCmdTime := a.nextCmdTime + profile.duration }
    match a.generateSteps a.nextCmdTime with
    | .error e => (.error e,a,s)
    | .ok a =>
      -- so far behind the move that only its own segment is left
      let horizon := a.nextCmdTime + finalizeHorizon
      let a := { a with queue := a.queue.finalize horizon horizon }
      let s := MotionClock.noteActivity a.nextCmdTime s
      (.ok (),if synchronize then a.sync s else (a,s))

def moveTo (a : ManualAxis α) (s : σ) (target : α) (speed accel : Option α)
    (synchronize : Bool) : Except (Error α) Unit × ManualAxis α × σ :=
  match (do a.checkCommandable; a.speeds speed accel) with
  | .error e => (.error e,a,s)
  | .ok (speed,accel) => a.drive s target speed accel synchronize

def enable [StepperEnable σ α] (a : ManualAxis α) (s : σ) (on : Bool) :
    Except (Error α) Unit × ManualAxis α × σ :=
  match a.checkCommandable with
  | .error e => (.error e,a,s)
  | .ok () =>
    let (a,s) := a.sync s
    let s := a.rail.stepperRefs.foldl
      (fun s r => StepperEnable.setEnabled r.name on a.nextCmdTime s) s
    (.ok (),a.sync s)

end Clock

section Registration
variable [AxisHost σ α]

def unregister (a : ManualAxis α) (owner : Nat) (s : σ) :
    Except (Error α) Unit × ManualAxis α × σ :=
  match AxisHost.removeExtraAxis a.objectName s with
  | (.error e,s) => (.error e,a,s)
  | (.ok (),s) => (.ok (),{ a with letter := none },AxisHost.unregisterGenerator owner s)

def registerAs (a : ManualAxis α) (owner : Nat) (s : σ) (letter : Char) :
    Except (Error α) Unit × ManualAxis α × σ :=
  match AxisHost.addExtraAxis ⟨a.objectName,letter,owner⟩ a.rail.commandedPos s with
  | (.error e,s) => (.error e,a,s)
  | (.ok (),s) =>
    (.ok (),{ a with letter := some letter },AxisHost.registerGenerator owner s)

/-- Registers the axis under a letter, or takes it off the toolhead if the text is empty. -/
def setGcodeAxis (a : ManualAxis α) (owner : Nat) (s : σ) (text : String) :
    Except (Error α) Unit × ManualAxis α × σ :=
  if a.letter.isSome then
    if text = "" then a.unregister owner s
    else (.error (.command (.axisRegistered a.name)),a,s)
  else if text = "" then (.ok (),a,s)
  else
    match letter? text with
    | none => (.error (.command (.invalidGcodeAxis (.clip text))),a,s)
    | some letter => a.registerAs owner s letter

end Registration

end ManualAxis

end Gantry
