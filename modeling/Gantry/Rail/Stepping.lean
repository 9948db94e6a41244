import Gantry.Rail.Allocator
import Gantry.Rail.Stepper

/-!
Stepping: from the motion of a rail to the steps of its motors.

The range of time is cut into windows at the boundaries of all segments, so that within a window
the rail position is one quadratic. A window is cut once more where the quadratic turns around.
In what remains the position is monotone: each motor steps as long as its next step position is
reached by the end, and the time of a step is found by bisection.
-/
set_option autoImplicit false

namespace Gantry

/-- The channels that a rail follows, newest segments first, with their weights. -/
abbrev Track (α : Type) := List (Timeline α × α)

def bisectionDepth : Nat := 64

variable {α : Type} [Scalar α]

namespace Track

/-- The position at a time, unless a channel never had a segment. -/
@[specialize] def positionFrom (t : α) : Track α → α → Option α
  | [], total => some total
  | (l,w) :: rest, total =>
    match l.positionAt t with
    | some v => positionFrom t rest (total + v * w)
    | none => none

@[inline] def positionAt (k : Track α) (t : α) : Option α := positionFrom t k 0

@[specialize] def positionBeforeFrom (t : α) : Track α → α → Option α
  | [], total => some total
  | (l,w) :: rest, total =>
    match l.positionBefore t with
    | some v => positionBeforeFrom t rest (total + v * w)
    | none => none

@[inline] def positionBefore (k : Track α) (t : α) : Option α := positionBeforeFrom t k 0

def touches (start stop : α) (m : Segment α) : Bool :=
  !(decide (m.endTime ≤ start) || decide (stop ≤ m.startTime))

def touching (k : Track α) (start stop : α) : List (Segment α) :=
  k.flatMap fun (l,_) => l.reverse.filter (touches start stop)

def covers (k : Track α) (start stop : α) : Bool := !(k.touching start stop).isEmpty

end Track

/-- Keeps the times that are not within the slack of the last one kept. -/
def spaced : α → List α → List α
  | last, [] => [last]
  | last, t :: ts =>
    if Scalar.abs (t - last) < timeEpsilon then spaced last ts else last :: spaced t ts

/-- The ends of a range and the boundaries of segments inside it, in order and apart from each
other. -/
def breakTimes (segments : List (Segment α)) (start stop : α) : List α :=
  let inside := segments.flatMap fun m => m.boundaries.filter fun t => start < t ∧ t < stop
  match (start :: stop :: inside).mergeSort Scalar.sortsBefore with
  | [] => []
  | t :: ts => spaced t ts

def breakpoints (k : Track α) (start stop : α) : List α :=
  breakTimes (k.touching start stop) start stop

/-- The time inside a window at which the quadratic through the positions at its start, middle and
end turns around. -/
def turningPoint (a b posA posM posB : α) : Option α :=
  -- the position is `posA + c1 * s + c2 * s * s` after a time `s` in the window
  let h := b - a
  let c2 := 2.0 * (posA + posB - 2.0 * posM) / (h * h)
  if c2 == 0 || !Scalar.isFinite c2 then none
  else
    let c1 := (posB - posA) / h - c2 * h
    let s := -c1 / (2.0 * c2)
    if timeEpsilon < s ∧ s < h - timeEpsilon then some (a + s) else none

@[inline] def Direction.isBefore (d : Direction) (pos target : α) : Bool :=
  match d with
  | .positive => pos < target
  | .negative => target < pos

@[inline] def Direction.reaches (d : Direction) (pos target : α) : Bool :=
  match d with
  | .positive => target ≤ pos
  | .negative => pos ≤ target

/-- Halves an interval of time around the moment at which a position comes to a target, and gives
its end. -/
@[specialize] def bisect (position : α → α) (target : α) (d : Direction) : Nat → α → α → α
  | 0, _, hi => hi
  | n + 1, lo, hi =>
    -- closer than this the midpoint may be one of the ends
    if hi - lo ≤ Scalar.epsilon * Scalar.larger (Scalar.abs hi) 1 then hi
    else
      let mid := 0.5 * (lo + hi)
      if d.isBefore (position mid) target then bisect position target d n mid hi
      else bisect position target d n lo mid

@[inline] def findCrossing (position : α → α) (lo hi target : α) (d : Direction) : α :=
  bisect position target d bisectionDepth lo hi

def Direction.between? (a b : α) : Option Direction :=
  if a < b then some .positive else if b < a then some .negative else none

namespace Stepper

/-- Steps while the next step position is reached, at most `fuel` times. -/
@[specialize] def stepWhile (position : α → α) (lo hi posHi : α) (d : Direction) :
    Nat → Stepper α → Stepper α
  | 0, s => s
  | fuel + 1, s =>
    let target := s.nextStepPosition d
    if d.reaches posHi target then
      stepWhile position lo hi posHi d fuel (s.step (findCrossing position lo hi target d) d)
    else s

/-- More steps than lead to a position: every counter up to it is passed once. The double leaves
room for rounding. -/
def stepBound (s : Stepper α) (pos : α) : Nat :=
  s.counter.natAbs + 2 * Scalar.ceil ((Scalar.abs pos + Scalar.abs s.offset) / s.stepDistance) + 2

@[specialize] def follow (position : α → α) (lo hi posHi : α) (d : Direction) (s : Stepper α) :
    Stepper α :=
  if s.stepDistance ≤ 0 then s
  else stepWhile position lo hi posHi d (s.stepBound posHi) s

end Stepper

@[specialize] def stepMonotone (position : α → α) (lo hi posLo posHi : α)
    (steppers : List (Stepper α)) : List (Stepper α) :=
  match Direction.between? posLo posHi with
  | some d => steppers.map (Stepper.follow position lo hi posHi d)
  | none => steppers

structure RailMotion (α : Type) where
  position : α → α
  positionBefore : α → α

/-- The motion along a track; where the track has no position, the rail stays at `rest`. -/
def Track.motion (k : Track α) (rest : α) : RailMotion α where
  position t := (k.positionAt t).getD rest
  positionBefore t := (k.positionBefore t).getD rest

/-- The steps of all motors in one window. Its end is approached from before, so that a jump of the
position makes no steps. -/
@[specialize] def stepWindow (motion : RailMotion α) (steppers : List (Stepper α)) (a b : α) :
    List (Stepper α) :=
  let posA := motion.position a
  let posB := motion.positionBefore b
  let posM := motion.position (0.5 * (a + b))
  match turningPoint a b posA posM posB with
  | some t =>
    let posT := motion.position t
    stepMonotone motion.position t b posT posB (stepMonotone motion.position a t posA posT steppers)
  | none => stepMonotone motion.position a b posA posB steppers

def windows (times : List α) : List (α × α) := times.zip times.tail

def stepWindows (motion : RailMotion α) (times : List α) (steppers : List (Stepper α)) :
    List (Stepper α) :=
  (windows times).foldl (fun steppers (a,b) => stepWindow motion steppers a b) steppers

end Gantry
