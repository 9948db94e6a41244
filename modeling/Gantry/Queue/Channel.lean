import Gantry.Motion.Segment

/-!
Channels: the segments of one coordinate in order of time. Segments wait in the active part, pass
to the history once they are finalized, and are reclaimed from the front of the history. The
history keeps its newest segment, so the position can still be read when all is finalized.
-/
set_option autoImplicit false

namespace Gantry

structure Channel (α : Type) where
  history : List (Segment α) := []
  active : List (Segment α) := []
  /-- The latest end of a segment that has been reclaimed. -/
  reclaimed : Option α := none

variable {α : Type} [Scalar α]

abbrev Timeline (α : Type) := List (Segment α)

namespace Timeline

/-- The start of the oldest segment, which is the position before any of them. -/
@[specialize] def origin : Timeline α → Option α
  | [] => none
  | [m] => some m.startPos
  | _ :: ms => origin ms

/-- The position at a time: of the newest segment that has begun, or of the origin. -/
@[specialize] def positionAt (l : Timeline α) (t : α) : Option α :=
  match l.find? fun m => m.startTime ≤ t with
  | some m => some (m.positionAt t)
  | none => l.origin

/-- The position that a time is approached with; a segment that begins at that time is ignored. -/
@[specialize] def positionBefore (l : Timeline α) (t : α) : Option α :=
  match l.find? fun m => m.startTime < t with
  | some m => some (m.positionAt t)
  | none => l.origin

@[specialize] def velocityAt (l : Timeline α) (t : α) : α :=
  match l.find? fun m => m.startTime ≤ t with
  | some m => if t < m.endTime then m.velocityAt t else 0
  | none => 0

end Timeline

namespace Channel

omit [Scalar α] in
def segments (c : Channel α) : List (Segment α) := c.history ++ c.active

omit [Scalar α] in
def timeline (c : Channel α) : Timeline α := c.segments.reverse

omit [Scalar α] in
def tail? (c : Channel α) : Option (Segment α) := c.segments.getLast?

def positionAt (c : Channel α) (t : α) : Option α := c.timeline.positionAt t

def positionBefore (c : Channel α) (t : α) : Option α := c.timeline.positionBefore t

def velocityAt (c : Channel α) (t : α) : α := c.timeline.velocityAt t

/-- Whether a segment may follow: it starts no earlier than the newest one ends, up to the
slack. -/
def admits (c : Channel α) (m : Segment α) : Except (QueueError α) Unit :=
  match c.tail? with
  | some tail =>
    if m.startTime < tail.endTime - timeEpsilon then .error (.outOfOrder m.startTime tail.endTime)
    else .ok ()
  | none => .ok ()

omit [Scalar α] in
def push (c : Channel α) (m : Segment α) : Channel α := { c with active := c.active ++ [m] }

/-- Whether a segment ends by the boundary, up to the slack. -/
def ended (boundary : Option α) (m : Segment α) : Bool :=
  match boundary with
  -- an end that cannot be compared does not hold the segment back
  | some b => !decide (b + timeEpsilon < m.endTime)
  | none => false

def retire (c : Channel α) (boundary : Option α) : Channel α :=
  { c with
    history := c.history ++ c.active.takeWhile (ended boundary)
    active := c.active.dropWhile (ended boundary) }

def later (r : Option α) (t : α) : α :=
  match r with
  | some r => Scalar.larger r t
  | none => t

/-- Drops the first segments that end before a time, but never the last one of them, and notes the
latest end that was dropped. -/
def drop (after : α) : List (Segment α) → Option α → List (Segment α) × Option α
  | m :: n :: ms, r =>
    if m.endTime < after then drop after (n :: ms) (some (later r m.endTime)) else (m :: n :: ms,r)
  | ms, r => (ms,r)

def reclaim (c : Channel α) (after : α) : Channel α :=
  let (history,reclaimed) := drop after c.history c.reclaimed
  { c with history, reclaimed }

end Channel

end Gantry
