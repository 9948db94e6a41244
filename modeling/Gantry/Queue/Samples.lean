import Gantry.Queue.SegmentQueue

set_option autoImplicit false

namespace Gantry

structure Samples (α : Type) where
  timeline : Timeline α
  start : α
  stop : α
  interval : α
  index : Nat
  done : Bool

variable {α : Type} [Scalar α]

namespace Samples

/-- The time of the next sample, and whether it is the last one. -/
def nextTime (s : Samples α) : α × Bool :=
  let t := s.start + (s.index : α) * s.interval
  if s.stop - timeEpsilon ≤ t then (s.stop,true) else (t,false)

def next (s : Samples α) : Option (α × α) × Samples α :=
  if s.done then (none,s)
  else
    let (t,last) := s.nextTime
    match s.timeline.positionAt t with
    | some pos => (some (t,pos),{ s with index := s.index + 1, done := last })
    | none => (none,{ s with index := s.index + 1, done := true })

def take : Nat → Samples α → List (α × α)
  | 0, _ => []
  | n + 1, s =>
    match s.next with
    | (some sample,rest) => sample :: take n rest
    | (none,_) => []

/-- As many samples as a range may hold. The double leaves room for rounding. -/
def bound (s : Samples α) : Nat := 2 * Scalar.ceil ((s.stop - s.start) / s.interval) + 2

def toList (s : Samples α) : List (α × α) := s.take s.bound

end Samples

/-- Samples a channel over a range that does not begin in reclaimed history. -/
def SegmentQueue.pull (q : SegmentQueue α) (i : Nat) (start stop interval : α) :
    Except (QueueError α) (Samples α) := do
  let c ← q.channel i
  if ¬(Scalar.isFinite interval ∧ 0 < interval) then throw (.invalidInterval interval)
  if ¬Scalar.isFinite start then throw (.nonFinite .rangeStart)
  if ¬Scalar.isFinite stop then throw (.nonFinite .rangeEnd)
  if let some reclaimed := c.reclaimed then
    if start < reclaimed then throw (.rangeReclaimed start reclaimed)
  return ⟨c.timeline,start,stop,interval,0,stop < start⟩

end Gantry
