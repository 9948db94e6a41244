import Gantry.Queue.Channel
import Gantry.Motion.ToolheadMove

set_option autoImplicit false

namespace Gantry

structure SegmentQueue (α : Type) where
  channels : List (Channel α)
  finalized : Option α := none

namespace SegmentQueue
variable {α : Type}

def ofChannels (n : Nat) : SegmentQueue α := { channels := List.replicate n {} }

def channel (q : SegmentQueue α) (i : Nat) : Except (QueueError α) (Channel α) :=
  match q.channels[i]? with
  | some c => .ok c
  | none => .error (.unknownChannel i)

def push (q : SegmentQueue α) (i : Nat) (m : Segment α) : SegmentQueue α :=
  { q with channels := q.channels.modify i (·.push m) }

variable [Scalar α]

def admits (q : SegmentQueue α) (i : Nat) (m : Segment α) : Except (QueueError α) Unit := do
  m.validate
  (← q.channel i).admits m

def append (q : SegmentQueue α) (i : Nat) (m : Segment α) :
    Except (QueueError α) (SegmentQueue α) := do
  q.admits i m
  return q.push i m

def covered (q : SegmentQueue α) (mv : ToolheadMove α) : Nat :=
  min q.channels.length (min mv.startPos.length mv.axesR.length)

omit [Scalar α] in
theorem lt_covered {q : SegmentQueue α} {mv : ToolheadMove α} {i : Nat} : i < q.covered mv ↔
    i < q.channels.length ∧ i < mv.startPos.length ∧ i < mv.axesR.length := by
  simp only [covered,Nat.lt_min]

def segmentsOf (q : SegmentQueue α) (printTime : α) (mv : ToolheadMove α) :
    List (Nat × Segment α) :=
  (List.range (q.covered mv)).filterMap fun i => (mv.axisSegment printTime i).map (i,·)

/-- Adds a toolhead move to every channel it covers, or to none of them if one refuses. -/
def appendMove (q : SegmentQueue α) (printTime : α) (mv : ToolheadMove α) :
    Except (QueueError α) (SegmentQueue α) := do
  let segments := q.segmentsOf printTime mv
  -- all channels are asked before the first one takes its segment
  segments.forM fun (i,m) => q.admits i m
  return segments.foldl (fun q (i,m) => q.push i m) q

/-- The boundary after a request to finalize up to a time. It never goes back. -/
def advance (boundary : Option α) (before : α) : Option α :=
  match boundary with
  | some b => if b < before then some before else some b
  | none => if Scalar.isNaN before then none else some before

/-- Finalizes the segments that end by `before` and reclaims the history that ends before
`after`. -/
def finalize (q : SegmentQueue α) (before after : α) : SegmentQueue α :=
  let boundary := advance q.finalized before
  { channels := q.channels.map fun c => (c.retire boundary).reclaim after
    finalized := boundary }

def tailEnd (q : SegmentQueue α) (i : Nat) : Except (QueueError α) (Option α) :=
  (q.channel i).map fun c => c.tail?.map Segment.endTime

def segments (q : SegmentQueue α) (i : Nat) : Except (QueueError α) (List (Segment α)) :=
  (q.channel i).map Channel.segments

def pending (q : SegmentQueue α) (i : Nat) : Except (QueueError α) Nat :=
  (q.channel i).map fun c => c.active.length

def positionAt (q : SegmentQueue α) (i : Nat) (t : α) : Except (QueueError α) (Option α) :=
  (q.channel i).map fun c => c.positionAt t

def positionBefore (q : SegmentQueue α) (i : Nat) (t : α) : Except (QueueError α) (Option α) :=
  (q.channel i).map fun c => c.positionBefore t

def velocityAt (q : SegmentQueue α) (i : Nat) (t : α) : Except (QueueError α) α :=
  (q.channel i).map fun c => c.velocityAt t

end SegmentQueue

end Gantry
