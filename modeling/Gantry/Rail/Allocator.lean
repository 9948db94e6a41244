import Gantry.Queue.SegmentQueue

set_option autoImplicit false

namespace Gantry

inductive Sign where
  | plus
  | minus
  deriving DecidableEq

inductive Allocator where
  | cartesian (axis : Axis)
  | coreXY (sign : Sign)
  | coreXZ (sign : Sign)
  deriving DecidableEq

instance : Inhabited Allocator := ⟨.cartesian .x⟩

variable {α : Type} [Scalar α]

def Sign.factor : Sign → α
  | .plus => 1
  | .minus => -1

namespace Allocator

def terms : Allocator → List (Nat × α)
  | .cartesian axis => [(axis.index,1)]
  | .coreXY sign => [(Axis.x.index,1),(Axis.y.index,sign.factor)]
  | .coreXZ sign => [(Axis.x.index,1),(Axis.z.index,sign.factor)]

def channels : Allocator → List Nat
  | .cartesian axis => [axis.index]
  | .coreXY _ => [Axis.x.index,Axis.y.index]
  | .coreXZ _ => [Axis.x.index,Axis.z.index]

def maxChannel (a : Allocator) : Nat := a.channels.foldl max 0

def weighted : List (Option α × α) → α → Option α
  | [], total => some total
  | (some v,w) :: rest, total => weighted rest (total + v * w)
  | (none,_) :: _, _ => none

def calcPosition (a : Allocator) (coord : List α) : Option α :=
  weighted (a.terms.map fun (i,w) => (coord[i]?,w)) 0

def combine (read : Nat → Except (QueueError α) (Option α)) :
    List (Nat × α) → α → Except (QueueError α) (Option α)
  | [], total => .ok (some total)
  | (i,w) :: rest, total =>
    match read i with
    | .error e => .error e
    | .ok none => .ok none
    | .ok (some v) => combine read rest (total + v * w)

/-- The position of the rail at a time, or nothing while one of its channels never had a
segment. -/
def positionAt (a : Allocator) (q : SegmentQueue α) (t : α) : Except (QueueError α) (Option α) :=
  combine (q.positionAt · t) a.terms 0

def positionBefore (a : Allocator) (q : SegmentQueue α) (t : α) :
    Except (QueueError α) (Option α) :=
  combine (q.positionBefore · t) a.terms 0

end Allocator

end Gantry
