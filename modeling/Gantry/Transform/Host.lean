import Gantry.Transform.Transform

/-!
Hosts and controls. A host issues moves to the front of a chain and remembers the last one. A
control puts its pivot in front of the chain of a host and takes it off again; in between it parks
the pivot.
-/
set_option autoImplicit false

namespace Gantry

/-- The chain that moves are issued to, with the last position commanded. -/
structure TransformHost (α : Type) where
  transform : Transform α
  lastPosition : List α := []

/-- A pivot that can be activated: parked here, or in the chain of a host. -/
structure PivotControl (α : Type) where
  parked : Option (Pivot α)

variable {α : Type}

namespace TransformHost

/-- Puts another chain in place, and gives the one before. Unless forced, only a terminal transform
is replaced. -/
def setTransform (h : TransformHost α) (transform : Transform α) (force : Bool) :
    Except (Error α) (Transform α × TransformHost α) :=
  if force || h.transform.isTerminal then .ok (h.transform,{ h with transform })
  else .error (.command .transformAlreadySet)

variable [Scalar α]

def getPosition (h : TransformHost α) : Except (Error α) (List α) × TransformHost α :=
  let (r,transform) := h.transform.getPosition
  (r,{ h with transform })

def resetLastPosition (h : TransformHost α) : Except (Error α) (List α) × TransformHost α :=
  match h.getPosition with
  | (.ok pos,h) => (.ok pos,{ h with lastPosition := pos })
  | (.error e,h) => (.error e,h)

def moveTo (h : TransformHost α) (target : List α) (speed : α) :
    Except (Error α) Unit × TransformHost α :=
  match h.transform.moveTo target speed with
  | (.ok (),transform) => (.ok (),⟨transform,target⟩)
  | (.error e,transform) => (.error e,{ h with transform })

def resolve (h : TransformHost α) (axes : ExtraAxes) : TransformHost α :=
  { h with transform := h.transform.resolve axes }

end TransformHost

namespace PivotControl

def isActive (c : PivotControl α) : Bool := c.parked.isNone

/-- Takes the pivot off the chain, if it is active; it has to be in front. -/
def deactivate (c : PivotControl α) (h : TransformHost α) :
    Except (Error α) Unit × PivotControl α × TransformHost α :=
  match c.parked,h.transform with
  | some _, _ => (.ok (),c,h)
  | none, .terminal _ => (.error (.command .transformNotOnTop),c,h)
  | none, .detached _ => (.error pivotDetached,c,h)
  -- the pivot in front comes off, whichever control has put it there
  | none, .over pivot next => (.ok (),⟨some pivot⟩,{ h with transform := next })

variable [Scalar α]

/-- Puts the pivot in front of the chain, looks the slots of its stages up, and reads the position
through it. -/
def activate (c : PivotControl α) (h : TransformHost α) (axes : ExtraAxes) :
    Except (Error α) Unit × PivotControl α × TransformHost α :=
  match c.parked with
  | none => (.error (.command .transformAlreadyActive),c,h)
  | some pivot =>
    let h := { h with transform := .over (pivot.resolve axes) h.transform }
    -- the pivot stays in front also where the position cannot be read
    let (r,h) := h.resetLastPosition
    (r.map fun _ => (),⟨none⟩,h)

end PivotControl

end Gantry
