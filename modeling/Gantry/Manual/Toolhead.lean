import Gantry.Rail.Stepper
import Gantry.Transform.ExtraAxes

set_option autoImplicit false

namespace Gantry

class MotionClock (σ : Type) (α : outParam Type) where
  lastMoveTime : σ → α × σ
  dwell : α → σ → σ
  noteActivity : α → σ → σ

class StepperEnable (σ : Type) (α : outParam Type) where
  setEnabled : Name → Bool → α → σ → σ

structure ExtraAxis where
  name : String
  letter : Char
  owner : Nat
  deriving DecidableEq

/-- A toolhead that takes extra axes. A step generator is known by the manual axis it belongs to. -/
class AxisHost (σ : Type) (α : outParam Type) extends MotionClock σ α where
  addExtraAxis : ExtraAxis → α → σ → Except (Error α) Unit × σ
  removeExtraAxis : String → σ → Except (Error α) Unit × σ
  registerGenerator : Nat → σ → σ
  unregisterGenerator : Nat → σ → σ

inductive ClockNote (α : Type) where
  | dwell (delay : α)
  | activity (time : α)

structure EnableNote (α : Type) where
  on : Bool
  stepper : Name
  time : α

structure Toolhead (α : Type) where
  clock : α
  notes : Array (ClockNote α) := #[]
  enables : Array (EnableNote α) := #[]
  registry : ExtraAxes := {}
  /-- The extra axes with the positions at which they were added. -/
  axes : List (ExtraAxis × α) := []
  generators : List Nat := []

variable {α : Type} [Scalar α]

namespace Toolhead

def addExtraAxis (t : Toolhead α) (axis : ExtraAxis) (position : α) :
    Except (Error α) Unit × Toolhead α :=
  match t.registry.register axis.name with
  | .error e => (.error (.command e),t)
  | .ok (_,registry) => (.ok (),{ t with registry, axes := t.axes ++ [(axis,position)] })

omit [Scalar α] in
def removeExtraAxis (t : Toolhead α) (name : String) : Toolhead α :=
  match t.registry.remove name with
  | (some slot,registry) => { t with registry, axes := t.axes.eraseIdx (slot - ExtraAxes.base) }
  | (none,_) => t

omit [Scalar α] in
def clearNotes (t : Toolhead α) : Toolhead α := { t with notes := #[], enables := #[] }

end Toolhead

instance : MotionClock (Toolhead α) α where
  lastMoveTime t := (t.clock,t)
  dwell delay t := { t with clock := t.clock + delay, notes := t.notes.push (.dwell delay) }
  noteActivity time t := { t with notes := t.notes.push (.activity time) }

instance : StepperEnable (Toolhead α) α where
  setEnabled stepper on time t := { t with enables := t.enables.push ⟨on,stepper,time⟩ }

instance : AxisHost (Toolhead α) α where
  addExtraAxis axis position t := t.addExtraAxis axis position
  removeExtraAxis name t := (.ok (),t.removeExtraAxis name)
  registerGenerator owner t := { t with generators := t.generators ++ [owner] }
  unregisterGenerator owner t := { t with generators := t.generators.filter (· ≠ owner) }

end Gantry
