import Gantry.Manual.Homing

set_option autoImplicit false

namespace Gantry

/-- Manual axes and the toolhead that they share. An axis is known by its place. -/
structure Machine (α : Type) where
  axes : List (ManualAxis α)
  toolhead : Toolhead α

variable {α : Type} [Scalar α]

namespace Machine

omit [Scalar α] in
def onAxis {β : Type} (m : Machine α) (i : Nat)
    (f : ManualAxis α → Toolhead α → β × ManualAxis α × Toolhead α) : Option β × Machine α :=
  match m.axes[i]? with
  | none => (none,m)
  | some a =>
    let (r,a,toolhead) := f a m.toolhead
    (some r,⟨m.axes.set i a,toolhead⟩)

omit [Scalar α] in
/-- Changes the axes of some places one after another, up to the first refusal. -/
def updateAll (f : Nat → ManualAxis α → Except (Error α) (ManualAxis α)) :
    List (Nat × Nat) → List (ManualAxis α) → Except (Error α) Unit × List (ManualAxis α)
  | [], axes => (.ok (),axes)
  | (k,owner) :: rest, axes =>
    match axes[owner]? with
    | none => updateAll f rest axes
    | some a =>
      match f k a with
      | .error e => (.error e,axes)
      | .ok a => updateAll f rest (axes.set owner a)

omit [Scalar α] in
def extraOwners (m : Machine α) : List (Nat × Nat) :=
  (m.toolhead.axes.map fun (axis,_) => axis.owner).zipIdx.map fun (owner,k) => (k,owner)

def generate (m : Machine α) (upto : α) : Except (Error α) Unit × Machine α :=
  let (r,axes) := updateAll (fun _ a => a.generateSteps upto)
    (m.toolhead.generators.map fun owner => (0,owner)) m.axes
  (r,{ m with axes })

/-- Makes a move of the toolhead: every extra axis takes its share, the clock goes on, steps are
made up to it, and the queues of the extra axes are finalized up to it and reclaimed up to one
second before. -/
def run (m : Machine α) (mv : ToolheadMove α) : Except (Error α) Unit × Machine α :=
  let start := m.toolhead.clock
  match updateAll (fun k a => a.processMove start mv (ExtraAxes.base + k)) m.extraOwners m.axes with
  | (.error e,axes) => (.error e,{ m with axes })
  | (.ok (),axes) =>
    let clock := start + mv.duration
    let m : Machine α := ⟨axes,{ m.toolhead with clock }⟩
    match m.generate clock with
    | (.error e,m) => (.error e,m)
    | (.ok (),m) =>
      let (r,axes) := updateAll
        (fun _ a => .ok { a with queue := a.queue.finalize clock (clock - 1) })
        m.extraOwners m.axes
      (r,{ m with axes })

omit [Scalar α] in
/-- The squared speeds at which the extra axes let one move of the toolhead pass into another. An
axis sets no limit of its own below the cruise velocity of the second move. -/
def junction (m : Machine α) (_first second : ToolheadMove α) : List α :=
  m.toolhead.axes.map fun _ => second.maxCruiseV2

end Machine

end Gantry
