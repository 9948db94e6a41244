import Gantry.Error

/-!
Extra axes: the coordinates after x, y, z and e. An axis has the slot of its place in the order of
registration, so the slots of later axes fall when one is removed.
-/
set_option autoImplicit false

namespace Gantry

structure ExtraAxes where
  names : List String := []
  deriving DecidableEq

namespace ExtraAxes

def base : Nat := 4

def capacity : Nat := 16

def slot? (r : ExtraAxes) (name : String) : Option Nat :=
  (r.names.idxOf? name).map (base + ·)

def contains (r : ExtraAxes) (name : String) : Bool := (r.slot? name).isSome

def coordinateLength (r : ExtraAxes) : Nat := base + r.names.length

def register {α : Type} (r : ExtraAxes) (name : String) :
    Except (CommandError α) (Nat × ExtraAxes) :=
  if r.contains name || capacity ≤ r.names.length then .error (.duplicateExtraAxis (.clip name))
  else .ok (r.coordinateLength,⟨r.names ++ [name]⟩)

def remove (r : ExtraAxes) (name : String) : Option Nat × ExtraAxes :=
  match r.slot? name with
  | some slot => (some slot,⟨r.names.eraseIdx (slot - base)⟩)
  | none => (none,r)

def clear (r : ExtraAxes) : ExtraAxes := { r with names := [] }

end ExtraAxes

end Gantry
