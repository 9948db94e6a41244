import Gantry.Text.Label

set_option autoImplicit false

namespace Gantry

structure RailPositions (α : Type) where
  entries : List (Name × α) := []

namespace RailPositions
variable {α : Type}

def capacity : Nat := 16

def get? (p : RailPositions α) (name : Name) : Option α :=
  (p.entries.find? fun e => e.1 = name).map (·.2)

def insert (p : RailPositions α) (name : Name) (pos : α) : RailPositions α :=
  if p.entries.any fun e => e.1 = name then
    ⟨p.entries.map fun e => if e.1 = name then (name,pos) else e⟩
  else if p.entries.length < capacity then ⟨p.entries ++ [(name,pos)]⟩
  else p

def ofList (entries : List (Name × α)) : RailPositions α :=
  entries.foldl (fun p e => p.insert e.1 e.2) {}

end RailPositions

end Gantry
