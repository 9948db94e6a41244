import Gantry.Transform.Pivot

/-!
Transforms: pivots in front of each other over a terminal transform. Positions come up the chain
through the reverse passes; moves go down it, each pivot sending the pieces of every move it gets to
the next one. The terminal transform takes moves as they are and records them.
-/
set_option autoImplicit false

namespace Gantry

/-- The end of a chain: the position, and the moves that have reached it with their speeds. -/
structure Terminal (α : Type) where
  position : List α := []
  moves : Array (List α × α) := #[]

inductive Transform (α : Type) where
  /-- The end of a chain. -/
  | terminal (base : Terminal α)
  /-- A pivot with nothing behind it. -/
  | detached (pivot : Pivot α)
  /-- A pivot in front of a chain. -/
  | over (pivot : Pivot α) (next : Transform α)

variable {α : Type}

def Terminal.record (b : Terminal α) (target : List α) (speed : α) : Terminal α :=
  ⟨target,b.moves.push (target,speed)⟩

def pivotDetached : Error α := .motion (.transformDetached "pivot_coord")

namespace Transform

def isTerminal : Transform α → Bool
  | .terminal _ => true
  | _ => false

def isPivot (t : Transform α) : Bool := !t.isTerminal

def takeNext : Transform α → Option (Transform α) × Transform α
  | .over pivot next => (some next,.detached pivot)
  | t => (none,t)

def drain : Transform α → Array (List α × α) × Transform α
  | .terminal base => (base.moves,.terminal { base with moves := #[] })
  | .detached pivot => (#[],.detached pivot)
  | .over pivot next =>
    let (moves,next) := next.drain
    (moves,.over pivot next)

variable [Scalar α]

def resolve (axes : ExtraAxes) : Transform α → Transform α
  | .terminal base => .terminal base
  | .detached pivot => .detached (pivot.resolve axes)
  | .over pivot next => .over (pivot.resolve axes) (next.resolve axes)

/-- The position in front of a chain. Every pivot that reads it remembers it. -/
def getPosition : Transform α → Except (Error α) (List α) × Transform α
  | .terminal base => (.ok base.position,.terminal base)
  | .detached pivot => (.error pivotDetached,.detached pivot)
  | .over pivot next =>
    let (r,next) := next.getPosition
    match r with
    | .error e => (.error e,.over pivot next)
    | .ok coord =>
      match pivot.coords coord .reverse with
      | .error e => (.error e,.over pivot next)
      | .ok (pos,radii2) => (.ok pos,.over (pivot.arrive pos radii2) next)

def sendAll (send : List α → Transform α → Except (Error α) Unit × Transform α) :
    List (List α) → Transform α → Except (Error α) Unit × Transform α
  | [], t => (.ok (),t)
  | target :: targets, t =>
    match send target t with
    | (.error e,t) => (.error e,t)
    | (.ok (),t) => sendAll send targets t

/-- The pivot at the front of a chain reads its position again if coordinates have another length
than when it last did. -/
def refresh (length : Nat) : Transform α → Except (Error α) Unit × Transform α
  | .terminal base => (.ok (),.terminal base)
  | .detached pivot =>
    if pivot.lastPos.length = length then (.ok (),.detached pivot)
    else (.error pivotDetached,.detached pivot)
  | .over pivot next =>
    if pivot.lastPos.length = length then (.ok (),.over pivot next)
    else
      let (r,t) := (Transform.over pivot next).getPosition
      (r.map fun _ => (),t)

def depth : Transform α → Nat
  | .terminal _ => 0
  | .detached _ => 0
  | .over _ next => next.depth + 1

/-- Makes a move through a chain of at most `depth` pivots. -/
def moveWithin (depth : Nat) (speed : α) (target : List α) (t : Transform α) :
    Except (Error α) Unit × Transform α :=
  match t.refresh target.length with
  | (.error e,t) => (.error e,t)
  | (.ok (),.terminal base) => (.ok (),.terminal (base.record target speed))
  | (.ok (),.detached pivot) =>
    match pivot.plan target with
    | .error e => (.error e,.detached pivot)
    | .ok _ => (.error pivotDetached,.detached pivot)
  | (.ok (),.over pivot next) =>
    match pivot.plan target,depth with
    | .error e, _ => (.error e,.over pivot next)
    | .ok _, 0 => (.error pivotDetached,.over pivot next)
    | .ok plan, depth + 1 =>
      match sendAll (moveWithin depth speed) plan.targets next with
      | (.error e,next) => (.error e,.over pivot next)
      | (.ok (),next) => (.ok (),.over (pivot.arrive target plan.radii2) next)

def moveTo (t : Transform α) (target : List α) (speed : α) : Except (Error α) Unit × Transform α :=
  moveWithin t.depth speed target t

end Transform

end Gantry
