import Gantry.Motion.ToolheadMove
import Gantry.Transform.Pivot

/-!
Stages of pivots as flat options. The options of stage `i` are named by what they set and the number
of the stage: `control_i`, `rotate_axis_i`, and `offset_x_i`, `offset_y_i`, `offset_z_i`. Stages are
read from number zero on and end at the first one without a control. An option that names no part
of a stage read is refused.
-/
set_option autoImplicit false

namespace Gantry

inductive StageField where
  | control
  | rotateAxis
  | offset (axis : Axis)
  deriving DecidableEq

namespace StageField

def all : List StageField := [.control,.rotateAxis,.offset .x,.offset .y,.offset .z]

def name : StageField → String
  | .control => "control"
  | .rotateAxis => "rotate_axis"
  | .offset axis => "offset_" ++ axis.name

def key (f : StageField) (i : Nat) : String := f.name ++ "_" ++ toString i

end StageField

inductive StageValue (α : Type) where
  | number (x : α)
  | text (s : String)

/-- Options in ascending order of their names. -/
structure StageOptions (α : Type) where
  entries : List (String × StageValue α) := []
  ascending : entries.Pairwise (fun e f => e.1 < f.1) := by simp

structure StageSettings (α : Type) where
  control : String
  rotateAxis : Axis
  offset : Vector3 α

namespace StageOptions
variable {α : Type}

def place (key : String) (v : StageValue α) :
    List (String × StageValue α) → List (String × StageValue α)
  | [] => [(key,v)]
  | e :: es =>
    if e.1 < key then e :: place key v es
    else if key < e.1 then (key,v) :: e :: es
    else (e.1,v) :: es

theorem key_mem_place {key k : String} {v : StageValue α} {es : List (String × StageValue α)}
    (h : k ∈ (place key v es).map (·.1)) : k = key ∨ k ∈ es.map (·.1) := by
  induction es with
  | nil => simpa [place] using h
  | cons e es ih =>
    simp only [place] at h
    split at h
    · simp only [List.map_cons,List.mem_cons] at h ⊢
      rcases h with h | h
      · exact .inr (.inl h)
      · exact (ih h).imp id .inr
    · split at h
      · simpa using h
      · exact .inr (by simpa using h)

theorem place_ascending (key : String) (v : StageValue α) {es : List (String × StageValue α)}
    (h : es.Pairwise (fun e f => e.1 < f.1)) :
    (place key v es).Pairwise (fun e f => e.1 < f.1) := by
  induction es with
  | nil => simp [place]
  | cons e es ih =>
    simp only [place]
    split
    · rename_i he
      refine .cons (fun f hf => ?_) (ih h.of_cons)
      rcases key_mem_place (List.mem_map_of_mem hf) with hk | hk
      · exact hk ▸ he
      · obtain ⟨g,hg,hgf⟩ := List.mem_map.1 hk
        exact hgf ▸ List.rel_of_pairwise_cons h hg
    · split
      · rename_i _ he
        refine .cons (fun f hf => ?_) h
        rcases List.mem_cons.1 hf with rfl | hf
        · exact he
        · exact String.lt_trans he (List.rel_of_pairwise_cons h hf)
      · exact .cons (fun f hf => List.rel_of_pairwise_cons h hf) h.of_cons

def insert (o : StageOptions α) (key : String) (v : StageValue α) : StageOptions α :=
  ⟨place key v o.entries,place_ascending key v o.ascending⟩

def get? (o : StageOptions α) (key : String) : Option (StageValue α) :=
  (o.entries.find? fun e => e.1 == key).map (·.2)

def control? (o : StageOptions α) (i : Nat) : Except (ConfigError α) (Option String) :=
  let key := StageField.control.key i
  match o.get? key with
  | none => .ok none
  | some (.text s) => .ok (some s)
  | some (.number x) => .error (.invalidValue (.clip key) x .objectName)

def rotateAxis (o : StageOptions α) (i : Nat) : Except (ConfigError α) Axis :=
  let key := StageField.rotateAxis.key i
  match o.get? key with
  | none => .error (.missingOption (.clip key))
  | some (.text s) =>
    match Axis.ofName? s with
    | some axis => .ok axis
    | none => .error (.invalidChoice (.clip key) (.clip s))
  | some (.number x) => .error (.invalidValue (.clip key) x .axisName)

def offset [Zero α] (o : StageOptions α) (i : Nat) (axis : Axis) : Except (ConfigError α) α :=
  let key := (StageField.offset axis).key i
  match o.get? key with
  | none => .ok 0
  | some (.number x) => .ok x
  | some (.text s) => .error (.invalidChoice (.clip key) (.clip s))

def stage? [Zero α] (o : StageOptions α) (i : Nat) :
    Except (ConfigError α) (Option (StageSettings α)) := do
  match ← o.control? i with
  | none => return none
  | some control =>
    let rotateAxis ← o.rotateAxis i
    let offset := ⟨← o.offset i .x,← o.offset i .y,← o.offset i .z⟩
    return some ⟨control,rotateAxis,offset⟩

/-- At most `n` stages from number `i` on. -/
def stagesFrom [Zero α] (o : StageOptions α) :
    Nat → Nat → Except (ConfigError α) (List (StageSettings α))
  | 0, _ => .ok []
  | n + 1, i => do
    match ← o.stage? i with
    | none => return []
    | some s => return s :: (← stagesFrom o n (i + 1))

/-- The number that digits write, perhaps behind a plus sign. -/
def number? (cs : List Char) : Option Nat :=
  let ds := match cs with
    | '+' :: ds => ds
    | ds => ds
  if ds ≠ [] ∧ ds.all Char.isDigit then
    some (ds.foldl (fun n c => n * 10 + (c.toNat - '0'.toNat)) 0)
  else none

/-- Whether an option belongs to one of the first `n` stages: a field, an underscore and a number
less than `n`. -/
def belongs (n : Nat) (key : String) : Bool :=
  let tail := (key.toList.reverse.takeWhile (· ≠ '_')).reverse
  let lead := key.toList.take (key.length - tail.length)
  match number? tail with
  | some i => decide (i < n) && StageField.all.any fun f => f.name.toList ++ ['_'] == lead
  | none => false

/-- The refusal of an option that belongs to none of `n` stages. -/
def strayError (n : Nat) (key : String) : ConfigError α :=
  if "control_".toList.isPrefixOf key.toList ∧ n = Pivot.maxStages then
    .tooManyStages Pivot.maxStages
  else .unknownOption (.clip key)

def stages [Zero α] (o : StageOptions α) : Except (ConfigError α) (List (StageSettings α)) := do
  let stages ← o.stagesFrom Pivot.maxStages 0
  match o.entries.find? fun e => !belongs stages.length e.1 with
  | some (key,_) => .error (strayError stages.length key)
  | none => return stages

end StageOptions

end Gantry
