import Mathlib
import Gantry.Proofs.InPlace
import Gantry.Rail.Rail

/-!
Sources: where a rail reads its positions while it steps. Any read may be refused, and a refusal
halfway leaves the steps that were made by then. The steps are those of the rail as a whole where
the source refuses nothing.
-/
set_option autoImplicit false

namespace Gantry

variable {α ε : Type} [Scalar α]

/-- What a rail reads of its channels, of which each read may be refused. -/
structure TrackSource (ε α : Type) where
  positionAt : α → Except ε (Option α)
  positionBefore : α → Except ε (Option α)
  touching : α → α → Except ε (List (Segment α))

structure MotionSource (ε α : Type) where
  position : α → Except ε α
  positionBefore : α → Except ε α

/-- Where a source has no position, the rail stays at `rest`. -/
def TrackSource.motion (s : TrackSource ε α) (rest : α) : MotionSource ε α where
  position t := (s.positionAt t).map (·.getD rest)
  positionBefore t := (s.positionBefore t).map (·.getD rest)

def Track.source (k : Track α) : TrackSource ε α where
  positionAt t := .ok (k.positionAt t)
  positionBefore t := .ok (k.positionBefore t)
  touching start stop := .ok (k.touching start stop)

def RailMotion.granted (m : RailMotion α) : MotionSource ε α where
  position t := .ok (m.position t)
  positionBefore t := .ok (m.positionBefore t)

theorem Track.motion_source (k : Track α) (rest : α) :
    (k.source : TrackSource ε α).motion rest = (k.motion rest).granted := rfl

namespace InPlace
open MonadExcept (ofExcept)

section Steps

def bisect (position : α → Except ε α) (target : α) (d : Direction) : Nat → α → α → Except ε α
  | 0, _, hi => .ok hi
  | n + 1, lo, hi =>
    if hi - lo ≤ Scalar.epsilon * Scalar.larger (Scalar.abs hi) 1 then .ok hi
    else do
      let mid := 0.5 * (lo + hi)
      if d.isBefore (← position mid) target then bisect position target d n mid hi
      else bisect position target d n lo mid

def stepWhile (position : α → Except ε α) (lo hi posHi : α) (d : Direction) :
    Nat → EStateM ε (Stepper α) Unit
  | 0 => pure ()
  | fuel + 1 => do
    let target := (← get).nextStepPosition d
    if d.reaches posHi target then
      let t ← ofExcept (bisect position target d bisectionDepth lo hi)
      modify (·.step t d)
      stepWhile position lo hi posHi d fuel

def follow (position : α → Except ε α) (lo hi posHi : α) (d : Direction) :
    EStateM ε (Stepper α) Unit := do
  let s ← get
  if s.stepDistance ≤ 0 then pure ()
  else stepWhile position lo hi posHi d (s.stepBound posHi)

def stepMonotone (position : α → Except ε α) (lo hi posLo posHi : α) :
    EStateM ε (List (Stepper α)) Unit :=
  match Direction.between? posLo posHi with
  | some d => each (follow position lo hi posHi d)
  | none => pure ()

def stepWindow (motion : MotionSource ε α) (a b : α) : EStateM ε (List (Stepper α)) α := do
  let posA ← ofExcept (motion.position a)
  let posB ← ofExcept (motion.positionBefore b)
  let posM ← ofExcept (motion.position (0.5 * (a + b)))
  match turningPoint a b posA posM posB with
  | some t =>
    let posT ← ofExcept (motion.position t)
    stepMonotone motion.position a t posA posT
    stepMonotone motion.position t b posT posB
  | none => stepMonotone motion.position a b posA posB
  return posB

def stepWindows (motion : MotionSource ε α) (start : α) (times : List α) :
    EStateM ε (List (Stepper α)) α :=
  (windows times).foldlM (fun _ (a,b) => stepWindow motion a b) start

variable (position : α → α) (target lo hi posLo posHi : α) (d : Direction)

theorem bisect_ok (n : Nat) :
    bisect (fun t => .ok (position t)) target d n lo hi =
      (.ok (Gantry.bisect position target d n lo hi) : Except ε α) := by
  induction n generalizing lo hi with
  | zero => rfl
  | succ n ih =>
    simp only [bisect,Gantry.bisect,Results.ok_bind,ih]
    split_ifs <;> rfl

theorem stepWhile_ok (fuel : Nat) :
    stepWhile (fun t => .ok (position t)) lo hi posHi d fuel =
      (modify (Stepper.stepWhile position lo hi posHi d fuel) :
        EStateM ε (Stepper α) PUnit) := by
  induction fuel with
  | zero => rfl
  | succ fuel ih =>
    funext s
    simp only [stepWhile,bisect_ok,ih]
    change (if d.reaches posHi (s.nextStepPosition d) then _ else _ :
        EStateM ε (Stepper α) PUnit) s =
      .ok () (Stepper.stepWhile position lo hi posHi d (fuel + 1) s)
    rw [Stepper.stepWhile]
    split <;> rfl

theorem follow_ok :
    follow (fun t => .ok (position t)) lo hi posHi d =
      (modify (Stepper.follow position lo hi posHi d) : EStateM ε (Stepper α) PUnit) := by
  funext s
  simp only [follow,stepWhile_ok]
  change (if s.stepDistance ≤ 0 then _ else _ : EStateM ε (Stepper α) PUnit) s =
    .ok () (Stepper.follow position lo hi posHi d s)
  rw [Stepper.follow]
  split <;> rfl

theorem stepMonotone_ok :
    stepMonotone (fun t => .ok (position t)) lo hi posLo posHi =
      (modify (Gantry.stepMonotone position lo hi posLo posHi) :
        EStateM ε (List (Stepper α)) PUnit) := by
  unfold stepMonotone Gantry.stepMonotone
  cases Direction.between? posLo posHi with
  | none => rfl
  | some d => simp only [follow_ok,each_modify]

variable (m : RailMotion α)

theorem stepWindow_granted (a b : α) :
    stepWindow m.granted a b =
      (do modify fun ss => Gantry.stepWindow m ss a b; return m.positionBefore b :
        EStateM ε (List (Stepper α)) α) := by
  simp only [stepWindow,Gantry.stepWindow,RailMotion.granted,stepMonotone_ok,ofExcept]
  change (match turningPoint a b (m.position a) (m.position (0.5 * (a + b)))
      (m.positionBefore b) with
    | some t => _
    | none => _ : EStateM ε (List (Stepper α)) α) = _
  cases turningPoint a b (m.position a) (m.position (0.5 * (a + b))) (m.positionBefore b) <;> rfl

theorem stepWindows_granted (start : α) (times : List α) :
    stepWindows m.granted start times =
      (do modify fun ss => Gantry.stepWindows m times ss
          return (windows times).foldl (fun _ w => m.positionBefore w.2) start :
        EStateM ε (List (Stepper α)) α) := by
  unfold stepWindows Gantry.stepWindows
  induction windows times generalizing start with
  | nil => rfl
  | cons w ws ih =>
    obtain ⟨a,b⟩ := w
    have hw := stepWindow_granted (ε := ε) m a b
    simp only [List.foldlM_cons,hw,List.foldl_cons,bind_assoc,pure_bind,ih]
    rfl

end Steps

end InPlace

namespace Rail
open MonadExcept (ofExcept)

/-- The steps from one time to another in place: every position is read when it is needed. -/
def sweep (source : TrackSource ε α) (last upto : α) : EStateM ε (Rail α) Unit := do
  match ← ofExcept (source.positionAt last) with
  | none => modify fun r => { r with lastFlushTime := upto }
  | some start =>
    let touched ← ofExcept (source.touching last upto)
    let stop ← InPlace.onPart Rail.steppers (fun steppers r => { r with steppers })
      (InPlace.stepWindows (source.motion start) start (breakTimes touched last upto))
    if touched.isEmpty then pure () else modify (·.noteCommanded stop)
    modify fun r => { r with lastFlushTime := upto }

omit [Scalar α] in
theorem getLast?_eq_foldl (f : α → α) (start : α) (ws : List (α × α)) :
    (match ws.getLast? with
      | some (_,b) => f b
      | none => start) = ws.foldl (fun _ w => f w.2) start := by
  induction ws using List.reverseRecOn with
  | nil => rfl
  | append_singleton ws w _ => simp

/-- A sweep that nothing refuses does what the flush does as a whole. -/
theorem sweep_source (k : Track α) (upto : α) (r : Rail α) :
    sweep (k.source : TrackSource ε α) r.lastFlushTime upto r =
      .ok () (match k.positionAt r.lastFlushTime with
        | some start => r.advance k start upto
        | none => { r with lastFlushTime := upto }) := by
  simp only [sweep,Track.motion_source,InPlace.stepWindows_granted,InPlace.onPart_modify_bind_pure]
  simp only [Track.source,ofExcept]
  cases hp : k.positionAt r.lastFlushTime with
  | none => rfl
  | some start =>
    have hcovers : k.covers r.lastFlushTime upto = !(k.touching r.lastFlushTime upto).isEmpty := rfl
    have hstop := getLast?_eq_foldl (k.motion start).positionBefore start
      (windows (breakpoints k r.lastFlushTime upto))
    change (if (k.touching r.lastFlushTime upto).isEmpty then _ else _ :
      EStateM ε (Rail α) Unit) _ = _
    simp only [advance,hcovers]
    cases (k.touching r.lastFlushTime upto).isEmpty with
    | true => rfl
    | false =>
      exact congrArg (fun stop => EStateM.Result.ok () (noteCommanded { r with
        steppers := stepWindows (k.motion start) (breakpoints k r.lastFlushTime upto) r.steppers
        lastFlushTime := upto } stop)) hstop.symm

end Rail

end Gantry
