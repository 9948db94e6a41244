import Mathlib
import Gantry.Proofs.Queue.Guarded
import Gantry.Proofs.Rail.Sources
import Gantry.Proofs.Rail.Track

set_option autoImplicit false

namespace Gantry
variable {α : Type} [Scalar α]

namespace Track

def Coherent (k : Track α) : Prop := ∀ x ∈ k, x.1.Coherent

def sum? (read : Timeline α → Option (Option α)) : Track α → α → Option (Option α)
  | [], total => some (some total)
  | (l,w) :: rest, total =>
    match read l with
    | some (some v) => sum? read rest (total + v * w)
    | some none => some none
    | none => none

def positionAt? (k : Track α) (t : α) : Option (Option α) := sum? (·.positionAt? t) k 0

def positionBefore? (k : Track α) (t : α) : Option (Option α) := sum? (·.positionBefore? t) k 0

/-- A rail reads its positions through guards; a read that stops the program is refused. -/
def guarded (k : Track α) : TrackSource Unit α where
  positionAt t := (k.positionAt? t).elim (.error ()) .ok
  positionBefore t := (k.positionBefore? t).elim (.error ()) .ok
  touching start stop := .ok (k.touching start stop)

namespace Coherent
variable {k : Track α}

theorem sum?_eq (h : k.Coherent) {read? : Timeline α → Option (Option α)}
    {read : Timeline α → Option α} (hr : ∀ l : Timeline α, l.Coherent → read? l = some (read l))
    (total : α) :
    sum? read? k total = some (Allocator.weighted (k.map fun (l,w) => (read l,w)) total) := by
  induction k generalizing total with
  | nil => rfl
  | cons x k ih =>
    obtain ⟨hx,hk⟩ := List.forall_mem_cons.1 h
    obtain ⟨l,w⟩ := x
    simp only [sum?,hr l hx,List.map_cons]
    cases read l with
    | none => rfl
    | some v => exact ih hk (total + v * w)

theorem positionAt?_eq (h : k.Coherent) (t : α) : k.positionAt? t = some (k.positionAt t) := by
  rw [positionAt,positionFrom_eq_weighted]
  exact h.sum?_eq (fun _ hl => hl.positionAt?_eq t) 0

theorem positionBefore?_eq (h : k.Coherent) (t : α) :
    k.positionBefore? t = some (k.positionBefore t) := by
  rw [positionBefore,positionBeforeFrom_eq_weighted]
  exact h.sum?_eq (fun _ hl => hl.positionBefore?_eq t) 0

theorem guarded_eq (h : k.Coherent) : k.guarded = k.source := by
  simp only [guarded,source,h.positionAt?_eq,h.positionBefore?_eq,Option.elim_some]

end Coherent

end Track

namespace Rail

def generateSteps? (r : Rail α) (q : SegmentQueue α) (upto : α) :
    Option (Except (Error α) (Rail α)) :=
  if upto ≤ r.lastFlushTime then some (.ok r)
  else
    match r.track q with
    | .error e => some (.error e)
    | .ok k =>
      match sweep k.guarded r.lastFlushTime upto r with
      | .ok _ r' => some (.ok r')
      | .error _ _ => none

variable {r : Rail α} {q : SegmentQueue α} {k : Track α}

theorem coherent_of_track (h : q.Coherent) (hk : r.track q = .ok k) : k.Coherent := by
  intro x hx
  obtain ⟨⟨i,w⟩,-,hread⟩ := Results.exists_of_mem_mapM hk hx
  dsimp only at hread
  split at hread
  · rename_i c hc
    cases hread
    exact h.timeline hc
  · cases hread

theorem generateSteps?_eq (h : q.Coherent) (upto : α) :
    r.generateSteps? q upto = some (r.generateSteps (some q) upto) := by
  unfold generateSteps? generateSteps
  dsimp only
  split
  · rfl
  · cases hk : r.track q with
    | error e => rfl
    | ok k =>
      dsimp only
      rw [(coherent_of_track h hk).guarded_eq,sweep_source,Results.ok_bind]
      cases k.positionAt r.lastFlushTime <;> rfl

end Rail

namespace Ledger
open SegmentQueue

/-- Whatever a queue of doubles has been asked, infinite and undefined numbers included, reading it
never stops the program: neither a channel at any time, nor any sample of a range that was granted,
nor a flush of any rail, whichever times it looks at. -/
theorem reads_guarded (n : Nat) (rs : List (Request Float)) :
    let q := (run n rs).queue
    (∀ i t, q.positionAt? i t = some (q.positionAt i t) ∧
        q.positionBefore? i t = some (q.positionBefore i t) ∧
        q.velocityAt? i t = some (q.velocityAt i t)) ∧
      (∀ i, (∃ e, q.tailEnd i = .ok e) ↔ i < n) ∧
      (∀ i start stop interval s, q.pull i start stop interval = .ok s →
        ∀ k, (s.rest k).next? = some (s.rest k).next) ∧
      ∀ r : Rail Float, (∀ k, r.track q = .ok k → ∀ t, k.positionAt? t = some (k.positionAt t) ∧
          k.positionBefore? t = some (k.positionBefore t)) ∧
        ∀ upto, r.generateSteps? q upto = some (r.generateSteps (some q) upto) := by
  intro q
  -- every segment that is held was found valid when it was accepted
  have hq : q.Coherent := (reachable_run n rs).coherent
  refine ⟨fun i t => ⟨hq.positionAt?_eq i t,hq.positionBefore?_eq i t,hq.velocityAt?_eq i t⟩,
    fun i => ?_,fun i start stop interval s hs k => ?_,
    fun r => ⟨fun k hk t => ?_,Rail.generateSteps?_eq hq⟩⟩
  · rw [SegmentQueue.tailEnd_eq_ok_iff,(channels_run n rs).1]
  · obtain ⟨c,hc,-,-,-,-,hsamples⟩ := SegmentQueue.pull_eq_ok.1 hs
    have hline : (s.rest k).timeline = c.timeline := by
      rw [Samples.timeline_rest,hsamples]
    exact Samples.next?_eq (hline ▸ hq.timeline hc)
  · have hk := Rail.coherent_of_track hq hk
    exact ⟨hk.positionAt?_eq t,hk.positionBefore?_eq t⟩

def overflowing : List (Request Float) :=
  [.add (.segment 0 ⟨0,0,1e308,1e308,1e308,1,1,0⟩),.add (.segment 0 ⟨0 / 0,0,0,1,0,0,0,0⟩),
    .finalize (0 / 0) (0 / 0)]

/-- The infinite segment is held. It is read at an infinite time, and sample after sample. -/
theorem reads_guarded_overflowing :
    ((run 1 overflowing).queue.kept 0).map (fun m : Segment Float => Scalar.isFinite m.duration) =
        [false] ∧
      (run 1 overflowing).queue.positionAt? 0 (1 / 0) =
        some ((run 1 overflowing).queue.positionAt 0 (1 / 0)) ∧
      ∃ s, (run 1 overflowing).queue.pull 0 0 1 0.25 = .ok s ∧
        (s.rest 2).next? = some (s.rest 2).next := by
  obtain ⟨hread,-,hpull,-⟩ := reads_guarded 1 overflowing
  have hgranted : ((run 1 overflowing).queue.pull 0 0 1 0.25).isOk = true := by decide +kernel
  cases hs : (run 1 overflowing).queue.pull 0 0 1 0.25 with
  | error e => rw [hs] at hgranted; cases hgranted
  | ok s => exact ⟨by decide +kernel,(hread 0 (1 / 0)).1,s,rfl,hpull 0 0 1 0.25 s hs 2⟩

end Ledger

end Gantry
