import Mathlib
import Gantry.Proofs.Numeric.Double
import Gantry.Proofs.Queue.Filling
import Gantry.Proofs.Rail.Sources
import Gantry.Proofs.Rail.Track

/-!
Flushes in place: the flush of a rail as it changes the rail step by step, with every position read
from the queue when it is needed. A read is refused where the queue lacks a channel, and a refusal
halfway would leave the steps made by then. The channels are asked for first, and with that no read
after the first step is refused: the flush in place is the flush as a whole.
-/
set_option autoImplicit false

namespace Gantry

variable {α : Type} [Scalar α]

theorem Allocator.channels_eq_map_terms (a : Allocator) :
    a.channels = (a.terms : List (Nat × α)).map Prod.fst := by
  cases a <;> rfl

namespace Rail
open MonadExcept (ofExcept)
variable {r : Rail α} {q : SegmentQueue α} {k : Track α}

def touching (r : Rail α) (q : SegmentQueue α) (start stop : α) :
    Except (QueueError α) (List (Segment α)) := do
  let lines ← r.allocator.channels.mapM q.segments
  return lines.flatMap (·.filter (Track.touches start stop))

def source (r : Rail α) (q : SegmentQueue α) : TrackSource (Error α) α where
  positionAt t := (r.allocator.positionAt q t).mapError .queue
  positionBefore t := (r.allocator.positionBefore q t).mapError .queue
  touching start stop := (r.touching q start stop).mapError .queue

def finds (r : Rail α) (q : SegmentQueue α) (i : Nat) : Except (Error α) Unit :=
  if i < q.channels.length then .ok () else .error (.motion (.channelOutOfRange r.name i))

/-- Makes every step that is due up to a time in place, once all channels have been asked for. -/
def flush (queue : Option (SegmentQueue α)) (upto : α) : EStateM (Error α) (Rail α) Unit := do
  let r ← get
  match queue with
  | none => throw (.motion (.unboundQueue r.name))
  | some q =>
    if upto ≤ r.lastFlushTime then pure ()
    else
      ofExcept (r.allocator.channels.forM (r.finds q))
      sweep (r.source q) r.lastFlushTime upto

section Granted
variable (hk : r.track q = .ok k)
include hk

theorem forall₂_of_track :
    List.Forall₂ (fun x y => ∃ c, q.channels[x.1]? = some c ∧ y = (c.timeline,x.2))
      r.allocator.terms k := by
  refine (Results.mapM_eq_ok_iff.1 hk).imp fun x y h => ?_
  obtain ⟨i,w⟩ := x
  dsimp only at h
  split at h
  · rename_i c hc
    exact ⟨c,hc,(Except.ok.inj h).symm⟩
  · cases h

theorem combine_of_track (read : Timeline α → Option α) :
    Allocator.combine (fun i => (q.channel i).map fun c => read c.timeline) r.allocator.terms 0 =
      .ok (Allocator.weighted (k.map fun (l,w) => (read l,w)) 0) := by
  have hall := forall₂_of_track hk
  clear hk
  generalize (0 : α) = total
  generalize (r.allocator.terms : List (Nat × α)) = ts at hall ⊢
  induction hall generalizing total with
  | nil => rfl
  | @cons x y ts k h _ ih =>
    obtain ⟨c,hc,rfl⟩ := h
    have hread : (q.channel x.1).map (fun c => read c.timeline) = .ok (read c.timeline) := by
      rw [SegmentQueue.channel_eq_ok.2 hc]
      rfl
    simp only [Allocator.combine,hread,List.map_cons]
    cases read c.timeline with
    | none => rfl
    | some v => exact ih (total + v * x.2)

theorem positionAt_of_track (t : α) : r.allocator.positionAt q t = .ok (k.positionAt t) := by
  rw [Track.positionAt,Track.positionFrom_eq_weighted]
  exact combine_of_track hk (·.positionAt t)

theorem positionBefore_of_track (t : α) :
    r.allocator.positionBefore q t = .ok (k.positionBefore t) := by
  rw [Track.positionBefore,Track.positionBeforeFrom_eq_weighted]
  exact combine_of_track hk (·.positionBefore t)

theorem touching_of_track (start stop : α) :
    r.touching q start stop = .ok (k.touching start stop) := by
  have hlines : r.allocator.channels.mapM q.segments = .ok (k.map fun x => x.1.reverse) := by
    rw [r.allocator.channels_eq_map_terms (α := α),Results.mapM_eq_ok_iff,
      List.forall₂_map_left_iff,List.forall₂_map_right_iff]
    refine (forall₂_of_track hk).imp fun x y h => ?_
    obtain ⟨c,hc,rfl⟩ := h
    rw [SegmentQueue.segments,SegmentQueue.channel_eq_ok.2 hc]
    exact congrArg Except.ok (List.reverse_reverse _).symm
  rw [touching,hlines,Results.ok_bind,List.flatMap_map]
  rfl

theorem source_of_track : r.source q = k.source := by
  simp only [source,Track.source,positionAt_of_track hk,positionBefore_of_track hk,
    touching_of_track hk,Except.mapError]

end Granted

theorem forM_finds (r : Rail α) (q : SegmentQueue α) :
    r.allocator.channels.forM (r.finds q) = (r.track q).map fun _ => () := by
  rw [r.allocator.channels_eq_map_terms (α := α),List.forM_eq_forM,List.forM_map,track,
    ← List.forM_eq_forM]
  refine Results.forM_eq_map_mapM fun (i,w) _ => ?_
  dsimp only
  rw [finds]
  by_cases hi : i < q.channels.length
  · rw [if_pos hi,List.getElem?_eq_getElem hi]
    rfl
  · rw [if_neg hi,List.getElem?_eq_none (not_lt.1 hi)]
    rfl

theorem flush_eq_settle (queue : Option (SegmentQueue α)) (upto : α) :
    flush queue upto = InPlace.settle fun r => r.generateSteps queue upto := by
  funext r
  cases queue with
  | none => rfl
  | some q =>
    change (if upto ≤ r.lastFlushTime then _ else _ : EStateM (Error α) (Rail α) Unit) r = _
    simp only [InPlace.settle,generateSteps]
    split
    · rfl
    · rw [forM_finds]
      cases hk : r.track q with
      | error e => rfl
      | ok k =>
        change sweep (r.source q) r.lastFlushTime upto r = _
        rw [source_of_track hk,sweep_source,Results.ok_bind]
        cases k.positionAt r.lastFlushTime <;> rfl

theorem track_isOk :
    (∃ k, r.track q = .ok k) ↔ ∀ i ∈ r.allocator.channels, i < q.channels.length := by
  have hfinds : ∀ i, i < q.channels.length ↔ r.finds q i = .ok () := fun i => by
    unfold finds
    split <;> simp_all
  simp only [hfinds,← Results.forM_eq_ok,forM_finds]
  cases r.track q <;> simp [Except.map]

theorem generateSteps_eq_error {queue : Option (SegmentQueue α)} {upto : α} :
    (∃ e, r.generateSteps queue upto = .error e) ↔ queue = none ∨ ¬upto ≤ r.lastFlushTime ∧
      ∃ q ∈ queue, ∃ i ∈ r.allocator.channels, q.channels.length ≤ i := by
  cases queue with
  | none => exact iff_of_true ⟨_,rfl⟩ (Or.inl rfl)
  | some q =>
    have hmissing : (∃ i ∈ r.allocator.channels, q.channels.length ≤ i) ↔
        ¬∃ k, r.track q = .ok k := by
      rw [track_isOk]
      push Not
      rfl
    simp only [Option.mem_def,Option.some.injEq,exists_eq_left',hmissing,reduceCtorEq,false_or,
      generateSteps]
    by_cases hu : upto ≤ r.lastFlushTime
    · simp [hu]
    · cases hk : r.track q with
      | error e => simp [hu,Results.error_bind]
      | ok k =>
        rw [if_neg hu,Results.ok_bind]
        cases k.positionAt r.lastFlushTime <;> simp [hu,pure,Except.pure]

/-- A defined time is past another one, unless it is not after it or the other one is undefined. -/
theorem not_le_iff_of_defined [LawfulScalar α] {upto last : α} (hu : Scalar.isNaN upto = false) :
    ¬upto ≤ last ↔ last < upto ∨ Scalar.isNaN last = true := by
  rw [LawfulScalar.isNaN_eq_false] at hu
  constructor
  · intro h
    by_cases hl : last ≤ last
    · exact Or.inl (LawfulScalar.lt_of_not_le hu hl h)
    · exact Or.inr (by simpa [Scalar.isNaN] using hl)
  · rintro (h | h) hle
    · exact LawfulScalar.not_lt_of_le hle h
    · rw [LawfulScalar.isNaN_eq_false.2 (LawfulScalar.le_right hle)] at h
      cases h

/-- A flush is refused only for want of a queue, or of a channel when it has anything to do; and then
it has changed nothing, neither the motors nor what they have recorded. Once the channels are there
no read is refused at any time, and a repeated flush does what the first one would have done. -/
theorem flush_atomic [LawfulScalar α] (r : Rail α) (queue : Option (SegmentQueue α)) {upto : α}
    (hu : Scalar.isNaN upto = false) :
    ((∃ e, r.generateSteps queue upto = .error e) ↔ queue = none ∨
        (r.lastFlushTime < upto ∨ Scalar.isNaN r.lastFlushTime = true) ∧
          ∃ q ∈ queue, ∃ i ∈ r.allocator.channels, q.channels.length ≤ i) ∧
      (∀ r', flush queue upto r = .ok () r' ↔ r.generateSteps queue upto = .ok r') ∧
      (∀ e r', flush queue upto r = .error e r' ↔ r.generateSteps queue upto = .error e ∧ r' = r) ∧
      ∀ q', (∀ i ∈ r.allocator.channels, i < q'.channels.length) →
        (∀ t, (∃ p, r.allocator.positionAt q' t = .ok p) ∧
          ∃ p, r.allocator.positionBefore q' t = .ok p) ∧
        ∀ e r', flush queue upto r = .error e r' → ∃ r'', r.generateSteps (some q') upto = .ok r'' ∧
          flush (some q') upto r' = .ok () r'' := by
  refine ⟨by rw [generateSteps_eq_error,not_le_iff_of_defined hu],fun r' => ?_,fun e r' => ?_,
    fun q' hq' => ?_⟩
  · rw [flush_eq_settle,InPlace.settle_eq_ok]
  · rw [flush_eq_settle,InPlace.settle_eq_error]
  · obtain ⟨k,hk⟩ := track_isOk.2 hq'
    refine ⟨fun t => ⟨⟨_,positionAt_of_track hk t⟩,_,positionBefore_of_track hk t⟩,
      fun e r' he => ?_⟩
    rw [flush_eq_settle,InPlace.settle_eq_error] at he
    obtain ⟨-,rfl⟩ := he
    simp only [flush_eq_settle,InPlace.settle_eq_ok,and_self]
    -- nothing is missing for the second call
    cases hg : r'.generateSteps (some q') upto with
    | ok r'' => exact ⟨r'',rfl⟩
    | error e' =>
      obtain hnone | ⟨-,p,hp,i,hi,hlen⟩ := generateSteps_eq_error.1 ⟨e',hg⟩
      · cases hnone
      · cases hp
        have hlt := hq' i hi
        omega

def coupled : Rail Float :=
  { Rail.ofName "r" with
    steppers := [.ofName "s" "mcu" 1]
    allocator := .coreXY .plus }

def short : SegmentQueue Float := (SegmentQueue.ofChannels 1).push 0 ⟨0,0,0,1,0,1,1,0⟩

/-- The flush that meets the short queue is refused and leaves the rail as it was, and the one that
meets a long enough queue is not. -/
theorem flush_atomic_short :
    (∃ e, flush (some short) 1 coupled = .error e coupled) ∧
      ∃ r'', flush (some (.ofChannels 2)) 1 coupled = .ok () r'' := by
  obtain ⟨herror,-,hflush,hlong⟩ :=
    flush_atomic coupled (some short) (show Scalar.isNaN (1 : Float) = false by decide +kernel)
  obtain ⟨e,he⟩ := herror.2 (Or.inr ⟨Or.inl (by decide +kernel),short,rfl,1,by decide,by decide⟩)
  have hrefused := (hflush e coupled).2 ⟨he,rfl⟩
  obtain ⟨r'',-,hr⟩ := (hlong (.ofChannels 2) (by decide)).2 e coupled hrefused
  exact ⟨⟨e,hrefused⟩,r'',hr⟩

def unsettled : Rail Float := { Rail.ofName "r" with lastFlushTime := 0 / 0 }

/-- A rail that was flushed up to an undefined time is refused although the next time is not past
the last one. -/
theorem unsettled_refused :
    (Rail.ofName "r" : Rail Float).generateSteps (some (.ofChannels 3)) (0 / 0) = .ok unsettled ∧
      Scalar.isNaN (1 : Float) = false ∧
      ¬((∃ e, unsettled.generateSteps (some (.ofChannels 0)) 1 = .error e) ↔
        (some (.ofChannels 0) : Option (SegmentQueue Float)) = none ∨
          unsettled.lastFlushTime < 1 ∧ ∃ q ∈ (some (.ofChannels 0) : Option (SegmentQueue Float)),
            ∃ i ∈ unsettled.allocator.channels, q.channels.length ≤ i) := by
  have hundefined : ¬(0 / 0 : Float) ≤ 0 := by decide +kernel
  have hpast : ¬unsettled.lastFlushTime < 1 := by decide +kernel
  have hunordered : ¬(1 : Float) ≤ unsettled.lastFlushTime := by decide +kernel
  refine ⟨?_,by decide +kernel,fun h => ?_⟩
  · have hflush : (Rail.ofName "r" : Rail Float).generateSteps (some (.ofChannels 3)) (0 / 0) =
      if (0 / 0 : Float) ≤ 0 then .ok (Rail.ofName "r") else .ok unsettled := rfl
    rw [hflush,if_neg hundefined]
  · have hrefused : ∃ e, unsettled.generateSteps (some (.ofChannels 0)) 1 = .error e :=
      generateSteps_eq_error.2 (Or.inr ⟨hunordered,_,rfl,0,by decide,by decide⟩)
    obtain hnone | ⟨hlt,-⟩ := h.1 hrefused
    · cases hnone
    · exact hpast hlt

end Rail

end Gantry
