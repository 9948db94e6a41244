import Mathlib
import Gantry.Proofs.InPlace
import Gantry.Proofs.Queue.Filling

set_option autoImplicit false

namespace Gantry

namespace SegmentQueue
variable {α : Type}

theorem push_comm (q : SegmentQueue α) {i j : Nat} (h : i ≠ j) (m n : Segment α) :
    (q.push i m).push j n = (q.push j n).push i m := by
  simp only [push,List.modify_modify_ne _ _ _ h]

variable [Scalar α] (t : α) (mv : ToolheadMove α)

theorem admits_push_of_ne (q : SegmentQueue α) {i j : Nat} (h : i ≠ j) (m n : Segment α) :
    (q.push i m).admits j n = q.admits j n := by
  simp only [admits,channel,getElem?_push,if_neg h]

def admitsAxis (q : SegmentQueue α) (i : Nat) : Except (QueueError α) Unit :=
  match mv.axisSegment t i with
  | some m => q.admits i m
  | none => .ok ()

def pushAxis (q : SegmentQueue α) (i : Nat) : SegmentQueue α :=
  match mv.axisSegment t i with
  | some m => q.push i m
  | none => q

def appendAxis (q : SegmentQueue α) (i : Nat) : Except (QueueError α) (SegmentQueue α) :=
  match mv.axisSegment t i with
  | some m => q.append i m
  | none => .ok q

theorem appendAxis_eq (q : SegmentQueue α) (i : Nat) :
    q.appendAxis t mv i = (q.admitsAxis t mv i).map fun _ => q.pushAxis t mv i := by
  unfold appendAxis admitsAxis pushAxis
  cases mv.axisSegment t i with
  | none => rfl
  | some m => simp only [append]; cases q.admits i m <;> rfl

theorem appendAxis_isOk (q : SegmentQueue α) (i : Nat) :
    (∃ q', q.appendAxis t mv i = .ok q') ↔ q.admitsAxis t mv i = .ok () := by
  rw [appendAxis_eq]
  cases q.admitsAxis t mv i <;> simp [Except.map]

theorem appendAxis_eq_error (q : SegmentQueue α) (i : Nat) {e : QueueError α} :
    q.appendAxis t mv i = .error e ↔ q.admitsAxis t mv i = .error e := by
  rw [appendAxis_eq]
  cases q.admitsAxis t mv i <;> simp [Except.map]

theorem admitsAxis_pushAxis (q : SegmentQueue α) {i j : Nat} (h : i ≠ j) :
    (q.pushAxis t mv i).admitsAxis t mv j = q.admitsAxis t mv j := by
  unfold admitsAxis pushAxis
  cases mv.axisSegment t j with
  | none => rfl
  | some n =>
    cases mv.axisSegment t i with
    | none => rfl
    | some m => exact q.admits_push_of_ne h m n

instance : RightCommutative (pushAxis t mv) where
  right_comm q i j := by
    by_cases h : i = j
    · rw [h]
    · unfold pushAxis
      cases mv.axisSegment t i with
      | none => rfl
      | some m =>
        cases mv.axisSegment t j with
        | none => rfl
        | some n => exact q.push_comm h m n

theorem forM_admits (q : SegmentQueue α) (is : List Nat) :
    ((is.filterMap fun i => (mv.axisSegment t i).map (i,·)).forM fun (i,m) => q.admits i m) =
      is.forM (q.admitsAxis t mv) := by
  induction is with
  | nil => rfl
  | cons i is ih =>
    have hr : (i :: is).forM (q.admitsAxis t mv) =
      q.admitsAxis t mv i >>= fun _ => is.forM (q.admitsAxis t mv) := rfl
    rw [hr,← ih,admitsAxis]
    cases hm : mv.axisSegment t i with
    | none => simp only [List.filterMap_cons,hm,Option.map_none,Results.ok_bind]
    | some m => simp only [List.filterMap_cons,hm,Option.map_some]; rfl

theorem appendMove_eq_map (q : SegmentQueue α) :
    q.appendMove t mv = ((q.segmentsOf t mv).forM fun x => q.admits x.1 x.2).map
      fun _ => (q.segmentsOf t mv).foldl (fun q x => q.push x.1 x.2) q := by
  simp only [appendMove]
  cases (q.segmentsOf t mv).forM fun x => q.admits x.1 x.2 <;> rfl

/-- A move is its axes in order: first all are asked, then all are pushed. -/
theorem appendMove_eq_axes (q : SegmentQueue α) :
    q.appendMove t mv = ((List.range (q.covered mv)).forM (q.admitsAxis t mv)).map
      fun _ => (List.range (q.covered mv)).foldl (pushAxis t mv) q := by
  have hpush : (q.segmentsOf t mv).foldl (fun q x => q.push x.1 x.2) q =
      (List.range (q.covered mv)).foldl (pushAxis t mv) q := by
    rw [segmentsOf,List.foldl_filterMap]
    refine List.foldl_ext _ _ _ fun q i _ => ?_
    rw [pushAxis]
    cases mv.axisSegment t i <;> rfl
  rw [appendMove_eq_map,hpush,segmentsOf]
  exact congrArg _ (forM_admits t mv q _)

theorem appendMove_eq_ok_axes {q q' : SegmentQueue α} :
    q.appendMove t mv = .ok q' ↔
      (∀ i, i < q.covered mv → q.admitsAxis t mv i = .ok ()) ∧
        q' = (List.range (q.covered mv)).foldl (pushAxis t mv) q := by
  simp only [appendMove_eq_axes,Results.map_eq_ok,← List.mem_range,← Results.forM_eq_ok]
  constructor
  · rintro ⟨_,hall,rfl⟩
    exact ⟨hall,rfl⟩
  · rintro ⟨hall,rfl⟩
    exact ⟨(),hall,rfl⟩

theorem appendMove_eq_error_axes {q : SegmentQueue α} {e : QueueError α} :
    q.appendMove t mv = .error e ↔ ∃ i, i < q.covered mv ∧ q.admitsAxis t mv i = .error e ∧
      ∀ j, j < i → q.admitsAxis t mv j = .ok () := by
  rw [appendMove_eq_axes,← Results.forM_range_eq_error]
  cases (List.range (q.covered mv)).forM (q.admitsAxis t mv) <;> simp [Except.map]

/-- Axes that are all taken by the queue are taken one after another: none of them changes what
another one meets. -/
theorem foldlM_appendAxis {q : SegmentQueue α} {is : List Nat} (hn : is.Nodup)
    (h : ∀ i ∈ is, q.admitsAxis t mv i = .ok ()) :
    is.foldlM (appendAxis t mv) q = .ok (is.foldl (pushAxis t mv) q) := by
  induction is generalizing q with
  | nil => rfl
  | cons i is ih =>
    obtain ⟨hi,his⟩ := List.forall_mem_cons.1 h
    obtain ⟨hni,hn⟩ := List.nodup_cons.1 hn
    have hq : q.appendAxis t mv i = .ok (q.pushAxis t mv i) := by
      rw [appendAxis_eq,hi]
      rfl
    rw [List.foldlM_cons,hq,Results.ok_bind,List.foldl_cons]
    refine ih hn fun j hj => ?_
    have hij : i ≠ j := fun h => hni (h ▸ hj)
    rw [admitsAxis_pushAxis t mv q hij]
    exact his j hj

theorem segmentsOf_eq_zipIdx (q : SegmentQueue α) :
    q.segmentsOf t mv =
      ((List.range (q.covered mv)).filterMap (mv.axisSegment t)).zipIdx.map Prod.swap := by
  have hsome : ∀ i < q.covered mv, ∃ m, mv.axisSegment t i = some m := fun i hi => by
    obtain ⟨-,hstart,hr⟩ := lt_covered.1 hi
    exact mv.axisSegment_isSome hstart hr
  rw [segmentsOf]
  generalize q.covered mv = count at hsome ⊢
  -- no axis before the last one is left out, so the last one gets its own number
  induction count with
  | zero => rfl
  | succ n ih =>
    have hn := ih fun i hi => hsome i (by omega)
    have hlen : ((List.range n).filterMap (mv.axisSegment t)).length = n := by
      have hall : ∀ i ∈ List.range n, (mv.axisSegment t i).isSome := fun i hi => by
        have hin := List.mem_range.1 hi
        exact Option.isSome_iff_exists.2 (hsome i (by omega))
      rw [List.filterMap_length_eq_length.2 hall,List.length_range]
    obtain ⟨m,hm⟩ := hsome n (by omega)
    simp only [List.range_succ,List.filterMap_append,hn,List.zipIdx_append,List.map_append,hlen,
      List.filterMap_cons,List.filterMap_nil,hm,Option.map_some,List.zipIdx_cons,List.zipIdx_nil,
      List.map_cons,List.map_nil,Prod.swap_prod_mk,Nat.zero_add]

/-- Adds a toolhead move in place: each channel in turn is asked for its segment, then each takes
its own. -/
def fanOut : EStateM (QueueError α) (SegmentQueue α) Unit := do
  let segments := (List.range ((← get).covered mv)).filterMap (mv.axisSegment t)
  segments.zipIdx.forM fun (m,i) => InPlace.ask fun q => q.admits i m
  segments.zipIdx.forM fun (m,i) => modify fun q => q.push i m

theorem fanOut_eq_settle : fanOut t mv = InPlace.settle fun q => q.appendMove t mv := by
  funext q
  have hrun : fanOut t mv q =
      ((((List.range (q.covered mv)).filterMap (mv.axisSegment t)).zipIdx.forM
        fun x => InPlace.ask fun q => q.admits x.2 x.1) >>= fun _ =>
      ((List.range (q.covered mv)).filterMap (mv.axisSegment t)).zipIdx.forM
        fun x => modify fun q => q.push x.2 x.1) q := rfl
  rw [hrun,InPlace.forM_ask,InPlace.forM_modify,InPlace.ask_bind_modify]
  refine InPlace.settle_congr ?_
  rw [appendMove_eq_map,segmentsOf_eq_zipIdx,List.forM_eq_forM,List.forM_eq_forM,List.forM_map,
    List.foldl_map]
  rfl

/-- A toolhead move is queued on all channels it covers or on none. It is accepted exactly when each
of them alone would take its segment, and then comes to adding the segments one after another in
any order. It is refused for the reason of the lowest channel that refuses, and made in place it
leaves the queue as it was. -/
theorem appendMove_all_or_none (q : SegmentQueue α) :
    (∀ i, i < q.covered mv →
        ∃ m, mv.axisSegment t i = some m ∧ q.appendAxis t mv i = q.append i m) ∧
      ((∃ q', q.appendMove t mv = .ok q') ↔
        ∀ i, i < q.covered mv → ∃ q', q.appendAxis t mv i = .ok q') ∧
      (∀ q', q.appendMove t mv = .ok q' → ∀ is : List Nat, is.Perm (List.range (q.covered mv)) →
        is.foldlM (appendAxis t mv) q = .ok q') ∧
      (∀ e, q.appendMove t mv = .error e ↔
        ∃ i, i < q.covered mv ∧ q.appendAxis t mv i = .error e ∧
          ∀ j, j < i → ∃ q', q.appendAxis t mv j = .ok q') ∧
      (∀ q', fanOut t mv q = .ok () q' ↔ q.appendMove t mv = .ok q') ∧
      ∀ e q', fanOut t mv q = .error e q' ↔ q.appendMove t mv = .error e ∧ q' = q := by
  simp only [appendAxis_isOk,appendAxis_eq_error,fanOut_eq_settle,InPlace.settle_eq_ok,
    InPlace.settle_eq_error,implies_true,and_true]
  refine ⟨fun i hi => ?_,?_,fun q' hq' is his => ?_,fun e => appendMove_eq_error_axes t mv⟩
  · obtain ⟨-,hstart,hr⟩ := lt_covered.1 hi
    obtain ⟨m,hm⟩ := mv.axisSegment_isSome (t := t) hstart hr
    exact ⟨m,hm,by simp only [appendAxis,hm]⟩
  · simp only [appendMove_eq_ok_axes]
    exact ⟨fun ⟨_,hall,_⟩ => hall,fun hall => ⟨_,hall,rfl⟩⟩
  · obtain ⟨hall,rfl⟩ := (appendMove_eq_ok_axes t mv).1 hq'
    have hcovered : ∀ i ∈ is, q.admitsAxis t mv i = .ok () := fun i hi =>
      hall i (List.mem_range.1 (his.mem_iff.1 hi))
    rw [foldlM_appendAxis t mv (his.nodup_iff.2 List.nodup_range) hcovered]
    exact congrArg Except.ok (his.foldl_eq q)

end SegmentQueue

end Gantry
