import Mathlib
import Gantry.Motion.ToolheadMove
import Gantry.Proofs.Motion.Segment

set_option autoImplicit false

namespace Gantry

def Segment.scaled (m : Segment ℝ) (pos k : ℝ) : Segment ℝ :=
  { m with startPos := pos, startV := m.startV * k, cruiseV := m.cruiseV * k, accel := m.accel * k }

namespace Segment
variable (m : Segment ℝ) (pos k : ℝ)

theorem travel_scaled (e : ℝ) : (m.scaled pos k).travel e = k * m.travel e := by
  simp only [travel,scaled]
  ring

theorem positionAt_scaled (t : ℝ) :
    (m.scaled pos k).positionAt t = pos + k * (m.positionAt t - m.startPos) := by
  have hw : (m.scaled pos k).elapsed t = m.elapsed t := rfl
  rw [positionAt_exact,positionAt_exact,hw,travel_scaled,add_sub_cancel_left]
  rfl

end Segment

namespace Ramps
variable (r : Ramps ℝ) (t₀ : ℝ)

def path : Segment ℝ := ⟨t₀,0,r.accelT,r.cruiseT,r.decelT,r.startV,r.cruiseV,r.accel⟩

theorem positionAt_scaled_path (pos k t : ℝ) :
    ((r.path t₀).scaled pos k).positionAt t = pos + k * (r.path t₀).positionAt t := by
  have hstart : (r.path t₀).startPos = 0 := rfl
  rw [Segment.positionAt_scaled,hstart,sub_zero]

end Ramps

namespace ToolheadMove

noncomputable def euclidean (p q : List ℝ) : ℝ :=
  √(List.zipWith (fun x y => (y - x) ^ 2) p q).sum

/-- How far a move goes: the distance in x, y and z, or that of all axes if there is none. -/
noncomputable def distance (start stop : List ℝ) : ℝ :=
  if euclidean (start.take 3) (stop.take 3) = 0 then euclidean start stop
  else euclidean (start.take 3) (stop.take 3)

variable {start stop : List ℝ}

theorem squaredLength_exact (xs : List ℝ) : squaredLength xs = (xs.map (· ^ 2)).sum := by
  rw [List.sum_eq_foldl,List.foldl_map]
  simp only [pow_two]
  rfl

theorem sqrt_squaredLength (p q : List ℝ) :
    √(squaredLength (List.zipWith (fun x y => y - x) p q)) = euclidean p q := by
  rw [squaredLength_exact,List.map_zipWith,euclidean]

theorem pathLength_eq (start stop : List ℝ) :
    pathLength (List.zipWith (fun s e => e - s) start stop) = distance start stop := by
  simp only [pathLength,List.take_zipWith,Scalar.sqrt_exact,sqrt_squaredLength,Scalar.beq_exact,
    decide_eq_true_eq,distance]

theorem distance_nonneg (start stop : List ℝ) : 0 ≤ distance start stop := by
  unfold distance
  split <;> exact Real.sqrt_nonneg _

theorem eq_zero_of_distance_eq_zero (h : distance start stop = 0) {d : ℝ}
    (hd : d ∈ List.zipWith (fun s e => e - s) start stop) : d = 0 := by
  have hall : euclidean start stop = 0 := by
    unfold distance at h
    split at h
    · exact h
    · contradiction
  have hnonneg : ∀ x ∈ (List.zipWith (fun s e => e - s) start stop).map (· ^ 2), 0 ≤ x := by
    intro x hx
    obtain ⟨y,-,rfl⟩ := List.mem_map.1 hx
    exact sq_nonneg y
  rw [← sqrt_squaredLength,squaredLength_exact,Real.sqrt_eq_zero (List.sum_nonneg hnonneg)] at hall
  exact pow_eq_zero_iff two_ne_zero |>.1
    (List.all_zero_of_le_zero_le_of_sum_eq_zero hnonneg hall (List.mem_map_of_mem hd))

noncomputable def share (start stop : List ℝ) (d : ℝ) : ℝ :=
  if 0 < distance start stop then d / distance start stop else 0

theorem share_mul_distance {d : ℝ} (hd : d ∈ List.zipWith (fun s e => e - s) start stop) :
    share start stop d * distance start stop = d := by
  unfold share
  split
  · rename_i h
    exact div_mul_cancel₀ d h.ne'
  · rename_i h
    have hzero := le_antisymm (not_lt.1 h) (distance_nonneg start stop)
    rw [zero_mul,eq_zero_of_distance_eq_zero hzero hd]

section Axis
variable {i : ℕ} (h : start.length = stop.length) (hi : i < start.length) (r : Ramps ℝ)
include h hi

theorem deltas_getElem? :
    (List.zipWith (fun s e => e - s) start stop)[i]? = some (stop[i] - start[i]) := by
  rw [List.getElem?_zipWith,List.getElem?_eq_getElem hi,List.getElem?_eq_getElem (h ▸ hi)]

theorem axesR_between :
    (between start stop r).axesR[i]? = some (share start stop (stop[i] - start[i])) := by
  simp only [between,pathLength_eq,List.getElem?_map,deltas_getElem? h hi]
  rfl

theorem axisSegment_between (t₀ : ℝ) : (between start stop r).axisSegment t₀ i =
    some ((r.path t₀).scaled start[i] (share start stop (stop[i] - start[i]))) := by
  have hs : (between start stop r).startPos[i]? = some start[i] := List.getElem?_eq_getElem hi
  rw [axisSegment,hs,axesR_between h hi]
  rfl

end Axis

/-- Each axis of a move between two coordinates has a segment, and that has a position at each time:
as far from where the axis starts as its share says of the way along the path. When that way has
become the distance, the axis has arrived. -/
theorem between_straight (h : start.length = stop.length) {r : Ramps ℝ} (ha : 0 ≤ r.accelT)
    (hc : 0 ≤ r.cruiseT) (hd : 0 ≤ r.decelT) (t₀ : ℝ) :
    ∀ i, (hi : i < start.length) → ∃ m k, (between start stop r).axisSegment t₀ i = some m ∧
      (between start stop r).axesR[i]? = some k ∧
      (∀ t, m.positionAt? t = some (start[i] + k * (r.path t₀).positionAt t)) ∧
      ((r.path t₀).endPosition = distance start stop → m.endPosition = stop[i]) := by
  intro i hi
  refine ⟨_,_,axisSegment_between h hi r t₀,axesR_between h hi r,fun t => ?_,fun hend => ?_⟩
  · have hcoherent : ((r.path t₀).scaled start[i] (share start stop (stop[i] - start[i]))).Coherent :=
      add_nonneg (add_nonneg ha hc) hd
    rw [Segment.positionAt?,if_pos hcoherent,r.positionAt_scaled_path]
  · have hmem := List.mem_of_getElem? (deltas_getElem? h hi)
    calc _ = start[i] + share start stop (stop[i] - start[i]) * (r.path t₀).endPosition :=
          r.positionAt_scaled_path t₀ _ _ _
      _ = start[i] + (stop[i] - start[i]) := by rw [hend,share_mul_distance hmem]
      _ = stop[i] := add_sub_cancel _ _

def steady : Ramps ℝ := ⟨0,1,0,3,3,0⟩

theorem distance_diagonal : distance [0,0,0,0] [1,2,2,-6] = 3 := by
  have hnine : (1 + (2 ^ 2 + 2 ^ 2) : ℝ) = 3 ^ 2 := by norm_num
  have hxyz : euclidean ([0,0,0,0].take 3) ([1,2,2,-6].take 3) = 3 := by simp [euclidean,hnine]
  rw [distance,hxyz,if_neg three_ne_zero]

theorem endPosition_steady : (steady.path 1).endPosition = 3 := by
  have hs : (steady.path 1).Sound := ⟨le_rfl,zero_le_one,le_rfl⟩
  rw [hs.endPosition_eq]
  norm_num [Segment.travel,Segment.duration,steady,Ramps.path]

/-- The extra axis of a diagonal move goes back twice as fast as the path goes on. -/
theorem between_straight_diagonal : ∃ m,
    (between [0,0,0,0] [1,2,2,-6] steady).axisSegment 1 3 = some m ∧
      (∀ t, m.positionAt? t = some (0 + -2 * (steady.path 1).positionAt t)) ∧
      m.endPosition = -6 := by
  have hlength : ([0,0,0,0] : List ℝ).length = ([1,2,2,-6] : List ℝ).length := rfl
  have hthree : 3 < ([0,0,0,0] : List ℝ).length := by decide
  obtain ⟨m,k,hm,hk,hpos,hend⟩ :=
    between_straight hlength (r := steady) le_rfl zero_le_one le_rfl 1 3 hthree
  have htwo : k = -2 := by
    rw [axesR_between hlength hthree] at hk
    rw [← Option.some.inj hk,share,distance_diagonal]
    norm_num
  subst htwo
  exact ⟨m,hm,hpos,hend (endPosition_steady.trans distance_diagonal.symm)⟩

end ToolheadMove

end Gantry
