import Mathlib
import Gantry.Proofs.Queue.Timeline
import Gantry.Proofs.Results
import Gantry.Rail.Rail

set_option autoImplicit false

namespace Gantry

namespace Allocator

noncomputable def combined (a : Allocator) (p : Nat → ℝ) : ℝ :=
  a.terms.foldl (fun total (i,w) => total + p i * w) 0

@[simp] theorem combined_cartesian (axis : Axis) (p : Nat → ℝ) :
    (cartesian axis).combined p = p axis.index := by
  simp [combined,terms]

noncomputable def trackOf (a : Allocator) (c : Nat → Channel ℝ) : Track ℝ :=
  a.terms.map fun (i,w) => ((c i).timeline,w)

theorem fst_mem_channels {α : Type} [Scalar α] {a : Allocator} {i : Nat} {w : α}
    (h : (i,w) ∈ a.terms) :
    i ∈ a.channels := by
  cases a <;> simp_all [terms,channels] <;> omega

theorem exists_mem_channels (a : Allocator) : ∃ i, i ∈ a.channels := by
  cases a <;> simp [channels]

theorem exists_mem_terms {a : Allocator} {i : Nat} (h : i ∈ a.channels) :
    ∃ w : ℝ, (i,w) ∈ a.terms := by
  cases a with
  | cartesian axis => exact ⟨1,by simpa [terms,channels] using h⟩
  | coreXY sign => simp [terms,channels] at h ⊢; rcases h with rfl | rfl <;> simp
  | coreXZ sign => simp [terms,channels] at h ⊢; rcases h with rfl | rfl <;> simp

theorem channels_lt_three {a : Allocator} {i : Nat} (h : i ∈ a.channels) : i < 3 := by
  rcases a with ⟨_ | _ | _⟩ | ⟨_⟩ | ⟨_⟩ <;> simp_all [channels,Axis.index] <;> omega

theorem combined_congr {a : Allocator} {p r : Nat → ℝ} (h : ∀ i ∈ a.channels, p i = r i) :
    a.combined p = a.combined r := by
  refine List.foldl_ext _ _ _ fun total x hx => ?_
  simp only [h x.1 (fst_mem_channels hx)]

theorem weighted_eq {ts : List (Nat × ℝ)} {v : Nat → Option ℝ} {p : Nat → ℝ} {total : ℝ}
    (h : ∀ x ∈ ts, v x.1 = some (p x.1)) :
    weighted (ts.map fun (i,w) => (v i,w)) total =
      some (ts.foldl (fun total (i,w) => total + p i * w) total) := by
  induction ts generalizing total with
  | nil => rfl
  | cons x ts ih =>
    have hx := h x List.mem_cons_self
    simp only [List.map_cons,List.foldl_cons,hx,weighted]
    exact ih fun y hy => h y (List.mem_cons_of_mem x hy)

theorem weighted_eq_none {ts : List (Nat × ℝ)} {v : Nat → Option ℝ} {total : ℝ}
    (h : ∃ x ∈ ts, v x.1 = none) : weighted (ts.map fun (i,w) => (v i,w)) total = none := by
  induction ts generalizing total with
  | nil => simp at h
  | cons x ts ih =>
    cases hx : v x.1 with
    | none => simp only [List.map_cons,hx,weighted]
    | some u =>
      obtain ⟨y,hy,hn⟩ := h
      simp only [List.map_cons,hx,weighted]
      rcases List.mem_cons.1 hy with rfl | hy
      · rw [hx] at hn; cases hn
      · exact ih ⟨y,hy,hn⟩

theorem calcPosition_eq {a : Allocator} {coord : List ℝ} {p : Nat → ℝ}
    (h : ∀ i ∈ a.channels, coord[i]? = some (p i)) :
    a.calcPosition coord = some (a.combined p) :=
  weighted_eq (v := fun i => coord[i]?) fun x hx => h x.1 (fst_mem_channels hx)

end Allocator

namespace Track

theorem positionFrom_eq_weighted {α : Type} [Scalar α] (t : α) (k : Track α) (total : α) :
    positionFrom t k total = Allocator.weighted (k.map fun (l,w) => (l.positionAt t,w)) total := by
  induction k generalizing total with
  | nil => rfl
  | cons x k ih =>
    obtain ⟨l,w⟩ := x
    cases h : l.positionAt t <;> simp [positionFrom,Allocator.weighted,h,ih]

theorem positionBeforeFrom_eq_weighted {α : Type} [Scalar α] (t : α) (k : Track α) (total : α) :
    positionBeforeFrom t k total =
      Allocator.weighted (k.map fun (l,w) => (l.positionBefore t,w)) total := by
  induction k generalizing total with
  | nil => rfl
  | cons x k ih =>
    obtain ⟨l,w⟩ := x
    cases h : l.positionBefore t <;> simp [positionBeforeFrom,Allocator.weighted,h,ih]

theorem covers_eq_true {k : Track ℝ} {start stop : ℝ} :
    k.covers start stop = true ↔ ∃ m, m ∈ k.touching start stop := by
  rw [covers,Bool.not_eq_true',List.isEmpty_eq_false_iff_exists_mem]

end Track

namespace Allocator
variable {a : Allocator} {c : Nat → Channel ℝ} {p : Nat → ℝ} {t : ℝ}

theorem positionAt_trackOf (h : ∀ i ∈ a.channels, (c i).positionAt t = some (p i)) :
    (a.trackOf c).positionAt t = some (a.combined p) := by
  rw [Track.positionAt,Track.positionFrom_eq_weighted,trackOf,List.map_map]
  exact weighted_eq (v := fun i => (c i).positionAt t) fun x hx => h x.1 (fst_mem_channels hx)

theorem positionBefore_trackOf (h : ∀ i ∈ a.channels, (c i).positionBefore t = some (p i)) :
    (a.trackOf c).positionBefore t = some (a.combined p) := by
  rw [Track.positionBefore,Track.positionBeforeFrom_eq_weighted,trackOf,List.map_map]
  exact weighted_eq (v := fun i => (c i).positionBefore t) fun x hx => h x.1 (fst_mem_channels hx)

theorem positionAt_trackOf_eq_none {i : Nat} (hi : i ∈ a.channels) (h : (c i).timeline = []) :
    (a.trackOf c).positionAt t = none := by
  rw [Track.positionAt,Track.positionFrom_eq_weighted,trackOf,List.map_map]
  obtain ⟨w,hw⟩ := exists_mem_terms hi
  have hn : (c i).positionAt t = none := by
    simp [Channel.positionAt,h,Timeline.positionAt,Timeline.origin]
  exact weighted_eq_none (v := fun i => (c i).positionAt t) ⟨(i,w),hw,hn⟩

theorem positionBefore_trackOf_eq_none {i : Nat} (hi : i ∈ a.channels) (h : (c i).timeline = []) :
    (a.trackOf c).positionBefore t = none := by
  rw [Track.positionBefore,Track.positionBeforeFrom_eq_weighted,trackOf,List.map_map]
  obtain ⟨w,hw⟩ := exists_mem_terms hi
  have hn : (c i).positionBefore t = none := by
    simp [Channel.positionBefore,h,Timeline.positionBefore,Timeline.origin]
  exact weighted_eq_none (v := fun i => (c i).positionBefore t) ⟨(i,w),hw,hn⟩

theorem mem_touching {start stop : ℝ} {m : Segment ℝ} :
    m ∈ (a.trackOf c).touching start stop ↔
      (∃ i ∈ a.channels, m ∈ (c i).timeline) ∧ start < m.endTime ∧ m.startTime < stop := by
  simp only [Track.touching,trackOf,List.mem_flatMap,List.mem_map,List.mem_filter,
    List.mem_reverse,Track.touches,Bool.not_eq_true',Bool.or_eq_false_iff,decide_eq_false_iff_not,
    not_le]
  constructor
  · rintro ⟨x,⟨⟨i,w⟩,hi,rfl⟩,hm,ht⟩
    exact ⟨⟨i,fst_mem_channels hi,hm⟩,ht⟩
  · rintro ⟨⟨i,hi,hm⟩,ht⟩
    obtain ⟨w,hw⟩ := exists_mem_terms hi
    exact ⟨((c i).timeline,w),⟨(i,w),hw,rfl⟩,hm,ht⟩

end Allocator

namespace Rail

theorem track_eq {r : Rail ℝ} {q : SegmentQueue ℝ} {c : Nat → Channel ℝ}
    (h : ∀ i ∈ r.allocator.channels, q.channels[i]? = some (c i)) :
    r.track q = .ok (r.allocator.trackOf c) := by
  refine Results.mapM_eq_ok fun x hx => ?_
  simp only [h x.1 (Allocator.fst_mem_channels hx)]

theorem setPosition_eq {r : Rail ℝ} {coord : List ℝ} {p : Nat → ℝ}
    (h : ∀ i ∈ r.allocator.channels, coord[i]? = some (p i)) :
    r.setPosition coord = .ok { r with
      steppers := r.steppers.map (·.setPosition (r.allocator.combined p))
      commandedPos := r.allocator.combined p } := by
  simp only [setPosition,Allocator.calcPosition_eq h]

end Rail

end Gantry
