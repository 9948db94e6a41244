import Mathlib
import Gantry.Proofs.Rail.Breakpoints

set_option autoImplicit false

namespace Gantry

namespace Rail

section Advance
variable {α : Type} [Scalar α] {r : Rail α} {k : Track α} {start upto : α}

@[simp] theorem advance_name : (r.advance k start upto).name = r.name := by
  unfold advance; split <;> rfl

@[simp] theorem advance_allocator : (r.advance k start upto).allocator = r.allocator := by
  unfold advance; split <;> rfl

@[simp] theorem advance_lastFlushTime : (r.advance k start upto).lastFlushTime = upto := by
  unfold advance; split <;> rfl

theorem generateSteps_of_le {q : SegmentQueue α} (h : upto ≤ r.lastFlushTime) :
    r.generateSteps (some q) upto = .ok r := by
  simp [generateSteps,h]

theorem generateSteps_lastFlushTime {queue : Option (SegmentQueue α)} {r' : Rail α}
    (h : r.generateSteps queue upto = .ok r') : r'.allocator = r.allocator ∧
      (upto ≤ r.lastFlushTime ∧ r'.lastFlushTime = r.lastFlushTime ∨
        ¬upto ≤ r.lastFlushTime ∧ r'.lastFlushTime = upto) := by
  cases queue with
  | none => cases h
  | some q =>
    by_cases hle : upto ≤ r.lastFlushTime
    · rw [generateSteps_of_le hle] at h
      cases h
      exact ⟨rfl,Or.inl ⟨hle,rfl⟩⟩
    · simp only [generateSteps,hle,if_false] at h
      obtain ⟨k,-,h⟩ := Results.bind_eq_ok.1 h
      split at h <;> cases h
      · exact ⟨advance_allocator,Or.inr ⟨hle,advance_lastFlushTime⟩⟩
      · exact ⟨rfl,Or.inr ⟨hle,rfl⟩⟩

end Advance

variable {r : Rail ℝ} {k : Track ℝ} {start upto : ℝ}

theorem advance_commandedPos_of_not_covers (h : k.covers r.lastFlushTime upto = false) :
    (r.advance k start upto).commandedPos = r.commandedPos := by
  simp [advance,h]

theorem advance_commandedPos {a b : ℝ} (h : k.covers r.lastFlushTime upto = true)
    (hw : (windows (breakpoints k r.lastFlushTime upto)).getLast? = some (a,b)) :
    (r.advance k start upto).commandedPos = (k.motion start).positionBefore b := by
  simp only [advance,h,if_true,hw]; rfl

section Queue
variable {q : SegmentQueue ℝ} {c : Nat → Channel ℝ}

theorem generateSteps_eq_advance {p : Nat → ℝ} (h : r.lastFlushTime < upto)
    (hc : ∀ i ∈ r.allocator.channels, q.channels[i]? = some (c i))
    (hp : ∀ i ∈ r.allocator.channels, (c i).positionAt r.lastFlushTime = some (p i)) :
    r.generateSteps (some q) upto =
      .ok (r.advance (r.allocator.trackOf c) (r.allocator.combined p) upto) := by
  simp only [generateSteps,not_le.2 h,if_false,track_eq hc,Results.ok_bind,
    Allocator.positionAt_trackOf hp]
  rfl

theorem generateSteps_cartesian {axis : Axis} {d : Channel ℝ} {p : ℝ}
    (ha : r.allocator = .cartesian axis) (h : r.lastFlushTime < upto)
    (hc : q.channels[axis.index]? = some d) (hp : d.positionAt r.lastFlushTime = some p) :
    r.generateSteps (some q) upto =
      .ok (r.advance ((Allocator.cartesian axis).trackOf fun _ => d) p upto) := by
  have hi : ∀ i ∈ r.allocator.channels, q.channels[i]? = some d := by
    intro i hi
    rw [ha] at hi
    obtain rfl := List.mem_singleton.1 hi
    exact hc
  have hg := generateSteps_eq_advance (c := fun _ => d) (p := fun _ => p) h hi fun _ _ => hp
  rw [ha,Allocator.combined_cartesian] at hg
  exact hg

/-- A rail of which some channel never had a segment is only flushed. -/
theorem generateSteps_of_unfed {i : Nat} (h : r.lastFlushTime < upto)
    (hc : ∀ i ∈ r.allocator.channels, q.channels[i]? = some (c i))
    (hi : i ∈ r.allocator.channels) (hn : (c i).timeline = []) :
    r.generateSteps (some q) upto = .ok { r with lastFlushTime := upto } := by
  simp only [generateSteps,not_le.2 h,if_false,track_eq hc,Results.ok_bind,
    Allocator.positionAt_trackOf_eq_none hi hn]
  rfl

end Queue

/-- A flush that keeps its distance from the flush and the boundaries before it cuts its last
window at its own time. -/
theorem getLast?_windows_breakpoints (h : start + timeEpsilon ≤ upto)
    (hb : ∀ m ∈ k.touching start upto, ∀ t ∈ m.boundaries, t < upto → t + timeEpsilon ≤ upto) :
    ∃ a, (windows (breakpoints k start upto)).getLast? = some (a,upto) := by
  have he := timeEpsilon_pos
  have hs : ∀ u ∈ start :: inOrder (k.inside start upto), u + timeEpsilon ≤ upto := by
    intro u hu
    rcases List.mem_cons.1 hu with rfl | hu
    · exact h
    · obtain ⟨⟨m,hm,hmu⟩,_,ht⟩ := Track.mem_inside.1 (mem_inOrder.1 hu)
      exact hb m hm u hmu ht
  obtain ⟨us,hu⟩ := spaced_append hs
  rw [breakpoints_eq (by linarith),hu]
  exact getLast?_windows start us upto

/-- Flushing a rail whose channels run without jumps moves it on with them. -/
theorem generateSteps_joined {q : SegmentQueue ℝ} {c : Nat → Channel ℝ} {p s : Nat → ℝ}
    (h : r.lastFlushTime + timeEpsilon ≤ upto)
    (hc : ∀ i ∈ r.allocator.channels, q.channels[i]? = some (c i))
    (hj : ∀ i ∈ r.allocator.channels, (c i).timeline.Joined)
    (hb : ∀ i ∈ r.allocator.channels, ∀ m ∈ (c i).timeline, ∀ t ∈ m.boundaries,
      t < upto → t + timeEpsilon ≤ upto)
    (hs : ∀ i ∈ r.allocator.channels, (c i).positionBefore r.lastFlushTime = some (s i))
    (hp : ∀ i ∈ r.allocator.channels, (c i).positionBefore upto = some (p i))
    (hr : r.commandedPos = r.allocator.combined s) :
    ∃ r', r.generateSteps (some q) upto = .ok r' ∧ r'.name = r.name ∧
      r'.allocator = r.allocator ∧ r'.lastFlushTime = upto ∧
      r'.commandedPos = r.allocator.combined p := by
  have he := timeEpsilon_pos
  have hne : ∀ i ∈ r.allocator.channels, (c i).timeline ≠ [] := by
    intro i hi hn
    have hsi := hs i hi
    simp [Channel.positionBefore,hn,Timeline.positionBefore,Timeline.origin] at hsi
  have hat : ∀ i ∈ r.allocator.channels,
      (c i).positionAt r.lastFlushTime = some (((c i).positionAt r.lastFlushTime).getD 0) := by
    intro i hi
    obtain ⟨v,hv⟩ := Timeline.positionAt_isSome (hne i hi) r.lastFlushTime
    change (c i).positionAt r.lastFlushTime = some v at hv
    simp [hv]
  refine ⟨_,generateSteps_eq_advance (by linarith) hc hat,by simp,by simp,by simp,?_⟩
  cases hcov : (r.allocator.trackOf c).covers r.lastFlushTime upto with
  | true =>
    obtain ⟨a,ha⟩ := getLast?_windows_breakpoints (k := r.allocator.trackOf c) h
      fun m hm => by
        obtain ⟨⟨i,hi,hmi⟩,_⟩ := Allocator.mem_touching.1 hm
        exact hb i hi m hmi
    rw [advance_commandedPos hcov ha]
    simp [Track.motion,Allocator.positionBefore_trackOf hp]
  | false =>
    -- nothing moves in the range, so its end is approached as its start was
    rw [advance_commandedPos_of_not_covers hcov,hr]
    refine Allocator.combined_congr fun i hi => ?_
    have hgap : ∀ m ∈ (c i).timeline, m.endTime ≤ r.lastFlushTime ∨ upto ≤ m.startTime := by
      intro m hm
      by_contra hn
      push Not at hn
      have hm := Allocator.mem_touching.2 ⟨⟨i,hi,hm⟩,hn⟩
      rw [Track.covers_eq_true.2 ⟨m,hm⟩] at hcov
      cases hcov
    have hg := (hj i hi).positionBefore_gap (by linarith) hgap
    have hsi := hs i hi
    rw [Channel.positionBefore,← hg] at hsi
    exact Option.some.inj (hsi.symm.trans (hp i hi))

end Rail

end Gantry
