import Mathlib
import Gantry.Proofs.Motion.Speed
import Gantry.Proofs.Queue.Reclaimed
import Gantry.Proofs.Queue.Swept

set_option autoImplicit false

namespace Gantry

namespace Timeline

theorem joined_iff {l : Timeline ℝ} : l.Joined ↔ (∀ m ∈ l, m.Sound) ∧
    l.IsChain fun m n => n.endTime ≤ m.startTime ∧ m.startPos = n.endPosition := by
  induction l with
  | nil => simp [Joined]
  | cons m l ih =>
    cases l with
    | nil => simp [Joined]
    | cons n l =>
      rw [Joined,ih,List.isChain_cons_cons,List.forall_mem_cons (a := m)]
      tauto

theorem Joined.positionAt_sub_le {l : Timeline ℝ} {s t V : ℝ} (h : Joined l)
    (hV : ∀ m ∈ l, ∀ v ∈ m.speeds, v ≤ V) (hst : s ≤ t) {p r : ℝ}
    (hs : l.positionAt s = some p) (ht : l.positionAt t = some r) : |r - p| ≤ V * (t - s) := by
  induction l generalizing s t p r with
  | nil => cases hs
  | cons m l ih =>
    obtain ⟨hm,hl⟩ := List.forall_mem_cons.1 hV
    have hbegun {u x : ℝ} (hu : m.startTime ≤ u) (hx : positionAt (m :: l) u = some x) :
        m.positionAt u = x := by
      rw [positionAt_cons_of_le hu] at hx
      exact Option.some.inj hx
    -- up to its start the newest segment stays out of it, or the channel rests
    have hbefore {u w x y : ℝ} (huw : u ≤ w) (hw : w ≤ m.startTime)
        (hx : positionAt (m :: l) u = some x) (hy : positionAt (m :: l) w = some y) :
        |y - x| ≤ V * (w - u) := by
      rw [h.positionAt_of_le_startTime (huw.trans hw)] at hx
      rw [h.positionAt_of_le_startTime hw] at hy
      rcases eq_or_ne l [] with rfl | hnil
      · obtain rfl : m.startPos = x := Option.some.inj hx
        obtain rfl : m.startPos = y := Option.some.inj hy
        rw [sub_self,abs_zero]
        exact mul_nonneg (Segment.nonneg_of_speeds_le hm) (sub_nonneg.2 huw)
      · obtain ⟨x',hx'⟩ := positionAt_isSome hnil u
        obtain ⟨y',hy'⟩ := positionAt_isSome hnil w
        rw [hx'] at hx
        rw [hy'] at hy
        obtain rfl : x' = x := Option.some.inj hx
        obtain rfl : y' = y := Option.some.inj hy
        exact ih h.tail hl huw hx' hy'
    rcases le_total m.startTime s with hms | hms
    · rw [← hbegun hms hs,← hbegun (hms.trans hst) ht]
      exact h.head.positionAt_sub_le hm hst
    · rcases le_total t m.startTime with htm | htm
      · exact hbefore hst htm hs ht
      · have hfirst := hbefore hms le_rfl hs (positionAt_cons_of_le le_rfl)
        have hlast := h.head.positionAt_sub_le hm htm
        rw [hbegun htm ht] at hlast
        calc |r - p| ≤ |r - m.positionAt m.startTime| + |m.positionAt m.startTime - p| :=
              abs_sub_le _ _ _
          _ ≤ V * (t - m.startTime) + V * (m.startTime - s) := add_le_add hlast hfirst
          _ = V * (t - s) := by ring

end Timeline

namespace Channel

def Seamless (c : Channel ℝ) : Prop :=
  c.segments.IsChain fun m n => m.endTime ≤ n.startTime ∧ n.startPos = m.endPosition

theorem Seamless.joined {c : Channel ℝ} (h : c.Seamless) (hs : ∀ m ∈ c.segments, m.Sound) :
    c.timeline.Joined := by
  refine Timeline.joined_iff.2 ⟨fun m hm => hs m ((c.mem_timeline m).1 hm),?_⟩
  exact List.isChain_reverse.2 h

end Channel

namespace SegmentQueue
variable {q : SegmentQueue ℝ} {i : ℕ} {c : Channel ℝ}

theorem positionBefore_eq_ok (h : q.channels[i]? = some c) (t : ℝ) :
    q.positionBefore i t = .ok (c.positionBefore t) := by
  rw [positionBefore,channel_eq_ok.2 h]
  rfl

theorem exists_greatest_speed {ms : List (Segment ℝ)} (h : ms ≠ []) :
    ∃ V, IsGreatest {v | ∃ m ∈ ms, v ∈ m.speeds} V := by
  classical
  obtain ⟨m,hm⟩ := List.exists_mem_of_ne_nil ms h
  have hne : (ms.flatMap Segment.speeds).toFinset.Nonempty :=
    ⟨|m.cruiseV|,by simpa using ⟨m,hm,by simp [Segment.speeds]⟩⟩
  have hset : ((ms.flatMap Segment.speeds).toFinset : Set ℝ) = {v | ∃ m ∈ ms, v ∈ m.speeds} := by
    ext v
    simp
  exact ⟨_,hset ▸ Finset.isGreatest_max' _ hne⟩

/-- The position of a seamless channel, which has one at every time as soon as it has a segment, changes
over any span of time by no more than the greatest speed in its segments allows, and is approached
without a jump. -/
theorem bounded_of_seamless (hq : q.Reachable) (hc : q.channels[i]? = some c)
    (hs : c.Seamless) :
    (∀ t, q.positionBefore i t = q.positionAt i t) ∧
      (c.segments ≠ [] → ∃ V, IsGreatest {v | ∃ m ∈ c.segments, v ∈ m.speeds} V ∧
        ∃ f : ℝ → ℝ, (∀ t, q.positionAt i t = .ok (some (f t))) ∧
          ∀ t u, |f t - f u| ≤ V * |t - u|) := by
  have hj := hs.joined fun m hm => Segment.sound_of_validate (hq.validate hc hm)
  refine ⟨fun t => ?_,fun hne => ?_⟩
  · rw [positionBefore_eq_ok hc,positionAt_eq hc]
    exact congrArg _ (hj.positionBefore_eq t)
  · obtain ⟨V,hV⟩ := exists_greatest_speed hne
    have hspeeds : ∀ m ∈ c.timeline, ∀ v ∈ m.speeds, v ≤ V := fun m hm v hv =>
      hV.2 ⟨m,(c.mem_timeline m).1 hm,hv⟩
    choose f hf using Timeline.positionAt_isSome (α := ℝ) (List.reverse_ne_nil_iff.2 hne)
    refine ⟨V,hV,f,fun t => by rw [positionAt_eq hc]; exact congrArg _ (hf t),fun t u => ?_⟩
    rcases le_total t u with htu | htu
    · rw [abs_sub_comm,abs_sub_comm t,abs_of_nonneg (sub_nonneg.2 htu)]
      exact hj.positionAt_sub_le hspeeds htu (hf t) (hf u)
    · rw [abs_of_nonneg (sub_nonneg.2 htu)]
      exact hj.positionAt_sub_le hspeeds htu (hf u) (hf t)

noncomputable def climb : Segment ℝ := ⟨0,0,1,1,1,0,2,2⟩

noncomputable def descent : Segment ℝ := ⟨4,4,0,4,0,-1,-1,0⟩

noncomputable def climbed : SegmentQueue ℝ := ((ofChannels 1).push 0 climb).push 0 descent

theorem sound_climb : climb.Sound := ⟨zero_le_one,zero_le_one,zero_le_one⟩

theorem endTime_climb : climb.endTime = 3 := by
  norm_num [Segment.endTime_exact,climb]

theorem endPosition_climb : climb.endPosition = 4 := by
  rw [sound_climb.endPosition_eq]
  norm_num [Segment.travel,Segment.duration,climb]

theorem reachable_climbed : climbed.Reachable := by
  have hclimb : climb.validate = .ok () := Segment.validate_eq_ok sound_climb
    (by norm_num [Segment.reachesCruise,Segment.velocityTolerance,climb])
  have hdescent : descent.validate = .ok () :=
    Segment.validate_eq_ok ⟨le_rfl,by norm_num [descent],le_rfl⟩
      (by simp [Segment.reachesCruise,descent])
  have hfits : Channel.admits (({} : Channel ℝ).push climb) descent = .ok () := by
    refine Channel.admits_of_endTime_le fun k hk => ?_
    obtain rfl : climb = k := Option.some.inj hk
    rw [endTime_climb]
    norm_num [descent]
  have hfirst : (ofChannels 1).append 0 climb = .ok ((ofChannels 1).push 0 climb) :=
    (swept_ofChannels 0).append hclimb le_rfl
  exact .append 0 descent (.append 0 climb (.ofChannels 1) hfirst)
    (append_eq_ok.2 ⟨admits_eq_ok.2 ⟨hdescent,_,rfl,hfits⟩,rfl⟩)

theorem bounded_of_seamless_climbed : ∃ c, climbed.channels[0]? = some c ∧ c.Seamless ∧
    (∀ t, climbed.positionBefore 0 t = climbed.positionAt 0 t) ∧ ∃ f : ℝ → ℝ,
      (∀ t, climbed.positionAt 0 t = .ok (some (f t))) ∧ ∀ t u, |f t - f u| ≤ 2 * |t - u| := by
  have hs : ((({} : Channel ℝ).push climb).push descent).Seamless := by
    refine List.isChain_pair.2 ⟨?_,?_⟩
    · rw [endTime_climb]
      norm_num [descent]
    · rw [endPosition_climb]
      rfl
  have hc : climbed.channels[0]? = some ((({} : Channel ℝ).push climb).push descent) := rfl
  obtain ⟨hbefore,hbound⟩ := bounded_of_seamless reachable_climbed hc hs
  obtain ⟨V,hV,f,hf,hle⟩ := hbound (List.cons_ne_nil climb [descent])
  have htwo : V = 2 := by
    refine hV.unique ⟨⟨climb,List.mem_cons_self,?_⟩,?_⟩
    · norm_num [Segment.speeds,climb]
    · rintro v ⟨m,hm,hv⟩
      rcases List.mem_pair.1 hm with rfl | rfl
      · norm_num [Segment.speeds,Segment.endVelocity,climb] at hv
        rcases hv with rfl | rfl | rfl <;> norm_num
      · norm_num [Segment.speeds,Segment.endVelocity,descent] at hv
        exact hv.le.trans one_le_two
  subst htwo
  exact ⟨_,hc,hs,hbefore,f,hf,hle⟩

end SegmentQueue

end Gantry
