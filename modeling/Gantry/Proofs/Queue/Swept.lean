import Mathlib
import Gantry.Proofs.Exact
import Gantry.Proofs.Queue.History

set_option autoImplicit false

namespace Gantry

namespace Channel

/-- Of segments that end before a time only the newest one is left. -/
theorem drop_ended {after : ℝ} {ms : List (Segment ℝ)} (h : ∀ k ∈ ms, k.endTime < after)
    (m : Segment ℝ) (r : Option ℝ) : (drop after (ms ++ [m]) r).1 = [m] := by
  induction ms generalizing r with
  | nil => rfl
  | cons k ms ih =>
    obtain ⟨hk,hms⟩ := List.forall_mem_cons.1 h
    cases ms with
    | nil =>
      rw [List.cons_append,List.nil_append,drop,if_pos hk]
      rfl
    | cons l ms =>
      rw [List.cons_append,List.cons_append,drop,if_pos hk,← List.cons_append]
      exact ih hms _

theorem admits_of_endTime_le {c : Channel ℝ} {m : Segment ℝ}
    (h : ∀ k ∈ c.tail?, k.endTime ≤ m.startTime) : c.admits m = .ok () := by
  unfold admits
  cases hlast : c.tail? with
  | none => rfl
  | some k =>
    have hle := h k hlast
    exact if_neg (by linarith [timeEpsilon_pos])

end Channel

namespace SegmentQueue

/-- All segments of the only channel are finalized, and end by a time. -/
def Swept (q : SegmentQueue ℝ) (t : ℝ) : Prop :=
  ∃ c, q.channels = [c] ∧ c.active = [] ∧ ∀ m ∈ c.history, m.endTime ≤ t

theorem swept_ofChannels (t : ℝ) : (ofChannels 1).Swept t :=
  ⟨{},rfl,rfl,fun _ hm => nomatch hm⟩

theorem le_advance (r : Option ℝ) (before : ℝ) : ∃ g, advance r before = some g ∧ before ≤ g := by
  cases r with
  | none => exact ⟨before,by simp [advance],le_rfl⟩
  | some f =>
    by_cases hlt : f < before
    · exact ⟨before,by simp [advance,hlt],le_rfl⟩
    · exact ⟨f,by simp [advance,hlt],not_lt.1 hlt⟩

namespace Swept
variable {q : SegmentQueue ℝ} {m : Segment ℝ} {t u : ℝ}

theorem mono (h : q.Swept t) (htu : t ≤ u) : q.Swept u := by
  obtain ⟨c,hc,hactive,hended⟩ := h
  exact ⟨c,hc,hactive,fun m hm => (hended m hm).trans htu⟩

theorem pending (h : q.Swept t) : q.pending 0 = .ok 0 := by
  obtain ⟨c,hc,hactive,-⟩ := h
  simp [SegmentQueue.pending,channel,hc,hactive,Except.map]

theorem tailEnd (h : q.Swept t) : ∃ e, q.tailEnd 0 = .ok e ∧ ∀ u ∈ e, u ≤ t := by
  obtain ⟨c,hc,hactive,hended⟩ := h
  refine ⟨c.tail?.map Segment.endTime,?_,fun u hu => ?_⟩
  · simp [SegmentQueue.tailEnd,channel,hc,Except.map]
  · obtain ⟨m,hm,rfl⟩ := Option.mem_map.1 hu
    have hmem := List.mem_of_getLast? hm
    rw [Channel.segments,hactive,List.append_nil] at hmem
    exact hended m hmem

theorem append (h : q.Swept t) (hm : m.validate = .ok ()) (ht : t ≤ m.startTime) :
    q.append 0 m = .ok (q.push 0 m) := by
  obtain ⟨c,hc,hactive,hended⟩ := h
  have htaken : c.admits m = .ok () := by
    refine Channel.admits_of_endTime_le fun k hk => ?_
    have hmem := List.mem_of_getLast? hk
    rw [Channel.segments,hactive,List.append_nil] at hmem
    exact (hended k hmem).trans ht
  exact append_eq_ok.2 ⟨admits_eq_ok.2 ⟨hm,c,by rw [hc]; rfl,htaken⟩,rfl⟩

theorem push (h : q.Swept t) (m : Segment ℝ) :
    ∃ c : Channel ℝ, (q.push 0 m).channels[0]? = some (c.push m) := by
  obtain ⟨c,hc,-⟩ := h
  refine ⟨c,?_⟩
  rw [getElem?_push,if_pos rfl,hc]
  rfl

theorem finalize_push (h : q.Swept t) (hm : m.endTime ≤ u) (htu : t < u) :
    ((q.push 0 m).finalize u u).Swept m.endTime ∧
      ((q.push 0 m).finalize u u).segments 0 = .ok [m] := by
  obtain ⟨c,hc,hactive,hended⟩ := h
  obtain ⟨g,hg,hug⟩ := le_advance q.finalized u
  have hbefore : Channel.ended (some g) m = true := by
    have hlt : ¬g + timeEpsilon < m.endTime := by
      have := timeEpsilon_pos
      linarith
    simp [Channel.ended,hlt]
  -- All that was active retires, and all of the history but `m` is older than `u`.
  have hretired : (c.push m).retire (some g) =
      { c with history := c.history ++ [m], active := [] } := by
    simp [Channel.retire,Channel.push,hactive,hbefore]
  obtain ⟨d,hd⟩ : ∃ d, d = ((c.push m).retire (some g)).reclaim u := ⟨_,rfl⟩
  have hchannels : ((q.push 0 m).finalize u u).channels = [d] := by
    simp only [SegmentQueue.finalize,SegmentQueue.push,hc,hg,hd,List.modify_zero_cons,List.map_cons,
      List.map_nil]
  have hnone : d.active = [] := by rw [hd,hretired]; rfl
  have halone : d.history = [m] := by
    rw [hd,hretired]
    exact Channel.drop_ended (fun k hk => (hended k hk).trans_lt htu) m _
  refine ⟨⟨d,hchannels,hnone,fun k hk => ?_⟩,?_⟩
  · rw [halone] at hk
    rw [List.mem_singleton.1 hk]
  · unfold SegmentQueue.segments channel
    rw [hchannels,List.getElem?_cons_zero]
    simp [Except.map,Channel.segments,hnone,halone]

end Swept

end SegmentQueue

end Gantry
