import Mathlib
import Gantry.Proofs.Queue.Filling

set_option autoImplicit false

namespace Gantry

namespace Channel
variable {α : Type} [Scalar α]

@[simp] theorem segments_retire (c : Channel α) (boundary : Option α) :
    (c.retire boundary).segments = c.segments := by
  simp [retire,segments,List.append_assoc,List.takeWhile_append_dropWhile]

theorem drop_suffix (after : α) (ms : List (Segment α)) (r : Option α) :
    (drop after ms r).1 <:+ ms := by
  induction ms generalizing r with
  | nil => exact List.suffix_rfl
  | cons m ms ih =>
    cases ms with
    | nil => exact List.suffix_rfl
    | cons n ms =>
      unfold drop
      split
      · exact (ih _).trans (List.suffix_cons m (n :: ms))
      · exact List.suffix_rfl

theorem drop_getLast? (after : α) (ms : List (Segment α)) (r : Option α) :
    (drop after ms r).1.getLast? = ms.getLast? := by
  induction ms generalizing r with
  | nil => rfl
  | cons m ms ih =>
    cases ms with
    | nil => rfl
    | cons n ms =>
      unfold drop
      split
      · rw [ih,List.getLast?_cons_cons]
      · rfl

theorem segments_reclaim (c : Channel α) (after : α) :
    (c.reclaim after).segments <:+ c.segments := by
  obtain ⟨l,hl⟩ := drop_suffix after c.history c.reclaimed
  refine ⟨l,?_⟩
  rw [segments,segments,← hl,List.append_assoc]
  rfl

@[simp] theorem tail?_retire (c : Channel α) (boundary : Option α) :
    (c.retire boundary).tail? = c.tail? := by
  rw [tail?,tail?,segments_retire]

@[simp] theorem tail?_reclaim (c : Channel α) (after : α) : (c.reclaim after).tail? = c.tail? := by
  have h := drop_getLast? after c.history c.reclaimed
  simp only [tail?,segments,List.getLast?_append]
  exact congrArg _ h

end Channel

namespace SegmentQueue
variable {α : Type} [Scalar α]

theorem getElem?_finalize (q : SegmentQueue α) (before after : α) (i : Nat) :
    (q.finalize before after).channels[i]? = q.channels[i]?.map fun c =>
      (c.retire (advance q.finalized before)).reclaim after := by
  simp [finalize]

theorem mem_of_mem_finalize {q : SegmentQueue α} {before after : α} {i : Nat} {c : Channel α}
    (h : (q.finalize before after).channels[i]? = some c) :
    ∃ d, q.channels[i]? = some d ∧ c.tail? = d.tail? ∧ ∀ m ∈ c.segments, m ∈ d.segments := by
  rw [getElem?_finalize,Option.map_eq_some_iff] at h
  obtain ⟨d,hd,rfl⟩ := h
  refine ⟨d,hd,by simp,fun m hm => ?_⟩
  simpa using (Channel.segments_reclaim _ after).subset hm

theorem Reachable.validate {q : SegmentQueue α} (h : q.Reachable) {i : Nat} {c : Channel α}
    (hc : q.channels[i]? = some c) {m : Segment α} (hm : m ∈ c.segments) :
    m.validate = .ok () := by
  induction h generalizing i c with
  | ofChannels n =>
    have he : c = {} := List.eq_of_mem_replicate (List.mem_of_getElem? hc)
    simp [he,Channel.segments] at hm
  | @append q q' j k _ ha ih =>
    obtain ⟨had,rfl⟩ := append_eq_ok.1 ha
    rw [getElem?_push] at hc
    split at hc
    · obtain ⟨d,hd,rfl⟩ := Option.map_eq_some_iff.1 hc
      rw [← Channel.mem_timeline,Channel.timeline_push,List.mem_cons,Channel.mem_timeline] at hm
      rcases hm with rfl | hm
      · exact (admits_eq_ok.1 had).1
      · exact ih hd hm
    · exact ih hc hm
  | @appendMove q q' t mv _ ha ih =>
    rw [getElem?_appendMove ha] at hc
    split at hc
    · rename_i k hk
      obtain ⟨d,hd,rfl⟩ := Option.map_eq_some_iff.1 hc
      rw [← Channel.mem_timeline,Channel.timeline_push,List.mem_cons,Channel.mem_timeline] at hm
      rcases hm with rfl | hm
      · exact (admits_of_appendMove ha hk hd).1
      · exact ih hd hm
    · exact ih hc hm
  | finalize before after _ ih =>
    obtain ⟨d,hd,-,hs⟩ := mem_of_mem_finalize hc
    exact ih hd (hs m hm)

theorem head?_line_finalize (q : SegmentQueue α) (before after : α) (i : Nat) :
    ((q.finalize before after).line i).head? = (q.line i).head? := by
  cases hc : (q.finalize before after).channels[i]? with
  | none =>
    rw [getElem?_finalize,Option.map_eq_none_iff] at hc
    simp [line,getElem?_finalize,hc]
  | some c =>
    obtain ⟨d,hd,ht,-⟩ := mem_of_mem_finalize hc
    rw [line_eq hc,line_eq hd,← Channel.tail?_eq_head?,← Channel.tail?_eq_head?,ht]

theorem head?_line_append {q q' : SegmentQueue α} {i : Nat} {m : Segment α}
    (h : q.append i m = .ok q') : (q'.line i).head? = some m := by
  obtain ⟨had,rfl⟩ := append_eq_ok.1 h
  obtain ⟨-,c,hc,-⟩ := admits_eq_ok.1 had
  have hpush := getElem?_push q i i m
  rw [if_pos rfl,hc] at hpush
  rw [line_eq hpush,Channel.timeline_push]
  rfl

theorem tailEnd_eq_ok {q : SegmentQueue α} {i : Nat} {e : α} :
    q.tailEnd i = .ok (some e) ↔ ∃ m ∈ (q.line i).head?, m.endTime = e := by
  unfold tailEnd
  cases hc : q.channels[i]? with
  | none =>
    have hn : q.channel i = .error (.unknownChannel i) := by unfold channel; rw [hc]
    simp [hn,Except.map,line,hc,Channel.timeline,Channel.segments]
  | some c =>
    rw [channel_eq_ok.2 hc,line_eq hc,← Channel.tail?_eq_head?]
    simp [Except.map]

theorem validate_ne_outOfOrder (m : Segment α) (x y : α) :
    m.validate ≠ .error (.outOfOrder x y) := by
  unfold Segment.validate
  split
  · simp
  · split
    · simp
    · split <;> simp

/-- What makes a queue refuse a segment for its order: the newest one of the channel ends too late. -/
theorem append_eq_outOfOrder {q : SegmentQueue α} {i : Nat} {m : Segment α} {x y : α} :
    q.append i m = .error (.outOfOrder x y) ↔ m.validate = .ok () ∧ x = m.startTime ∧
      ∃ n ∈ (q.line i).head?, y = n.endTime ∧ m.startTime < n.endTime - timeEpsilon := by
  unfold append admits
  -- the checks in order: the segment, the channel, and the newest segment of the channel
  cases hv : m.validate with
  | error e =>
    have hne : e ≠ .outOfOrder x y := fun he => validate_ne_outOfOrder m x y (he ▸ hv)
    simp [bind,Except.bind,hne]
  | ok u =>
    rw [Results.ok_bind]
    cases hc : q.channel i with
    | error e =>
      have hnone : q.channels[i]? = none := by
        cases hi : q.channels[i]? with
        | none => rfl
        | some c => rw [channel_eq_ok.2 hi] at hc; cases hc
      have hline : q.line i = [] := by simp [line,hnone,Channel.timeline,Channel.segments]
      have hne : e ≠ .outOfOrder x y := by
        unfold channel at hc
        rw [hnone] at hc
        rw [← Except.error.inj hc]
        simp
      simp [bind,Except.bind,hline,hne]
    | ok c =>
      rw [Results.ok_bind,line_eq (channel_eq_ok.1 hc),← Channel.tail?_eq_head?]
      unfold Channel.admits
      cases c.tail? with
      | none => simp [bind,Except.bind,pure,Except.pure]
      | some n =>
        by_cases hlt : m.startTime < n.endTime - timeEpsilon
        · simp [bind,Except.bind,hlt,eq_comm]
        · simp [bind,Except.bind,pure,Except.pure,hlt]

end SegmentQueue

end Gantry
