import Mathlib
import Gantry.Proofs.Queue.History

set_option autoImplicit false

namespace Gantry
variable {α : Type}

namespace Channel

/-- A channel `d` is what is left of a channel `c` without some of the oldest segments. -/
structure Trimmed (c d : Channel α) : Prop where
  suffix : d.segments <:+ c.segments
  tail : d.tail? = c.tail?

theorem Trimmed.refl (c : Channel α) : c.Trimmed c := ⟨List.suffix_rfl,rfl⟩

theorem Trimmed.trans {c d e : Channel α} (h : c.Trimmed d) (h' : d.Trimmed e) : c.Trimmed e :=
  ⟨h'.suffix.trans h.suffix,h'.tail.trans h.tail⟩

theorem segments_push (c : Channel α) (m : Segment α) : (c.push m).segments = c.segments ++ [m] := by
  simp [segments,push]

theorem Trimmed.push {c d : Channel α} (h : c.Trimmed d) (m : Segment α) :
    (c.push m).Trimmed (d.push m) := by
  constructor
  · rw [segments_push,segments_push]
    exact (List.suffix_append_inj_of_length_eq rfl).2 ⟨h.suffix,rfl⟩
  · rw [tail?_push,tail?_push]

theorem Trimmed.eq_nil {c d : Channel α} (h : c.Trimmed d) (hd : d.segments = []) :
    c.segments = [] := by
  have ht := h.tail
  unfold tail? at ht
  rw [hd,List.getLast?_nil,eq_comm,List.getLast?_eq_none_iff] at ht
  exact ht

theorem Trimmed.timeline_eq_nil {c d : Channel α} (h : c.Trimmed d) :
    d.timeline = [] ↔ c.timeline = [] := by
  rw [timeline,timeline,List.reverse_eq_nil_iff,List.reverse_eq_nil_iff]
  exact ⟨h.eq_nil,fun hc => List.suffix_nil.1 (hc ▸ h.suffix)⟩

end Channel

namespace SegmentQueue

/-- A queue `p` is what is left of a queue `q` when channels are trimmed. -/
structure Trimmed (q p : SegmentQueue α) : Prop where
  length : p.channels.length = q.channels.length
  channel : ∀ (i : Nat) (c d : Channel α),
    q.channels[i]? = some c → p.channels[i]? = some d → c.Trimmed d

namespace Trimmed
variable {q p r : SegmentQueue α}

theorem refl (q : SegmentQueue α) : q.Trimmed q :=
  ⟨rfl,fun _ c _ hc hd => Option.some.inj (hc.symm.trans hd) ▸ .refl c⟩

theorem exists_channel (h : q.Trimmed p) {i : Nat} {c : Channel α}
    (hc : q.channels[i]? = some c) : ∃ d, p.channels[i]? = some d ∧ c.Trimmed d := by
  have hi : i < p.channels.length := by
    rw [h.length]
    exact (List.getElem?_eq_some_iff.1 hc).1
  exact ⟨_,List.getElem?_eq_getElem hi,h.channel i c _ hc (List.getElem?_eq_getElem hi)⟩

theorem channel_eq_none (h : q.Trimmed p) {i : Nat} :
    p.channels[i]? = none ↔ q.channels[i]? = none := by
  rw [List.getElem?_eq_none_iff,List.getElem?_eq_none_iff,h.length]

theorem trans (h : q.Trimmed p) (h' : p.Trimmed r) : q.Trimmed r := by
  refine ⟨h'.length.trans h.length,fun i c e hc he => ?_⟩
  obtain ⟨d,hd,hcd⟩ := h.exists_channel hc
  exact hcd.trans (h'.channel i d e hd he)

theorem push (h : q.Trimmed p) (i : Nat) (m : Segment α) : (q.push i m).Trimmed (p.push i m) := by
  refine ⟨by rw [length_push,length_push,h.length],fun j c d hc hd => ?_⟩
  rw [getElem?_push] at hc hd
  split at hc
  · rename_i hij
    rw [if_pos hij] at hd
    obtain ⟨c',hc',rfl⟩ := Option.map_eq_some_iff.1 hc
    obtain ⟨d',hd',rfl⟩ := Option.map_eq_some_iff.1 hd
    exact (h.channel j c' d' hc' hd').push m
  · rename_i hij
    rw [if_neg hij] at hd
    exact h.channel j c d hc hd

theorem pushAll (h : q.Trimmed p) (ms : List (Nat × Segment α)) :
    (ms.foldl (fun q (i,m) => q.push i m) q).Trimmed (ms.foldl (fun q (i,m) => q.push i m) p) := by
  induction ms generalizing q p with
  | nil => exact h
  | cons x ms ih => exact ih (h.push x.1 x.2)

variable [Scalar α]

theorem finalize (q : SegmentQueue α) (before after : α) : q.Trimmed (q.finalize before after) := by
  refine ⟨by simp [SegmentQueue.finalize],fun i c d hc hd => ?_⟩
  rw [getElem?_finalize,hc] at hd
  rw [← Option.some.inj hd]
  constructor
  · simpa using Channel.segments_reclaim (c.retire (advance q.finalized before)) after
  · simp

theorem admits (h : q.Trimmed p) (i : Nat) (m : Segment α) : p.admits i m = q.admits i m := by
  have hchannel : (do (← p.channel i).admits m) = (do (← q.channel i).admits m) := by
    cases hc : q.channels[i]? with
    | none =>
      have hd := h.channel_eq_none.2 hc
      simp only [SegmentQueue.channel,hc,hd]
    | some c =>
      obtain ⟨d,hd,hcd⟩ := h.exists_channel hc
      simp only [SegmentQueue.channel,hc,hd,Results.ok_bind,Channel.admits,hcd.tail]
  unfold SegmentQueue.admits
  rw [hchannel]

end Trimmed

inductive Entry (α : Type) where
  | segment (i : Nat) (m : Segment α)
  | move (t : α) (mv : ToolheadMove α)

variable [Scalar α]

def add (q : SegmentQueue α) : Entry α → Except (QueueError α) (SegmentQueue α)
  | .segment i m => q.append i m
  | .move t mv => q.appendMove t mv

theorem Trimmed.add {q p : SegmentQueue α} (h : q.Trimmed p) (e : Entry α) :
    Results.Alike Trimmed (q.add e) (p.add e) := by
  cases e with
  | segment i m =>
    simp only [SegmentQueue.add,append,h.admits]
    cases q.admits i m with
    | error err => exact Or.inl ⟨err,rfl,rfl⟩
    | ok u => exact Or.inr ⟨_,_,rfl,rfl,h.push i m⟩
  | move t mv =>
    have hsegments : p.segmentsOf t mv = q.segmentsOf t mv := by
      simp only [segmentsOf,covered,h.length]
    simp only [SegmentQueue.add,appendMove,hsegments,h.admits]
    cases (q.segmentsOf t mv).forM fun (i,m) => q.admits i m with
    | error err => exact Or.inl ⟨err,rfl,rfl⟩
    | ok u => exact Or.inr ⟨_,_,rfl,rfl,h.pushAll _⟩

end SegmentQueue

end Gantry
