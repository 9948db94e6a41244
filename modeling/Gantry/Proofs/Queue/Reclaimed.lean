import Mathlib
import Gantry.Queue.Samples
import Gantry.Proofs.Queue.Ledger
import Gantry.Proofs.Queue.Timeline

/-!
Reading where history was reclaimed. The queue that took the same entries and was never finalized
tells what a read has lost. From the start of the oldest segment that is left nothing is lost. In the
gap in front of it a queue answers with that start, where the other one still stands at the end of
the segment before.
-/
set_option autoImplicit false

namespace Gantry
variable {α : Type} [Scalar α]

namespace Samples

section Next
variable {s : Samples α}

theorem next_of_done (h : s.done = true) : s.next = (none,s) := by
  simp [next,h]

theorem next_of_some {pos : α} (h : s.done = false)
    (hp : s.timeline.positionAt s.nextTime.1 = some pos) :
    s.next = (some (s.nextTime.1,pos),{ s with index := s.index + 1, done := s.nextTime.2 }) := by
  simp [next,h,hp]

theorem take_of_none (h : s.next.1 = none) (k : Nat) : s.take k = [] := by
  cases k with
  | zero => rfl
  | succ k =>
    unfold take
    split
    · rename_i hs
      simp [hs] at h
    · rfl

theorem take_of_some {x : α × α} (h : s.next.1 = some x) (k : Nat) :
    s.take (k + 1) = x :: s.next.2.take k := by
  conv_lhs => unfold take
  split
  · rename_i hs
    simp only [hs,Option.some.injEq] at h
    rw [h,hs]
  · rename_i hs
    simp [hs] at h

theorem take_of_done (h : s.done = true) (k : Nat) : s.take k = [] :=
  take_of_none (by rw [next_of_done h]) k

theorem take_succ_of_some {pos : α} (h : s.done = false)
    (hp : s.timeline.positionAt s.nextTime.1 = some pos) (k : Nat) :
    s.take (k + 1) = (s.nextTime.1,pos) ::
      { s with index := s.index + 1, done := s.nextTime.2 }.take k := by
  have hnext := next_of_some h hp
  rw [take_of_some (congrArg Prod.fst hnext),hnext]

theorem take_of_empty (h : s.timeline = []) (k : Nat) : s.take k = [] := by
  have hp : s.timeline.positionAt s.nextTime.1 = none := by rw [h]; rfl
  refine take_of_none ?_ k
  cases hd : s.done <;> simp [next,hd,hp]

end Next

theorem take_forall₂ (s : Samples α) {l : Timeline α} (hl : s.timeline = [] ↔ l = []) (k : Nat) :
    List.Forall₂ (fun x y => x.1 = y.1 ∧ s.timeline.positionAt x.1 = some x.2 ∧
      l.positionAt x.1 = some y.2) (s.take k) ({ s with timeline := l }.take k) := by
  by_cases hs : s.timeline = []
  · rw [take_of_empty hs,take_of_empty (s := { s with timeline := l }) (hl.1 hs)]
    exact .nil
  · induction k generalizing s with
    | zero => exact .nil
    | succ k ih =>
      rcases Bool.eq_false_or_eq_true s.done with hd | hd
      · rw [take_of_done hd,take_of_done (s := { s with timeline := l }) hd]
        exact .nil
      · obtain ⟨x,hx⟩ := Timeline.positionAt_isSome hs s.nextTime.1
        obtain ⟨y,hy⟩ := Timeline.positionAt_isSome (fun h => hs (hl.2 h)) s.nextTime.1
        rw [take_succ_of_some hd hx,take_succ_of_some (s := { s with timeline := l }) hd hy]
        exact .cons ⟨rfl,hx,hy⟩ (ih { s with index := s.index + 1, done := s.nextTime.2 } hl hs)

end Samples

namespace SegmentQueue

/-- The queue that has taken entries and was never finalized. -/
def replay (n : Nat) (es : List (Entry α)) : Except (QueueError α) (SegmentQueue α) :=
  es.foldlM add (.ofChannels n)

theorem replay_snoc (n : Nat) (es : List (Entry α)) (e : Entry α) :
    replay n (es ++ [e]) = replay n es >>= fun q => q.add e := by
  simp [replay,List.foldlM_append]

theorem positionAt_eq {q : SegmentQueue α} {i : Nat} {c : Channel α}
    (h : q.channels[i]? = some c) (t : α) : q.positionAt i t = .ok (c.positionAt t) := by
  rw [positionAt,channel_eq_ok.2 h]
  rfl

theorem positionAt_eq_error {q : SegmentQueue α} {i : Nat} (h : q.channels[i]? = none) (t : α) :
    q.positionAt i t = .error (.unknownChannel i) := by
  rw [positionAt,channel,h]
  rfl

theorem pull_eq_ok {q : SegmentQueue α} {i : Nat} {start stop interval : α} {s : Samples α} :
    q.pull i start stop interval = .ok s ↔ ∃ c, q.channels[i]? = some c ∧
      (Scalar.isFinite interval = true ∧ 0 < interval) ∧ Scalar.isFinite start = true ∧
      Scalar.isFinite stop = true ∧ (∀ r ∈ c.reclaimed, ¬start < r) ∧
      s = ⟨c.timeline,start,stop,interval,0,stop < start⟩ := by
  unfold pull
  rw [Results.bind_eq_ok]
  simp only [channel_eq_ok]
  refine exists_congr fun c => and_congr_right fun _ => ?_
  by_cases hi : Scalar.isFinite interval = true ∧ 0 < interval
  · by_cases hs : Scalar.isFinite start = true
    · by_cases he : Scalar.isFinite stop = true
      · cases hr : c.reclaimed with
        | none => simp [hi,hs,he,pure,Except.pure,eq_comm]
        | some r =>
          by_cases hlt : start < r
          · simp [hi,hs,he,hlt,throw,throwThe,MonadExceptOf.throw,Functor.map,Except.map]
          · simp [hi,hs,he,hlt,pure,Except.pure,eq_comm]
      · simp [hi,hs,he,Results.throw_bind_ne_ok]
    · simp [hi,hs,Results.throw_bind_ne_ok]
  · simp [hi,Results.throw_bind_ne_ok]

theorem Trimmed.pull {p q : SegmentQueue α} (h : p.Trimmed q) {i : Nat} {c d : Channel α}
    (hc : q.channels[i]? = some c) (hd : p.channels[i]? = some d) (hr : d.reclaimed = none)
    {start stop interval : α} {s : Samples α} (hs : q.pull i start stop interval = .ok s) :
    ∃ s', p.pull i start stop interval = .ok s' ∧ ∀ k,
      List.Forall₂ (fun x y => x.1 = y.1 ∧ c.positionAt x.1 = some x.2 ∧
        d.positionAt x.1 = some y.2) (s.take k) (s'.take k) := by
  obtain ⟨c',hc',hint,hstart,hstop,-,rfl⟩ := pull_eq_ok.1 hs
  obtain rfl : c = c' := Option.some.inj (hc.symm.trans hc')
  refine ⟨_,pull_eq_ok.2 ⟨d,hd,hint,hstart,hstop,by simp [hr],rfl⟩,fun k => ?_⟩
  exact Samples.take_forall₂ ⟨c.timeline,start,stop,interval,0,stop < start⟩
    (h.channel i d c hd hc).timeline_eq_nil k

end SegmentQueue

namespace Ledger
open SegmentQueue

/-- Nothing is lost that was accepted: the entries are accepted again by a new queue, and what the
ledger's queue holds is left of that one. -/
theorem replay_run (n : Nat) (rs : List (Request α)) :
    ∃ p, replay n (run n rs).accepted = .ok p ∧ p.Trimmed (run n rs).queue := by
  refine run_induction (fun l => ∃ p, replay n l.accepted = .ok p ∧ p.Trimmed l.queue)
    ⟨_,rfl,.refl _⟩ (fun l e q hl hq => ?_) fun l before after _ hl => ?_
  · obtain ⟨p,hp,ht⟩ := hl
    rcases ht.add e with ⟨err,-,herr⟩ | ⟨p',q',hp',hq',ht'⟩
    · rw [hq] at herr
      cases herr
    · obtain rfl : q = q' := Except.ok.inj (hq.symm.trans hq')
      exact ⟨p',by rw [replay_snoc,hp]; exact hp',ht'⟩
  · obtain ⟨p,hp,ht⟩ := hl
    exact ⟨p,hp,ht.trans (.finalize _ before after)⟩

theorem run_of_replay {n : Nat} {es : List (Entry α)} {p : SegmentQueue α}
    (h : replay n es = .ok p) : run n (es.map .add) = { queue := p, accepted := es } := by
  induction es using List.reverseRecOn generalizing p with
  | nil => cases h; rfl
  | append_singleton es e ih =>
    rw [replay_snoc] at h
    obtain ⟨q,hq,hp⟩ := Results.bind_eq_ok.1 h
    rw [List.map_append,List.map_singleton,run_snoc,ih hq,record_add_of_ok hp]

/-- Whether the position of a channel at a time rests on what the queue still holds: the channel has
lost nothing, or a segment that is left has begun. -/
def Reaches (l : Ledger α) (i : Nat) (t : α) : Prop :=
  l.reclaimed i = [] ∨ ∃ m ∈ l.queue.kept i, m.startTime ≤ t

section Reads
variable {l : Ledger α} {i : Nat} {c d : Channel α} {t : α}

theorem timeline_of_kept (hk : l.Kept i c) (hd : d.segments = l.acceptedOn i) :
    d.timeline = c.timeline ++ ((l.reclaimed i).map Prod.fst).reverse := by
  rw [Channel.timeline,hd,hk.segments,List.reverse_append]
  rfl

theorem positionAt_of_reaches (hc : l.queue.channels[i]? = some c) (hk : l.Kept i c)
    (hd : d.segments = l.acceptedOn i) (h : l.Reaches i t) : c.positionAt t = d.positionAt t := by
  rw [Channel.positionAt,Channel.positionAt,timeline_of_kept hk hd]
  rcases h with h | ⟨m,hm,ht⟩
  · simp [h]
  · rw [kept_eq hc] at hm
    exact (Timeline.positionAt_append_of_begun ⟨m,(c.mem_timeline m).2 hm,ht⟩).symm

/-- In the gap behind the newest segment that was reclaimed the channel answers with the start of
the oldest one that is left. -/
theorem positionAt_of_gap (hk : l.Kept i c) {old : List (Segment α × α)} {g : Segment α} {after : α}
    (hg : l.reclaimed i = old ++ [(g,after)]) (ht : ∀ m ∈ c.segments, ¬m.startTime ≤ t) :
    ∃ m ∈ c.segments.head?, c.positionAt t = some m.startPos := by
  have hne : l.acceptedOn i ≠ [] := by
    rw [hk.segments,hg]
    simp
  obtain ⟨m,ms,hms⟩ := List.exists_cons_of_ne_nil (hk.ne_nil hne)
  refine ⟨m,by simp [hms],?_⟩
  have htl : ∀ m ∈ c.timeline, ¬m.startTime ≤ t := fun m hm => ht m ((c.mem_timeline m).1 hm)
  rw [Channel.positionAt,Timeline.positionAt_of_unbegun htl,Channel.timeline,
    Timeline.origin_reverse,hms]
  rfl

end Reads

theorem replay_validate {n : Nat} {es : List (Entry α)} {p : SegmentQueue α}
    (h : replay n es = .ok p) {i : Nat} {d : Channel α} (hd : p.channels[i]? = some d)
    {m : Segment α} (hm : m ∈ d.segments) : m.validate = .ok () := by
  have hp := reachable_run n (es.map .add)
  rw [run_of_replay h] at hp
  exact hp.validate hd hm

variable [LawfulScalar α]

theorem replay_channel {n : Nat} {es : List (Entry α)} {p : SegmentQueue α}
    (h : replay n es = .ok p) {i : Nat} (hi : i < n) :
    ∃ d, p.channels[i]? = some d ∧ d.segments = es.filterMap (Entry.on i) ∧ d.reclaimed = none := by
  obtain ⟨d,hd,hk⟩ := kept_run n (es.map .add) hi
  rw [run_of_replay h] at hd hk
  refine ⟨d,hd,hk.segments.symm,?_⟩
  have hb := hk.boundary
  cases hr : d.reclaimed with
  | none => rfl
  | some r =>
    rw [hr] at hb
    exact absurd hb.1 List.not_mem_nil

theorem positionAt_replayed_of_gap {l : Ledger α} {i : Nat} {c d : Channel α} {t : α}
    (hk : l.Kept i c) (hd : d.segments = l.acceptedOn i) {old : List (Segment α × α)}
    {g : Segment α} {after : α} (hg : l.reclaimed i = old ++ [(g,after)]) (hv : g.validate = .ok ())
    (hr : ∀ r ∈ c.reclaimed, r ≤ t) (ht : ∀ m ∈ c.segments, ¬m.startTime ≤ t) :
    d.positionAt t = some (g.positionAt t) := by
  have htl : ∀ m ∈ c.timeline, ¬m.startTime ≤ t := fun m hm => ht m ((c.mem_timeline m).1 hm)
  have hgt : g.startTime ≤ t := by
    -- The boundary is no earlier than the end of any reclaimed segment.
    have hb := hk.boundary
    have hmem : g.endTime ∈ (l.reclaimed i).map fun p => p.1.endTime := by simp [hg]
    cases hc : c.reclaimed with
    | none =>
      rw [hc] at hb
      rw [show _ = [] from hb] at hmem
      cases hmem
    | some r =>
      rw [hc] at hb
      exact LawfulScalar.le_trans (Segment.startTime_le_endTime_of_validate hv)
        (LawfulScalar.le_trans (hb.2 _ hmem) (hr r hc))
  rw [Channel.positionAt,timeline_of_kept hk hd,hg,
    Timeline.positionAt_append_of_unbegun htl (by simp)]
  simpa using Timeline.positionAt_cons_of_le hgt

def Permits (l : Ledger α) (i : Nat) (t : α) : Prop :=
  ∀ c ∈ l.queue.channels[i]?, ∀ r ∈ c.reclaimed, r ≤ t

/-- What reads of a channel give, against a queue that has reclaimed nothing. -/
structure Reads (l : Ledger α) (p : SegmentQueue α) (i : Nat) : Prop where
  alike : ∀ t, l.Reaches i t → l.queue.positionAt i t = p.positionAt i t
  gap : ∀ t, l.Permits i t → ¬l.Reaches i t →
    ∃ m ∈ (l.queue.kept i).head?, ∃ g ∈ (l.reclaimed i).getLast?,
      l.queue.positionAt i t = .ok (some m.startPos) ∧
      p.positionAt i t = .ok (some (g.1.positionAt t))
  samples : ∀ start stop interval s, l.queue.pull i start stop interval = .ok s →
    ∃ s', p.pull i start stop interval = .ok s' ∧ ∀ k,
      List.Forall₂ (fun x y => x.1 = y.1 ∧ l.queue.positionAt i x.1 = .ok (some x.2) ∧
        p.positionAt i x.1 = .ok (some y.2) ∧ (l.Reaches i x.1 → x.2 = y.2)) (s.take k) (s'.take k)

theorem Reads.of_channel {l : Ledger α} {p : SegmentQueue α} {i : Nat} {c d : Channel α}
    (ht : p.Trimmed l.queue) (hc : l.queue.channels[i]? = some c) (hk : l.Kept i c)
    (hd : p.channels[i]? = some d) (hds : d.segments = l.acceptedOn i) (hdr : d.reclaimed = none)
    (hv : ∀ m ∈ d.segments, m.validate = .ok ()) : l.Reads p i := by
  have hreads : ∀ t, l.Reaches i t → c.positionAt t = d.positionAt t :=
    fun t => positionAt_of_reaches hc hk hds
  constructor
  · intro t h
    rw [positionAt_eq hc,positionAt_eq hd,hreads t h]
  · intro t hr h
    obtain ⟨hne,hgap⟩ := not_or.1 h
    obtain ⟨old,g,hg⟩ := (List.eq_nil_or_concat' _).resolve_left hne
    have hunbegun : ∀ m ∈ c.segments, ¬m.startTime ≤ t := fun m hm hmt =>
      hgap ⟨m,by rwa [kept_eq hc],hmt⟩
    have hgd : g.1 ∈ d.segments := by
      rw [hds,hk.segments,hg]
      simp
    obtain ⟨m,hm,hpos⟩ := positionAt_of_gap hk hg hunbegun
    have hgpos := positionAt_replayed_of_gap hk hds hg (hv _ hgd) (hr c hc) hunbegun
    refine ⟨m,by rwa [kept_eq hc],g,by simp [hg],?_,?_⟩
    · rw [positionAt_eq hc,hpos]
    · rw [positionAt_eq hd,hgpos]
  · intro start stop interval s hs
    obtain ⟨s',hs',hall⟩ := ht.pull hc hd hdr hs
    refine ⟨s',hs',fun k => (hall k).imp ?_⟩
    rintro x y ⟨htime,hx,hy⟩
    refine ⟨htime,by rw [positionAt_eq hc,hx],by rw [positionAt_eq hd,hy],fun h => ?_⟩
    exact Option.some.inj (by rw [← hx,← hy]; exact hreads x.1 h)

omit [LawfulScalar α] in
theorem Reads.of_missing {l : Ledger α} {p : SegmentQueue α} {i : Nat} (ht : p.Trimmed l.queue)
    (hc : l.queue.channels[i]? = none) (hl : l.reclaimed i = []) : l.Reads p i := by
  constructor
  · intro t _
    rw [positionAt_eq_error hc,positionAt_eq_error (ht.channel_eq_none.1 hc)]
  · intro t _ h
    exact absurd (Or.inl hl) h
  · intro start stop interval s hs
    obtain ⟨c,hc',-⟩ := pull_eq_ok.1 hs
    rw [hc] at hc'
    cases hc'

/-- Reads that are permitted rest on what the queue still holds, except in the gap in front of its
oldest segment. There it answers with the start of that segment; without reclaiming, the newest of
the reclaimed ones would still decide. -/
theorem reclaimed_unread (n : Nat) (rs : List (Request α)) :
    ∃ p, replay n (run n rs).accepted = .ok p ∧ ∀ i, (run n rs).Reads p i := by
  obtain ⟨p,hp,ht⟩ := replay_run n rs
  refine ⟨p,hp,fun i => ?_⟩
  rcases Nat.lt_or_ge i n with hi | hi
  · obtain ⟨c,hc,hk⟩ := kept_run n rs hi
    obtain ⟨d,hd,hds,hdr⟩ := replay_channel hp hi
    exact .of_channel ht hc hk hd hds hdr fun m hm => replay_validate hp hd hm
  · have hnone : (run n rs).queue.channels[i]? = none :=
      List.getElem?_eq_none ((channels_run n rs).1.trans_le hi)
    exact .of_missing ht hnone ((channels_run n rs).2 i hi)

theorem reclaimed_unread_of_gapped : (run 1 gapped).Permits 0 1.5 ∧ ¬(run 1 gapped).Reaches 0 1.5 ∧
    (run 1 gapped).Reaches 0 2 ∧
    ∃ p, replay 1 (run 1 gapped).accepted = .ok p ∧ ∀ i, (run 1 gapped).Reads p i := by
  refine ⟨?_,?_,?_,reclaimed_unread 1 gapped⟩
  · unfold Permits
    decide +kernel
  · unfold Reaches
    decide +kernel
  · unfold Reaches
    decide +kernel

/-- Half a second behind the reclaimed segment, which ended at 5, the queue already answers with the
start of the next one, and samples it too. -/
theorem gap_misread : (run 1 gapped).Permits 0 1.5 ∧
    (run 1 gapped).queue.positionAt 0 1.5 = .ok (some 100) ∧
    ((replay 1 (run 1 gapped).accepted).toOption.bind fun p => (p.positionAt 0 1.5).toOption) =
      some (some 5) ∧
    ((run 1 gapped).queue.pull 0 1.5 1.75 0.25).toOption.map Samples.toList =
      some [(1.5,100),(1.75,100)] ∧
    ((replay 1 (run 1 gapped).accepted).toOption.bind fun p =>
      (p.pull 0 1.5 1.75 0.25).toOption.map Samples.toList) = some [(1.5,5),(1.75,5)] := by
  refine ⟨?_,rfl,?_,?_,?_⟩
  · unfold Permits
    decide +kernel
  · decide +kernel
  · decide +kernel
  · decide +kernel

end Ledger

end Gantry
