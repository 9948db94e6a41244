import Mathlib
import Gantry.Proofs.Motion.Segment
import Gantry.Proofs.Numeric.Double
import Gantry.Proofs.Queue.Trimmed

/-!
The ledger of a queue: everything it has accepted, every time up to which it was finalized, and the
segments that its channels have reclaimed. What the queue still holds is read against it: no more
is missing than the oldest segments, and the boundaries are the greatest times of their kind.
-/
set_option autoImplicit false

namespace Gantry
variable {α : Type}

def Greatest [Scalar α] (ts : List α) : Option α → Prop
  | none => ts = []
  | some g => g ∈ ts ∧ ∀ t ∈ ts, t ≤ g

namespace Greatest
variable [Scalar α] [LawfulScalar α] {ts : List α} {r : Option α} {g t : α}

omit [LawfulScalar α] in
theorem ordered (h : Greatest ts (some g)) : g ≤ g := h.2 g h.1

theorem snoc_new (h : Greatest ts r) (ht : t ≤ t) (hr : ∀ g ∈ r, g ≤ t) :
    Greatest (ts ++ [t]) (some t) := by
  refine ⟨by simp,fun x hx => ?_⟩
  rcases List.mem_append.1 hx with hx | hx
  · cases r with
    | none =>
      rw [show ts = [] from h] at hx
      cases hx
    | some g => exact LawfulScalar.le_trans (h.2 x hx) (hr g rfl)
  · rw [List.mem_singleton.1 hx]
    exact ht

omit [LawfulScalar α] in
theorem snoc_old (h : Greatest ts (some g)) (ht : t ≤ g) : Greatest (ts ++ [t]) (some g) := by
  refine ⟨List.mem_append_left _ h.1,fun x hx => ?_⟩
  rcases List.mem_append.1 hx with hx | hx
  · exact h.2 x hx
  · rw [List.mem_singleton.1 hx]
    exact ht

theorem later (h : Greatest ts r) (ht : t ≤ t) :
    Greatest (ts ++ [t]) (some (Channel.later r t)) := by
  cases r with
  | none => exact h.snoc_new ht fun _ hg => by cases hg
  | some g =>
    have hg := LawfulScalar.isNaN_eq_false.2 h.ordered
    by_cases hlt : g < t
    · simp only [Channel.later,Scalar.larger,hlt,true_or,if_true]
      exact h.snoc_new ht fun x hx => by
        rw [← Option.some.inj hx]
        exact LawfulScalar.le_of_lt hlt
    · simp only [Channel.later,Scalar.larger,hlt,hg,Bool.false_eq_true,or_self,if_false]
      exact h.snoc_old (LawfulScalar.le_of_not_lt h.ordered ht hlt)

theorem advance (h : Greatest ts r) (ht : t ≤ t) :
    Greatest (ts ++ [t]) (SegmentQueue.advance r t) := by
  cases r with
  | none =>
    simp only [SegmentQueue.advance,LawfulScalar.isNaN_eq_false.2 ht,Bool.false_eq_true,if_false]
    exact h.snoc_new ht fun _ hg => by cases hg
  | some g =>
    by_cases hlt : g < t
    · simp only [SegmentQueue.advance,hlt,if_true]
      exact h.snoc_new ht fun x hx => by
        rw [← Option.some.inj hx]
        exact LawfulScalar.le_of_lt hlt
    · simp only [SegmentQueue.advance,hlt,if_false]
      exact h.snoc_old (LawfulScalar.le_of_not_lt h.ordered ht hlt)

end Greatest

namespace Channel
variable [Scalar α] [LawfulScalar α]

/-- What is dropped lies in front, ends before the time, and moves the boundary to its latest end. -/
theorem drop_spec (after : α) (ms : List (Segment α)) {r : Option α} {ts : List α}
    (h : Greatest ts r) : ∃ gone, ms = gone ++ (drop after ms r).1 ∧
      (∀ m ∈ gone, m.endTime < after) ∧
      Greatest (ts ++ gone.map Segment.endTime) (drop after ms r).2 := by
  induction ms generalizing r ts with
  | nil => exact ⟨[],rfl,by simp,by simpa [drop] using h⟩
  | cons m ms ih =>
    cases ms with
    | nil => exact ⟨[],rfl,by simp,by simpa [drop] using h⟩ -- the newest segment always stays
    | cons n ms =>
      unfold drop
      split
      · rename_i hm
        have ht := LawfulScalar.le_left (LawfulScalar.le_of_lt hm)
        obtain ⟨gone,hms,hgone,hr⟩ := ih (h.later ht)
        refine ⟨m :: gone,by rw [List.cons_append,← hms],List.forall_mem_cons.2 ⟨hm,hgone⟩,?_⟩
        simpa using hr
      · exact ⟨[],rfl,by simp,by simpa using h⟩

theorem endTime_le_of_ended {f : Option α} {m : Segment α} (h : ended f m = true)
    (hm : m.endTime ≤ m.endTime) (hf : ∀ b ∈ f, b ≤ b) :
    ∃ b ∈ f, m.endTime ≤ b + timeEpsilon := by
  cases f with
  | none => cases h
  | some b =>
    have hb := LawfulScalar.add_slack (hf b rfl)
    have hlt : ¬b + timeEpsilon < m.endTime := by simpa [ended] using h
    exact ⟨b,rfl,LawfulScalar.le_of_not_lt hb hm hlt⟩

end Channel

namespace SegmentQueue

def Entry.on [Scalar α] (i : Nat) : Entry α → Option (Segment α)
  | .segment j m => if j = i then some m else none
  | .move t mv => mv.axisSegment t i

def kept (q : SegmentQueue α) (i : Nat) : List (Segment α) := ((q.channels[i]?).getD {}).segments

/-- The oldest segments of a channel, as many as a later queue has fewer. -/
def lost (q q' : SegmentQueue α) (i : Nat) : List (Segment α) :=
  (q.kept i).take ((q.kept i).length - (q'.kept i).length)

theorem kept_eq {q : SegmentQueue α} {i : Nat} {c : Channel α} (h : q.channels[i]? = some c) :
    q.kept i = c.segments := by
  simp [kept,h]

theorem kept_of_none {q : SegmentQueue α} {i : Nat} (h : q.channels[i]? = none) : q.kept i = [] := by
  simp [kept,h,Channel.segments]

theorem lost_eq {q q' : SegmentQueue α} {i : Nat} {gone : List (Segment α)}
    (h : q.kept i = gone ++ q'.kept i) : q.lost q' i = gone := by
  simp [lost,h]

theorem finalized_foldl_push (q : SegmentQueue α) (ms : List (Nat × Segment α)) :
    (ms.foldl (fun q (i,m) => q.push i m) q).finalized = q.finalized := by
  induction ms generalizing q with
  | nil => rfl
  | cons p ms ih => rw [List.foldl_cons,ih]; rfl

section Add
variable [Scalar α] {q q' : SegmentQueue α} {e : Entry α}

theorem finalized_add (h : q.add e = .ok q') : q'.finalized = q.finalized := by
  cases e with
  | segment i m => rw [(append_eq_ok.1 h).2]; rfl
  | move t mv => rw [(appendMove_eq_ok.1 h).2]; exact finalized_foldl_push q _

theorem length_add (h : q.add e = .ok q') : q'.channels.length = q.channels.length := by
  cases e with
  | segment i m => rw [(append_eq_ok.1 h).2]; exact length_push q i m
  | move t mv => exact length_appendMove h

theorem getElem?_add (h : q.add e = .ok q') (i : Nat) :
    q'.channels[i]? = q.channels[i]?.map fun c => (e.on i).elim c c.push := by
  cases e with
  | segment j m =>
    rw [(append_eq_ok.1 h).2,getElem?_push]
    by_cases hij : j = i <;> simp [Entry.on,hij]
  | move t mv =>
    rw [getElem?_appendMove h]
    simp only [Entry.on]
    cases mv.axisSegment t i <;> simp

theorem mem_history_of_add (h : q.add e = .ok q') {i : Nat} {c : Channel α}
    (hc : q'.channels[i]? = some c) {m : Segment α} (hm : m ∈ c.history) :
    ∃ d, q.channels[i]? = some d ∧ m ∈ d.history := by
  rw [getElem?_add h,Option.map_eq_some_iff] at hc
  obtain ⟨d,hd,rfl⟩ := hc
  refine ⟨d,hd,?_⟩
  cases he : e.on i <;> simpa [he,Channel.push] using hm

theorem Reachable.add (hq : q.Reachable) (h : q.add e = .ok q') : q'.Reachable := by
  cases e with
  | segment i m => exact hq.append i m h
  | move t mv => exact hq.appendMove t mv h

end Add

section Settled
variable [Scalar α] [LawfulScalar α] {q : SegmentQueue α}

theorem exists_advance {r : Option α} {f : α} (hf : f ∈ r) (hff : f ≤ f) (before : α) :
    ∃ g ∈ advance r before, f ≤ g := by
  cases hf
  by_cases hlt : f < before
  · exact ⟨before,by simp [advance,hlt],LawfulScalar.le_of_lt hlt⟩
  · exact ⟨f,by simp [advance,hlt],hff⟩

theorem mem_advance {r : Option α} {before g : α} (hg : g ∈ advance r before) :
    g ∈ r ∨ g = before ∧ before ≤ before := by
  cases r with
  | none =>
    by_cases hb : before ≤ before
    · have hbg : before = g := by
        simpa [advance,LawfulScalar.isNaN_eq_false.2 hb] using hg
      exact Or.inr ⟨hbg.symm,hb⟩
    · simp [advance,Scalar.isNaN,hb] at hg
  | some f =>
    by_cases hlt : f < before
    · have hbg : before = g := by simpa [advance,hlt] using hg
      exact Or.inr ⟨hbg.symm,LawfulScalar.le_right (LawfulScalar.le_of_lt hlt)⟩
    · have hfg : f = g := by simpa [advance,hlt] using hg
      exact Or.inl (congrArg some hfg)

theorem ordered_of_mem_advance {r : Option α} {before g : α} (hr : ∀ f ∈ r, f ≤ f)
    (hg : g ∈ advance r before) : g ≤ g := by
  rcases mem_advance hg with h | ⟨rfl,h⟩
  · exact hr g h
  · exact h

theorem ended_retire {c : Channel α} {r : Option α} {before : α}
    (h : ∀ m ∈ c.history, ∃ f ∈ r, m.endTime ≤ f + timeEpsilon) (hr : ∀ f ∈ r, f ≤ f)
    {m : Segment α} (hv : m.validate = .ok ()) (hm : m ∈ (c.retire (advance r before)).history) :
    ∃ g ∈ advance r before, m.endTime ≤ g + timeEpsilon := by
  rcases List.mem_append.1 hm with hm | hm
  · obtain ⟨f,hf,hmf⟩ := h m hm
    obtain ⟨g,hg,hfg⟩ := exists_advance hf (hr f hf) before
    exact ⟨g,hg,LawfulScalar.le_trans hmf (LawfulScalar.add_slack hfg)⟩
  · have hend := LawfulScalar.le_right (Segment.startTime_le_endTime_of_validate hv)
    exact Channel.endTime_le_of_ended (List.mem_takeWhile_imp hm) hend fun b hb =>
      ordered_of_mem_advance hr hb

theorem Reachable.finalized_ordered (h : q.Reachable) : ∀ f ∈ q.finalized, f ≤ f := by
  induction h with
  | ofChannels n => exact fun f hf => by cases hf
  | @append q q' i m _ ha ih =>
    have hf : q'.finalized = q.finalized := finalized_add (e := .segment i m) ha
    rw [hf]
    exact ih
  | @appendMove q q' t mv _ ha ih =>
    have hf : q'.finalized = q.finalized := finalized_add (e := .move t mv) ha
    rw [hf]
    exact ih
  | finalize before after _ ih => exact fun f hf => ordered_of_mem_advance ih hf

theorem Reachable.ended (h : q.Reachable) {i : Nat} {c : Channel α} (hc : q.channels[i]? = some c)
    {m : Segment α} (hm : m ∈ c.history) : ∃ f ∈ q.finalized, m.endTime ≤ f + timeEpsilon := by
  induction h generalizing i c m with
  | ofChannels n =>
    have he : c = {} := List.eq_of_mem_replicate (List.mem_of_getElem? hc)
    simp [he] at hm
  | @append q q' j k _ ha ih =>
    have hf : q'.finalized = q.finalized := finalized_add (e := .segment j k) ha
    obtain ⟨d,hd,hm⟩ := mem_history_of_add (e := .segment j k) ha hc hm
    rw [hf]
    exact ih hd hm
  | @appendMove q q' t mv _ ha ih =>
    have hf : q'.finalized = q.finalized := finalized_add (e := .move t mv) ha
    obtain ⟨d,hd,hm⟩ := mem_history_of_add (e := .move t mv) ha hc hm
    rw [hf]
    exact ih hd hm
  | @finalize q before after hq ih =>
    have hvalid := (hq.finalize before after).validate hc (List.mem_append_left _ hm)
    rw [getElem?_finalize,Option.map_eq_some_iff] at hc
    obtain ⟨d,hd,rfl⟩ := hc
    exact ended_retire (fun m hm => ih hd hm) hq.finalized_ordered hvalid
      ((Channel.drop_suffix after _ _).subset hm)

end Settled

inductive Request (α : Type) where
  | add (e : Entry α)
  | finalize (before after : α)

def Request.Ordered [Scalar α] : Request α → Prop
  | .add _ => True
  | .finalize before _ => before ≤ before

end SegmentQueue

/-- A queue with what it has accepted, the times up to which it was asked to finalize, and the
segments that each channel has reclaimed with the times they had to end before. -/
structure Ledger (α : Type) where
  queue : SegmentQueue α
  accepted : List (SegmentQueue.Entry α) := []
  befores : List α := []
  reclaimed : Nat → List (Segment α × α) := fun _ => []

namespace Ledger
open SegmentQueue
variable [Scalar α]

def record (l : Ledger α) : Request α → Ledger α
  | .add e =>
    match l.queue.add e with
    | .ok q => { l with queue := q, accepted := l.accepted ++ [e] }
    | .error _ => l
  | .finalize before after =>
    let q := l.queue.finalize before after
    { l with
      queue := q
      befores := l.befores ++ [before]
      reclaimed := fun i => l.reclaimed i ++ (l.queue.lost q i).map (·,after) }

def run (n : Nat) (rs : List (Request α)) : Ledger α :=
  rs.foldl record { queue := .ofChannels n }

def acceptedOn (l : Ledger α) (i : Nat) : List (Segment α) := l.accepted.filterMap (Entry.on i)

theorem run_snoc (n : Nat) (rs : List (Request α)) (r : Request α) :
    run n (rs ++ [r]) = (run n rs).record r := by
  simp [run]

theorem record_add_of_ok {l : Ledger α} {e : Entry α} {q : SegmentQueue α}
    (h : l.queue.add e = .ok q) :
    l.record (.add e) = { l with queue := q, accepted := l.accepted ++ [e] } := by
  simp only [record,h]

theorem record_add_of_error {l : Ledger α} {e : Entry α} {err : QueueError α}
    (h : l.queue.add e = .error err) : l.record (.add e) = l := by
  simp only [record,h]

theorem acceptedOn_snoc (l : Ledger α) (q : SegmentQueue α) (e : Entry α) (i : Nat) :
    acceptedOn { l with queue := q, accepted := l.accepted ++ [e] } i =
      l.acceptedOn i ++ (e.on i).toList := by
  simp only [acceptedOn,List.filterMap_append]
  cases he : e.on i <;> simp [he]

/-- What holds of a new queue, and is kept by accepted entries and by finalizing, holds after any
requests. -/
theorem run_induction (P : Ledger α → Prop) {n : Nat} {rs : List (Request α)}
    (init : P { queue := .ofChannels n })
    (add : ∀ (l : Ledger α) (e : Entry α) (q : SegmentQueue α), P l → l.queue.add e = .ok q →
      P { l with queue := q, accepted := l.accepted ++ [e] })
    (finalize : ∀ (l : Ledger α) (before after : α), .finalize before after ∈ rs → P l →
      P (l.record (.finalize before after))) : P (run n rs) := by
  induction rs using List.reverseRecOn with
  | nil => exact init
  | append_singleton rs r ih =>
    have ih := ih fun l before after hmem => finalize l before after (List.mem_append_left _ hmem)
    rw [run_snoc]
    cases r with
    | add e =>
      cases h : (run n rs).queue.add e with
      | ok q =>
        rw [record_add_of_ok h]
        exact add _ e q ih h
      | error err =>
        rw [record_add_of_error h]
        exact ih
    | finalize before after => exact finalize _ before after (by simp) ih

theorem reachable_run (n : Nat) (rs : List (Request α)) : (run n rs).queue.Reachable :=
  run_induction (fun l => l.queue.Reachable) (.ofChannels n) (fun _ _ _ hl h => hl.add h)
    fun _ before after _ hl => hl.finalize before after

theorem channels_run (n : Nat) (rs : List (Request α)) :
    (run n rs).queue.channels.length = n ∧ ∀ i, n ≤ i → (run n rs).reclaimed i = [] := by
  refine run_induction
    (fun l => l.queue.channels.length = n ∧ ∀ i, n ≤ i → l.reclaimed i = [])
    ⟨by simp [ofChannels],fun _ _ => rfl⟩ (fun l e q hl h => ?_) fun l before after _ hl => ?_
  · exact ⟨(length_add h).trans hl.1,hl.2⟩
  · refine ⟨by simpa [record,SegmentQueue.finalize] using hl.1,fun i hi => ?_⟩
    have hnone : l.queue.channels[i]? = none := List.getElem?_eq_none (hl.1.trans_le hi)
    simp [record,hl.2 i hi,lost,kept_of_none hnone]

/-- What a channel holds against its record. -/
structure Kept (l : Ledger α) (i : Nat) (c : Channel α) : Prop where
  segments : l.acceptedOn i = (l.reclaimed i).map Prod.fst ++ c.segments
  ne_nil : l.acceptedOn i ≠ [] → c.segments ≠ []
  dropped : ∀ p ∈ l.reclaimed i, p.1.endTime < p.2
  boundary : Greatest ((l.reclaimed i).map fun p => p.1.endTime) c.reclaimed

section Step
variable {l : Ledger α} {i : Nat} {c : Channel α}

theorem Kept.add {e : Entry α} (h : l.Kept i c) (q : SegmentQueue α) :
    Kept { l with queue := q, accepted := l.accepted ++ [e] } i ((e.on i).elim c c.push) := by
  have hseg : ((e.on i).elim c c.push).segments = c.segments ++ (e.on i).toList := by
    cases e.on i <;> simp [Channel.segments_push]
  have hb : ((e.on i).elim c c.push).reclaimed = c.reclaimed := by
    cases e.on i <;> rfl
  constructor
  · rw [acceptedOn_snoc,hseg,h.segments,List.append_assoc]
  · rw [acceptedOn_snoc,hseg]
    intro hne hnil
    obtain ⟨hc,he⟩ := List.append_eq_nil_iff.1 hnil
    rw [he,List.append_nil] at hne
    exact h.ne_nil hne hc
  · exact h.dropped
  · rw [hb]
    exact h.boundary

variable [LawfulScalar α]

theorem Kept.finalize (h : l.Kept i c) (hc : l.queue.channels[i]? = some c) (before after : α) :
    (l.record (.finalize before after)).Kept i
      ((c.retire (advance l.queue.finalized before)).reclaim after) := by
  obtain ⟨gone,hgone,hend,hlatest⟩ := Channel.drop_spec after
    (c.retire (advance l.queue.finalized before)).history h.boundary
  have hc' : (l.queue.finalize before after).channels[i]? =
      some ((c.retire (advance l.queue.finalized before)).reclaim after) := by
    rw [getElem?_finalize,hc]
    rfl
  have hseg : c.segments =
      gone ++ ((c.retire (advance l.queue.finalized before)).reclaim after).segments := by
    rw [← Channel.segments_retire c (advance l.queue.finalized before),Channel.segments,hgone,
      List.append_assoc]
    rfl
  -- The segments that the ledger notes, told by their number, are the ones that were dropped.
  have hlost : l.queue.lost (l.queue.finalize before after) i = gone :=
    lost_eq (by rw [kept_eq hc,kept_eq hc',hseg])
  have hrec : (l.record (.finalize before after)).reclaimed i =
      l.reclaimed i ++ gone.map (·,after) := by
    simp only [record,hlost]
  constructor
  · have hsame : (l.record (.finalize before after)).acceptedOn i = l.acceptedOn i := rfl
    rw [hsame,h.segments,hrec,hseg]
    simp [Function.comp_def]
  · intro hne hnil
    exact h.ne_nil hne ((Trimmed.finalize l.queue before after).channel i c _ hc hc' |>.eq_nil hnil)
  · rw [hrec]
    intro p hp
    rcases List.mem_append.1 hp with hp | hp
    · exact h.dropped p hp
    · obtain ⟨m,hm,rfl⟩ := List.mem_map.1 hp
      exact hend m hm
  · rw [hrec,List.map_append,List.map_map]
    exact hlatest

end Step

variable [LawfulScalar α]

theorem kept_run (n : Nat) (rs : List (Request α)) {i : Nat} (hi : i < n) :
    ∃ c, (run n rs).queue.channels[i]? = some c ∧ (run n rs).Kept i c := by
  refine run_induction (fun l => ∃ c, l.queue.channels[i]? = some c ∧ l.Kept i c)
    ⟨{},by simp [ofChannels,hi],?_⟩ (fun l e q hl h => ?_) fun l before after _ hl => ?_
  · exact ⟨rfl,fun hne => absurd rfl hne,fun _ hp => absurd hp List.not_mem_nil,rfl⟩
  · obtain ⟨c,hc,hk⟩ := hl
    exact ⟨_,by rw [getElem?_add h,hc]; rfl,hk.add q⟩
  · obtain ⟨c,hc,hk⟩ := hl
    exact ⟨_,by rw [record,getElem?_finalize,hc]; rfl,hk.finalize hc before after⟩

theorem greatest_finalized {n : Nat} {rs : List (Request α)} (h : ∀ r ∈ rs, r.Ordered) :
    Greatest (run n rs).befores (run n rs).queue.finalized := by
  refine run_induction (fun l => Greatest l.befores l.queue.finalized) rfl
    (fun l e q hl hq => ?_) fun l before after hmem hl => ?_
  · rw [finalized_add hq]
    exact hl
  · have hr : (Request.finalize before after).Ordered := h _ hmem
    exact hl.advance hr

/-- What a queue holds after any requests is what it accepted, less the oldest segments. Those ended
before the time they had to, and the newest segment is never among them. -/
theorem history_kept {n : Nat} {rs : List (Request α)} (h : ∀ r ∈ rs, r.Ordered) {i : Nat}
    (hi : i < n) : Greatest (run n rs).befores (run n rs).queue.finalized ∧
      ∃ c, (run n rs).queue.channels[i]? = some c ∧ (run n rs).Kept i c ∧
        ∀ m ∈ c.history, ∃ f ∈ (run n rs).queue.finalized, m.endTime ≤ f + timeEpsilon := by
  obtain ⟨c,hc,hk⟩ := kept_run n rs hi
  exact ⟨greatest_finalized h,c,hc,hk,fun m hm => (reachable_run n rs).ended hc hm⟩

def gapped : List (Request Float) :=
  [.add (.segment 0 ⟨0,0,0,1,0,5,5,0⟩),.add (.segment 0 ⟨2,100,0,1,0,10,10,0⟩),.finalize 10 1.5]

theorem history_kept_of_gapped : (run 1 gapped).reclaimed 0 ≠ [] ∧
    Greatest (run 1 gapped).befores (run 1 gapped).queue.finalized ∧
      ∃ c, (run 1 gapped).queue.channels[0]? = some c ∧ (run 1 gapped).Kept 0 c ∧
        ∀ m ∈ c.history, ∃ f ∈ (run 1 gapped).queue.finalized, m.endTime ≤ f + timeEpsilon := by
  refine ⟨?_,history_kept (fun r hr => ?_) Nat.one_pos⟩
  · decide +kernel
  · simp only [gapped,List.mem_cons,List.not_mem_nil,or_false] at hr
    rcases hr with rfl | rfl | rfl
    · trivial
    · trivial
    · exact LawfulScalar.finite (by decide +kernel)

end Ledger

end Gantry
