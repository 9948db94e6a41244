import Mathlib
import Gantry.Proofs.Results
import Gantry.Queue.SegmentQueue

set_option autoImplicit false

namespace Gantry

namespace Channel
variable {α : Type}

@[simp] theorem timeline_push (c : Channel α) (m : Segment α) :
    (c.push m).timeline = m :: c.timeline := by
  simp [timeline,segments,push]

@[simp] theorem tail?_push (c : Channel α) (m : Segment α) : (c.push m).tail? = some m := by
  simp [tail?,segments,push]

theorem tail?_eq_head? (c : Channel α) : c.tail? = c.timeline.head? := by
  simp [tail?,timeline,List.head?_reverse]

@[simp] theorem mem_timeline (c : Channel α) (m : Segment α) :
    m ∈ c.timeline ↔ m ∈ c.segments := by
  simp [timeline]

theorem admits_congr [Scalar α] {c d : Channel α} (h : d.tail? = none ∨ d.tail? = c.tail?)
    {m : Segment α} (hc : c.admits m = .ok ()) : d.admits m = .ok () := by
  rcases h with h | h
  · simp [admits,h]
  · rw [← hc]; simp only [admits,h]

end Channel

namespace ToolheadMove
variable {α : Type} [Scalar α]

theorem axisSegment_isSome (mv : ToolheadMove α) {t : α} {i : Nat}
    (hs : i < mv.startPos.length) (hr : i < mv.axesR.length) :
    ∃ m, mv.axisSegment t i = some m := by
  simp [axisSegment,List.getElem?_eq_getElem hs,List.getElem?_eq_getElem hr]

theorem axisSegment_spec {mv : ToolheadMove α} {t : α} {i : Nat} {m : Segment α}
    (h : mv.axisSegment t i = some m) :
    m.startTime = t ∧ m.endTime = t + mv.duration ∧ mv.startPos[i]? = some m.startPos := by
  unfold axisSegment at h
  split at h
  · rename_i s r hs hr
    cases h
    exact ⟨rfl,rfl,hs⟩
  · cases h

theorem lt_of_axisSegment {t : α} {mv : ToolheadMove α} {i : Nat} {m : Segment α}
    (h : mv.axisSegment t i = some m) : i < mv.startPos.length ∧ i < mv.axesR.length := by
  unfold axisSegment at h
  split at h
  · rename_i s r hs hr
    exact ⟨(List.getElem?_eq_some_iff.1 hs).1,(List.getElem?_eq_some_iff.1 hr).1⟩
  · cases h

end ToolheadMove

namespace SegmentQueue
variable {α : Type}

@[simp] theorem length_push (q : SegmentQueue α) (i : Nat) (m : Segment α) :
    (q.push i m).channels.length = q.channels.length := by
  simp [push]

theorem getElem?_push (q : SegmentQueue α) (i j : Nat) (m : Segment α) :
    (q.push i m).channels[j]? =
      if i = j then q.channels[j]?.map (·.push m) else q.channels[j]? := by
  simp [push,List.getElem?_modify]
  split <;> simp

theorem channel_eq_ok {q : SegmentQueue α} {i : Nat} {c : Channel α} :
    q.channel i = .ok c ↔ q.channels[i]? = some c := by
  unfold channel
  split <;> simp_all

/-- The channels after their numbers below `n` have taken the segments that are given. -/
theorem getElem?_foldl_push (q : SegmentQueue α) (g : Nat → Option (Segment α)) (n j : Nat) :
    (((List.range n).filterMap fun i => (g i).map (i,·)).foldl
      (fun q (i,m) => q.push i m) q).channels[j]? =
      match g j with
      | some m => if j < n then q.channels[j]?.map (·.push m) else q.channels[j]?
      | none => q.channels[j]? := by
  induction n with
  | zero => cases g j <;> simp
  | succ n ih =>
    rw [List.range_succ,List.filterMap_append,List.foldl_append]
    cases hn : g n with
    | none =>
      simp only [List.filterMap_cons,hn,Option.map_none,List.filterMap_nil,List.foldl_nil,ih]
      cases hj : g j with
      | none => rfl
      | some m =>
        have hne : j ≠ n := by rintro rfl; simp [hn] at hj
        simp only [show j < n + 1 ↔ j < n by omega]
    | some k =>
      simp only [List.filterMap_cons,hn,Option.map_some,List.filterMap_nil,List.foldl_cons,
        List.foldl_nil,getElem?_push,ih]
      by_cases hj : n = j
      · subst hj
        simp [hn]
      · simp only [hj,if_false,show j < n + 1 ↔ j < n by omega]

theorem length_foldl_push (q : SegmentQueue α) (ms : List (Nat × Segment α)) :
    (ms.foldl (fun q (i,m) => q.push i m) q).channels.length = q.channels.length := by
  induction ms generalizing q with
  | nil => rfl
  | cons p ms ih => rw [List.foldl_cons,ih]; exact length_push q p.1 p.2

variable [Scalar α]

theorem admits_eq_ok {q : SegmentQueue α} {i : Nat} {m : Segment α} :
    q.admits i m = .ok () ↔
      m.validate = .ok () ∧ ∃ c, q.channels[i]? = some c ∧ c.admits m = .ok () := by
  unfold admits
  rw [Results.check_eq_ok,Results.bind_eq_ok]
  simp only [channel_eq_ok]

theorem append_eq_ok {q q' : SegmentQueue α} {i : Nat} {m : Segment α} :
    q.append i m = .ok q' ↔ q.admits i m = .ok () ∧ q' = q.push i m := by
  unfold append
  rw [Results.check_eq_ok,Results.pure_eq_ok,eq_comm (a := q.push i m)]

theorem appendMove_eq_ok {q q' : SegmentQueue α} {t : α} {mv : ToolheadMove α} :
    q.appendMove t mv = .ok q' ↔ (∀ p ∈ q.segmentsOf t mv, q.admits p.1 p.2 = .ok ()) ∧
      q' = (q.segmentsOf t mv).foldl (fun q (i,m) => q.push i m) q := by
  unfold appendMove
  rw [Results.check_eq_ok,Results.forM_eq_ok,Results.pure_eq_ok,eq_comm (b := q')]

theorem mem_segmentsOf {q : SegmentQueue α} {t : α} {mv : ToolheadMove α} {i : Nat}
    {m : Segment α} : (i,m) ∈ q.segmentsOf t mv ↔
      i < q.channels.length ∧ mv.axisSegment t i = some m := by
  simp only [segmentsOf,List.mem_filterMap,List.mem_range,Option.map_eq_some_iff,Prod.mk.injEq]
  constructor
  · rintro ⟨j,hj,k,hk,rfl,rfl⟩
    exact ⟨(lt_covered.1 hj).1,hk⟩
  · rintro ⟨hi,hm⟩
    exact ⟨i,lt_covered.2 ⟨hi,ToolheadMove.lt_of_axisSegment hm⟩,m,hm,rfl,rfl⟩

theorem getElem?_appendMove {q q' : SegmentQueue α} {t : α} {mv : ToolheadMove α}
    (h : q.appendMove t mv = .ok q') (i : Nat) :
    q'.channels[i]? =
      match mv.axisSegment t i with
      | some m => q.channels[i]?.map (·.push m)
      | none => q.channels[i]? := by
  rw [(appendMove_eq_ok.1 h).2,segmentsOf,getElem?_foldl_push]
  cases hm : mv.axisSegment t i with
  | none => rfl
  | some m =>
    by_cases hi : i < q.channels.length
    · have hc : i < q.covered mv := lt_covered.2 ⟨hi,ToolheadMove.lt_of_axisSegment hm⟩
      simp [hc]
    · simp [List.getElem?_eq_none (not_lt.1 hi)]

theorem length_appendMove {q q' : SegmentQueue α} {t : α} {mv : ToolheadMove α}
    (h : q.appendMove t mv = .ok q') : q'.channels.length = q.channels.length := by
  rw [(appendMove_eq_ok.1 h).2]
  exact length_foldl_push q (q.segmentsOf t mv)

theorem admits_of_appendMove {q q' : SegmentQueue α} {t : α} {mv : ToolheadMove α}
    (h : q.appendMove t mv = .ok q') {i : Nat} {m : Segment α} {c : Channel α}
    (hm : mv.axisSegment t i = some m) (hc : q.channels[i]? = some c) :
    m.validate = .ok () ∧ c.admits m = .ok () := by
  have hi := (List.getElem?_eq_some_iff.1 hc).1
  have ha := (appendMove_eq_ok.1 h).1 (i,m) (mem_segmentsOf.2 ⟨hi,hm⟩)
  obtain ⟨hv,d,hd,had⟩ := admits_eq_ok.1 ha
  have hdc : d = c := by rw [hc] at hd; exact (Option.some.inj hd).symm
  exact ⟨hv,hdc ▸ had⟩

/-- The segments of the channel of a number, newest first; none where the queue lacks it. -/
def line (q : SegmentQueue α) (i : Nat) : Timeline α := ((q.channels[i]?).getD {}).timeline

omit [Scalar α] in
theorem line_eq {q : SegmentQueue α} {i : Nat} {c : Channel α} (h : q.channels[i]? = some c) :
    q.line i = c.timeline := by
  simp [line,h]

omit [Scalar α] in
@[simp] theorem line_ofChannels (n i : Nat) : (ofChannels n : SegmentQueue α).line i = [] := by
  rcases lt_or_ge i n with hi | hi
  · simp [line,ofChannels,hi,Channel.timeline,Channel.segments]
  · simp [line,ofChannels,not_lt.2 hi,Channel.timeline,Channel.segments]

theorem line_appendMove {q q' : SegmentQueue α} {t : α} {mv : ToolheadMove α}
    (h : q.appendMove t mv = .ok q') {i : Nat} (hi : i < q.channels.length) :
    q'.line i = (mv.axisSegment t i).toList ++ q.line i := by
  have hc := getElem?_appendMove h i
  cases hm : mv.axisSegment t i with
  | none => simp only [hm] at hc; simp [line,hc]
  | some m => simp [line,hc,hm,List.getElem?_eq_getElem hi]

def appendMoves (q : SegmentQueue α) (moves : List (α × ToolheadMove α)) :
    Except (QueueError α) (SegmentQueue α) :=
  moves.foldlM (fun q (t,mv) => q.appendMove t mv) q

@[simp] theorem appendMoves_nil (q : SegmentQueue α) : q.appendMoves [] = .ok q := rfl

theorem appendMoves_cons {q q' : SegmentQueue α} {t : α} {mv : ToolheadMove α}
    {moves : List (α × ToolheadMove α)} : q.appendMoves ((t,mv) :: moves) = .ok q' ↔
      ∃ q₁, q.appendMove t mv = .ok q₁ ∧ q₁.appendMoves moves = .ok q' :=
  Results.bind_eq_ok

def added (moves : List (α × ToolheadMove α)) (i : Nat) : Timeline α :=
  (moves.filterMap fun (t,mv) => mv.axisSegment t i).reverse

theorem mem_added {moves : List (α × ToolheadMove α)} {i : Nat} {m : Segment α} :
    m ∈ added moves i ↔ ∃ p ∈ moves, p.2.axisSegment p.1 i = some m := by
  simp [added]

theorem length_appendMoves {q q' : SegmentQueue α} {moves : List (α × ToolheadMove α)}
    (h : q.appendMoves moves = .ok q') : q'.channels.length = q.channels.length := by
  induction moves generalizing q with
  | nil => cases h; rfl
  | cons p moves ih =>
    obtain ⟨q₁,h₁,h⟩ := appendMoves_cons.1 h
    rw [ih h,length_appendMove h₁]

theorem line_appendMoves {q q' : SegmentQueue α} {moves : List (α × ToolheadMove α)}
    (h : q.appendMoves moves = .ok q') {i : Nat} (hi : i < q.channels.length) :
    q'.line i = added moves i ++ q.line i := by
  induction moves generalizing q with
  | nil => cases h; rfl
  | cons p moves ih =>
    obtain ⟨q₁,h₁,h⟩ := appendMoves_cons.1 h
    have hi₁ : i < q₁.channels.length := by rw [length_appendMove h₁]; exact hi
    rw [ih h hi₁,line_appendMove h₁ hi]
    cases hm : p.2.axisSegment p.1 i <;> simp [added,hm]

/-- What a queue accepts is also accepted without its older segments. -/
theorem appendMove_newer {q q' p : SegmentQueue α} {t : α} {mv : ToolheadMove α}
    (h : q.appendMove t mv = .ok q') (hl : p.channels.length = q.channels.length)
    (hp : ∀ i, ∃ old, q.line i = p.line i ++ old) : ∃ p', p.appendMove t mv = .ok p' := by
  refine ⟨_,appendMove_eq_ok.2 ⟨fun x hx => ?_,rfl⟩⟩
  obtain ⟨hi,hm⟩ := mem_segmentsOf.1 hx
  have hq : x.1 < q.channels.length := hl ▸ hi
  obtain ⟨hv,ha⟩ := admits_of_appendMove h hm (List.getElem?_eq_getElem hq)
  refine admits_eq_ok.2 ⟨hv,_,List.getElem?_eq_getElem hi,Channel.admits_congr ?_ ha⟩
  obtain ⟨old,ho⟩ := hp x.1
  rw [line_eq (List.getElem?_eq_getElem hq),line_eq (List.getElem?_eq_getElem hi)] at ho
  rw [Channel.tail?_eq_head?,Channel.tail?_eq_head?,ho]
  cases p.channels[x.1].timeline with
  | nil => exact Or.inl rfl
  | cons m l => exact Or.inr rfl

theorem appendMoves_newer {q q' p : SegmentQueue α} {moves : List (α × ToolheadMove α)}
    (h : q.appendMoves moves = .ok q') (hl : p.channels.length = q.channels.length)
    (hp : ∀ i, ∃ old, q.line i = p.line i ++ old) : ∃ p', p.appendMoves moves = .ok p' := by
  induction moves generalizing q p with
  | nil => exact ⟨p,rfl⟩
  | cons x moves ih =>
    obtain ⟨q₁,hq,h⟩ := appendMoves_cons.1 h
    obtain ⟨p₁,hp₁⟩ := appendMove_newer hq hl hp
    obtain ⟨p',hp'⟩ := ih h (by rw [length_appendMove hp₁,length_appendMove hq,hl]) fun i => by
      rcases lt_or_ge i p.channels.length with hi | hi
      · obtain ⟨old,ho⟩ := hp i
        exact ⟨old,by rw [line_appendMove hq (hl ▸ hi),line_appendMove hp₁ hi,ho,
          List.append_assoc]⟩
      · refine ⟨[],?_⟩
        have hip : ¬i < p₁.channels.length := by rw [length_appendMove hp₁]; exact not_lt.2 hi
        have hiq : ¬i < q₁.channels.length := by
          rw [length_appendMove hq,← hl]; exact not_lt.2 hi
        simp [line,hip,hiq,Channel.timeline,Channel.segments]
    exact ⟨p',appendMoves_cons.2 ⟨p₁,hp₁,hp'⟩⟩

theorem validate_of_appendMoves {q q' : SegmentQueue α} {moves : List (α × ToolheadMove α)}
    (h : q.appendMoves moves = .ok q') {i : Nat} (hi : i < q.channels.length) {m : Segment α}
    (hm : m ∈ added moves i) : m.validate = .ok () := by
  induction moves generalizing q with
  | nil => simp [added] at hm
  | cons x moves ih =>
    obtain ⟨q₁,hq,h⟩ := appendMoves_cons.1 h
    obtain ⟨p,hp,hpm⟩ := mem_added.1 hm
    rcases List.mem_cons.1 hp with rfl | hp
    · exact (admits_of_appendMove hq hpm (List.getElem?_eq_getElem hi)).1
    · exact ih h (by rw [length_appendMove hq]; exact hi) (mem_added.2 ⟨p,hp,hpm⟩)

inductive Reachable : SegmentQueue α → Prop where
  | ofChannels (n : Nat) : Reachable (.ofChannels n)
  | append {q q' : SegmentQueue α} (i : Nat) (m : Segment α) :
      Reachable q → q.append i m = .ok q' → Reachable q'
  | appendMove {q q' : SegmentQueue α} (t : α) (mv : ToolheadMove α) :
      Reachable q → q.appendMove t mv = .ok q' → Reachable q'
  | finalize {q : SegmentQueue α} (before after : α) :
      Reachable q → Reachable (q.finalize before after)

end SegmentQueue

end Gantry
