import Mathlib
import Gantry.Proofs.Numeric.Quotient
import Gantry.Proofs.Queue.Ledger

/-!
The slack along a channel. A segment is compared with the newest one alone, and may start before that
one ends by the slack. Segments that take less than the slack can lead the end of a channel back, each
by the slack anew, so the slack counts once only as long as the newest segment lags behind none that
is kept. Segments that take no less than the slack never lag.
-/
set_option autoImplicit false

namespace Gantry
variable {α : Type}

def Segment.nextStart [Scalar α] (m : Segment α) : α := m.endTime - timeEpsilon

def Segment.instant [Scalar α] (t : α) : Segment α := .hold t 0 0

theorem Segment.validate_instant [Scalar α] [LawfulScalar α] {t : α}
    (h : Scalar.isFinite t = true) : (Segment.instant t).validate = .ok () := by
  have hzero : ¬(0 : α) < 0 := LawfulScalar.not_lt_of_le LawfulScalar.zero_le_zero
  have hq : ((Segment.instant t).quantities.find? fun q => !Scalar.isFinite q.2) = none := by
    simp [quantities,instant,hold,h,LawfulScalar.zero]
  have hd : ((Segment.instant t).durations.find? fun d => d.2 < 0) = none := by
    simp [durations,instant,hold,hzero]
  have hr : (Segment.instant t).reachesCruise = true := by
    simp [reachesCruise,instant,hold,hzero]
  simp only [validate,hq,hd,hr,if_true]

namespace SegmentQueue

theorem head?_line (q : SegmentQueue α) (i : Nat) : (q.line i).head? = (q.kept i).getLast? := by
  simp [line,kept,Channel.timeline,List.head?_reverse]

@[simp] theorem kept_ofChannels (n i : Nat) : (ofChannels n : SegmentQueue α).kept i = [] := by
  have hline := line_ofChannels (α := α) n i
  rwa [line,Channel.timeline,List.reverse_eq_nil_iff] at hline

def Lags [Scalar α] (ms : List (Segment α)) : Prop :=
  ∃ last ∈ ms.getLast?, ∃ m ∈ ms, last.nextStart < m.nextStart

def Chained [Scalar α] (ms : List (Segment α)) : Prop :=
  ms.IsChain fun m n => ¬n.startTime < m.nextStart

theorem exists_channel_of_kept {q : SegmentQueue α} {i : Nat} {m : Segment α} (h : m ∈ q.kept i) :
    ∃ c, q.channels[i]? = some c ∧ q.kept i = c.segments := by
  cases hc : q.channels[i]? with
  | none =>
    rw [kept_of_none hc] at h
    cases h
  | some c => exact ⟨c,rfl,kept_eq hc⟩

variable [Scalar α] {q q' : SegmentQueue α} {e : Entry α} {i : Nat}

theorem validate_of_kept (hq : q.Reachable) {m : Segment α} (h : m ∈ q.kept i) :
    m.validate = .ok () := by
  obtain ⟨c,hc,hk⟩ := exists_channel_of_kept h
  exact hq.validate hc (hk ▸ h)

theorem admits_of_add (h : q.add e = .ok q') {m : Segment α} (hm : e.on i = some m)
    {c : Channel α} (hc : q.channels[i]? = some c) :
    m.validate = .ok () ∧ c.admits m = .ok () := by
  cases e with
  | segment j k =>
    obtain ⟨hv,d,hd,had⟩ := admits_eq_ok.1 (append_eq_ok.1 h).1
    rw [Entry.on] at hm
    split at hm
    · rename_i hji
      subst hji
      cases hm
      rw [hc] at hd
      exact ⟨hv,Option.some.inj hd ▸ had⟩
    · cases hm
  | move t mv => exact admits_of_appendMove h hm hc

theorem not_lt_of_admits {c : Channel α} {m last : Segment α} (h : c.admits m = .ok ())
    (hlast : last ∈ c.segments.getLast?) : ¬m.startTime < last.nextStart := by
  have htail : c.tail? = some last := hlast
  unfold Channel.admits at h
  rw [htail] at h
  exact fun hlt => by simp only [Segment.nextStart] at hlt; simp [hlt] at h

theorem kept_finalize (q : SegmentQueue α) (before after : α) (i : Nat) :
    (q.finalize before after).kept i <:+ q.kept i ∧
      ((q.finalize before after).kept i).getLast? = (q.kept i).getLast? := by
  constructor
  · cases hc : q.channels[i]? with
    | none =>
      have hn : (q.finalize before after).channels[i]? = none := by
        simp [getElem?_finalize,hc]
      rw [kept_of_none hn]
      exact List.nil_suffix
    | some c =>
      have hd := (getElem?_finalize q before after i).trans (congrArg _ hc)
      rw [kept_eq hc]
      exact (kept_eq hd).symm ▸ ((Trimmed.finalize q before after).channel i c _ hc hd).suffix
  · rw [← head?_line,← head?_line]
    exact head?_line_finalize q before after i

theorem kept_add (h : q.add e = .ok q') (i : Nat) :
    (∃ m, e.on i = some m ∧ q'.kept i = q.kept i ++ [m] ∧ m.validate = .ok () ∧
      ∀ last ∈ (q.kept i).getLast?, ¬m.startTime < last.nextStart) ∨
    q'.kept i = q.kept i := by
  have hget := getElem?_add h i
  cases hc : q.channels[i]? with
  | none =>
    rw [hc] at hget
    refine Or.inr ?_
    rw [kept_of_none hc,kept_of_none hget]
  | some c =>
    rw [hc] at hget
    cases he : e.on i with
    | none =>
      rw [he] at hget
      refine Or.inr ?_
      rw [kept_eq hc,kept_eq hget]
      rfl
    | some m =>
      rw [he] at hget
      obtain ⟨hv,had⟩ := admits_of_add h he hc
      refine Or.inl ⟨m,rfl,?_,hv,fun last hlast => ?_⟩
      · rw [kept_eq hc,kept_eq hget]
        exact Channel.segments_push c m
      · rw [kept_eq hc] at hlast
        exact not_lt_of_admits had hlast

end SegmentQueue

namespace Ledger
open SegmentQueue
variable [Scalar α]

/-- What a request does to a channel: one segment that may follow is added, or the oldest segments go
and the newest stays. -/
theorem kept_record (l : Ledger α) (r : Request α) (i : Nat) :
    (∃ m, (l.record r).queue.kept i = l.queue.kept i ++ [m] ∧ m.validate = .ok () ∧
      (l.record r).acceptedOn i = l.acceptedOn i ++ [m] ∧
      ∀ last ∈ (l.queue.kept i).getLast?, ¬m.startTime < last.nextStart) ∨
    ((l.record r).queue.kept i <:+ l.queue.kept i ∧
      ((l.record r).queue.kept i).getLast? = (l.queue.kept i).getLast?) := by
  cases r with
  | finalize before after => exact Or.inr (kept_finalize l.queue before after i)
  | add e =>
    cases h : l.queue.add e with
    | error err =>
      rw [record_add_of_error h]
      exact Or.inr ⟨List.suffix_rfl,rfl⟩
    | ok q =>
      rw [record_add_of_ok h,acceptedOn_snoc]
      rcases kept_add h i with ⟨m,he,hkept,hv,hlast⟩ | hkept
      · rw [he]
        exact Or.inl ⟨m,hkept,hv,rfl,hlast⟩
      · refine Or.inr ?_
        change q.kept i <:+ _ ∧ (q.kept i).getLast? = _
        rw [hkept]
        exact ⟨List.suffix_rfl,rfl⟩

theorem acceptedOn_record (l : Ledger α) (r : Request α) (i : Nat) :
    l.acceptedOn i <+: (l.record r).acceptedOn i := by
  cases r with
  | finalize before after => exact List.prefix_rfl
  | add e =>
    cases h : l.queue.add e with
    | error err =>
      rw [record_add_of_error h]
    | ok q =>
      rw [record_add_of_ok h,acceptedOn_snoc]
      exact List.prefix_append (l.acceptedOn i) (e.on i).toList

theorem chained_run (n : Nat) (rs : List (Request α)) (i : Nat) :
    Chained ((run n rs).queue.kept i) := by
  induction rs using List.reverseRecOn with
  | nil =>
    rw [show (run n []).queue = .ofChannels n from rfl,kept_ofChannels]
    exact List.isChain_nil
  | append_singleton rs r ih =>
    rw [run_snoc]
    rcases kept_record (run n rs) r i with ⟨m,hkept,-,-,hm⟩ | ⟨hsuffix,-⟩
    · rw [hkept]
      exact List.isChain_append.2 ⟨ih,List.isChain_singleton m,by simpa using hm⟩
    · exact ih.suffix hsuffix

/-- In exact arithmetic a segment overlaps an earlier one by no more than one slack for each step that
lies between them in the queue. -/
theorem endTime_le_startTime_add {n i : Nat} {rs : List (Request ℝ)} {j d : Nat} {m k : Segment ℝ}
    (hj : ((run n rs).queue.kept i)[j]? = some m)
    (hk : ((run n rs).queue.kept i)[j + d + 1]? = some k) :
    m.endTime ≤ k.startTime + (d + 1) * timeEpsilon := by
  have hchain := chained_run n rs i
  have hnext {p : Nat} {a b : Segment ℝ} (ha : ((run n rs).queue.kept i)[p]? = some a)
      (hb : ((run n rs).queue.kept i)[p + 1]? = some b) : a.endTime ≤ b.startTime + timeEpsilon := by
    obtain ⟨hp,rfl⟩ := List.getElem?_eq_some_iff.1 ha
    obtain ⟨hp',rfl⟩ := List.getElem?_eq_some_iff.1 hb
    have hle := not_lt.1 (List.isChain_iff_getElem.1 hchain p hp')
    unfold Segment.nextStart at hle
    linarith
  induction d generalizing k with
  | zero =>
    have hle := hnext hj hk
    push_cast
    linarith
  | succ d ih =>
    obtain ⟨hd,-⟩ := List.getElem?_eq_some_iff.1 hk
    have hlt : j + d + 1 < ((run n rs).queue.kept i).length := by omega
    have hbetween := List.getElem?_eq_getElem hlt
    have hsound := Segment.sound_of_validate
      (validate_of_kept (reachable_run n rs) (List.getElem_mem hlt))
    -- The segment between the two costs one slack; its own length costs nothing.
    have hfar := ih hbetween
    have hnear := hnext hbetween hk
    have hlasts := hsound.startTime_le_endTime
    push_cast
    linarith

section Float
variable {n i : Nat} {rs rs' : List (Request Float)} {l : Ledger Float}

theorem nextStart_le_endTime {m : Segment Float} (h : m.validate = .ok ()) :
    m.nextStart ≤ m.endTime :=
  sub_slack_le (LawfulScalar.le_right (Segment.startTime_le_endTime_of_validate h))

theorem nextStart_ordered {m : Segment Float} (h : m.validate = .ok ()) :
    m.nextStart ≤ m.nextStart :=
  LawfulScalar.le_left (nextStart_le_endTime h)

/-- No two kept segments of a channel overlap by more than the slack, and its end has never fallen by
more than the slack below one it had. -/
structure SlackOnce (n : Nat) (rs : List (Request Float)) (i : Nat) : Prop where
  inTime : ((run n rs).queue.kept i).Pairwise fun m n => ¬n.startTime < m.endTime - timeEpsilon
  tailEnd : ∀ rs', rs' <+: rs → ∀ e e' : Float, (run n rs').queue.tailEnd i = .ok (some e) →
    (run n rs).queue.tailEnd i = .ok (some e') → ¬e' < e - timeEpsilon

theorem validate_of_run {m : Segment Float} (h : m ∈ (run n rs).queue.kept i) :
    m.validate = .ok () :=
  validate_of_kept (reachable_run n rs) h

theorem tailEnd_run {e : Float} : (run n rs).queue.tailEnd i = .ok (some e) ↔
    ∃ m ∈ ((run n rs).queue.kept i).getLast?, m.endTime = e := by
  rw [tailEnd_eq_ok,head?_line]

/-- As long as the newest segment does not lag, the time at which the next one may follow does not
fall. -/
theorem exists_nextStart_le (hl : ∀ rs', rs' <+: rs → ¬Lags ((run n rs').queue.kept i))
    (hp : rs' <+: rs) {last : Segment Float} (h : last ∈ ((run n rs').queue.kept i).getLast?) :
    ∃ last' ∈ ((run n rs).queue.kept i).getLast?, last.nextStart ≤ last'.nextStart := by
  induction rs using List.reverseRecOn with
  | nil =>
    obtain rfl := List.prefix_nil.1 hp
    exact ⟨last,h,nextStart_ordered (validate_of_run (List.mem_of_getLast? h))⟩
  | append_singleton rs r ih =>
    rcases List.prefix_concat_iff.1 hp with rfl | hp
    · exact ⟨last,h,nextStart_ordered (validate_of_run (List.mem_of_getLast? h))⟩
    obtain ⟨old,hold,hle⟩ := ih (fun rs' h => hl rs' (h.trans (List.prefix_append rs [r]))) hp
    have hlags := hl _ List.prefix_rfl
    rw [run_snoc] at hlags ⊢
    rcases kept_record (run n rs) r i with ⟨m,hkept,hv,-,-⟩ | ⟨-,hlast⟩
    · rw [hkept] at hlags ⊢
      have hmem := List.mem_of_getLast? hold
      have hnot : ¬m.nextStart < old.nextStart := fun hlt =>
        hlags ⟨m,by simp,old,List.mem_append_left _ hmem,hlt⟩
      have hold := nextStart_ordered (validate_of_run hmem)
      exact ⟨m,by simp,LawfulScalar.le_trans hle
        (LawfulScalar.le_of_not_lt (nextStart_ordered hv) hold hnot)⟩
    · rw [hlast]
      exact ⟨old,hold,hle⟩

theorem pairwise_record (r : Request Float) (hq : l.queue.Reachable)
    (h : (l.queue.kept i).Pairwise fun m n => ¬n.startTime < m.nextStart)
    (hl : ¬Lags (l.queue.kept i)) :
    ((l.record r).queue.kept i).Pairwise fun m n => ¬n.startTime < m.nextStart := by
  rcases kept_record l r i with ⟨k,hkept,hv,-,hk⟩ | ⟨hsuffix,-⟩
  · rw [hkept,List.pairwise_append]
    refine ⟨h,List.pairwise_singleton _ k,fun m hm k' hk' => ?_⟩
    rw [List.mem_singleton.1 hk']
    obtain ⟨last,hlast⟩ := Option.isSome_iff_exists.1
      (List.getLast?_isSome.2 (List.ne_nil_of_mem hm))
    have hordered {m} (hm : m ∈ l.queue.kept i) : m.nextStart ≤ m.nextStart :=
      nextStart_ordered (validate_of_kept hq hm)
    have hml : m.nextStart ≤ last.nextStart :=
      LawfulScalar.le_of_not_lt (hordered (List.mem_of_getLast? hlast)) (hordered hm)
        fun hlt => hl ⟨last,hlast,m,hm,hlt⟩
    exact fun hlt => hk last hlast (LawfulScalar.lt_of_lt_of_le hlt hml)
  · exact h.sublist hsuffix.sublist

theorem pairwise_run (hl : ∀ rs', rs' <+: rs → ¬Lags ((run n rs').queue.kept i)) :
    ((run n rs).queue.kept i).Pairwise fun m n => ¬n.startTime < m.nextStart := by
  induction rs using List.reverseRecOn with
  | nil =>
    rw [show (run n []).queue = .ofChannels n from rfl,kept_ofChannels]
    exact List.Pairwise.nil
  | append_singleton rs r ih =>
    have hpre := List.prefix_append rs [r]
    rw [run_snoc]
    exact pairwise_record r (reachable_run n rs) (ih fun rs' h => hl rs' (h.trans hpre)) (hl rs hpre)

theorem tailEnd_record (hl : ∀ rs', rs' <+: rs → ¬Lags ((run n rs').queue.kept i))
    (hp : rs' <+: rs) (r : Request Float) {e e' : Float}
    (he : (run n rs').queue.tailEnd i = .ok (some e))
    (he' : (run n (rs ++ [r])).queue.tailEnd i = .ok (some e')) : ¬e' < e - timeEpsilon := by
  obtain ⟨last,hlast,rfl⟩ := tailEnd_run.1 he
  obtain ⟨last',hlast',rfl⟩ := tailEnd_run.1 he'
  obtain ⟨old,hold,hle⟩ := exists_nextStart_le hl hp hlast
  rw [run_snoc] at hlast'
  refine LawfulScalar.not_lt_of_le (LawfulScalar.le_trans hle ?_)
  rcases kept_record (run n rs) r i with ⟨m,hkept,hv,-,hm⟩ | ⟨-,hsame⟩
  · rw [hkept,List.getLast?_concat] at hlast'
    cases hlast'
    have hstart := Segment.startTime_le_endTime_of_validate hv
    have hordered := nextStart_ordered (validate_of_run (List.mem_of_getLast? hold))
    exact LawfulScalar.le_trans
      (LawfulScalar.le_of_not_lt (LawfulScalar.le_left hstart) hordered (hm old hold)) hstart
  · rw [hsame,hold] at hlast'
    cases hlast'
    exact nextStart_le_endTime (validate_of_run (List.mem_of_getLast? hold))

theorem exists_overlap (h : Lags ((run n rs).queue.kept i)) : ∃ r,
    ¬((run n (rs ++ [r])).queue.kept i).Pairwise fun m n => ¬n.startTime < m.nextStart := by
  obtain ⟨last,hlast,m,hm,hlt⟩ := h
  have hmem := List.mem_of_getLast? hlast
  have hv := validate_of_run hmem
  have hstart : last.startTime.isFinite = true :=
    (Segment.parts_of_validate hv).1 (.startTime,last.startTime) (by simp [Segment.quantities])
  have hfinite : last.nextStart.isFinite = true := isFinite_sub_slack
    (isFinite_of_sub_slack_lt hstart (Segment.startTime_le_endTime_of_validate hv) hlt)
  set k := Segment.instant last.nextStart with hk
  obtain ⟨c,hc,hsegments⟩ := exists_channel_of_kept hmem
  rw [hsegments] at hlast
  have hadmits : c.admits k = .ok () := by
    have htail : c.tail? = some last := hlast
    have hnot : ¬k.startTime < last.endTime - timeEpsilon :=
      LawfulScalar.not_lt_of_le (nextStart_ordered hv)
    simp only [Channel.admits,htail,hnot,if_false]
  -- The instant where the last segment leaves off is one that the channel admits.
  have hadd : (run n rs).queue.add (.segment i k) = .ok ((run n rs).queue.push i k) :=
    append_eq_ok.2 ⟨admits_eq_ok.2 ⟨Segment.validate_instant hfinite,c,hc,hadmits⟩,rfl⟩
  have hget := getElem?_push (run n rs).queue i i k
  rw [if_pos rfl,hc] at hget
  refine ⟨.add (.segment i k),?_⟩
  rw [run_snoc,record_add_of_ok hadd,kept_eq hget,Channel.segments_push,← hsegments]
  intro hpairs
  exact (List.pairwise_append.1 hpairs).2.2 m hm k (List.mem_singleton_self k) hlt

theorem slackOnce_snoc (hl : ∀ rs', rs' <+: rs → ¬Lags ((run n rs').queue.kept i))
    (r : Request Float) : SlackOnce n (rs ++ [r]) i := by
  constructor
  · rw [run_snoc]
    exact pairwise_record r (reachable_run n rs) (pairwise_run hl) (hl rs List.prefix_rfl)
  · intro rs' hp e e' he he'
    rcases List.prefix_concat_iff.1 hp with rfl | hp
    · obtain rfl := Option.some.inj (Except.ok.inj (he.symm.trans he'))
      obtain ⟨last,hlast,rfl⟩ := tailEnd_run.1 he
      exact LawfulScalar.not_lt_of_le
        (nextStart_le_endTime (validate_of_run (List.mem_of_getLast? hlast)))
    · exact tailEnd_record hl hp r he he'

/-- The slack counts once through a run, whatever comes next, exactly if the newest segment of the
channel never lags. -/
theorem slackOnce_iff (n : Nat) (rs : List (Request Float)) (i : Nat) :
    (∀ rs', rs' <+: rs → ∀ r, SlackOnce n (rs' ++ [r]) i) ↔
      ∀ rs', rs' <+: rs → ¬Lags ((run n rs').queue.kept i) := by
  constructor
  · intro h rs' hp hlags
    obtain ⟨r,hr⟩ := exists_overlap hlags
    exact hr (h rs' hp r).inTime
  · exact fun hl rs' hp => slackOnce_snoc fun rs'' h => hl rs'' (h.trans hp)

theorem acceptedOn_prefix_run (hp : rs' <+: rs) (i : Nat) :
    (run n rs').acceptedOn i <+: (run n rs).acceptedOn i := by
  induction rs using List.reverseRecOn with
  | nil => rw [List.prefix_nil.1 hp]
  | append_singleton rs r ih =>
    rcases List.prefix_concat_iff.1 hp with rfl | hp
    · exact List.prefix_rfl
    · rw [run_snoc]
      exact (ih hp).trans (acceptedOn_record (run n rs) r i)

theorem nextStart_le_of_lasting (h : ∀ m ∈ (run n rs).acceptedOn i, m.startTime ≤ m.nextStart) :
    ∀ last ∈ ((run n rs).queue.kept i).getLast?, ∀ m ∈ (run n rs).queue.kept i,
      m.nextStart ≤ last.nextStart := by
  induction rs using List.reverseRecOn with
  | nil =>
    rw [show (run n []).queue = .ofChannels n from rfl,kept_ofChannels]
    simp
  | append_singleton rs r ih =>
    rw [run_snoc] at h ⊢
    have ih := ih fun m hm => h m ((acceptedOn_record (run n rs) r i).subset hm)
    rcases kept_record (run n rs) r i with ⟨k,hkept,hv,haccepted,hk⟩ | ⟨hsuffix,hlast⟩
    · rw [hkept]
      intro last hlast m hm
      obtain rfl : k = last := by simpa using hlast
      rcases List.mem_append.1 hm with hm | hm
      · obtain ⟨old,hold⟩ := Option.isSome_iff_exists.1
          (List.getLast?_isSome.2 (List.ne_nil_of_mem hm))
        have hlasts := h k (haccepted ▸ List.mem_append_right _ (List.mem_singleton_self k))
        have hordered := LawfulScalar.le_right (ih old hold m hm)
        exact LawfulScalar.le_trans (ih old hold m hm) (LawfulScalar.le_trans
          (LawfulScalar.le_of_not_lt (LawfulScalar.le_left hlasts) hordered (hk old hold)) hlasts)
      · rw [List.mem_singleton.1 hm]
        exact nextStart_ordered hv
    · rw [hlast]
      exact fun last hlast m hm => ih last hlast m (hsuffix.subset hm)

/-- Segments that take no less than the slack do not add it up, whatever comes behind them. -/
theorem slackOnce_of_lasting (h : ∀ m ∈ (run n rs).acceptedOn i, m.startTime ≤ m.nextStart)
    (r : Request Float) : SlackOnce n (rs ++ [r]) i := by
  refine slackOnce_snoc (fun rs' hp ⟨last,hlast,m,hm,hlt⟩ => ?_) r
  have hle := nextStart_le_of_lasting
    (fun m hm => h m ((acceptedOn_prefix_run hp i).subset hm)) last hlast m hm
  exact LawfulScalar.not_lt_of_le hle hlt

/-- Three segments without duration behind one: each starts before the one before it ends, and the
last one starts before the first one ends by more than the slack. -/
def drifting : List (Request Float) :=
  [.add (.segment 0 ⟨0,0,0,1,0,5,5,0⟩),.add (.segment 0 (.hold 0.9999999991 5 0)),
    .add (.segment 0 (.hold 0.9999999982 5 0))]

theorem drifting_overlaps : ¬SlackOnce 1 drifting 0 := by
  intro h
  have hpairs := h.inTime
  revert hpairs
  decide +kernel

end Float

end Ledger

end Gantry
