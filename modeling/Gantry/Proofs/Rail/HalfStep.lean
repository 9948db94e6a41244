import Mathlib
import Gantry.Proofs.Queue.Filling
import Gantry.Proofs.Rail.Arrival

/-!
Half steps: a flush keeps every motor of a rail within half a step of it. Each window leads the
motors from the position at its start to the position that its end is approached with; where the
position does not jump the next window begins there. So the bound holds at the end of the last
window if it held at the last flush.
-/
set_option autoImplicit false

namespace Gantry

theorem Timeline.positionBefore_eq_positionAt {l : Timeline ℝ} {t : ℝ}
    (h : ∀ m ∈ l, m.startTime ≠ t) : l.positionBefore t = l.positionAt t := by
  have hf : (l.find? fun m => decide (m.startTime < t)) =
      l.find? fun m => decide (m.startTime ≤ t) :=
    List.find?_congr fun m hm => by simp [(h m hm).le_iff_lt]
  unfold positionBefore positionAt
  rw [hf]

namespace Allocator
variable {a : Allocator} {q : SegmentQueue ℝ} {t : ℝ}

theorem combine_eq {read : Nat → Except (QueueError ℝ) (Option ℝ)} {ts : List (Nat × ℝ)}
    {p : Nat → ℝ} {total : ℝ} (h : ∀ x ∈ ts, read x.1 = .ok (some (p x.1))) :
    combine read ts total = .ok (some (ts.foldl (fun total (i,w) => total + p i * w) total)) := by
  induction ts generalizing total with
  | nil => rfl
  | cons x ts ih =>
    have hx := h x List.mem_cons_self
    simp only [combine,hx,List.foldl_cons]
    exact ih fun y hy => h y (List.mem_cons_of_mem x hy)

theorem combine_terms {read : Nat → Except (QueueError ℝ) (Option ℝ)} {p : Nat → ℝ}
    (h : ∀ i ∈ a.channels, read i = .ok (some (p i))) :
    combine read a.terms 0 = .ok (some (a.combined p)) :=
  combine_eq fun x hx => h x.1 (fst_mem_channels hx)

noncomputable def place (a : Allocator) (q : SegmentQueue ℝ) (t : ℝ) : ℝ :=
  a.combined fun i => ((q.line i).positionAt t).getD 0

noncomputable def approach (a : Allocator) (q : SegmentQueue ℝ) (t : ℝ) : ℝ :=
  a.combined fun i => ((q.line i).positionBefore t).getD 0

theorem approach_eq_place (h : ∀ i ∈ a.channels, ∀ m ∈ q.line i, m.startTime ≠ t) :
    a.approach q t = a.place q t :=
  combined_congr fun i hi => by rw [Timeline.positionBefore_eq_positionAt (h i hi)]

def Fed (a : Allocator) (q : SegmentQueue ℝ) : Prop := ∀ i ∈ a.channels, q.line i ≠ []

namespace Fed

theorem channel (h : a.Fed q) : ∀ i ∈ a.channels,
    q.channels[i]? = some ((q.channels[i]?).getD {}) := by
  intro i hi
  cases hc : q.channels[i]? with
  | none => exact absurd (by simp [SegmentQueue.line,hc,Channel.timeline,Channel.segments]) (h i hi)
  | some c => rfl

theorem line_positionAt (h : a.Fed q) (t : ℝ) : ∀ i ∈ a.channels,
    (q.line i).positionAt t = some (((q.line i).positionAt t).getD 0) := by
  intro i hi
  obtain ⟨p,hp⟩ := Timeline.positionAt_isSome (h i hi) t
  rw [hp,Option.getD_some]

theorem line_positionBefore (h : a.Fed q) (t : ℝ) : ∀ i ∈ a.channels,
    (q.line i).positionBefore t = some (((q.line i).positionBefore t).getD 0) := by
  intro i hi
  obtain ⟨p,hp⟩ := Timeline.positionBefore_isSome (h i hi) t
  rw [hp,Option.getD_some]

theorem positionAt_eq (h : a.Fed q) (t : ℝ) : a.positionAt q t = .ok (some (a.place q t)) := by
  refine combine_terms fun i hi => ?_
  rw [SegmentQueue.positionAt,SegmentQueue.channel_eq_ok.2 (h.channel i hi)]
  exact congrArg Except.ok (h.line_positionAt t i hi)

theorem positionBefore_eq (h : a.Fed q) (t : ℝ) :
    a.positionBefore q t = .ok (some (a.approach q t)) := by
  refine combine_terms fun i hi => ?_
  rw [SegmentQueue.positionBefore,SegmentQueue.channel_eq_ok.2 (h.channel i hi)]
  exact congrArg Except.ok (h.line_positionBefore t i hi)

end Fed

end Allocator

namespace Rail
variable {r : Rail ℝ} {q : SegmentQueue ℝ} {k : Track ℝ} {start upto : ℝ}

/-- Where the last window of a flush leads, or where the flush begins if it is shorter than the
slack and has no window. -/
def EndsAt (r : Rail ℝ) (q : SegmentQueue ℝ) (upto e : ℝ) : Prop :=
  ∃ k, r.track q = .ok k ∧
    match (windows (breakpoints k r.lastFlushTime upto)).getLast? with
    | some (_,b) => upto - timeEpsilon < b ∧ b ≤ upto ∧
        r.allocator.positionBefore q b = .ok (some e)
    | none => upto < r.lastFlushTime + timeEpsilon ∧
        r.allocator.positionAt q r.lastFlushTime = .ok (some e)

theorem stepWindows_breakpoints_near (hf : r.lastFlushTime < upto)
    (hp : (k.motion start).position r.lastFlushTime = start)
    (hm : ∀ t, r.lastFlushTime < t → t < upto →
      (k.motion start).positionBefore t = (k.motion start).position t)
    (hn : ∀ s ∈ r.steppers, s.Near start) :
    ∀ s ∈ stepWindows (k.motion start) (breakpoints k r.lastFlushTime upto) r.steppers,
      s.Near (lastPosition (k.motion start) (breakpoints k r.lastFlushTime upto) start) := by
  have he := timeEpsilon_pos
  rcases breakpoints_cases (k := k) hf with ⟨hb,-⟩ | ⟨us,t,hb,hpw,ht,-⟩
  · rw [hb]
    exact hn
  · rw [hb,lastPosition_append]
    obtain ⟨hfirst,hrest⟩ := List.pairwise_cons.1 hpw
    refine stepWindows_near (fun u hu => hm u ?_ ?_) (hp.symm ▸ hn)
    · linarith [hfirst u (List.mem_append_left _ hu)]
    · linarith [(List.pairwise_append.1 hrest).2.2 u hu t (by simp)]

theorem near_advance {e : ℝ}
    (h : ∀ s ∈ stepWindows (k.motion start) (breakpoints k r.lastFlushTime upto) r.steppers,
      s.Near e) : ∀ s ∈ (r.advance k start upto).steppers, s.Near e := by
  rw [advance_eq]
  dsimp only
  split
  · intro s hs
    obtain ⟨s',hs',rfl⟩ := List.mem_map.1 hs
    exact ⟨(h s' hs').stepDistance,(h s' hs').le⟩
  · exact h

section Fed
variable (hq : r.allocator.Fed q)
include hq

theorem track_of_fed :
    r.track q = .ok (r.allocator.trackOf fun i => (q.channels[i]?).getD {}) :=
  track_eq hq.channel

theorem motion_position_of_fed (t : ℝ) :
    ((r.allocator.trackOf fun i => (q.channels[i]?).getD {}).motion start).position t =
      r.allocator.place q t :=
  Allocator.motion_position (hq.line_positionAt t)

theorem motion_positionBefore_of_fed (t : ℝ) :
    ((r.allocator.trackOf fun i => (q.channels[i]?).getD {}).motion start).positionBefore t =
      r.allocator.approach q t :=
  Allocator.motion_positionBefore (hq.line_positionBefore t)

theorem endsAt_lastPosition (hf : r.lastFlushTime < upto) :
    let k := r.allocator.trackOf fun i => (q.channels[i]?).getD {}
    r.EndsAt q upto (lastPosition (k.motion (r.allocator.place q r.lastFlushTime))
      (breakpoints k r.lastFlushTime upto) (r.allocator.place q r.lastFlushTime)) := by
  intro k
  refine ⟨k,track_of_fed hq,?_⟩
  rcases breakpoints_cases (k := k) hf with ⟨hb,hlt⟩ | ⟨us,t,hb,-,ht,hlt⟩
  · rw [hb]
    exact ⟨hlt,hq.positionAt_eq r.lastFlushTime⟩
  · obtain ⟨b,hw⟩ := getLast?_windows r.lastFlushTime us t
    rw [hb,hw,lastPosition_append,motion_positionBefore_of_fed hq]
    exact ⟨by linarith,ht,hq.positionBefore_eq t⟩

end Fed

/-- A flush of a rail whose channels have segments succeeds. If every motor was within half a step
of the rail at the last flush, and the position does not jump where a segment begins or ends in
between, every motor is within half a step of where the windows of the flush end. If there was any
motion, that is where the rail and its motors are declared to be. -/
theorem generateSteps_near (fed : ∀ i ∈ r.allocator.channels, q.line i ≠ [])
    (late : r.lastFlushTime < upto) :
    ∃ (p : ℝ → ℝ) (r' : Rail ℝ), (∀ t, r.allocator.positionAt q t = .ok (some (p t))) ∧
      r.generateSteps (some q) upto = .ok r' ∧
      r'.steppers.map (fun s => (s.ref,s.stepDistance,s.offset)) =
        r.steppers.map (fun s => (s.ref,s.stepDistance,s.offset)) ∧
      ((∀ s ∈ r.steppers, s.Near (p r.lastFlushTime)) →
        (∀ i ∈ r.allocator.channels, ∀ m ∈ q.line i, ∀ t, t = m.startTime ∨ t = m.endTime →
          r.lastFlushTime < t → t < upto → r.allocator.positionBefore q t = .ok (some (p t))) →
        ∃ e, r.EndsAt q upto e ∧ (∀ s ∈ r'.steppers, s.Near e) ∧
          ((∃ i ∈ r.allocator.channels, ∃ m ∈ q.line i,
              r.lastFlushTime < m.endTime ∧ m.startTime < upto) →
            r'.commandedPos = e ∧ ∀ s ∈ r'.steppers, s.commandedPos = e)) := by
  have hq : r.allocator.Fed q := fed
  set k := r.allocator.trackOf fun i => (q.channels[i]?).getD {} with hk
  set start := r.allocator.place q r.lastFlushTime with hstart
  have hgen : r.generateSteps (some q) upto = .ok (r.advance k start upto) :=
    generateSteps_eq_advance late hq.channel (hq.line_positionAt r.lastFlushTime)
  refine ⟨r.allocator.place q,r.advance k start upto,hq.positionAt_eq,hgen,
    generateSteps_kept (fun _ _ _ => rfl) (fun _ _ => rfl) hgen,fun near smooth => ?_⟩
  -- where no segment begins the position cannot jump
  have hm : ∀ t, r.lastFlushTime < t → t < upto →
      (k.motion start).positionBefore t = (k.motion start).position t := by
    intro t hft htu
    rw [motion_position_of_fed hq,motion_positionBefore_of_fed hq]
    by_cases hs : ∃ i ∈ r.allocator.channels, ∃ m ∈ q.line i, m.startTime = t
    · obtain ⟨i,hi,m,hm,rfl⟩ := hs
      have hb := smooth i hi m hm m.startTime (Or.inl rfl) hft htu
      rw [hq.positionBefore_eq] at hb
      exact Option.some.inj (Except.ok.inj hb)
    · push Not at hs
      exact Allocator.approach_eq_place hs
  have hw := stepWindows_breakpoints_near late (motion_position_of_fed hq r.lastFlushTime) hm near
  refine ⟨_,endsAt_lastPosition hq late,near_advance hw,fun ⟨i,hi,m,hm,ht⟩ => ?_⟩
  have hcov : k.covers r.lastFlushTime upto = true :=
    Track.covers_eq_true.2 ⟨m,Allocator.mem_touching.2 ⟨⟨i,hi,hm⟩,ht⟩⟩
  obtain ⟨hsettled,hpos⟩ := settled_advance _ hcov rfl hw
  exact ⟨hpos,fun s hs => (hsettled s hs).2.trans hpos⟩

section Turn

noncomputable def out : Segment ℝ := ⟨0,0,0,1,0,2,2,0⟩

noncomputable def back : Segment ℝ := ⟨1,2,0,1,0,-1,-1,0⟩

noncomputable def turn : SegmentQueue ℝ := { channels := [{ active := [out,back] }] }

noncomputable def pair : Rail ℝ :=
  { ofName "x" with
    steppers := [Stepper.ofName "a" "mcu" (1 / 4),Stepper.ofName "b" "mcu" (3 / 8)] }

theorem fed_turn : pair.allocator.Fed turn := by
  intro i hi
  obtain rfl : i = 0 := List.mem_singleton.1 hi
  exact List.cons_ne_nil back [out]

theorem sound_out : out.Sound := ⟨le_rfl,zero_le_one,le_rfl⟩

theorem sound_back : back.Sound := ⟨le_rfl,zero_le_one,le_rfl⟩

theorem endTime_out : out.endTime = 1 := by simp [Segment.endTime_exact,out]

theorem endTime_back : back.endTime = 2 := by norm_num [Segment.endTime_exact,back]

theorem boundaries_out : out.boundaries = [0,0,1,1] := by
  norm_num [Segment.boundaries,endTime_out]
  norm_num [out]

theorem boundaries_back : back.boundaries = [1,1,2,2] := by
  norm_num [Segment.boundaries,endTime_back]
  norm_num [back]

theorem endPosition_out : out.endPosition = 2 := by
  rw [sound_out.endPosition_eq]
  norm_num [Segment.travel,Segment.duration,out]

theorem endPosition_back : back.endPosition = 1 := by
  rw [sound_back.endPosition_eq]
  norm_num [Segment.travel,Segment.duration,back]

theorem place_turn (t : ℝ) :
    pair.allocator.place turn t = (Timeline.positionAt [back,out] t).getD 0 :=
  Allocator.combined_cartesian .x fun i => ((turn.line i).positionAt t).getD 0

theorem approach_turn (t : ℝ) :
    pair.allocator.approach turn t = (Timeline.positionBefore [back,out] t).getD 0 :=
  Allocator.combined_cartesian .x fun i => ((turn.line i).positionBefore t).getD 0

theorem place_turn_zero : pair.allocator.place turn 0 = 0 := by
  rw [place_turn,Timeline.positionAt_cons_of_lt (show (0 : ℝ) < 1 from zero_lt_one) (by simp),
    Timeline.positionAt_cons_of_le (show (0 : ℝ) ≤ 0 from le_rfl)]
  exact sound_out.positionAt_of_le_startTime (le_refl (0 : ℝ))

theorem approach_turn_one : pair.allocator.approach turn 1 = pair.allocator.place turn 1 := by
  have hstart := sound_back.positionAt_of_le_startTime (le_refl (1 : ℝ))
  have hend := sound_out.positionAt_of_endTime_le endTime_out.le
  rw [place_turn,approach_turn,Timeline.positionAt_cons_of_le (show (1 : ℝ) ≤ 1 from le_rfl),
    Timeline.positionBefore_cons_of_le (show (1 : ℝ) ≤ 1 from le_rfl) (by simp),
    Timeline.positionBefore_cons_of_lt (show (0 : ℝ) < 1 from zero_lt_one),hstart,hend,
    endPosition_out]
  rfl

theorem approach_turn_two : pair.allocator.approach turn 2 = 1 := by
  rw [approach_turn,Timeline.positionBefore_cons_of_lt (show (1 : ℝ) < 2 from one_lt_two),
    sound_back.positionAt_of_endTime_le endTime_back.le,endPosition_back]
  rfl

theorem mem_line_turn {i : Nat} (hi : i ∈ pair.allocator.channels) {m : Segment ℝ}
    (hm : m ∈ turn.line i) : m = back ∨ m = out := by
  obtain rfl : i = 0 := List.mem_singleton.1 hi
  exact List.mem_pair.1 hm

theorem getLast?_windows_turn {k : Track ℝ} (hk : pair.track turn = .ok k) :
    ∃ a, (windows (breakpoints k 0 2)).getLast? = some (a,2) := by
  obtain rfl := Except.ok.inj (hk.symm.trans (track_of_fed fed_turn))
  have he : (timeEpsilon : ℝ) < 1 := by rw [timeEpsilon_exact]; norm_num
  refine getLast?_windows_breakpoints (by linarith) fun m hm t ht hlt => ?_
  obtain ⟨⟨i,hi,hm⟩,-⟩ := Allocator.mem_touching.1 hm
  have ht1 : t ≤ 1 := by
    rcases mem_line_turn hi hm with rfl | rfl
    · simp only [boundaries_back,List.mem_cons,List.not_mem_nil,or_false] at ht
      rcases ht with rfl | rfl | rfl | rfl <;> linarith
    · simp only [boundaries_out,List.mem_cons,List.not_mem_nil,or_false] at ht
      rcases ht with rfl | rfl | rfl | rfl <;> linarith
  linarith

theorem near_pair : ∀ s ∈ pair.steppers, s.Near 0 := by
  intro s hs
  rcases List.mem_pair.1 hs with rfl | rfl <;>
    refine Stepper.near_of_place (by norm_num [Stepper.ofName]) ?_ <;>
    simp [Stepper.place,Stepper.positionOfSteps,stepsToDistance,Stepper.ofName]

theorem generateSteps_near_turn : ∃ r', pair.generateSteps (some turn) 2 = .ok r' ∧
    r'.steppers.map Stepper.stepDistance = [1 / 4,3 / 8] ∧ r'.commandedPos = 1 ∧
    ∀ s ∈ r'.steppers, s.Near 1 ∧ s.commandedPos = 1 := by
  obtain ⟨p,r',hp,hgen,hkept,h⟩ :=
    generateSteps_near fed_turn (show pair.lastFlushTime < 2 from zero_lt_two)
  have hplace (t : ℝ) : p t = pair.allocator.place turn t :=
    Option.some.inj (Except.ok.inj ((hp t).symm.trans (fed_turn.positionAt_eq t)))
  have hsmooth : ∀ i ∈ pair.allocator.channels, ∀ m ∈ turn.line i, ∀ t,
      t = m.startTime ∨ t = m.endTime → 0 < t → t < 2 →
      pair.allocator.positionBefore turn t = .ok (some (p t)) := by
    intro i hi m hm t ht h0 h2
    -- between the flushes segments begin and end only where the rail turns
    have ht1 : t = 1 := by
      rcases mem_line_turn hi hm with rfl | rfl
      · rw [endTime_back] at ht
        exact ht.resolve_right h2.ne
      · rw [endTime_out] at ht
        exact ht.resolve_left h0.ne'
    rw [ht1,fed_turn.positionBefore_eq,approach_turn_one,hplace]
  obtain ⟨e,⟨k,hk,hlast⟩,hnear,hcommanded⟩ :=
    h (by rw [hplace]; exact place_turn_zero ▸ near_pair) hsmooth
  obtain ⟨a,ha⟩ := getLast?_windows_turn hk
  rw [show pair.lastFlushTime = 0 from rfl,ha] at hlast
  have he : e = 1 := by
    have hb := hlast.2.2
    rw [fed_turn.positionBefore_eq,approach_turn_two] at hb
    exact (Option.some.inj (Except.ok.inj hb)).symm
  subst he
  obtain ⟨hpos,hall⟩ := hcommanded ⟨0,List.mem_singleton_self 0,back,List.mem_cons_self,by
    rw [endTime_back]; exact ⟨zero_lt_two,one_lt_two⟩⟩
  refine ⟨r',hgen,?_,hpos,fun s hs => ⟨hnear s hs,hall s hs⟩⟩
  have hd := congrArg (List.map fun x => x.2.1) hkept
  rwa [List.map_map,List.map_map] at hd

end Turn

end Rail

end Gantry
