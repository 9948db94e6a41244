import Mathlib
import Gantry.Proofs.Queue.History
import Gantry.Proofs.Rail.Renewal
import Gantry.Proofs.Rail.Tracking

/-!
Resets: a rail is placed anew when everything before has been stepped, and is then fed moves. The
flush behind it does what it would do had there been nothing before, unless the slack between the
times that cut its windows swallows the start of the moves. In that case the jump between the old
position and the new one reaches the steps or the commanded position.
-/
set_option autoImplicit false

namespace Gantry

structure Rail.Alike (r r' : Rail ℝ) : Prop where
  commandedPos : r.commandedPos = r'.commandedPos
  steps : r.steppers.map (fun s => (s.counter,s.sink.events)) =
    r'.steppers.map fun s => (s.counter,s.sink.events)

/-- A rail that was flushed behind all segments of its channels, was placed at a coordinate, and
was fed moves that start there. -/
structure Reset where
  rail : Rail ℝ
  old : SegmentQueue ℝ
  coord : List ℝ
  placed : Rail ℝ
  moves : List (ℝ × ToolheadMove ℝ)
  queue : SegmentQueue ℝ
  reachable : old.Reachable
  wide : ∀ i ∈ rail.allocator.channels, i < old.channels.length
  ended : ∀ i ∈ rail.allocator.channels, ∀ m ∈ old.line i, m.endTime ≤ rail.lastFlushTime
  place : rail.setPosition coord = .ok placed
  covers : ∀ p ∈ moves, ∀ i ∈ rail.allocator.channels,
    i < p.2.startPos.length ∧ i < p.2.axesR.length
  goesOn : ∃ p ∈ moves.head?, rail.lastFlushTime ≤ p.1 ∧
    ∀ i ∈ rail.allocator.channels, p.2.startPos[i]? = coord[i]?
  fed : old.appendMoves moves = .ok queue

namespace Reset
variable {x : Reset} {s upto : ℝ}

def BeginsAt (x : Reset) (s : ℝ) : Prop := (∀ p ∈ x.moves, s ≤ p.1) ∧ ∃ p ∈ x.moves, p.1 = s

def Unnoticed (x : Reset) (upto : ℝ) : Prop :=
  ∃ fresh r r', (SegmentQueue.ofChannels x.old.channels.length).appendMoves x.moves = .ok fresh ∧
    x.placed.generateSteps (some x.queue) upto = .ok r ∧
    x.placed.generateSteps (some fresh) upto = .ok r' ∧ r.Alike r'

theorem placed_eq (x : Reset) : x.placed.allocator = x.rail.allocator ∧
    x.placed.lastFlushTime = x.rail.lastFlushTime := by
  have h := x.place
  unfold Rail.setPosition at h
  split at h
  · rw [← Except.ok.inj h]; exact ⟨rfl,rfl⟩
  · cases h

theorem exists_fresh (x : Reset) : ∃ fresh,
    (SegmentQueue.ofChannels x.old.channels.length).appendMoves x.moves = .ok fresh :=
  SegmentQueue.appendMoves_newer x.fed (by simp [SegmentQueue.ofChannels])
    fun i => ⟨x.old.line i,by simp⟩

theorem renewed (hb : x.BeginsAt s) {fresh : SegmentQueue ℝ}
    (hf : (SegmentQueue.ofChannels x.old.channels.length).appendMoves x.moves = .ok fresh) {i : Nat}
    (hi : i ∈ x.rail.allocator.channels) :
    Timeline.Renewed x.rail.lastFlushTime s (x.queue.line i) (fresh.line i) := by
  have hw := x.wide i hi
  have hold : ∀ m ∈ x.old.line i, m.Sound := by
    intro m hm
    have hc := List.getElem?_eq_getElem hw
    rw [SegmentQueue.line_eq hc,Channel.mem_timeline] at hm
    exact Segment.sound_of_validate (x.reachable.validate hc hm)
  rw [SegmentQueue.line_appendMoves x.fed hw,
    SegmentQueue.line_appendMoves hf (by simpa [SegmentQueue.ofChannels] using hw),
    SegmentQueue.line_ofChannels,List.append_nil]
  refine ⟨⟨_,rfl,hold,x.ended i hi⟩,fun m hm => ?_,fun m hm => ?_,?_⟩
  · exact Segment.sound_of_validate (SegmentQueue.validate_of_appendMoves x.fed hw hm)
  · obtain ⟨p,hp,hpm⟩ := SegmentQueue.mem_added.1 hm
    rw [(ToolheadMove.axisSegment_spec hpm).1]
    exact hb.1 p hp
  · obtain ⟨p,hp,hps⟩ := hb.2
    obtain ⟨hl,hr⟩ := x.covers p hp i hi
    obtain ⟨m,hm⟩ := p.2.axisSegment_isSome (t := p.1) hl hr
    exact ⟨m,SegmentQueue.mem_added.2 ⟨p,hp,hm⟩,(ToolheadMove.axisSegment_spec hm).1.trans hps⟩

theorem unnoticed (hb : x.BeginsAt s) (hs : s ≤ x.rail.lastFlushTime ∨ upto ≤ s ∨
    x.rail.lastFlushTime + timeEpsilon ≤ s ∧ s + timeEpsilon ≤ upto) : x.Unnoticed upto := by
  obtain ⟨fresh,hf⟩ := x.exists_fresh
  obtain ⟨ha,hl⟩ := x.placed_eq
  have hlen := SegmentQueue.length_appendMoves x.fed
  have hlen' : fresh.channels.length = x.old.channels.length := by
    simpa [SegmentQueue.ofChannels] using SegmentQueue.length_appendMoves hf
  have hq : ∀ i ∈ x.placed.allocator.channels,
      x.queue.channels[i]? = some ((x.queue.channels[i]?).getD {}) := by
    intro i hi
    rw [ha] at hi
    simp [List.getElem?_eq_getElem (hlen.symm ▸ x.wide i hi)]
  have hq' : ∀ i ∈ x.placed.allocator.channels,
      fresh.channels[i]? = some ((fresh.channels[i]?).getD {}) := by
    intro i hi
    rw [ha] at hi
    simp [List.getElem?_eq_getElem (hlen'.symm ▸ x.wide i hi)]
  obtain ⟨r,hr,hr'⟩ := Rail.generateSteps_renewed hq hq'
    (fun i hi => by rw [ha] at hi; rw [hl]; exact renewed hb hf hi) (by rw [hl]; exact hs)
  exact ⟨fresh,r,r,hf,hr,hr',rfl,rfl⟩

section Jump

noncomputable def alone (m : Segment ℝ) : ToolheadMove ℝ where
  startPos := [m.startPos]
  axesR := [1]
  maxCruiseV2 := m.cruiseV * m.cruiseV
  accelT := m.accelT
  cruiseT := m.cruiseT
  decelT := m.decelT
  startV := m.startV
  cruiseV := m.cruiseV
  accel := m.accel

theorem appendMoves_alone {c : Channel ℝ} {m : Segment ℝ} (hv : m.validate = .ok ())
    (ha : c.admits m = .ok ()) :
    SegmentQueue.appendMoves { channels := [c] } [(m.startTime,alone m)] =
      .ok { channels := [c.push m] } := by
  have hs : SegmentQueue.segmentsOf { channels := [c] } m.startTime (alone m) = [(0,m)] := by
    simp [SegmentQueue.segmentsOf,SegmentQueue.covered,alone,ToolheadMove.axisSegment]
  refine SegmentQueue.appendMoves_cons.2 ⟨_,SegmentQueue.appendMove_eq_ok.2 ⟨?_,?_⟩,rfl⟩
  · rw [hs]
    rintro x hx
    rw [List.mem_singleton.1 hx]
    exact SegmentQueue.admits_eq_ok.2 ⟨hv,c,rfl,ha⟩
  · rw [hs]; rfl

structure Apart (f : ℝ) (past next : Segment ℝ) : Prop where
  valid : past.validate = .ok () ∧ next.validate = .ok ()
  ended : past.endTime ≤ f
  begins : f ≤ next.startTime

noncomputable def restingRail (st : Stepper ℝ) (f : ℝ) (past : Segment ℝ) : Rail ℝ where
  name := .clip "r"
  steppers := [st]
  commandedPos := past.endPosition
  lastFlushTime := f

noncomputable def jump (st : Stepper ℝ) {f : ℝ} {past next : Segment ℝ} (h : Apart f past next) :
    Reset where
  rail := restingRail st f past
  old := { channels := [{ active := [past] }] }
  coord := [next.startPos]
  placed := { restingRail st f past with
    steppers := [st.setPosition next.startPos]
    commandedPos := next.startPos }
  moves := [(next.startTime,alone next)]
  queue := { channels := [{ active := [past,next] }] }
  reachable := by
    refine .append 0 past (.ofChannels 1) (SegmentQueue.append_eq_ok.2 ⟨?_,rfl⟩)
    exact SegmentQueue.admits_eq_ok.2 ⟨h.valid.1,{},rfl,rfl⟩
  wide := by
    intro i hi
    obtain rfl : i = 0 := List.mem_singleton.1 hi
    simp
  ended := by
    intro i hi m hm
    obtain rfl : i = 0 := List.mem_singleton.1 hi
    obtain rfl : m = past := by
      simpa [SegmentQueue.line,Channel.timeline,Channel.segments] using hm
    exact h.ended
  place := by
    have hc : ∀ i ∈ (restingRail st f past).allocator.channels,
        [next.startPos][i]? = some next.startPos := by
      intro i hi
      obtain rfl : i = 0 := List.mem_singleton.1 hi
      rfl
    rw [Rail.setPosition_eq (p := fun _ => next.startPos) hc]
    simp [restingRail,default]
  covers := by
    intro p hp i hi
    obtain rfl : i = 0 := List.mem_singleton.1 hi
    rw [List.mem_singleton.1 hp]
    simp [alone]
  goesOn := by
    refine ⟨_,rfl,h.begins,fun i hi => ?_⟩
    obtain rfl : i = 0 := List.mem_singleton.1 hi
    rfl
  fed := by
    refine appendMoves_alone h.valid.2 ?_
    have he : past.endTime - timeEpsilon ≤ next.startTime := by
      have := timeEpsilon_pos
      linarith [h.ended,h.begins]
    simp [Channel.admits,Channel.tail?,Channel.segments,not_lt.2 he]

variable {st : Stepper ℝ} {f : ℝ} {past next : Segment ℝ} {h : Apart f past next}

theorem positionAt_past (h : Apart f past next) (hf : f < next.startTime) :
    Timeline.positionAt [next,past] f = some past.endPosition := by
  have hs := Segment.sound_of_validate h.valid.1
  rw [Timeline.positionAt_cons_of_lt hf (by simp),
    Timeline.positionAt_cons_of_le (hs.startTime_le_endTime.trans h.ended),
    hs.positionAt_of_endTime_le h.ended]

theorem generateSteps_jump (st : Stepper ℝ) (h : Apart f past next) (hf : f < next.startTime)
    (hu : f < upto) :
    (jump st h).placed.generateSteps (some (jump st h).queue) upto =
      .ok ((jump st h).placed.advance
        ((Allocator.cartesian .x).trackOf fun _ => { active := [past,next] })
        past.endPosition upto) ∧
    (jump st h).placed.generateSteps (some { channels := [{ active := [next] }] }) upto =
      .ok ((jump st h).placed.advance ((Allocator.cartesian .x).trackOf fun _ => { active := [next] })
        next.startPos upto) := by
  constructor
  · exact Rail.generateSteps_cartesian rfl hu rfl (positionAt_past h hf)
  · exact Rail.generateSteps_cartesian rfl hu rfl (Timeline.positionAt_single_of_lt hf)

theorem unnoticed_jump_iff (hf : f < next.startTime) (hu : f < upto) :
    (jump st h).Unnoticed upto ↔
      ((jump st h).placed.advance
        ((Allocator.cartesian .x).trackOf fun _ => { active := [past,next] })
        past.endPosition upto).Alike
      ((jump st h).placed.advance ((Allocator.cartesian .x).trackOf fun _ => { active := [next] })
        next.startPos upto) := by
  obtain ⟨hg,hg'⟩ := generateSteps_jump st h hf hu
  have hfresh : (SegmentQueue.ofChannels (jump st h).old.channels.length).appendMoves
      (jump st h).moves = .ok { channels := [{ active := [next] }] } :=
    appendMoves_alone h.valid.2 rfl
  constructor
  · rintro ⟨q,r,r',hq,hr,hr',ha⟩
    obtain rfl := Except.ok.inj (hfresh.symm.trans hq)
    obtain rfl := Except.ok.inj (hg.symm.trans hr)
    obtain rfl := Except.ok.inj (hg'.symm.trans hr')
    exact ha
  · exact fun ha => ⟨_,_,_,hfresh,hg,hg',ha⟩

theorem renewed_jump (h : Apart f past next) : Timeline.Renewed f next.startTime
    (Channel.timeline { active := [past,next] }) (Channel.timeline { active := [next] }) := by
  refine ⟨⟨[past],rfl,?_,?_⟩,?_,?_,?_⟩
  · simpa using Segment.sound_of_validate h.valid.1
  · simpa using h.ended
  · simpa [Channel.segments] using Segment.sound_of_validate h.valid.2
  · simp [Channel.segments]
  · simp [Channel.segments]

theorem motion_jump {c : Channel ℝ} {rest t p : ℝ} (hp : c.timeline.positionAt t = some p) :
    (((Allocator.cartesian .x).trackOf fun _ => c).motion rest).position t = p := by
  rw [Allocator.motion_position (p := fun _ => p) fun i _ => hp,Allocator.combined_cartesian]

theorem motionBefore_jump {c : Channel ℝ} {rest t p : ℝ}
    (hp : c.timeline.positionBefore t = some p) :
    (((Allocator.cartesian .x).trackOf fun _ => c).motion rest).positionBefore t = p := by
  rw [Allocator.motion_positionBefore (p := fun _ => p) fun i _ => hp,
    Allocator.combined_cartesian]

theorem generateSteps_jump_of_swallowed (st : Stepper ℝ) (h : Apart f past next)
    (hf : f < next.startTime) (hs : next.startTime < upto)
    (hn : upto < f + timeEpsilon ∨ f + timeEpsilon ≤ next.startTime ∧
      upto < next.startTime + timeEpsilon) :
    ∃ r r', (jump st h).placed.generateSteps (some (jump st h).queue) upto = .ok r ∧
      (jump st h).placed.generateSteps (some { channels := [{ active := [next] }] }) upto = .ok r' ∧
      r.commandedPos = past.endPosition ∧ r'.commandedPos = next.startPos := by
  obtain ⟨hg,hg'⟩ := generateSteps_jump st h hf (hf.trans hs)
  refine ⟨_,_,hg,hg',?_,?_⟩
  · exact Rail.advance_renewed_commandedPos (r := (jump st h).placed) hf hs hn
      (fun _ _ => renewed_jump h) (motion_jump (positionAt_past h hf))
  · exact Rail.advance_renewed_commandedPos (r := (jump st h).placed) hf hs hn
      (fun _ _ => (renewed_jump h).alone) (motion_jump (Timeline.positionAt_single_of_lt hf))

theorem not_unnoticed_of_swallowed (hf : f < next.startTime) (hs : next.startTime < upto)
    (hn : upto < f + timeEpsilon ∨ f + timeEpsilon ≤ next.startTime ∧
      upto < next.startTime + timeEpsilon) (hp : past.endPosition ≠ next.startPos) :
    ¬(jump st h).Unnoticed upto := by
  obtain ⟨r,r',hr,hr',hc,hc'⟩ := generateSteps_jump_of_swallowed st h hf hs hn
  obtain ⟨hg,hg'⟩ := generateSteps_jump st h hf (hf.trans hs)
  rw [unnoticed_jump_iff hf (hf.trans hs),← Except.ok.inj (hr.symm.trans hg),
    ← Except.ok.inj (hr'.symm.trans hg')]
  exact fun ha => hp (hc.symm.trans (ha.commandedPos.trans hc'))

/-- A segment that is over within the slack is stepped from where the rail rested before. -/
theorem stepWindows_of_early {c : Channel ℝ} {l : Timeline ℝ} {p : ℝ} (hc : c.timeline = next :: l)
    (hl : ∀ m ∈ l, m.endTime ≤ f) (hs : next.Sound) (hf : f < next.startTime)
    (he : next.endTime < f + timeEpsilon) (hu : f + timeEpsilon ≤ upto)
    (hp : c.timeline.positionAt f = some p) (rest : ℝ) (ss : List (Stepper ℝ)) :
    ∃ position t, stepWindows (((Allocator.cartesian .x).trackOf fun _ => c).motion rest)
      (breakpoints ((Allocator.cartesian .x).trackOf fun _ => c) f upto) ss =
        stepMonotone position f t p next.endPosition ss := by
  have hse := hs.startTime_le_endTime
  have hb : breakpoints ((Allocator.cartesian .x).trackOf fun _ => c) f upto = [f,upto] := by
    refine breakpoints_of_near hu fun t ht => ?_
    obtain ⟨⟨m,hm,hmt⟩,-⟩ := Track.mem_inside.1 ht
    obtain ⟨⟨-,-,hmc⟩,hme,-⟩ := Allocator.mem_touching.1 hm
    rw [hc,List.mem_cons] at hmc
    rcases hmc with rfl | hmc
    · exact (hs.le_endTime_of_mem hmt).trans_lt he
    · linarith [hl m hmc]
  have hlate : ∀ t, f + timeEpsilon ≤ t →
      (((Allocator.cartesian .x).trackOf fun _ => c).motion rest).position t = next.endPosition := by
    intro t ht
    refine motion_jump ?_
    rw [hc,Timeline.positionAt_cons_of_le (by linarith),hs.positionAt_of_endTime_le (by linarith)]
  have hbefore : (((Allocator.cartesian .x).trackOf fun _ => c).motion rest).positionBefore upto =
      next.endPosition := by
    refine motionBefore_jump ?_
    rw [hc,Timeline.positionBefore_cons_of_lt (by linarith),
      hs.positionAt_of_endTime_le (by linarith)]
  obtain ⟨t,ht⟩ := stepWindow_of_early hlate hbefore ss
  rw [motion_jump hp] at ht
  exact ⟨_,t,by rw [hb]; exact ht⟩

/-- A move that is over within the slack is lost if the rail rested where the move ends. -/
theorem not_unnoticed_of_lost (hf : f < next.startTime) (he : next.endTime < f + timeEpsilon)
    (hu : f + timeEpsilon ≤ upto) (hp : past.endPosition = next.endPosition)
    (hd : 0 < st.stepDistance) (hm : st.stepDistance < next.endPosition - next.startPos) :
    ¬(jump st h).Unnoticed upto := by
  have hs := Segment.sound_of_validate h.valid.2
  rw [unnoticed_jump_iff hf (by linarith [timeEpsilon_pos])]
  rintro ⟨-,hsteps⟩
  rw [Rail.advance_steps,Rail.advance_steps] at hsteps
  obtain ⟨g,t,hall⟩ := stepWindows_of_early (c := { active := [past,next] }) rfl
    (by simpa using h.ended) hs hf he hu (positionAt_past h hf) past.endPosition
    (jump st h).placed.steppers
  obtain ⟨g',t',hnew⟩ := stepWindows_of_early (c := { active := [next] }) rfl
    (by simp) hs hf he hu (Timeline.positionAt_single_of_lt hf) next.startPos
    (jump st h).placed.steppers
  have hup : Direction.between? next.startPos next.endPosition = some .positive := by
    simp [Direction.between?,show next.startPos < next.endPosition by linarith]
  have hfollow : stepMonotone g' f t' next.startPos next.endPosition (jump st h).placed.steppers =
      [(st.setPosition next.startPos).follow g' f t' next.endPosition .positive] := by
    simp only [stepMonotone,hup]; rfl
  -- with the past segment the window ends where it began, so the steps of `hfollow` are not made
  have hstay : stepMonotone g f t past.endPosition next.endPosition (jump st h).placed.steppers =
      [st.setPosition next.startPos] := by
    simp only [stepMonotone,hp,Direction.between?,lt_irrefl,if_false]; rfl
  obtain ⟨ts,hts,hahead,-⟩ : ∃ ts,
      (st.setPosition next.startPos).follow g' f t' next.endPosition .positive =
        (st.setPosition next.startPos).stepAll .positive ts ∧ _ :=
    Stepper.follow_spec hd
  change (stepWindows _ (breakpoints _ f upto) _).map _ =
    (stepWindows _ (breakpoints _ f upto) _).map _ at hsteps
  rw [hall,hnew,hfollow,hstay,hts] at hsteps
  have hcount := congrArg Prod.fst (List.cons.inj hsteps).1
  simp only [Stepper.stepAll_counter,Direction.count,mul_one] at hcount
  have hnil : ts = [] := List.length_eq_zero_iff.1 (by omega)
  rw [hnil,Stepper.stepAll_nil,Stepper.ahead,Stepper.place_setPosition] at hahead
  simp only [Direction.sign,one_mul] at hahead
  change _ < st.stepDistance / 2 at hahead
  linarith

theorem beginsAt_jump (h : Apart f past next) : (jump st h).BeginsAt next.startTime := by
  simp [BeginsAt,jump]

end Jump

noncomputable def hop (s d : ℝ) : Segment ℝ := ⟨s,0,0,d,0,2 / d,2 / d,0⟩

theorem hop_validate {s d : ℝ} (hd : 0 < d) : (hop s d).validate = .ok () :=
  Segment.validate_eq_ok ⟨le_rfl,hd.le,le_rfl⟩ (by simp [Segment.reachesCruise,hop])

theorem hop_endTime (s d : ℝ) : (hop s d).endTime = s + d := by
  simp [Segment.endTime_exact,hop]

theorem hop_endPosition {s d : ℝ} (hd : 0 < d) : (hop s d).endPosition = 2 := by
  rw [(Segment.sound_of_validate (hop_validate hd)).endPosition_eq]
  have he : (hop s d).duration = d := by simp [Segment.duration,hop]
  rw [he]
  simp [Segment.travel,hop,hd.le,hd.ne']

theorem hold_validate (t p : ℝ) : (Segment.hold t p 0).validate = .ok () :=
  Segment.validate_eq_ok ⟨le_rfl,le_rfl,le_rfl⟩ (by simp [Segment.reachesCruise,Segment.hold])

theorem hold_endPosition (t p : ℝ) : (Segment.hold t p 0).endPosition = p := by
  rw [(Segment.sound_of_validate (hold_validate t p)).endPosition_of_endTime_le_startTime]
  · rfl
  · simp [Segment.endTime_exact,Segment.hold]

/-- Whatever was there before a reset goes unnoticed by the flush behind it if, and for all times
only if, the moves behind the reset begin no later than the last flush ended, or not before this one
ends, or far enough from both. -/
theorem unnoticed_iff (f s upto : ℝ) :
    (∀ x : Reset, x.rail.lastFlushTime = f → x.BeginsAt s → x.Unnoticed upto) ↔
      s ≤ f ∨ upto ≤ s ∨ f + timeEpsilon ≤ s ∧ s + timeEpsilon ≤ upto := by
  refine ⟨fun hx => ?_,fun hs x hf hb => unnoticed hb (by rw [hf]; exact hs)⟩
  by_contra hn
  push Not at hn
  obtain ⟨hfs,hsu,hn⟩ := hn
  -- the motor rested at two and is placed at zero, from where the move leads it to two again
  have hjump : ∀ d, 0 < d → ∃ h : Apart f (Segment.hold f 2 0) (hop s d),
      (jump (Stepper.ofName "s" "mcu" 1) h).Unnoticed upto := by
    intro d hd
    have h : Apart f (Segment.hold f 2 0) (hop s d) :=
      ⟨⟨hold_validate f 2,hop_validate hd⟩,by simp [Segment.endTime_exact,Segment.hold],hfs.le⟩
    exact ⟨h,hx (jump _ h) rfl (beginsAt_jump h)⟩
  by_cases hlost : s < f + timeEpsilon ∧ f + timeEpsilon ≤ upto
  · have hd : 0 < (f + timeEpsilon - s) / 2 := by linarith [hlost.1]
    obtain ⟨h,hu⟩ := hjump _ hd
    refine not_unnoticed_of_lost hfs ?_ hlost.2 ?_ one_pos ?_ hu
    · rw [hop_endTime]; linarith [hlost.1]
    · rw [hold_endPosition,hop_endPosition hd]
    · rw [hop_endPosition hd]
      norm_num [hop,Stepper.ofName]
  · obtain ⟨h,hu⟩ := hjump 1 one_pos
    refine not_unnoticed_of_swallowed hfs hsu ?_ ?_ hu
    · rcases lt_or_ge upto (f + timeEpsilon) with hu | hu
      · exact Or.inl hu
      · have hfs : f + timeEpsilon ≤ s := not_lt.1 fun hlt => hlost ⟨hlt,hu⟩
        exact Or.inr ⟨hfs,hn hfs⟩
    · rw [hold_endPosition]
      norm_num [hop]

/-- A motor moves from 0 to 5 in the first second and is placed at 100. A move begins there at 2
seconds; a flush closely behind that puts the motor back to 5. -/
theorem commandedPos_reverts : ∃ h : Apart 1 ⟨0,0,0,1,0,5,5,0⟩ ⟨2,100,0,1,0,10,10,0⟩, ∃ r r',
    let x := jump { Stepper.ofName "s" "mcu" 1 with commandedPos := 5, counter := 5 } h
    x.placed.generateSteps (some x.queue) (2 + 5 / 10 ^ 10) = .ok r ∧
      x.placed.generateSteps (some { channels := [{ active := [⟨2,100,0,1,0,10,10,0⟩] }] })
        (2 + 5 / 10 ^ 10) = .ok r' ∧
      r.commandedPos = 5 ∧ r'.commandedPos = 100 ∧ ¬x.Unnoticed (2 + 5 / 10 ^ 10) := by
  have he := timeEpsilon_exact
  have hpast : Segment.validate (⟨0,0,0,1,0,5,5,0⟩ : Segment ℝ) = .ok () :=
    Segment.validate_eq_ok ⟨le_rfl,zero_le_one,le_rfl⟩ (by simp [Segment.reachesCruise])
  have hnext : Segment.validate (⟨2,100,0,1,0,10,10,0⟩ : Segment ℝ) = .ok () :=
    Segment.validate_eq_ok ⟨le_rfl,zero_le_one,le_rfl⟩ (by simp [Segment.reachesCruise])
  have hend : Segment.endPosition (⟨0,0,0,1,0,5,5,0⟩ : Segment ℝ) = 5 := by
    rw [(Segment.sound_of_validate hpast).endPosition_eq]
    simp [Segment.travel,Segment.duration]
  have h : Apart 1 ⟨0,0,0,1,0,5,5,0⟩ ⟨2,100,0,1,0,10,10,0⟩ :=
    ⟨⟨hpast,hnext⟩,by simp [Segment.endTime_exact],by norm_num⟩
  have hn : (2 + 5 / 10 ^ 10 : ℝ) < 1 + timeEpsilon ∨ 1 + timeEpsilon ≤ (2 : ℝ) ∧
      (2 + 5 / 10 ^ 10 : ℝ) < 2 + timeEpsilon := by
    rw [he]; norm_num
  obtain ⟨r,r',hr,hr',hc,hc'⟩ := generateSteps_jump_of_swallowed
    { Stepper.ofName "s" "mcu" 1 with commandedPos := 5, counter := 5 } h (by norm_num)
    (by norm_num) hn
  refine ⟨h,r,r',hr,hr',hc.trans hend,hc',?_⟩
  exact not_unnoticed_of_swallowed (by norm_num) (by norm_num) hn (by rw [hend]; norm_num)

end Reset

end Gantry
