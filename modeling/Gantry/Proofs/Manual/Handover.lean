import Mathlib
import Gantry.Proofs.Manual.Astray

/-!
Handovers: a manual axis takes commands of its own, or is registered and follows the moves of the
toolhead. Its queue takes segments from both. No segment comes too early, unless the axis was
ahead of the toolhead when it was registered.
-/
set_option autoImplicit false

namespace Gantry

namespace SegmentQueue
variable {q q' : SegmentQueue ℝ} {m : Segment ℝ} {t u : ℝ}

def EndsBy (q : SegmentQueue ℝ) (t : ℝ) : Prop := ∀ m ∈ (q.line 0).head?, m.endTime ≤ t

theorem EndsBy.mono (h : q.EndsBy t) (htu : t ≤ u) : q.EndsBy u :=
  fun m hm => (h m hm).trans htu

theorem endsBy_ofChannels (n : Nat) (t : ℝ) : (ofChannels n).EndsBy t := by
  intro m hm
  simp at hm

theorem endsBy_of_append (h : q.append 0 m = .ok q') : q'.EndsBy m.endTime := by
  intro n hn
  rw [head?_line_append h] at hn
  rw [← Option.some.inj hn]

theorem EndsBy.finalize (h : q.EndsBy t) (before after : ℝ) : (q.finalize before after).EndsBy t := by
  intro m hm
  rw [head?_line_finalize] at hm
  exact h m hm

end SegmentQueue

def InOrder {β : Type} (r : Except (Error ℝ) β) : Prop :=
  ∀ x y, r ≠ .error (.queue (.outOfOrder x y))

theorem inOrder_ok {β : Type} (b : β) : InOrder (.ok b) := nofun

theorem inOrder_command {β : Type} (e : CommandError ℝ) :
    InOrder (.error (.command e) : Except _ β) :=
  nofun

theorem InOrder.map {β γ : Type} {r : Except (Error ℝ) β} (h : InOrder r) (f : β → γ) :
    InOrder (r.map f) := by
  cases r with
  | ok b => exact inOrder_ok _
  | error e => exact fun x y he => h x y (congrArg _ (Except.error.inj he))

theorem OfMotion.inOrder {β : Type} {r : Except (Error ℝ) β} (h : OfMotion r) : InOrder r := by
  intro x y he
  obtain ⟨m,hm⟩ := h _ he
  cases hm

def time {σ : Type} [MotionClock σ ℝ] (s : σ) : ℝ := (MotionClock.lastMoveTime s).1

class Steady (σ : Type) [AxisHost σ ℝ] : Prop where
  time_lastMoveTime : ∀ s : σ, time s ≤ time (MotionClock.lastMoveTime s).2
  time_dwell : ∀ (d : ℝ) (s : σ), 0 ≤ d → time (MotionClock.dwell d s) = time s + d
  time_add : ∀ axis (pos : ℝ) (s : σ), time s ≤ time (AxisHost.addExtraAxis axis pos s).2
  time_remove : ∀ name (s : σ), time s ≤ time (AxisHost.removeExtraAxis name s).2
  time_register : ∀ owner (s : σ), time s ≤ time (AxisHost.registerGenerator owner s)
  time_unregister : ∀ owner (s : σ), time s ≤ time (AxisHost.unregisterGenerator owner s)

namespace ManualAxis
variable {σ : Type} {a b : ManualAxis ℝ} {s : σ}

section Clock
variable [MotionClock σ ℝ]

def Timely (a : ManualAxis ℝ) (s : σ) : Prop := a.queue.EndsBy (max a.nextCmdTime (time s))

theorem Timely.sync (h : a.Timely s) : (a.sync s).1.queue.EndsBy (a.sync s).1.nextCmdTime := by
  rw [sync_fst]
  exact h

theorem Timely.drive (h : a.Timely s) (target speed accel : ℝ) (synchronize : Bool) :
    InOrder (a.drive s target speed accel synchronize).1 ∧
      (a.drive s target speed accel synchronize).2.1.queue.EndsBy
        (a.drive s target speed accel synchronize).2.1.nextCmdTime := by
  have hsync := h.sync
  rw [sync_queue] at hsync
  rw [drive_eq]
  cases happ : a.queue.append 0 (a.planned s target speed accel) with
  | error e =>
    -- a planned segment starts no earlier than the queue ends, so only its numbers can be refused
    refine ⟨fun x y he => ?_,?_⟩
    · rw [Error.queue.inj (Except.error.inj he),SegmentQueue.append_eq_outOfOrder] at happ
      obtain ⟨-,-,n,hn,-,hlt⟩ := happ
      have hle : n.endTime ≤ (a.planned s target speed accel).startTime := hsync n hn
      linarith [timeEpsilon_pos]
    · rw [sync_queue]; exact hsync
  | ok queue =>
    have hend := SegmentQueue.endsBy_of_append happ
    dsimp only
    cases hg : a.rail.generateSteps (some queue) (a.planned s target speed accel).endTime with
    | error e =>
      have hstep := (a.rail.ofMotion_generateSteps (some queue)
        (a.planned s target speed accel).endTime).inOrder
      rw [hg] at hstep
      exact ⟨hstep.map fun _ => (),hend⟩
    | ok rail =>
      refine ⟨inOrder_ok (),?_⟩
      cases synchronize with
      | true =>
        set b := a.driven rail queue (a.planned s target speed accel).endTime
        set s' := MotionClock.noteActivity (a.planned s target speed accel).endTime (a.sync s).2
        have hle : (a.planned s target speed accel).endTime ≤ (b.sync s').1.nextCmdTime :=
          b.le_sync_nextCmdTime s'
        change (b.sync s').1.queue.EndsBy (b.sync s').1.nextCmdTime
        rw [sync_queue]
        exact (hend.finalize _ _).mono hle
      | false => exact hend.finalize _ _

theorem timely_of_endsBy (h : b.queue.EndsBy b.nextCmdTime) : b.Timely s :=
  h.mono (le_max_left _ _)

theorem Timely.place (h : a.Timely s) {pos : ℝ} (hp : a.place pos = .ok b) :
    b.letter = a.letter ∧ b.Timely s := by
  obtain ⟨rail,-,rfl⟩ := Results.map_eq_ok.1 hp
  exact ⟨rfl,h⟩

/-- What a command of the axis does: nothing, or it leaves an axis that takes commands, with all
that its queue knows behind it. -/
def Commanded (a : ManualAxis ℝ) (s : σ) (r : ManualAxis ℝ × σ) : Prop :=
  r = (a,s) ∨ a.letter = none ∧ r.1.letter = none ∧ r.1.Timely r.2

theorem Timely.setPosition (h : a.Timely s) {pos : ℝ} (hp : a.setPosition pos = .ok b) :
    a.Commanded s (b,s) := by
  obtain ⟨hc,hp⟩ := Results.check_eq_ok.1 hp
  obtain ⟨hl,hb⟩ := h.place hp
  have hnone := (checkCommandable_eq_ok.1 hc).1
  exact Or.inr ⟨hnone,hl.trans hnone,hb⟩

theorem drive_letter (a : ManualAxis ℝ) (s : σ) (target speed accel : ℝ) (synchronize : Bool) :
    (a.drive s target speed accel synchronize).2.1.letter = a.letter := by
  obtain ⟨rail,queue,t,hf⟩ := a.drive_frame s target speed accel synchronize
  rw [hf]

theorem Timely.moveTo (h : a.Timely s) (target : ℝ) (speed accel : Option ℝ) (synchronize : Bool) :
    InOrder (a.moveTo s target speed accel synchronize).1 ∧
      a.Commanded s (a.moveTo s target speed accel synchronize).2 := by
  rcases a.moveTo_cases s target speed accel synchronize with ⟨hc,v,w,hs⟩ | ⟨e,he⟩
  · rw [moveTo_eq target synchronize hc hs]
    obtain ⟨hr,hend⟩ := h.drive target v w synchronize
    have hnone := (checkCommandable_eq_ok.1 hc).1
    exact ⟨hr,Or.inr ⟨hnone,(drive_letter a s target v w synchronize).trans hnone,
      timely_of_endsBy hend⟩⟩
  · rw [he]
    exact ⟨inOrder_command e,Or.inl rfl⟩

theorem Timely.enable [StepperEnable σ ℝ] (h : a.Timely s) (on : Bool) :
    a.Commanded s (a.enable s on).2 := by
  unfold ManualAxis.enable
  cases hc : a.checkCommandable with
  | error e => exact Or.inl rfl
  | ok u =>
    have hnone := (checkCommandable_eq_ok.1 hc).1
    refine Or.inr ⟨hnone,?_,timely_of_endsBy (timely_of_endsBy h.sync).sync⟩
    exact ((a.sync s).1.sync_letter _).trans ((a.sync_letter s).trans hnone)

theorem Timely.answer (h : a.Timely s) (action : HomingAction ℝ) :
    InOrder (a.answer s action).1 ∧ (a.answer s action).2.1.letter = a.letter ∧
      (a.answer s action).2.1.Timely (a.answer s action).2.2 := by
  cases action with
  | setPosition coord =>
    simp only [ManualAxis.answer]
    cases hp : firstOf coord >>= a.place with
    | ok b =>
      obtain ⟨pos,-,hp⟩ := Results.bind_eq_ok.1 hp
      exact ⟨inOrder_ok _,h.place hp⟩
    | error e =>
      have hr : InOrder (firstOf coord >>= a.place) :=
        ((ofMotion_firstOf coord).bind a.ofMotion_place).inOrder
      rw [hp] at hr
      exact ⟨hr.map fun _ => .done,rfl,h⟩
  | flush => exact ⟨inOrder_ok _,a.sync_letter s,timely_of_endsBy h.sync⟩
  | lastMoveTime => exact ⟨inOrder_ok _,a.sync_letter s,timely_of_endsBy h.sync⟩
  | dwell d =>
    refine ⟨inOrder_ok _,rfl,h.mono (max_le_max_right _ ?_)⟩
    simp [ManualAxis.answer,delay]
  | dripMove coord speed =>
    simp only [ManualAxis.answer]
    cases hf : firstOf coord with
    | error e =>
      have hr := (ofMotion_firstOf coord).inOrder
      rw [hf] at hr
      exact ⟨hr.map fun _ => .done,rfl,h⟩
    | ok target =>
      obtain ⟨hr,hend⟩ := h.drive target speed a.homingAccel true
      exact ⟨hr.map _,drive_letter a s target speed a.homingAccel true,timely_of_endsBy hend⟩
  | position => exact ⟨inOrder_ok _,rfl,h⟩
  | steppers => exact ⟨inOrder_ok _,rfl,h⟩
  | calcPosition p =>
    exact ⟨((a.ofMotion_calcPosition p).map _).inOrder,rfl,h⟩
  | stepperPositions => exact ⟨inOrder_ok _,rfl,h⟩

theorem Timely.follow (h : a.Timely s) (plan : HomingPlan ℝ) :
    (∀ r ∈ (a.follow s plan).replies, InOrder r) ∧ (a.follow s plan).axis.letter = a.letter ∧
      (a.follow s plan).axis.Timely (a.follow s plan).surroundings := by
  induction plan generalizing a s with
  | finish result => exact ⟨nofun,rfl,h⟩
  | ask action next ih =>
    obtain ⟨hr,hl,ht⟩ := h.answer action
    obtain ⟨hrs,hl',ht'⟩ := ih _ ht
    exact ⟨List.forall_mem_cons.2 ⟨hr,hrs⟩,hl'.trans hl,ht'⟩

theorem Timely.homingMove (h : a.Timely s) (coordinator : HomingRequest ℝ → HomingPlan ℝ)
    (target : ℝ) (speed accel : Option ℝ) (triggered checkTrigger : Bool) :
    (∀ r ∈ (a.homingMove s coordinator target speed accel triggered checkTrigger).2.replies,
      InOrder r) ∧
    a.Commanded s
      ((a.homingMove s coordinator target speed accel triggered checkTrigger).2.axis,
        (a.homingMove s coordinator target speed accel triggered checkTrigger).2.surroundings) := by
  unfold ManualAxis.homingMove
  cases hc : a.checkHoming speed accel with
  | error e => exact ⟨nofun,Or.inl rfl⟩
  | ok p =>
    have hnone : a.letter = none := by
      unfold checkHoming at hc
      exact (checkCommandable_eq_ok.1 (Results.check_eq_ok.1 hc).1).1
    have hbegun : Timely { a with homingAccel := p.2, state := .homing } s := h
    obtain ⟨hrs,hl,ht⟩ := hbegun.follow
      (coordinator ⟨a.rail.endstops,[target,0,0,0],p.1,triggered,checkTrigger⟩)
    exact ⟨hrs,Or.inr ⟨hnone,hl.trans hnone,ht⟩⟩

end Clock

section Host
variable [AxisHost σ ℝ] {mv : ToolheadMove ℝ} {slot : Nat} {m : Segment ℝ} {t : ℝ}

theorem processMove_endsBy (h : a.processMove t mv slot = .ok b) :
    b.queue.EndsBy (t + mv.duration) ∧ b.letter = a.letter := by
  unfold processMove at h
  cases hm : mv.axisSegment t slot with
  | none => rw [hm] at h; cases h
  | some m =>
    rw [hm] at h
    dsimp only at h
    cases hq : a.queue.append 0 m with
    | error e => rw [hq] at h; cases h
    | ok queue =>
      rw [hq] at h
      rw [← Except.ok.inj h,← (ToolheadMove.axisSegment_spec hm).2.1]
      exact ⟨SegmentQueue.endsBy_of_append hq,rfl⟩

theorem processMove_eq_outOfOrder (hm : mv.axisSegment t slot = some m)
    (hv : m.validate = .ok ()) :
    (∃ x y, a.processMove t mv slot = .error (.queue (.outOfOrder x y))) ↔
      ∃ e, a.queue.tailEnd 0 = .ok (some e) ∧ t < e - timeEpsilon := by
  have hstart : m.startTime = t := (ToolheadMove.axisSegment_spec hm).1
  unfold processMove
  rw [hm]
  dsimp only
  constructor
  · rintro ⟨x,y,h⟩
    cases hq : a.queue.append 0 m with
    | ok queue => rw [hq] at h; cases h
    | error e =>
      rw [hq] at h
      rw [Error.queue.inj (Except.error.inj h)] at hq
      obtain ⟨-,-,n,hn,-,hlt⟩ := SegmentQueue.append_eq_outOfOrder.1 hq
      exact ⟨n.endTime,SegmentQueue.tailEnd_eq_ok.2 ⟨n,hn,rfl⟩,hstart ▸ hlt⟩
  · rintro ⟨e,he,hlt⟩
    obtain ⟨n,hn,rfl⟩ := SegmentQueue.tailEnd_eq_ok.1 he
    rw [SegmentQueue.append_eq_outOfOrder.2 ⟨hv,rfl,n,hn,rfl,by rw [hstart]; exact hlt⟩]
    exact ⟨_,_,rfl⟩

theorem setGcodeAxis_of_letter {s' : σ} {owner : Nat} {text : String} {c : Char}
    (hl : a.letter = none) (ht : text ≠ "") (hc : letter? text = some c)
    (ha : AxisHost.addExtraAxis ⟨a.objectName,c,owner⟩ a.rail.commandedPos s = (.ok (),s')) :
    a.setGcodeAxis owner s text =
      (.ok (),{ a with letter := some c },AxisHost.registerGenerator owner s') := by
  unfold setGcodeAxis registerAs
  rw [if_neg (by simp [hl]),if_neg ht,hc]
  dsimp only
  rw [ha]

section Registration
variable [Steady σ]

theorem unregister_frame (a : ManualAxis ℝ) (owner : Nat) (s : σ) :
    (∃ letter, (a.unregister owner s).2.1 = { a with letter }) ∧
      time s ≤ time (a.unregister owner s).2.2 := by
  have hremove := Steady.time_remove a.objectName s
  unfold unregister
  split
  · rename_i e s' hs
    rw [hs] at hremove
    exact ⟨⟨a.letter,rfl⟩,hremove⟩
  · rename_i s' hs
    rw [hs] at hremove
    exact ⟨⟨none,rfl⟩,hremove.trans (Steady.time_unregister owner s')⟩

theorem registerAs_frame (a : ManualAxis ℝ) (owner : Nat) (s : σ) (c : Char) :
    (∃ letter, (a.registerAs owner s c).2.1 = { a with letter }) ∧
      time s ≤ time (a.registerAs owner s c).2.2 := by
  have hadd := Steady.time_add ⟨a.objectName,c,owner⟩ a.rail.commandedPos s
  unfold registerAs
  split
  · rename_i e s' hs
    rw [hs] at hadd
    exact ⟨⟨a.letter,rfl⟩,hadd⟩
  · rename_i s' hs
    rw [hs] at hadd
    exact ⟨⟨some c,rfl⟩,hadd.trans (Steady.time_register owner s')⟩

/-- Registration changes the letter of an axis only, and the clock does not go back. -/
theorem setGcodeAxis_frame (a : ManualAxis ℝ) (owner : Nat) (s : σ) (text : String) :
    (∃ letter, (a.setGcodeAxis owner s text).2.1 = { a with letter }) ∧
      time s ≤ time (a.setGcodeAxis owner s text).2.2 := by
  unfold setGcodeAxis
  split_ifs
  · exact unregister_frame a owner s
  · exact ⟨⟨a.letter,rfl⟩,le_rfl⟩
  · exact ⟨⟨a.letter,rfl⟩,le_rfl⟩
  · cases letter? text with
    | none => exact ⟨⟨a.letter,rfl⟩,le_rfl⟩
    | some c => exact registerAs_frame a owner s c

theorem sync_not_ahead (a : ManualAxis ℝ) (s : σ) :
    (a.sync s).1.nextCmdTime ≤ time (a.sync s).2 := by
  have hread := Steady.time_lastMoveTime s
  unfold sync
  split
  rename_i t s' ht
  have hts : time s = t := congrArg Prod.fst ht
  rw [ht] at hread
  dsimp only at hread ⊢
  split
  · rename_i hlt
    rw [Steady.time_dwell _ _ (sub_nonneg.2 hlt.le)]
    change a.nextCmdTime ≤ _
    linarith
  · exact hts ▸ hread

theorem moveTo_not_ahead (a : ManualAxis ℝ) (s : σ) (target : ℝ) (speed accel : Option ℝ)
    (h : (a.moveTo s target speed accel true).1 = .ok ()) :
    (a.moveTo s target speed accel true).2.1.nextCmdTime ≤
      time (a.moveTo s target speed accel true).2.2 := by
  rcases a.moveTo_cases s target speed accel true with ⟨hc,v,w,hs⟩ | ⟨e,he⟩
  · rw [moveTo_eq target true hc hs,drive_eq] at h ⊢
    cases happ : a.queue.append 0 (a.planned s target v w) with
    | error e => rw [happ] at h; cases h
    | ok queue =>
      rw [happ] at h
      dsimp only at h ⊢
      cases hg : a.rail.generateSteps (some queue) (a.planned s target v w).endTime with
      | error e => rw [hg] at h; cases h
      | ok rail => exact sync_not_ahead _ _
  · rw [he] at h; cases h

end Registration

end Host

end ManualAxis

structure Handover (σ : Type) where
  axis : ManualAxis ℝ
  host : σ
  /-- The axis was ahead of the toolhead when it was registered, and has taken no move since. -/
  early : Prop

namespace Handover
variable {σ : Type} [AxisHost σ ℝ] {x y : Handover σ}

noncomputable def gcodeAxis (x : Handover σ) (owner : Nat) (text : String) : Handover σ where
  axis := (x.axis.setGcodeAxis owner x.host text).2.1
  host := (x.axis.setGcodeAxis owner x.host text).2.2
  early :=
    match x.axis.letter with
    | none => time x.host < x.axis.nextCmdTime
    | some _ => x.early

inductive Step [StepperEnable σ ℝ] (owner : Nat) : Handover σ → Handover σ → Prop where
  | setPosition (x : Handover σ) (pos : ℝ) (axis : ManualAxis ℝ) :
      x.axis.setPosition pos = .ok axis → Step owner x { x with axis }
  | moveTo (x : Handover σ) (target : ℝ) (speed accel : Option ℝ) (synchronize : Bool) :
      Step owner x { x with
        axis := (x.axis.moveTo x.host target speed accel synchronize).2.1
        host := (x.axis.moveTo x.host target speed accel synchronize).2.2 }
  | enable (x : Handover σ) (on : Bool) :
      Step owner x { x with
        axis := (x.axis.enable x.host on).2.1
        host := (x.axis.enable x.host on).2.2 }
  | homingMove (x : Handover σ) (coordinator : HomingRequest ℝ → HomingPlan ℝ) (target : ℝ)
      (speed accel : Option ℝ) (triggered checkTrigger : Bool) :
      Step owner x { x with
        axis := (x.axis.homingMove x.host coordinator target speed accel triggered
          checkTrigger).2.axis
        host := (x.axis.homingMove x.host coordinator target speed accel triggered
          checkTrigger).2.surroundings }
  | gcodeAxis (x : Handover σ) (text : String) : Step owner x (x.gcodeAxis owner text)
  | run (x : Handover σ) (mv : ToolheadMove ℝ) (slot : Nat) (axis : ManualAxis ℝ) (host : σ) :
      x.axis.letter.isSome → x.axis.processMove (time x.host) mv slot = .ok axis →
      time host = time x.host + mv.duration → Step owner x ⟨axis,host,False⟩
  | generate (x : Handover σ) (upto : ℝ) (axis : ManualAxis ℝ) :
      x.axis.generateSteps upto = .ok axis → Step owner x { x with axis }
  | finalize (x : Handover σ) (before after : ℝ) :
      Step owner x { x with axis.queue := x.axis.queue.finalize before after }
  | elapse (x : Handover σ) (host : σ) : time x.host ≤ time host → Step owner x { x with host }

def Fresh (x : Handover σ) : Prop :=
  ∃ name rail velocity accel, x.axis = .ofRail name rail velocity accel

/-- The queue ends by the time of the next command, and by the clock if the axis is registered and
did not get ahead of it. -/
structure Invariant (x : Handover σ) : Prop where
  timely : x.axis.Timely x.host
  met : x.axis.letter.isSome → ¬x.early → x.axis.queue.EndsBy (time x.host)

theorem Fresh.invariant (h : x.Fresh) : x.Invariant := by
  obtain ⟨name,rail,velocity,accel,ha⟩ := h
  refine ⟨?_,fun hl => ?_⟩
  · rw [ha]; exact SegmentQueue.endsBy_ofChannels 1 _
  · rw [ha] at hl; cases hl

theorem Invariant.of_commanded (h : x.Invariant) {r : ManualAxis ℝ × σ}
    (hr : x.axis.Commanded x.host r) : Invariant { x with axis := r.1, host := r.2 } := by
  rcases hr with rfl | ⟨-,hl,ht⟩
  · exact h
  · refine ⟨ht,fun hs => ?_⟩
    rw [hl] at hs
    cases hs

theorem Invariant.gcodeAxis [Steady σ] (h : x.Invariant) (owner : Nat) (text : String) :
    (x.gcodeAxis owner text).Invariant := by
  obtain ⟨⟨letter,hf⟩,ht⟩ := x.axis.setGcodeAxis_frame owner x.host text
  have htimely : (x.gcodeAxis owner text).axis.queue.EndsBy
      (max (x.gcodeAxis owner text).axis.nextCmdTime (time (x.gcodeAxis owner text).host)) := by
    simp only [Handover.gcodeAxis,hf]
    exact h.timely.mono (max_le_max_left _ ht)
  refine ⟨htimely,fun _ he => ?_⟩
  simp only [Handover.gcodeAxis,hf] at he ⊢
  cases hl : x.axis.letter with
  | none =>
    -- The axis is handed over: what ends by its own time must end by the clock as well.
    rw [hl] at he
    have hle : x.axis.nextCmdTime ≤ time x.host := not_lt.1 he
    exact h.timely.mono (max_le (hle.trans ht) ht)
  | some c =>
    rw [hl] at he
    exact (h.met (by rw [hl]; rfl) he).mono ht

section Run
variable [StepperEnable σ ℝ] [Steady σ] {owner : Nat}

theorem Invariant.step (h : x.Invariant) (st : Step owner x y) :
    y.Invariant := by
  cases st with
  | setPosition pos axis hp => exact h.of_commanded (h.timely.setPosition hp)
  | moveTo target speed accel synchronize =>
    exact h.of_commanded (h.timely.moveTo target speed accel synchronize).2
  | enable on => exact h.of_commanded (h.timely.enable on)
  | homingMove coordinator target speed accel triggered checkTrigger =>
    exact h.of_commanded
      (h.timely.homingMove coordinator target speed accel triggered checkTrigger).2
  | gcodeAxis text => exact h.gcodeAxis owner text
  | run mv slot axis host hl hp ht =>
    have hend := (ManualAxis.processMove_endsBy hp).1
    rw [← ht] at hend
    exact ⟨hend.mono (le_max_right _ _),fun _ _ => hend⟩
  | generate upto axis hg =>
    obtain ⟨rail,-,rfl⟩ := Results.map_eq_ok.1 hg
    exact ⟨h.timely,h.met⟩
  | finalize before after =>
    exact ⟨h.timely.finalize before after,fun hl he => (h.met hl he).finalize before after⟩
  | elapse host ht =>
    exact ⟨h.timely.mono (max_le_max_left _ ht),fun hl he => (h.met hl he).mono ht⟩

theorem Invariant.of_run (h : x.Invariant)
    (run : Relation.ReflTransGen (Step owner) x y) : y.Invariant := by
  induction run with
  | refl => exact h
  | tail _ st ih => exact ih.step st

/-- A segment comes too early only by a move of the toolhead, and exactly as long as an axis that was
registered ahead of the toolhead is still ahead of it. A move that is synchronized leaves no axis
ahead. -/
theorem outOfOrder_iff (fresh : x.Fresh) (run : Relation.ReflTransGen (Step owner) x y) :
    (∀ target speed accel synchronize,
      InOrder (y.axis.moveTo y.host target speed accel synchronize).1) ∧
    (∀ coordinator target speed accel triggered checkTrigger,
      ∀ r ∈ (y.axis.homingMove y.host coordinator target speed accel triggered
        checkTrigger).2.replies, InOrder r) ∧
    (∀ target speed accel, (y.axis.moveTo y.host target speed accel true).1 = .ok () →
      (y.axis.moveTo y.host target speed accel true).2.1.nextCmdTime ≤
        time (y.axis.moveTo y.host target speed accel true).2.2) ∧
    (y.axis.letter.isSome → ∀ mv slot m, mv.axisSegment (time y.host) slot = some m →
      m.validate = .ok () →
      ((∃ t e, y.axis.processMove (time y.host) mv slot = .error (.queue (.outOfOrder t e))) ↔
        y.early ∧ ∃ e, y.axis.queue.tailEnd 0 = .ok (some e) ∧
          time y.host < e - timeEpsilon)) := by
  have h := fresh.invariant.of_run run
  refine ⟨fun target speed accel synchronize => (h.timely.moveTo target speed accel synchronize).1,
    fun coordinator target speed accel triggered checkTrigger =>
      (h.timely.homingMove coordinator target speed accel triggered checkTrigger).1,
    y.axis.moveTo_not_ahead y.host,fun hl mv slot m hm hv => ?_⟩
  rw [ManualAxis.processMove_eq_outOfOrder hm hv]
  refine ⟨fun ⟨e,he,hlt⟩ => ⟨?_,e,he,hlt⟩,And.right⟩
  by_contra hearly
  obtain ⟨n,hn,rfl⟩ := SegmentQueue.tailEnd_eq_ok.1 he
  have hend : n.endTime ≤ time y.host := h.met hl hearly n hn
  linarith [timeEpsilon_pos]

end Run

instance : Steady (Toolhead ℝ) where
  time_lastMoveTime _ := le_rfl
  time_dwell _ _ _ := rfl
  time_add axis pos s := by
    change s.clock ≤ (s.addExtraAxis axis pos).2.clock
    unfold Toolhead.addExtraAxis
    split <;> exact le_rfl
  time_remove name s := by
    change s.clock ≤ (s.removeExtraAxis name).clock
    unfold Toolhead.removeExtraAxis
    split <;> exact le_rfl
  time_register _ _ := le_rfl
  time_unregister _ _ := le_rfl

noncomputable def start : Handover (Toolhead ℝ) where
  axis := (Session.built 1 5).axis
  host := { clock := 0 }
  early := False

noncomputable def raced : Handover (Toolhead ℝ) :=
  gcodeAxis { start with
    axis := (start.axis.moveTo start.host 5 none none false).2.1
    host := (start.axis.moveTo start.host 5 none none false).2.2 } 0 "A"

theorem run_raced : Relation.ReflTransGen (Step 0) start raced :=
  .tail (.single (.moveTo start 5 none none false)) (.gcodeAxis _ "A")

noncomputable def along : ToolheadMove ℝ where
  startPos := [0,0,0,0,5]
  axesR := [0,0,0,0,1]
  maxCruiseV2 := 1
  accelT := 0
  cruiseT := 1
  decelT := 0
  startV := 0
  cruiseV := 1
  accel := 0

theorem along_segment : along.axisSegment 0 4 = some ⟨0,5,0,1,0,0,1,0⟩ := by
  simp [ToolheadMove.axisSegment,along]

theorem along_validate : (⟨0,5,0,1,0,0,1,0⟩ : Segment ℝ).validate = .ok () :=
  Segment.validate_eq_ok ⟨le_rfl,zero_le_one,le_rfl⟩ (by simp [Segment.reachesCruise])

theorem start_endTime : (start.axis.planned start.host 5 5 0).endTime = 1 := by
  rw [ManualAxis.planned_endTime,ManualAxis.sync_fst]
  change max 0 0 + (Profile.symmetric (5 - 0) 5 0).duration = _
  norm_num [Profile.symmetric,Profile.duration]

theorem start_sync : (start.axis.sync start.host).2 = { clock := 0 } := by
  change (if (0 : ℝ) < 0 then _ else _ : ManualAxis ℝ × Toolhead ℝ).2 = _
  rw [if_neg (lt_irrefl 0)]
  rfl

theorem start_moveTo : ∃ rail queue, start.axis.moveTo start.host 5 none none false =
      (.ok (),start.axis.driven rail queue 1,
        MotionClock.noteActivity (1 : ℝ) ({ clock := 0 } : Toolhead ℝ)) ∧
    (queue.line 0).head? = some (start.axis.planned start.host 5 5 0) := by
  have hready := (Session.built_fresh 5 one_pos).invariant.ready
  obtain ⟨queue,rail,happ,hg,-⟩ := hready.driven start.host (show (0 : ℝ) < 5 by norm_num) le_rfl
    (Session.built_calm 5 5 0)
  have hspeeds : start.axis.speeds none none = .ok (5,0) :=
    ManualAxis.speeds_eq_ok.2 ⟨rfl,rfl,by norm_num,le_rfl⟩
  have hmove := (ManualAxis.moveTo_eq 5 false rfl hspeeds).trans
    (ManualAxis.drive_of_stepped false happ hg)
  rw [start_endTime,if_neg Bool.false_ne_true,start_sync] at hmove
  exact ⟨rail,queue,hmove,SegmentQueue.head?_line_append happ⟩

theorem raced_spec : raced.axis.letter = some 'A' ∧ time raced.host = 0 ∧ raced.early ∧
    raced.axis.queue.tailEnd 0 = .ok (some 1) := by
  obtain ⟨rail,queue,hmove,hlast⟩ := start_moveTo
  obtain ⟨host,hadd,hhost⟩ : ∃ host : Toolhead ℝ,
      (start.axis.driven rail queue 1).setGcodeAxis 0
        (MotionClock.noteActivity (1 : ℝ) ({ clock := 0 } : Toolhead ℝ)) "A" =
          (.ok (),{ start.axis.driven rail queue 1 with letter := some 'A' },host) ∧
      time host = 0 :=
    ⟨_,ManualAxis.setGcodeAxis_of_letter rfl (by decide) (by decide) rfl,rfl⟩
  have hraced : raced =
      ⟨{ start.axis.driven rail queue 1 with letter := some 'A' },host,(0 : ℝ) < 1⟩ := by
    unfold raced gcodeAxis
    rw [hmove]
    dsimp only
    rw [hadd]
    rfl
  have htail : ((start.axis.driven rail queue 1).queue.line 0).head? =
      some (start.axis.planned start.host 5 5 0) := by
    simp only [ManualAxis.driven,SegmentQueue.head?_line_finalize]
    exact hlast
  rw [hraced]
  exact ⟨rfl,hhost,one_pos,SegmentQueue.tailEnd_eq_ok.2 ⟨_,htail,start_endTime⟩⟩

theorem start_fresh : start.Fresh := ⟨_,_,_,_,rfl⟩

/-- The axis that raced ahead refuses the first move of the toolhead. -/
theorem outOfOrder_iff_raced : start.Fresh ∧ Relation.ReflTransGen (Step 0) start raced ∧
    raced.early ∧ ∃ t e, raced.axis.processMove (time raced.host) along 4 =
      .error (.queue (.outOfOrder t e)) := by
  obtain ⟨hl,ht,hearly,htail⟩ := raced_spec
  have hm : along.axisSegment (time raced.host) 4 = some ⟨0,5,0,1,0,0,1,0⟩ := by
    rw [ht]; exact along_segment
  have hiff := (outOfOrder_iff start_fresh run_raced).2.2.2 (by rw [hl]; rfl) along 4 _ hm
    along_validate
  refine ⟨start_fresh,run_raced,hearly,hiff.2 ⟨hearly,1,htail,?_⟩⟩
  rw [ht,timeEpsilon_exact]
  norm_num

/-- A fresh axis moves for a second, is registered at once, and has the toolhead's move at the time
zero refused because its own ends at one. -/
theorem race_refused : ∃ x : Handover (Toolhead ℝ), start.Fresh ∧
    Relation.ReflTransGen (Step 0) start x ∧ x.axis.letter = some 'A' ∧ time x.host = 0 ∧
    along.axisSegment 0 4 = some ⟨0,5,0,1,0,0,1,0⟩ ∧
    x.axis.processMove 0 along 4 = .error (.queue (.outOfOrder 0 1)) := by
  obtain ⟨hl,ht,-,htail⟩ := raced_spec
  obtain ⟨n,hn,hend⟩ := SegmentQueue.tailEnd_eq_ok.1 htail
  refine ⟨raced,start_fresh,run_raced,hl,ht,along_segment,?_⟩
  have hrefused : raced.axis.queue.append 0 ⟨0,5,0,1,0,0,1,0⟩ = .error (.outOfOrder 0 1) := by
    refine SegmentQueue.append_eq_outOfOrder.2 ⟨along_validate,rfl,n,hn,hend.symm,?_⟩
    rw [hend,timeEpsilon_exact]
    norm_num
  unfold ManualAxis.processMove
  rw [along_segment]
  dsimp only
  rw [hrefused]

end Handover

end Gantry
