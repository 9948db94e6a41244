import Mathlib
import Gantry.Proofs.Queue.Filling
import Gantry.Proofs.Rail.Flush
import Gantry.Proofs.Topology.Coordinates

/-!
Following: a machine that is fed toolhead moves and flushed now and then. As long as every move
goes on where the one before it ended, the rails stand after each flush where the queue approaches
the time of the flush, so their positions read back as that coordinate.
-/
set_option autoImplicit false

namespace Gantry

structure Following where
  kinematics : Kinematics ℝ
  queue : SegmentQueue ℝ
  flushed : ℝ := 0
  last : Option (ℝ × ToolheadMove ℝ) := none

namespace Following

noncomputable def start (k : Kinematics ℝ) (n : Nat) (coord : List ℝ) : Following where
  kinematics := (k.setPosition coord).2
  queue := .ofChannels n

noncomputable def goesOnAt (s : Following) (coord : List ℝ) (axis : Nat) : Option ℝ :=
  match s.last with
  | none => coord[axis]?
  | some (t,mv) => (mv.axisSegment t axis).map Segment.endPosition

def EndedBy (s : Following) (t : ℝ) : Prop :=
  ∀ last ∈ s.last, last.1 + last.2.duration ≤ t

/-- Whether a flush keeps the slack behind the last one and behind every boundary it passes. -/
def Due (s : Following) (upto : ℝ) : Prop :=
  s.flushed + timeEpsilon ≤ upto ∧ ∀ c ∈ s.queue.channels, ∀ m ∈ c.segments,
    ∀ b ∈ m.boundaries, b < upto → b + timeEpsilon ≤ upto

inductive Step (coord : List ℝ) : Following → Following → Prop where
  | move (s : Following) (t : ℝ) (mv : ToolheadMove ℝ) (queue : SegmentQueue ℝ) :
      3 ≤ mv.startPos.length → 3 ≤ mv.axesR.length →
      (∀ i < 3, mv.startPos[i]? = s.goesOnAt coord i) → s.EndedBy t → s.flushed ≤ t →
      s.queue.appendMove t mv = .ok queue →
      Step coord s { s with queue, last := some (t,mv) }
  | flush (s : Following) (upto : ℝ) : s.Due upto →
      Step coord s { s with
        kinematics := (s.kinematics.generateSteps (some s.queue) upto).2
        flushed := upto }
  | activate (s : Following) (carriage : Carriage) :
      Step coord s { s with kinematics := s.kinematics.activate carriage }

def channel (s : Following) (i : Nat) : Channel ℝ := (s.queue.channels[i]?).getD {}

noncomputable def coordBefore (s : Following) (coord : List ℝ) (t : ℝ) (i : Nat) : ℝ :=
  ((s.channel i).positionBefore t).getD (coord.getD i 0)

def Fed (last : Option (ℝ × ToolheadMove ℝ)) (i : Nat) (l : Timeline ℝ) : Prop :=
  match last with
  | none => l = []
  | some (t,mv) => ∃ m ∈ l.head?, mv.axisSegment t i = some m

/-- What holds at all times: the rails stand where the queue approaches the last flush, and the
channels they follow run without jumps. -/
structure Invariant (coord : List ℝ) (s : Following) : Prop where
  wired : s.kinematics.Wired
  named : (s.kinematics.rails.map (·.name)).Nodup
  long : 3 ≤ s.queue.channels.length
  joined : ∀ i < 3, (s.channel i).timeline.Joined
  fed : ∀ i < 3, Fed s.last i (s.channel i).timeline
  flushed : ∀ r ∈ s.kinematics.rails, r.lastFlushTime = s.flushed
  follows : ∀ r ∈ s.kinematics.rails,
    r.commandedPos = r.allocator.combined (s.coordBefore coord s.flushed)

variable {coord : List ℝ} {s : Following}

theorem Invariant.channel_eq (h : s.Invariant coord) {i : Nat} (hi : i < 3) :
    s.queue.channels[i]? = some (s.channel i) := by
  have hl : i < s.queue.channels.length := lt_of_lt_of_le hi h.long
  simp [channel,List.getElem?_eq_getElem hl]

/-- A segment that goes on where the channel stands keeps it without jumps and does not change
where times up to its start are approached from. -/
theorem push_goesOn {c : Channel ℝ} {m : Segment ℝ} {p : ℝ} (hm : m.Sound)
    (hj : c.timeline.Joined) (hp : c.timeline = [] → m.startPos = p)
    (hn : ∀ n ∈ c.timeline.head?, n.endTime ≤ m.startTime ∧ m.startPos = n.endPosition) :
    (c.push m).timeline.Joined ∧ ∀ t ≤ m.startTime,
      ((c.push m).positionBefore t).getD p = (c.positionBefore t).getD p := by
  rw [Channel.timeline_push]
  unfold Channel.positionBefore
  rw [Channel.timeline_push]
  cases hl : c.timeline with
  | nil =>
    refine ⟨hm,fun t ht => ?_⟩
    rw [Timeline.positionBefore_single_of_le ht,hp hl]
    rfl
  | cons n l =>
    rw [hl] at hj hn
    obtain ⟨he,hs⟩ := hn n (by simp)
    refine ⟨⟨hm,he,hs,hj⟩,fun t ht => ?_⟩
    rw [Timeline.positionBefore_cons_of_le ht (List.cons_ne_nil n l)]

theorem Invariant.goesOn (h : s.Invariant coord) {t p : ℝ} (he : s.EndedBy t) {i : Nat}
    (hi : i < 3) (hg : s.goesOnAt coord i = some p) :
    ((s.channel i).timeline = [] → p = coord.getD i 0) ∧
      ∀ n ∈ (s.channel i).timeline.head?, n.endTime ≤ t ∧ p = n.endPosition := by
  have hfed := h.fed i hi
  cases hlast : s.last with
  | none =>
    simp only [Fed,hlast] at hfed
    simp only [goesOnAt,hlast] at hg
    exact ⟨fun _ => by simp [hg],fun n hn => by simp [hfed] at hn⟩
  | some last =>
    obtain ⟨n',hn',hseg⟩ := by simpa only [Fed,hlast] using hfed
    refine ⟨fun hnil => by simp [hnil] at hn',fun n hn => ?_⟩
    obtain rfl : n = n' := by simpa [Option.mem_def.1 hn] using hn'
    simp only [goesOnAt,hlast,hseg,Option.map_some] at hg
    have hend := (ToolheadMove.axisSegment_spec hseg).2.1
    have hby := he last (by simp [hlast])
    exact ⟨by rw [hend]; exact hby,(Option.some.inj hg).symm⟩

theorem Invariant.push_move (h : s.Invariant coord) {t : ℝ} {mv : ToolheadMove ℝ}
    {queue : SegmentQueue ℝ} (hs : 3 ≤ mv.startPos.length) (hr : 3 ≤ mv.axesR.length)
    (hg : ∀ i < 3, mv.startPos[i]? = s.goesOnAt coord i) (he : s.EndedBy t)
    (ha : s.queue.appendMove t mv = .ok queue) {i : Nat} (hi : i < 3) :
    ∃ m, mv.axisSegment t i = some m ∧ queue.channels[i]? = some ((s.channel i).push m) ∧
      ((s.channel i).push m).timeline.Joined ∧
      ∀ u ≤ t, (((s.channel i).push m).positionBefore u).getD (coord.getD i 0) =
        ((s.channel i).positionBefore u).getD (coord.getD i 0) := by
  obtain ⟨m,hm⟩ := mv.axisSegment_isSome (i := i) (t := t) (by omega) (by omega)
  obtain ⟨ht,-,hp⟩ := ToolheadMove.axisSegment_spec hm
  have hc := h.channel_eq hi
  have hv := (SegmentQueue.admits_of_appendMove ha hm hc).1
  obtain ⟨hnil,hhead⟩ := h.goesOn he hi ((hg i hi).symm.trans hp)
  refine ⟨m,hm,by rw [SegmentQueue.getElem?_appendMove ha,hm,hc]; rfl,?_⟩
  rw [← ht] at hhead ⊢
  exact push_goesOn (Segment.sound_of_validate hv) (h.joined i hi) hnil hhead

theorem Invariant.move (h : s.Invariant coord) {t : ℝ} {mv : ToolheadMove ℝ}
    {queue : SegmentQueue ℝ} (hs : 3 ≤ mv.startPos.length) (hr : 3 ≤ mv.axesR.length)
    (hg : ∀ i < 3, mv.startPos[i]? = s.goesOnAt coord i) (he : s.EndedBy t) (hf : s.flushed ≤ t)
    (ha : s.queue.appendMove t mv = .ok queue) :
    Invariant coord { s with queue, last := some (t,mv) } := by
  have hpush := fun {i} (hi : i < 3) => h.push_move hs hr hg he ha hi
  have hchan : ∀ i < 3, ∀ m, mv.axisSegment t i = some m →
      channel { s with queue, last := some (t,mv) } i = (s.channel i).push m := by
    intro i hi m hm
    obtain ⟨m',hm',hq,-⟩ := hpush hi
    obtain rfl : m = m' := by rw [hm] at hm'; exact Option.some.inj hm'
    simp [channel,hq]
  refine ⟨h.wired,h.named,?_,?_,?_,h.flushed,?_⟩
  · simpa [SegmentQueue.length_appendMove ha] using h.long
  · intro i hi
    obtain ⟨m,hm,-,hj,-⟩ := hpush hi
    rw [hchan i hi m hm]; exact hj
  · intro i hi
    obtain ⟨m,hm,-⟩ := hpush hi
    rw [hchan i hi m hm]
    exact ⟨m,by simp,hm⟩
  · intro r hr
    rw [h.follows r hr]
    refine Allocator.combined_congr fun i hi => ?_
    have hi := Allocator.channels_lt_three hi
    obtain ⟨m,hm,-,-,hb⟩ := hpush hi
    simp only [coordBefore,hchan i hi m hm]
    exact (hb s.flushed hf).symm

theorem Invariant.channel_positionBefore (h : s.Invariant coord) (hs : s.last.isSome) {i : Nat}
    (hi : i < 3) (t : ℝ) : (s.channel i).positionBefore t = some (s.coordBefore coord t i) := by
  obtain ⟨last,hlast⟩ := Option.isSome_iff_exists.1 hs
  obtain ⟨m,hm,-⟩ := by simpa only [Fed,hlast] using h.fed i hi
  have hne : (s.channel i).timeline ≠ [] := by rintro hnil; simp [hnil] at hm
  obtain ⟨p,hp⟩ := Timeline.positionBefore_isSome hne t
  change (s.channel i).positionBefore t = some p at hp
  simp [coordBefore,hp]

theorem Invariant.generateSteps_rail (h : s.Invariant coord) {upto : ℝ} (hd : s.Due upto)
    {r : Rail ℝ} (hr : r ∈ s.kinematics.rails) :
    ∃ r', r.generateSteps (some s.queue) upto = .ok r' ∧ r'.name = r.name ∧
      r'.allocator = r.allocator ∧ r'.lastFlushTime = upto ∧
      r'.commandedPos = r.allocator.combined (s.coordBefore coord upto) := by
  have he := timeEpsilon_pos
  have hrf := h.flushed r hr
  have hc : ∀ i ∈ r.allocator.channels, s.queue.channels[i]? = some (s.channel i) :=
    fun i hi => h.channel_eq (Allocator.channels_lt_three hi)
  cases hlast : s.last with
  | none =>
    have hnil : ∀ i < 3, (s.channel i).timeline = [] := by
      intro i hi
      simpa only [Fed,hlast] using h.fed i hi
    obtain ⟨i,hi⟩ := r.allocator.exists_mem_channels
    refine ⟨_,Rail.generateSteps_of_unfed (by have := hd.1; linarith) hc hi
      (hnil i (Allocator.channels_lt_three hi)),rfl,rfl,rfl,?_⟩
    rw [show _ = r.commandedPos from rfl,h.follows r hr]
    refine Allocator.combined_congr fun j hj => ?_
    have hj := hnil j (Allocator.channels_lt_three hj)
    simp [coordBefore,Channel.positionBefore,hj,Timeline.positionBefore,Timeline.origin]
  | some last =>
    have hbefore : ∀ t, ∀ i ∈ r.allocator.channels,
        (s.channel i).positionBefore t = some (s.coordBefore coord t i) := fun t i hi =>
      h.channel_positionBefore (by simp [hlast]) (Allocator.channels_lt_three hi) t
    refine Rail.generateSteps_joined (by rw [hrf]; exact hd.1) hc
      (fun i hi => h.joined i (Allocator.channels_lt_three hi)) ?_
      (by rw [hrf]; exact hbefore s.flushed) (hbefore upto) (h.follows r hr)
    intro i hi m hm b hb
    refine hd.2 (s.channel i) (List.mem_of_getElem? (hc i hi)) m ?_ b hb
    exact (Channel.mem_timeline _ m).1 hm

theorem Invariant.flush (h : s.Invariant coord) {upto : ℝ} (hd : s.Due upto) :
    ∃ k, s.kinematics.generateSteps (some s.queue) upto = (.ok (),k) ∧
      Invariant coord { s with kinematics := k, flushed := upto } := by
  choose! g hg using fun r hr => h.generateSteps_rail hd (r := r) hr
  refine ⟨s.kinematics.mapRails g,Kinematics.updateRails_eq fun r hr => (hg r hr).1,?_⟩
  refine ⟨h.wired.mapRails fun r hr => (hg r hr).2.2.1,?_,h.long,h.joined,h.fed,?_,?_⟩
  · have hnames : (s.kinematics.rails.map g).map (·.name) = s.kinematics.rails.map (·.name) := by
      rw [List.map_map]
      exact List.map_congr_left fun r hr => (hg r hr).2.1
    rw [Kinematics.rails_mapRails,hnames]
    exact h.named
  · intro r hr
    rw [Kinematics.rails_mapRails] at hr
    obtain ⟨r',hr',rfl⟩ := List.mem_map.1 hr
    exact (hg r' hr').2.2.2.1
  · intro r hr
    rw [Kinematics.rails_mapRails] at hr
    obtain ⟨r',hr',rfl⟩ := List.mem_map.1 hr
    rw [(hg r' hr').2.2.1]
    exact (hg r' hr').2.2.2.2

theorem Invariant.activate (h : s.Invariant coord) (carriage : Carriage) :
    Invariant coord { s with kinematics := s.kinematics.activate carriage } := by
  refine ⟨h.wired.activate carriage,?_,h.long,h.joined,h.fed,?_,?_⟩
  · rw [Kinematics.rails_activate]; exact h.named
  · rw [Kinematics.rails_activate]; exact h.flushed
  · rw [Kinematics.rails_activate]; exact h.follows

theorem Invariant.step {s' : Following} (h : s.Invariant coord) (st : Step coord s s') :
    s'.Invariant coord := by
  cases st with
  | move t mv queue hs hr hg he hf ha => exact h.move hs hr hg he hf ha
  | flush upto hd =>
    obtain ⟨k,hk,hi⟩ := h.flush hd
    rw [hk]; exact hi
  | activate carriage => exact h.activate carriage

theorem invariant_start {k : Kinematics ℝ} {n : Nat} (built : k.Built)
    (fresh : ∀ r ∈ k.rails, r.lastFlushTime = 0) (named : (k.rails.map (·.name)).Nodup)
    (channels : 3 ≤ n) (long : 3 ≤ coord.length) : (start k n coord).Invariant coord := by
  have hempty : ∀ i, (start k n coord).channel i = {} := by
    intro i
    rcases lt_or_ge i n with hi | hi
    · simp [channel,start,SegmentQueue.ofChannels,hi]
    · simp [channel,start,SegmentQueue.ofChannels,not_lt.2 hi]
  have hk : (start k n coord).kinematics = _ :=
    congrArg Prod.snd (k.setPosition_eq_mapRails long)
  refine ⟨?_,?_,by simpa [start,SegmentQueue.ofChannels] using channels,?_,?_,?_,?_⟩
  · rw [hk]
    exact built.wired.mapRails fun r _ => rfl
  · rw [hk,Kinematics.rails_mapRails,List.map_map]
    exact named
  · intro i _
    rw [hempty i]; trivial
  · intro i _
    rw [hempty i]; rfl
  · intro r hr
    rw [hk,Kinematics.rails_mapRails] at hr
    obtain ⟨r',hr',rfl⟩ := List.mem_map.1 hr
    exact fresh r' hr'
  · intro r hr
    rw [hk,Kinematics.rails_mapRails] at hr
    obtain ⟨r',hr',rfl⟩ := List.mem_map.1 hr
    have hcombined : r'.allocator.combined (coord.getD · 0) =
        r'.allocator.combined ((start k n coord).coordBefore coord 0) := by
      refine Allocator.combined_congr fun i _ => ?_
      rw [coordBefore,hempty i]; rfl
    exact hcombined

theorem Invariant.of_run {s' : Following} (h : s.Invariant coord)
    (run : Relation.ReflTransGen (Step coord) s s') : s'.Invariant coord := by
  induction run with
  | refl => exact h
  | tail _ st ih => exact ih.step st

theorem Invariant.positionBefore_eq (h : s.Invariant coord) (hs : s.last.isSome) {i : Nat}
    (hi : i < 3) (t : ℝ) : s.queue.positionBefore i t = .ok (some (s.coordBefore coord t i)) := by
  rw [SegmentQueue.positionBefore,SegmentQueue.channel_eq_ok.2 (h.channel_eq hi),
    ← h.channel_positionBefore hs hi t]
  rfl

/-- Every flush of a machine succeeds, and behind the first move the positions of its rails stand
for the coordinate that its queue approaches the time of the flush with. -/
theorem calcPosition_after_flush {k : Kinematics ℝ} (built : k.Built)
    (fresh : ∀ r ∈ k.rails, r.lastFlushTime = 0) (named : (k.rails.map (·.name)).Nodup)
    {n : Nat} (channels : 3 ≤ n) {coord : List ℝ} (long : 3 ≤ coord.length) :
    (k.setPosition coord).1 = .ok () ∧ ∀ s : Following,
      Relation.ReflTransGen (Step coord) (start k n coord) s → ∀ upto, s.Due upto →
        ∃ k', s.kinematics.generateSteps (some s.queue) upto = (.ok (),k') ∧
          (s.last.isSome → ∃ x y z, s.queue.positionBefore 0 upto = .ok (some x) ∧
            s.queue.positionBefore 1 upto = .ok (some y) ∧
            s.queue.positionBefore 2 upto = .ok (some z) ∧
            ∀ carriage, (k'.activate carriage).calcPosition
              (k'.activate carriage).stepperPositions = .ok (x,y,z)) := by
  refine ⟨by rw [k.setPosition_eq_mapRails long],fun s run upto hd => ?_⟩
  have hi := (invariant_start built fresh named channels long).of_run run
  obtain ⟨k',hk,hi'⟩ := hi.flush hd
  refine ⟨k',hk,fun hs => ?_⟩
  refine ⟨_,_,_,hi.positionBefore_eq hs (by omega) upto,hi.positionBefore_eq hs (by omega) upto,
    hi.positionBefore_eq hs (by omega) upto,fun carriage => ?_⟩
  have ha := hi'.activate carriage
  exact Kinematics.calcPosition_stepperPositions ha.wired ha.named ha.follows

noncomputable def alongX : ToolheadMove ℝ where
  startPos := [1,2,3]
  axesR := [1,0,0]
  maxCruiseV2 := 4
  accelT := 1
  cruiseT := 1
  decelT := 1
  startV := 0
  cruiseV := 2
  accel := 2

theorem segmentsOf_alongX : (SegmentQueue.ofChannels 3).segmentsOf 0 alongX =
    [(0,⟨0,1,1,1,1,0,2,2⟩),(1,⟨0,2,1,1,1,0,0,0⟩),(2,⟨0,3,1,1,1,0,0,0⟩)] := by
  have hc : (SegmentQueue.ofChannels (α := ℝ) 3).covered alongX = 3 := by
    simp [SegmentQueue.covered,SegmentQueue.ofChannels,alongX]
  rw [SegmentQueue.segmentsOf,hc]
  simp [List.range_succ,ToolheadMove.axisSegment,alongX]

theorem appendMove_alongX : ∃ q, (SegmentQueue.ofChannels 3).appendMove (0 : ℝ) alongX = .ok q ∧
    q.channels = [{ active := [⟨0,1,1,1,1,0,2,2⟩] },{ active := [⟨0,2,1,1,1,0,0,0⟩] },
      { active := [⟨0,3,1,1,1,0,0,0⟩] }] := by
  refine ⟨_,SegmentQueue.appendMove_eq_ok.2 ⟨?_,rfl⟩,?_⟩
  · rw [segmentsOf_alongX]
    simp only [List.mem_cons,List.not_mem_nil,or_false,forall_eq_or_imp,forall_eq]
    refine ⟨?_,?_,?_⟩ <;>
    · refine SegmentQueue.admits_eq_ok.2 ⟨Segment.validate_eq_ok ⟨?_,?_,?_⟩ ?_,{},rfl,rfl⟩ <;>
        norm_num [Segment.reachesCruise,Segment.velocityTolerance]
  · rw [segmentsOf_alongX]
    rfl

theorem calcPosition_after_flush_of_alongX : ∃ k : Kinematics ℝ,
    Kinematics.coreXY (.ofName "a") (.ofName "b") (.ofName "z") = .ok k ∧
    ∃ s, Relation.ReflTransGen (Step [1,2,3]) (start k 3 [1,2,3]) s ∧ s.Due (3 / 2) ∧
      s.last.isSome ∧ ∃ k', s.kinematics.generateSteps (some s.queue) (3 / 2) = (.ok (),k') ∧
        (k'.activate .first).calcPosition (k'.activate .first).stepperPositions = .ok (3,2,3) := by
  obtain ⟨k,hk,hr⟩ : ∃ k : Kinematics ℝ,
      Kinematics.coreXY (.ofName "a") (.ofName "b") (.ofName "z") = .ok k ∧
      k.rails = [(Rail.ofName "a").withAllocator (.coreXY .plus),
        (Rail.ofName "b").withAllocator (.coreXY .minus),
        (Rail.ofName "z").withAllocator (.cartesian .z)] := ⟨_,rfl,rfl⟩
  have hn : (k.rails.map (·.name)).Nodup := by
    rw [hr]
    change ([.clip "a",.clip "b",.clip "z"] : List Name).Nodup
    decide
  have hfresh : ∀ r ∈ k.rails, r.lastFlushTime = 0 := by
    rw [hr]
    intro r hr
    simp only [List.mem_cons,List.not_mem_nil,or_false] at hr
    rcases hr with rfl | rfl | rfl <;> rfl
  obtain ⟨q,ha,hq⟩ := appendMove_alongX
  have hmove : Step [1,2,3] (start k 3 [1,2,3])
      { start k 3 [1,2,3] with queue := q, last := some (0,alongX) } :=
    .move _ 0 alongX q (by simp [alongX]) (by simp [alongX]) (fun i _ => rfl)
      (by simp [EndedBy,start]) (by simp [start]) ha
  have hdue : Due { start k 3 [1,2,3] with queue := q, last := some (0,alongX) } (3 / 2) := by
    refine ⟨by rw [timeEpsilon_exact]; norm_num [start],?_⟩
    simp only [hq,List.mem_cons,List.not_mem_nil,or_false,forall_eq_or_imp,forall_eq]
    norm_num [Channel.segments,Segment.boundaries,Segment.endTime,Segment.duration,
      timeEpsilon_exact]
  obtain ⟨k',hk',hpos⟩ := (calcPosition_after_flush (.coreXY hk) hfresh hn le_rfl (by simp)).2 _
    (.single hmove) _ hdue
  obtain ⟨x,y,z,hx,hy,hz,hp⟩ := hpos rfl
  refine ⟨k,hk,_,.single hmove,hdue,rfl,k',hk',?_⟩
  rw [hp .first]
  simp [SegmentQueue.positionBefore,SegmentQueue.channel,hq,Except.map,Channel.positionBefore,
    Channel.timeline,Channel.segments,Timeline.positionBefore,Segment.positionAt,
    Segment.elapsed,Segment.duration,Scalar.clamp] at hx hy hz
  norm_num at hx hy hz
  rw [← hx,← hy,← hz]

end Following

end Gantry
