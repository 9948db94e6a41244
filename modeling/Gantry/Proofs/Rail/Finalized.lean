import Mathlib
import Gantry.Proofs.Numeric.Double
import Gantry.Proofs.Queue.Ledger
import Gantry.Proofs.Rail.Agreement

/-!
Flushing behind finalized history. A flush reads the queue from the last flush on, where a segment
that was over by then is out of play as soon as a later one has begun. So what finalizing reclaims
behind the last flush changes no step, however the queue is filled afterwards and the rail placed
and flushed.
-/
set_option autoImplicit false

namespace Gantry
variable {α : Type} [Scalar α]

/-- A timeline `l'` is what is left of a timeline `l` without segments that were over by a time, while
a segment that is left had begun by it. -/
def Timeline.Spent (s : α) (l l' : Timeline α) : Prop :=
  ∃ old, l = l' ++ old ∧ (old ≠ [] → (∀ m ∈ old, m.endTime ≤ s) ∧ ∃ m ∈ l', m.startTime ≤ s)

namespace Timeline.Spent
variable {s t : α} {l l' : Timeline α}

theorem cons (h : Spent s l l') (m : Segment α) : Spent s (m :: l) (m :: l') := by
  obtain ⟨old,rfl,hold⟩ := h
  refine ⟨old,rfl,fun hne => ?_⟩
  obtain ⟨hend,n,hn,hbegun⟩ := hold hne
  exact ⟨hend,n,List.mem_cons_of_mem m hn,hbegun⟩

variable [LawfulScalar α]

theorem later (h : Spent s l l') (ht : s ≤ t) : Spent t l l' := by
  obtain ⟨old,rfl,hold⟩ := h
  refine ⟨old,rfl,fun hne => ?_⟩
  obtain ⟨hend,n,hn,hbegun⟩ := hold hne
  exact ⟨fun m hm => LawfulScalar.le_trans (hend m hm) ht,n,hn,LawfulScalar.le_trans hbegun ht⟩

theorem positionAt (h : Spent s l l') (ht : s ≤ t) : l'.positionAt t = l.positionAt t := by
  obtain ⟨old,rfl,hold⟩ := h
  by_cases hne : old = []
  · rw [hne,List.append_nil]
  · obtain ⟨-,n,hn,hbegun⟩ := hold hne
    exact (positionAt_append_of_begun ⟨n,hn,LawfulScalar.le_trans hbegun ht⟩).symm

theorem positionBefore (h : Spent s l l') (ht : s < t) :
    l'.positionBefore t = l.positionBefore t := by
  obtain ⟨old,rfl,hold⟩ := h
  by_cases hne : old = []
  · rw [hne,List.append_nil]
  · obtain ⟨-,n,hn,hbegun⟩ := hold hne
    exact (positionBefore_append_of_begun ⟨n,hn,LawfulScalar.lt_of_le_of_lt hbegun ht⟩).symm

omit [LawfulScalar α] in
theorem touching (h : Spent s l l') (stop : α) :
    l'.reverse.filter (Track.touches s stop) = l.reverse.filter (Track.touches s stop) := by
  obtain ⟨old,rfl,hold⟩ := h
  -- What was over by `s` lies in no range that begins there.
  have hnone : old.reverse.filter (Track.touches s stop) = [] := by
    refine List.filter_eq_nil_iff.2 fun m hm => ?_
    have hm := List.mem_reverse.1 hm
    simp [Track.touches,(hold (List.ne_nil_of_mem hm)).1 m hm]
  rw [List.reverse_append,List.filter_append,hnone,List.nil_append]

end Timeline.Spent

def Track.Spent (s : α) (k k' : Track α) : Prop :=
  List.Forall₂ (fun x y => x.1.Spent s y.1 ∧ x.2 = y.2) k k'

namespace Track.Spent
variable [LawfulScalar α] {s t : α} {k k' : Track α}

theorem positionFrom (h : Spent s k k') (ht : s ≤ t) (total : α) :
    Track.positionFrom t k' total = Track.positionFrom t k total := by
  induction h generalizing total with
  | nil => rfl
  | @cons x y k k' hxy _ ih =>
    obtain ⟨hl,hw⟩ := hxy
    simp only [Track.positionFrom,hl.positionAt ht,hw,ih]

theorem positionBeforeFrom (h : Spent s k k') (ht : s < t) (total : α) :
    Track.positionBeforeFrom t k' total = Track.positionBeforeFrom t k total := by
  induction h generalizing total with
  | nil => rfl
  | @cons x y k k' hxy _ ih =>
    obtain ⟨hl,hw⟩ := hxy
    simp only [Track.positionBeforeFrom,hl.positionBefore ht,hw,ih]

omit [LawfulScalar α] in
theorem touching (h : Spent s k k') (stop : α) :
    k'.touching s stop = k.touching s stop := by
  induction h with
  | nil => rfl
  | @cons x y k k' hxy _ ih =>
    unfold Track.touching at ih ⊢
    rw [List.flatMap_cons,List.flatMap_cons,ih]
    exact congrArg (· ++ _) (hxy.1.touching stop)

theorem agreeFrom (h : Spent s k k') (rest : α) : (k'.motion rest).AgreeFrom s (k.motion rest) where
  position _ ht := congrArg (·.getD rest) (h.positionFrom ht 0)
  positionBefore _ ht := congrArg (·.getD rest) (h.positionBeforeFrom ht 0)

end Track.Spent

structure SegmentQueue.Spent (a : Allocator) (s : α) (q p : SegmentQueue α) : Prop where
  trimmed : q.Trimmed p
  spent : ∀ i ∈ a.channels, ∀ c d : Channel α,
    q.channels[i]? = some c → p.channels[i]? = some d → c.timeline.Spent s d.timeline

namespace SegmentQueue.Spent
variable {a : Allocator} {s t : α} {q p : SegmentQueue α}

theorem add (h : Spent a s q p) (e : Entry α) : Results.Alike (Spent a s) (q.add e) (p.add e) := by
  rcases h.trimmed.add e with herr | ⟨q',p',hq,hp,ht⟩
  · exact Or.inl herr
  · refine Or.inr ⟨q',p',hq,hp,ht,fun i hi c d hc hd => ?_⟩
    rw [getElem?_add hq,Option.map_eq_some_iff] at hc
    rw [getElem?_add hp,Option.map_eq_some_iff] at hd
    obtain ⟨c,hc,rfl⟩ := hc
    obtain ⟨d,hd,rfl⟩ := hd
    have hs := h.spent i hi c d hc hd
    cases e.on i with
    | none => exact hs
    | some m => simpa using hs.cons m

theorem later [LawfulScalar α] (h : Spent a s q p) (ht : s ≤ t) : Spent a t q p :=
  ⟨h.trimmed,fun i hi c d hc hd => (h.spent i hi c d hc hd).later ht⟩

end SegmentQueue.Spent

section Finalize
variable [LawfulScalar α] {q : SegmentQueue α} {a : Allocator} {before after s : α}

theorem SegmentQueue.le_of_mem_advance {r : Option α} {g : α} (hr : ∀ f ∈ r, f ≤ s)
    (hb : before ≤ s) (hg : g ∈ advance r before) : g ≤ s := by
  rcases mem_advance hg with h | ⟨rfl,-⟩
  · exact hr g h
  · exact hb

/-- What passes to the history is over by a time that no segment ends just behind. -/
theorem SegmentQueue.Reachable.endTime_le_of_retired (hq : q.Reachable) (hb : before ≤ s)
    (hf : ∀ f ∈ q.finalized, f ≤ s) {i : Nat} {c : Channel α} (hc : q.channels[i]? = some c)
    (hs : ∀ m ∈ c.segments, ¬(s < m.endTime ∧ m.endTime ≤ s + timeEpsilon)) {m : Segment α}
    (hm : m ∈ (c.retire (advance q.finalized before)).history) : m.endTime ≤ s := by
  have hmem : m ∈ c.segments := by
    rw [← Channel.segments_retire c (advance q.finalized before)]
    exact List.mem_append_left _ hm
  have hv := hq.validate hc hmem
  have hend := LawfulScalar.le_right (Segment.startTime_le_endTime_of_validate hv)
  obtain ⟨g,hg,hmg⟩ := ended_retire (fun m hm => hq.ended hc hm) hq.finalized_ordered hv hm
  have hgs := le_of_mem_advance hf hb hg
  have hme := LawfulScalar.le_trans hmg (LawfulScalar.add_slack hgs)
  -- It may have passed early by the slack, but then it would end just behind `s`.
  exact LawfulScalar.le_of_not_lt (LawfulScalar.le_right hb) hend fun hlt => hs m hmem ⟨hlt,hme⟩

theorem SegmentQueue.Reachable.spent_finalize (hq : q.Reachable) (hb : before ≤ s)
    (hf : ∀ f ∈ q.finalized, f ≤ s) (hs : ∀ i ∈ a.channels, ∀ m ∈ q.kept i,
      ¬(s < m.endTime ∧ m.endTime ≤ s + timeEpsilon)) : q.Spent a s (q.finalize before after) := by
  refine ⟨.finalize q before after,fun i hi c d hc hd => ?_⟩
  have hsc := hs i hi
  rw [kept_eq hc] at hsc
  set e := c.retire (advance q.finalized before) with he
  have hover : ∀ m ∈ e.history, m.endTime ≤ s :=
    fun m hm => hq.endTime_le_of_retired hb hf hc hsc hm
  rw [getElem?_finalize,hc,Option.map_some,Option.some.injEq,← he] at hd
  obtain ⟨gone,hgone⟩ := Channel.drop_suffix after e.history e.reclaimed
  have hsegments : c.segments = gone ++ d.segments := by
    rw [← Channel.segments_retire c (advance q.finalized before),← hd,← he,Channel.segments,← hgone,
      List.append_assoc]
    rfl
  refine ⟨gone.reverse,by simp [Channel.timeline,hsegments],fun hne => ⟨fun m hm => ?_,?_⟩⟩
  · rw [List.mem_reverse] at hm
    exact hover m (hgone ▸ List.mem_append_left _ hm)
  · -- The newest segment of the history is never dropped.
    have hlast := Channel.drop_getLast? after e.history e.reclaimed
    have hhistory : e.history ≠ [] := by
      rw [← hgone]
      exact List.append_ne_nil_of_left_ne_nil (fun h => hne (by simp [h])) _
    rw [List.getLast?_eq_some_getLast hhistory] at hlast
    have hkept : e.history.getLast hhistory ∈ d.segments := by
      rw [← hd]
      exact List.mem_append_left _ (List.mem_of_getLast? hlast)
    have hvalid := hq.validate hc (hsegments ▸ List.mem_append_right gone hkept)
    exact ⟨_,(d.mem_timeline _).2 hkept,LawfulScalar.le_trans
      (Segment.startTime_le_endTime_of_validate hvalid) (hover _ (List.getLast_mem hhistory))⟩

end Finalize

namespace Rail
variable {r : Rail α} {q p : SegmentQueue α} {upto : α}

theorem track_spent {s : α} (h : q.Spent r.allocator s p) :
    Results.Alike (Track.Spent s) (r.track q) (r.track p) := by
  refine Results.Alike.mapM fun x hx => ?_
  have hi := Allocator.fst_mem_channels hx
  cases hc : q.channels[x.1]? with
  | none =>
    have hd := h.trimmed.channel_eq_none.2 hc
    exact Or.inl ⟨.motion (.channelOutOfRange r.name x.1),by simp only [hc],by simp only [hd]⟩
  | some c =>
    obtain ⟨d,hd,-⟩ := h.trimmed.exists_channel hc
    refine Or.inr ⟨(c.timeline,x.2),(d.timeline,x.2),?_,?_,h.spent x.1 hi c d hc hd,rfl⟩
    · simp only [hc]
    · simp only [hd]

variable [LawfulScalar α]

theorem advance_spent {k k' : Track α} {start : α} (h : k.Spent r.lastFlushTime k')
    (h₀ : 0 ≤ r.lastFlushTime) (hlt : r.lastFlushTime < upto) :
    r.advance k' start upto = r.advance k start upto := by
  obtain ⟨us,hus,hcut⟩ := breakpoints_cut k' hlt
  have hagree := h.agreeFrom start
  -- Every window begins at the last flush or later, and its end is read from the left.
  refine advance_congr (h.touching upto) ?_ fun _ => ?_
  · refine stepWindows_agree (onward_of_nonneg h₀) hagree (fun w hw => ?_) r.steppers
    rw [hus] at hw
    exact windows_of_cut hcut hw
  · unfold lastPosition
    cases hw : (windows (breakpoints k' r.lastFlushTime upto)).getLast? with
    | none => rfl
    | some w =>
      have hmem := List.mem_of_getLast? hw
      rw [hus] at hmem
      exact hagree.positionBefore w.2 (windows_of_cut hcut hmem).2

theorem generateSteps_spent (h : q.Spent r.allocator r.lastFlushTime p) (h₀ : 0 ≤ r.lastFlushTime)
    (hu : upto ≤ upto) : r.generateSteps (some p) upto = r.generateSteps (some q) upto := by
  unfold generateSteps
  by_cases hle : upto ≤ r.lastFlushTime
  · simp only [hle,if_true]
  · have h₁ := LawfulScalar.le_right h₀
    have hlt := LawfulScalar.lt_of_not_le hu h₁ hle
    rcases track_spent h with ⟨e,hq,hp⟩ | ⟨k,k',hq,hp,hk⟩
    · simp only [hle,if_false,hq,hp]
    · have hstart : k'.positionAt r.lastFlushTime = k.positionAt r.lastFlushTime :=
        hk.positionFrom h₁ 0
      simp only [hle,if_false,hq,hp,Results.ok_bind,hstart,advance_spent hk h₀ hlt]

theorem lastFlushTime_le_generateSteps {queue : Option (SegmentQueue α)} {r' : Rail α}
    (h : r.generateSteps queue upto = .ok r') (hr : r.lastFlushTime ≤ r.lastFlushTime)
    (hu : upto ≤ upto) : r.lastFlushTime ≤ r'.lastFlushTime := by
  rcases (generateSteps_lastFlushTime h).2 with ⟨-,he⟩ | ⟨hle,he⟩
  · rw [he]
    exact hr
  · rw [he]
    exact LawfulScalar.le_of_lt (LawfulScalar.lt_of_not_le hu hr hle)

omit [LawfulScalar α] in
theorem setPosition_frame {r' : Rail α} {coord : List α} (h : r.setPosition coord = .ok r') :
    r'.allocator = r.allocator ∧ r'.lastFlushTime = r.lastFlushTime := by
  unfold setPosition at h
  split at h <;> cases h
  exact ⟨rfl,rfl⟩

end Rail

structure Feed (α : Type) where
  rail : Rail α
  queue : SegmentQueue α

namespace Feed

inductive Request (α : Type) where
  | add (e : SegmentQueue.Entry α)
  | setPosition (coord : List α)
  | generate (upto : α)

def Request.Ordered : Request α → Prop
  | .add _ => True
  | .setPosition _ => True
  | .generate upto => upto ≤ upto

def handle (f : Feed α) : Request α → Except (Error α) (Feed α)
  | .add e => ((f.queue.add e).mapError .queue).map fun q => { f with queue := q }
  | .setPosition coord => (f.rail.setPosition coord).map fun r => { f with rail := r }
  | .generate upto => (f.rail.generateSteps (some f.queue) upto).map fun r => { f with rail := r }

def after (f : Feed α) (r : Request α) : Feed α := (f.handle r).toOption.getD f

def run (f : Feed α) (rs : List (Request α)) : Feed α := rs.foldl after f

/-- What becomes of requests one after another: a refusal, or the rail with all its steps. -/
def outcomes : Feed α → List (Request α) → List (Except (Error α) (Rail α))
  | _, [] => []
  | f, r :: rs => (f.handle r).map rail :: outcomes (f.after r) rs

def finalize (f : Feed α) (before after : α) : Feed α :=
  { f with queue := f.queue.finalize before after }

/-- Two feeds of one rail, of which the second has lost nothing that the rail still reads. -/
structure Twin (f f' : Feed α) : Prop where
  rail : f'.rail = f.rail
  start : 0 ≤ f.rail.lastFlushTime
  spent : f.queue.Spent f.rail.allocator f.rail.lastFlushTime f'.queue

section Twin
variable [LawfulScalar α] {f f' : Feed α}

theorem Twin.handle (h : f.Twin f') {r : Request α} (hr : r.Ordered) :
    Results.Alike Twin (f.handle r) (f'.handle r) := by
  obtain ⟨rail,p⟩ := f'
  obtain rfl : rail = f.rail := h.rail
  have h₀ := h.start
  have hspent : f.queue.Spent f.rail.allocator f.rail.lastFlushTime p := h.spent
  cases r with
  | add e =>
    have hadd := (hspent.add e).mapError (Error.queue (α := α))
    exact hadd.map fun _ _ hs => ⟨rfl,h₀,hs⟩
  | setPosition coord =>
    have hset : Results.Alike (fun r r' => r' = r ∧ r.allocator = f.rail.allocator ∧
        r.lastFlushTime = f.rail.lastFlushTime) (f.rail.setPosition coord)
        (f.rail.setPosition coord) := .refl fun r hr => ⟨rfl,Rail.setPosition_frame hr⟩
    refine hset.map ?_
    rintro r r' ⟨hr,ha,hl⟩
    exact ⟨hr,hl ▸ h₀,by rw [ha,hl]; exact hspent⟩
  | generate upto =>
    -- Both flush alike, and the time by which the missing segments were over only moves on.
    have hu : upto ≤ upto := hr
    have hg : Results.Alike (fun r r' => r' = r ∧ r.allocator = f.rail.allocator ∧
        f.rail.lastFlushTime ≤ r.lastFlushTime) (f.rail.generateSteps (some f.queue) upto)
        (f.rail.generateSteps (some p) upto) := by
      rw [Rail.generateSteps_spent hspent h₀ hu]
      exact .refl fun r hr => ⟨rfl,(Rail.generateSteps_lastFlushTime hr).1,
        Rail.lastFlushTime_le_generateSteps hr (LawfulScalar.le_right h₀) hu⟩
    refine hg.map ?_
    rintro r r' ⟨hr,ha,hle⟩
    exact ⟨hr,LawfulScalar.le_trans h₀ hle,by rw [ha]; exact hspent.later hle⟩

theorem Twin.after (h : f.Twin f') {r : Request α} (hr : r.Ordered) :
    (f'.handle r).map Feed.rail = (f.handle r).map Feed.rail ∧ (f.after r).Twin (f'.after r) := by
  unfold Feed.after
  rcases h.handle hr with ⟨e,hf,hf'⟩ | ⟨g,g',hf,hf',hg⟩
  · rw [hf,hf']
    exact ⟨rfl,h⟩
  · rw [hf,hf']
    exact ⟨congrArg Except.ok hg.rail,hg⟩

theorem Twin.run (h : f.Twin f') {rs : List (Request α)} (hr : ∀ r ∈ rs, r.Ordered) :
    f'.outcomes rs = f.outcomes rs ∧ (f.run rs).Twin (f'.run rs) := by
  induction rs generalizing f f' with
  | nil => exact ⟨rfl,h⟩
  | cons r rs ih =>
    obtain ⟨hr,hrs⟩ := List.forall_mem_cons.1 hr
    obtain ⟨hsame,hnext⟩ := h.after hr
    obtain ⟨hall,hlast⟩ := ih hnext hrs
    exact ⟨by rw [outcomes,outcomes,hsame,hall],hlast⟩

/-- Finalizing what has been flushed goes unnoticed: every later request to the queue and the rail is
answered as without it, step by step, and leaves the rail in the same state. -/
theorem finalize_unnoticed {before after : α} {rs : List (Request α)} (hq : f.queue.Reachable)
    (h₀ : 0 ≤ f.rail.lastFlushTime) (hb : before ≤ f.rail.lastFlushTime)
    (hf : ∀ g ∈ f.queue.finalized, g ≤ f.rail.lastFlushTime)
    (hs : ∀ i ∈ f.rail.allocator.channels, ∀ m ∈ f.queue.kept i,
      ¬(f.rail.lastFlushTime < m.endTime ∧ m.endTime ≤ f.rail.lastFlushTime + timeEpsilon))
    (hr : ∀ r ∈ rs, r.Ordered) :
    (f.finalize before after).outcomes rs = f.outcomes rs ∧
      ((f.finalize before after).run rs).rail = (f.run rs).rail := by
  have htwin : f.Twin (f.finalize before after) := ⟨rfl,h₀,hq.spent_finalize hb hf hs⟩
  obtain ⟨hall,hlast⟩ := htwin.run hr
  exact ⟨hall,hlast.rail⟩

end Twin

section Held

def held : List (SegmentQueue.Request Float) :=
  [.add (.segment 0 (.hold (-4) (-1) 1)),.add (.segment 0 (.hold (-2) 1 1))]

def resting : Feed Float where
  rail := { Rail.ofName "r" with steppers := [Stepper.ofName "s" "mcu" 1] }
  queue := (Ledger.run 1 held).queue

def onward : List (Request Float) := [.add (.segment 0 ⟨0,1,0,1,0,1,1,0⟩),.generate 1]

theorem finalize_unnoticed_of_held :
    ((resting.finalize 0 0).queue.kept 0).length < (resting.queue.kept 0).length ∧
    (resting.finalize 0 0).outcomes onward = resting.outcomes onward ∧
      ((resting.finalize 0 0).run onward).rail = (resting.run onward).rail := by
  refine ⟨by decide +kernel,finalize_unnoticed (Ledger.reachable_run 1 held) ?_ ?_ ?_ ?_ ?_⟩
  · decide +kernel
  · decide +kernel
  · decide +kernel
  · decide +kernel
  · intro r hr
    simp only [onward,List.mem_cons,List.not_mem_nil,or_false] at hr
    rcases hr with rfl | rfl
    · trivial
    · exact LawfulScalar.finite (by decide +kernel)

def undefined : Float := 0 / 0

theorem breakpoints_undefined {k : Track Float} (h : k.touching 0 undefined = []) :
    breakpoints k 0 undefined = [0,undefined] := by
  have hsort : [(0 : Float),undefined].mergeSort Scalar.sortsBefore = [0,undefined] :=
    List.mergeSort_of_pairwise (by simp [Scalar.sortsBefore]; decide +kernel)
  unfold breakpoints breakTimes
  simp only [h,List.flatMap_nil]
  rw [hsort]
  decide +kernel

/-- A flush to an undefined time steps through one window that has no end. -/
theorem counters_undefined {q : SegmentQueue Float} {k : Track Float} {start : Float}
    (hk : resting.rail.track q = .ok k) (ht : k.touching 0 undefined = [])
    (hp : k.positionAt 0 = some start) :
    (run ⟨resting.rail,q⟩ [.generate undefined]).rail.steppers.map Stepper.counter =
      (stepWindows (k.motion start) [0,undefined] resting.rail.steppers).map Stepper.counter := by
  have hlate : ¬undefined ≤ resting.rail.lastFlushTime := by decide +kernel
  have hp : k.positionAt resting.rail.lastFlushTime = some start := hp
  have hg : resting.rail.generateSteps (some q) undefined =
      .ok (resting.rail.advance k start undefined) := by
    simp only [Rail.generateSteps,hlate,if_false,hk,Results.ok_bind,hp]
    rfl
  have hrun : (run ⟨resting.rail,q⟩ [.generate undefined]).rail =
      resting.rail.advance k start undefined := by
    simp only [run,List.foldl_cons,List.foldl_nil,after,handle,hg]
    rfl
  have hcut : breakpoints k resting.rail.lastFlushTime undefined = [0,undefined] :=
    breakpoints_undefined ht
  have hsteps : (resting.rail.advance k start undefined).steppers.map
      (fun s => (s.counter,s.sink.events)) = _ := Rail.advance_steps
  have hcounters := congrArg (List.map Prod.fst) hsteps
  rw [List.map_map,List.map_map,hcut] at hcounters
  rw [hrun]
  exact hcounters

/-- At the undefined time no segment has begun, so the flush approaches it from the start of the oldest
one. Finalizing, which reclaims that one, makes it another start. -/
theorem finalize_noticed : resting.queue.Reachable ∧
    0 ≤ resting.rail.lastFlushTime ∧
    (∀ g ∈ resting.queue.finalized, g ≤ resting.rail.lastFlushTime) ∧
    (∀ i ∈ resting.rail.allocator.channels, i < resting.queue.channels.length ∧
      ∀ m ∈ resting.queue.kept i, m.endTime ≤ resting.rail.lastFlushTime) ∧
    (resting.run [.generate undefined]).rail.steppers.map Stepper.counter = [-1] ∧
    ((resting.finalize 0 0).run [.generate undefined]).rail.steppers.map Stepper.counter = [0] := by
  have hk : resting.rail.track resting.queue = .ok [(resting.queue.line 0,1)] := rfl
  have hk' : resting.rail.track (resting.finalize 0 0).queue =
      .ok [((resting.finalize 0 0).queue.line 0,1)] := rfl
  have hp : Track.positionAt [(resting.queue.line 0,1)] 0 = some 1 := by decide +kernel
  have hp' : Track.positionAt [((resting.finalize 0 0).queue.line 0,1)] 0 = some 1 := by
    decide +kernel
  refine ⟨Ledger.reachable_run 1 held,?_,?_,?_,?_,?_⟩
  · decide +kernel
  · decide +kernel
  · decide +kernel
  · exact (counters_undefined hk (by decide +kernel) hp).trans (by decide +kernel)
  · exact (counters_undefined hk' (by decide +kernel) hp').trans (by decide +kernel)

end Held

end Feed

end Gantry
