import Mathlib
import Gantry.Proofs.Rail.Agreement

set_option autoImplicit false

namespace Gantry

namespace Segment

theorem Sound.startTime_le_of_mem {m : Segment ℝ} (h : m.Sound) {t : ℝ} (ht : t ∈ m.boundaries) :
    m.startTime ≤ t := by
  have ha := h.accelT
  have hc := h.cruiseT
  have he := h.startTime_le_endTime
  simp only [boundaries,List.mem_cons,List.not_mem_nil,or_false] at ht
  rcases ht with rfl | rfl | rfl | rfl <;> linarith

theorem Sound.le_endTime_of_mem {m : Segment ℝ} (h : m.Sound) {t : ℝ} (ht : t ∈ m.boundaries) :
    t ≤ m.endTime := by
  have ha := h.accelT
  have hc := h.cruiseT
  have hd := h.decelT
  have he := m.endTime_exact
  simp only [boundaries,List.mem_cons,List.not_mem_nil,or_false] at ht
  rcases ht with rfl | rfl | rfl | rfl <;> linarith

end Segment

/-- The new segments of a channel begin at a time `s` or later, and one of them does at `s`; the
segments behind them have ended by a time `f`. -/
structure Timeline.Renewed (f s : ℝ) (all new : Timeline ℝ) : Prop where
  split : ∃ old, all = new ++ old ∧ (∀ m ∈ old, m.Sound) ∧ ∀ m ∈ old, m.endTime ≤ f
  sound : ∀ m ∈ new, m.Sound
  begins : ∀ m ∈ new, s ≤ m.startTime
  first : ∃ m ∈ new, m.startTime = s

namespace Timeline.Renewed
variable {f s t upto : ℝ} {all new : Timeline ℝ}

theorem ne_nil (h : Renewed f s all new) : all ≠ [] := by
  obtain ⟨old,rfl,-⟩ := h.split
  obtain ⟨m,hm,-⟩ := h.first
  exact List.ne_nil_of_mem (List.mem_append_left old hm)

theorem alone (h : Renewed f s all new) : Renewed f s new new :=
  ⟨⟨[],by simp⟩,h.sound,h.begins,h.first⟩

theorem positionAt_eq (h : Renewed f s all new) (ht : s ≤ t) :
    all.positionAt t = new.positionAt t := by
  obtain ⟨old,rfl,-⟩ := h.split
  exact positionAt_append_of_begun (h.first.imp fun m hm => ⟨hm.1,hm.2.trans_le ht⟩)

theorem positionBefore_eq (h : Renewed f s all new) (ht : s < t) :
    all.positionBefore t = new.positionBefore t := by
  obtain ⟨old,rfl,-⟩ := h.split
  exact positionBefore_append_of_begun (h.first.imp fun m hm => ⟨hm.1,hm.2.trans_lt ht⟩)

theorem exists_rest (h : Renewed f s all new) : ∃ p,
    (∀ t, f ≤ t → t < s → all.positionAt t = some p) ∧
    ∀ t, f < t → t ≤ s → all.positionBefore t = some p := by
  obtain ⟨old,rfl,hs,he⟩ := h.split
  cases old with
  | nil =>
    obtain ⟨p,hp⟩ := origin_isSome h.ne_nil
    rw [List.append_nil] at hp ⊢
    refine ⟨p,fun t _ ht => ?_,fun t _ ht => ?_⟩
    · rw [positionAt_of_ahead fun m hm => ht.trans_le (h.begins m hm),hp]
    · rw [positionBefore_of_ahead fun m hm => ht.trans (h.begins m hm),hp]
  | cons m old =>
    refine ⟨m.endPosition,fun t hf ht => ?_,fun t hf ht => ?_⟩
    · rw [positionAt_append_of_ahead (fun m hm => ht.trans_le (h.begins m hm)) (by simp),
        positionAt_of_ended hs fun n hn => (he n hn).trans hf]
      rfl
    · rw [positionBefore_append_of_ahead (fun m hm => ht.trans (h.begins m hm)) (by simp),
        positionBefore_of_ended hs fun n hn => (he n hn).trans_lt hf]
      rfl

theorem filter_touches (h : Renewed f s all new) :
    all.reverse.filter (Track.touches f upto) = new.reverse.filter (Track.touches f upto) := by
  obtain ⟨old,rfl,-,he⟩ := h.split
  have hn : old.reverse.filter (Track.touches f upto) = [] := by
    refine List.filter_eq_nil_iff.2 fun m hm => ?_
    simp [Track.touches,he m (List.mem_reverse.1 hm)]
  rw [List.reverse_append,List.filter_append,hn,List.nil_append]

end Timeline.Renewed

namespace Allocator

section Motion
variable {a : Allocator} {c : Nat → Channel ℝ} {p : Nat → ℝ} {t rest : ℝ}

theorem motion_position (h : ∀ i ∈ a.channels, (c i).positionAt t = some (p i)) :
    ((a.trackOf c).motion rest).position t = a.combined p := by
  simp [Track.motion,positionAt_trackOf h]

theorem motion_positionBefore (h : ∀ i ∈ a.channels, (c i).positionBefore t = some (p i)) :
    ((a.trackOf c).motion rest).positionBefore t = a.combined p := by
  simp [Track.motion,positionBefore_trackOf h]

end Motion

section Renewed
variable {a : Allocator} {all new : Nat → Channel ℝ} {f s upto : ℝ}

theorem touching_renewed (upto : ℝ)
    (h : ∀ i ∈ a.channels, Timeline.Renewed f s (all i).timeline (new i).timeline) :
    (a.trackOf all).touching f upto = (a.trackOf new).touching f upto := by
  simp only [Track.touching,trackOf,List.flatMap_map]
  refine List.flatMap_congr fun x hx => ?_
  exact (h x.1 (fst_mem_channels hx)).filter_touches

theorem agreeFrom_renewed (rest rest' : ℝ)
    (h : ∀ i ∈ a.channels, Timeline.Renewed f s (all i).timeline (new i).timeline) :
    ((a.trackOf all).motion rest).AgreeFrom s ((a.trackOf new).motion rest') := by
  constructor
  · intro t ht
    have hp : ∀ i ∈ a.channels, (new i).positionAt t = some (((new i).positionAt t).getD 0) := by
      intro i hi
      obtain ⟨p,hp⟩ := Timeline.positionAt_isSome (h i hi).alone.ne_nil t
      change (new i).positionAt t = some p at hp
      rw [hp,Option.getD_some]
    rw [motion_position hp,motion_position fun i hi => ?_]
    rw [← hp i hi]; exact (h i hi).positionAt_eq ht
  · intro t ht
    have hp : ∀ i ∈ a.channels,
        (new i).positionBefore t = some (((new i).positionBefore t).getD 0) := by
      intro i hi
      obtain ⟨p,hp⟩ := Timeline.positionBefore_isSome (h i hi).alone.ne_nil t
      change (new i).positionBefore t = some p at hp
      rw [hp,Option.getD_some]
    rw [motion_positionBefore hp,motion_positionBefore fun i hi => ?_]
    rw [← hp i hi]; exact (h i hi).positionBefore_eq ht

theorem exists_rest_renewed (rest : ℝ)
    (h : ∀ i ∈ a.channels, Timeline.Renewed f s (all i).timeline (new i).timeline) : ∃ p,
    (∀ t, f ≤ t → t < s → ((a.trackOf all).motion rest).position t = p) ∧
    ∀ t, f < t → t ≤ s → ((a.trackOf all).motion rest).positionBefore t = p := by
  choose! p hp using fun i hi => (h i hi).exists_rest
  exact ⟨a.combined p,fun t hf ht => motion_position fun i hi => (hp i hi).1 t hf ht,
    fun t hf ht => motion_positionBefore fun i hi => (hp i hi).2 t hf ht⟩

theorem le_of_mem_inside
    (h : ∀ i ∈ a.channels, Timeline.Renewed f s (new i).timeline (new i).timeline) {t : ℝ}
    (ht : t ∈ (a.trackOf new).inside f upto) : s ≤ t := by
  obtain ⟨⟨m,hm,hb⟩,-⟩ := Track.mem_inside.1 ht
  obtain ⟨⟨i,hi,hmi⟩,-⟩ := mem_touching.1 hm
  exact ((h i hi).begins m hmi).trans (((h i hi).sound m hmi).startTime_le_of_mem hb)

/-- The start of the new segments is the first boundary of a range that holds it. -/
theorem breakpoints_renewed
    (h : ∀ i ∈ a.channels, Timeline.Renewed f s (new i).timeline (new i).timeline)
    (hf : f < s) (hs : s < upto) : ∃ ts, (s :: (ts ++ [upto])).Pairwise (· ≤ ·) ∧
      breakpoints (a.trackOf new) f upto = spaced f (s :: (ts ++ [upto])) := by
  obtain ⟨i,hi⟩ := a.exists_mem_channels
  obtain ⟨m,hm,rfl⟩ := (h i hi).first
  have hmem : m.startTime ∈ inOrder ((a.trackOf new).inside f upto) := by
    have he := ((h i hi).sound m hm).startTime_le_endTime
    refine mem_inOrder.2 (Track.mem_inside.2 ⟨⟨m,mem_touching.2 ⟨⟨i,hi,hm⟩,?_,hs⟩,?_⟩,hf,hs⟩)
    · exact hf.trans_le he
    · simp [Segment.boundaries]
  have hsort := inOrder_sorted ((a.trackOf new).inside f upto)
  have hle : ∀ t ∈ inOrder ((a.trackOf new).inside f upto), m.startTime ≤ t ∧ t < upto :=
    fun t ht => ⟨le_of_mem_inside h (mem_inOrder.1 ht),(Track.mem_inside.1 (mem_inOrder.1 ht)).2.2⟩
  rw [breakpoints_eq (hf.trans hs)]
  cases hin : inOrder ((a.trackOf new).inside f upto) with
  | nil => simp [hin] at hmem
  | cons u us =>
    rw [hin] at hmem hsort hle
    have hu : u = m.startTime := by
      refine le_antisymm ?_ (hle u List.mem_cons_self).1
      rcases List.mem_cons.1 hmem with he | hmem
      · exact he.ge
      · exact (List.pairwise_cons.1 hsort).1 _ hmem
    subst hu
    refine ⟨us,?_,rfl⟩
    rw [← List.cons_append,List.pairwise_append]
    refine ⟨hsort,by simp,fun t ht v hv => ?_⟩
    rw [List.mem_singleton.1 hv]
    exact (hle t ht).2.le

theorem breakpoints_renewed_of_ended
    (h : ∀ i ∈ a.channels, Timeline.Renewed f s (all i).timeline (new i).timeline)
    (hf : f < s) (hs : s < upto) : ∃ ts, (s :: (ts ++ [upto])).Pairwise (· ≤ ·) ∧
      breakpoints (a.trackOf all) f upto = spaced f (s :: (ts ++ [upto])) := by
  obtain ⟨ts,hts,hb⟩ := breakpoints_renewed (fun i hi => (h i hi).alone) hf hs
  refine ⟨ts,hts,?_⟩
  rw [← hb]
  simp only [breakpoints,touching_renewed upto h]

theorem covers_renewed
    (h : ∀ i ∈ a.channels, Timeline.Renewed f s (all i).timeline (new i).timeline)
    (hf : f < s) (hs : s < upto) : (a.trackOf all).covers f upto = true := by
  obtain ⟨i,hi⟩ := a.exists_mem_channels
  obtain ⟨m,hm,hms⟩ := (h i hi).first
  have hme := ((h i hi).sound m hm).startTime_le_endTime
  rw [Track.covers_eq_true,touching_renewed upto h]
  exact ⟨m,mem_touching.2 ⟨⟨i,hi,hm⟩,by linarith,by linarith⟩⟩

end Renewed

end Allocator

namespace Rail
variable {r : Rail ℝ} {q q' : SegmentQueue ℝ} {all new : Nat → Channel ℝ} {s upto : ℝ}

section Renewed
variable {rest rest' : ℝ}

theorem advance_renewed_of_begun (hf : r.lastFlushTime < upto) (hs : s ≤ r.lastFlushTime)
    (h : ∀ i ∈ r.allocator.channels,
      Timeline.Renewed r.lastFlushTime s (all i).timeline (new i).timeline)
    (hr : rest = rest') :
    r.advance (r.allocator.trackOf all) rest upto =
      r.advance (r.allocator.trackOf new) rest' upto := by
  have ht := Allocator.touching_renewed upto h
  have hagree := Allocator.agreeFrom_renewed rest rest' h
  have hw : ∀ w ∈ windows (breakpoints (r.allocator.trackOf all) r.lastFlushTime upto),
      r.lastFlushTime ≤ w.1 ∧ w.1 < w.2 := by
    rw [breakpoints_eq hf]
    exact fun w hw => windows_spaced (sorted_inside hf) hw
  refine advance_congr ht (stepWindows_congr hagree (fun w hm => ?_) _) fun _ => ?_
  · exact ⟨hs.trans (hw w hm).1,(hw w hm).2⟩
  · unfold lastPosition
    cases hl : (windows (breakpoints (r.allocator.trackOf all) r.lastFlushTime upto)).getLast? with
    | none => exact hr
    | some w =>
      have hwm := hw w (List.mem_of_getLast? hl)
      exact hagree.positionBefore w.2 (by linarith [hwm.1,hwm.2])

theorem advance_renewed_of_ahead (hf : r.lastFlushTime < upto) (hs : upto ≤ s)
    (h : ∀ i ∈ r.allocator.channels,
      Timeline.Renewed r.lastFlushTime s (all i).timeline (new i).timeline) :
    r.advance (r.allocator.trackOf all) rest upto = { r with lastFlushTime := upto } := by
  obtain ⟨o,ho,hob⟩ := Allocator.exists_rest_renewed rest h
  have hc : (r.allocator.trackOf all).covers r.lastFlushTime upto = false := by
    rw [← Bool.not_eq_true,Track.covers_eq_true,Allocator.touching_renewed upto h]
    rintro ⟨m,hm⟩
    obtain ⟨⟨i,hi,hmi⟩,-,hmu⟩ := Allocator.mem_touching.1 hm
    have := (h i hi).begins m hmi
    linarith
  have hstill : stepWindows ((r.allocator.trackOf all).motion rest)
      (breakpoints (r.allocator.trackOf all) r.lastFlushTime upto) r.steppers = r.steppers := by
    rw [breakpoints_eq hf]
    refine stepWindows_of_still (fun w hw => ?_) r.steppers
    obtain ⟨h1,h2⟩ := windows_spaced (sorted_inside hf) hw
    have h3 : w.2 ≤ upto := by
      rcases mem_of_mem_spaced (List.mem_of_mem_tail (List.of_mem_zip hw).2) with he | hm
      · linarith
      · rcases List.mem_append.1 hm with hm | hm
        · exact (Track.mem_inside.1 (mem_inOrder.1 hm)).2.2.le
        · exact (List.mem_singleton.1 hm).le
    rw [ho _ h1 (by linarith),ho _ (by norm_num; linarith) (by norm_num; linarith),
      hob _ (by linarith) (h3.trans hs)]
    exact ⟨rfl,rfl⟩
  simp only [advance_eq,hc,hstill]
  rfl

theorem advance_renewed_of_far (hf : r.lastFlushTime + timeEpsilon ≤ s)
    (hs : s + timeEpsilon ≤ upto) (h : ∀ i ∈ r.allocator.channels,
      Timeline.Renewed r.lastFlushTime s (all i).timeline (new i).timeline) :
    r.advance (r.allocator.trackOf all) rest upto =
      r.advance (r.allocator.trackOf new) rest' upto := by
  have he := timeEpsilon_pos
  have hfs : r.lastFlushTime < s := by linarith
  have ht := Allocator.touching_renewed upto h
  have hagree := Allocator.agreeFrom_renewed rest rest' h
  obtain ⟨o,ho,hob⟩ := Allocator.exists_rest_renewed rest h
  obtain ⟨o',ho',hob'⟩ := Allocator.exists_rest_renewed rest' fun i hi => (h i hi).alone
  obtain ⟨ts,hts,hb⟩ := Allocator.breakpoints_renewed_of_ended h hfs (by linarith)
  have hne := windows_spaced_ne_nil hts (by simp) hs
  have hw := fun w hw => windows_spaced (w := w) hts hw
  obtain ⟨us,hus⟩ := spaced_head s (ts ++ [upto])
  rw [spaced_cons_of_far (le_abs.2 (Or.inl (by linarith))),hus] at hb
  rw [hus] at hw hne
  have hmid : r.lastFlushTime ≤ 0.5 * (r.lastFlushTime + s) ∧
      0.5 * (r.lastFlushTime + s) < s := by
    constructor <;> norm_num <;> linarith
  refine advance_congr ht ?_ fun _ => ?_
  · rw [hb,stepWindows_cons,stepWindows_cons,stepWindow_of_still,stepWindow_of_still]
    · exact stepWindows_congr hagree hw _
    · rw [ho' _ hmid.1 hmid.2,ho' _ le_rfl hfs]
    · rw [hob' _ hfs le_rfl,ho' _ le_rfl hfs]
    · rw [ho _ hmid.1 hmid.2,ho _ le_rfl hfs]
    · rw [hob _ hfs le_rfl,ho _ le_rfl hfs]
  · have hl := List.getLast?_eq_some_getLast hne
    rw [hb]
    unfold lastPosition
    rw [windows_cons_cons,List.getLast?_cons,hl,Option.getD_some,Option.elim_some,Option.elim_some]
    have hwm := hw _ (List.getLast_mem hne)
    exact hagree.positionBefore _ (by linarith [hwm.1,hwm.2])

/-- A rail is declared to be where it rested before the new segments began, if the range ends
closely behind that or closely behind its own start. -/
theorem advance_renewed_commandedPos (hf : r.lastFlushTime < s) (hs : s < upto)
    (hn : upto < r.lastFlushTime + timeEpsilon ∨
      r.lastFlushTime + timeEpsilon ≤ s ∧ upto < s + timeEpsilon)
    (h : ∀ i ∈ r.allocator.channels,
      Timeline.Renewed r.lastFlushTime s (all i).timeline (new i).timeline)
    (hr : ((r.allocator.trackOf all).motion rest).position r.lastFlushTime = rest) :
    (r.advance (r.allocator.trackOf all) rest upto).commandedPos = rest := by
  have he := timeEpsilon_pos
  obtain ⟨o,ho,hob⟩ := Allocator.exists_rest_renewed rest h
  obtain ⟨ts,hts,hb⟩ := Allocator.breakpoints_renewed_of_ended h hf hs
  simp only [advance_eq,Allocator.covers_renewed h hf hs,if_true,hb]
  change lastPosition _ _ _ = rest
  rcases hn with hn | ⟨hfs,hsu⟩
  · -- no window is left
    have hsort : (r.lastFlushTime :: (s :: ts ++ [upto])).Pairwise (· ≤ ·) := by
      refine List.pairwise_cons.2 ⟨fun t ht => ?_,hts⟩
      rcases List.mem_cons.1 ht with rfl | ht
      · exact hf.le
      · exact hf.le.trans ((List.pairwise_cons.1 hts).1 t ht)
    rw [← List.cons_append,spaced_of_last_near hsort hn]
    rfl
  · -- the one window ends where the new segments begin
    rw [spaced_cons_of_far (le_abs.2 (Or.inl (by linarith))),spaced_of_last_near hts hsu]
    change ((r.allocator.trackOf all).motion rest).positionBefore s = rest
    rw [hob s hf le_rfl,← ho r.lastFlushTime le_rfl hf,hr]

end Renewed

/-- Segments that have ended make no difference, as long as the start of the new ones is far from
the last flush and from the next one, or is not passed at all. -/
theorem generateSteps_renewed (hq : ∀ i ∈ r.allocator.channels, q.channels[i]? = some (all i))
    (hq' : ∀ i ∈ r.allocator.channels, q'.channels[i]? = some (new i))
    (h : ∀ i ∈ r.allocator.channels,
      Timeline.Renewed r.lastFlushTime s (all i).timeline (new i).timeline)
    (hs : s ≤ r.lastFlushTime ∨ upto ≤ s ∨
      r.lastFlushTime + timeEpsilon ≤ s ∧ s + timeEpsilon ≤ upto) :
    ∃ r', r.generateSteps (some q) upto = .ok r' ∧ r.generateSteps (some q') upto = .ok r' := by
  rcases le_or_gt upto r.lastFlushTime with hf | hf
  · exact ⟨r,generateSteps_of_le hf,generateSteps_of_le hf⟩
  have h' := fun i hi => (h i hi).alone
  choose! p hp using fun i hi => Timeline.positionAt_isSome (h i hi).ne_nil r.lastFlushTime
  choose! p' hp' using fun i hi => Timeline.positionAt_isSome (h' i hi).ne_nil r.lastFlushTime
  refine ⟨_,generateSteps_eq_advance hf hq hp,?_⟩
  rw [generateSteps_eq_advance hf hq' hp']
  refine congrArg _ (Eq.symm ?_)
  rcases hs with hs | hs | ⟨hs,hs'⟩
  · refine advance_renewed_of_begun hf hs h (Allocator.combined_congr fun i hi => ?_)
    have he := (h i hi).positionAt_eq hs
    rw [hp i hi,hp' i hi] at he
    exact Option.some.inj he
  · rw [advance_renewed_of_ahead hf hs h,advance_renewed_of_ahead hf hs h']
  · exact advance_renewed_of_far hs hs' h

end Rail

end Gantry
