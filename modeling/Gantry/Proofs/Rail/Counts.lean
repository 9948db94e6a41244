import Mathlib
import Gantry.Proofs.Rail.StepLog

/-!
Counts: how many steps a motor makes on the way to a position, in closed form. The middle between
two counts belongs to the way on, from either side. What is left of the way after some of the steps
is what was there less these steps, so a way made in parts comes to the same steps.
-/
set_option autoImplicit false

namespace Gantry

def StepEvent.untimed (e : StepEvent ℝ) : Direction × Bool × Int :=
  (e.direction,e.dirPin,e.position)

namespace StepSink

def untimed (k : StepSink ℝ) : List (Direction × Bool × Int) := k.events.toList.map (·.untimed)

theorem untimed_putAll {es es' : List (StepEvent ℝ)} (k : StepSink ℝ)
    (h : es.map (·.untimed) = es'.map (·.untimed)) :
    (k.putAll es).untimed = (k.putAll es').untimed := by
  cases k with
  | discard =>
    have hdiscard (es : List (StepEvent ℝ)) : (discard : StepSink ℝ).putAll es = discard := by
      induction es with
      | nil => rfl
      | cons e es ih => exact ih
    rw [hdiscard,hdiscard]
  | record old => simp [putAll_record,untimed,events,h]

end StepSink

namespace Stepper

/-- The loop of a motor: it steps while the next step position is reached, with no bound on the
rounds. -/
inductive Loops (p : ℝ → ℝ) (lo hi pos : ℝ) (d : Direction) : Stepper ℝ → Stepper ℝ → Prop where
  | done {s : Stepper ℝ} : d.reaches pos (s.nextStepPosition d) = false → Loops p lo hi pos d s s
  | step {s s' : Stepper ℝ} : d.reaches pos (s.nextStepPosition d) = true →
      Loops p lo hi pos d (s.step (findCrossing p lo hi (s.nextStepPosition d) d) d) s' →
      Loops p lo hi pos d s s'

section Loops
variable {p : ℝ → ℝ} {lo hi pos : ℝ} {d : Direction} {s s' s'' : Stepper ℝ}

theorem Loops.unique (h : Loops p lo hi pos d s s') (h' : Loops p lo hi pos d s s'') :
    s' = s'' := by
  induction h with
  | done hr =>
    cases h' with
    | done => rfl
    | step hr' => rw [hr] at hr'; cases hr'
  | step hr _ ih =>
    cases h' with
    | done hr' => rw [hr] at hr'; cases hr'
    | step _ h' => exact ih h'

theorem stepWhile_loops (fuel : Nat) (s : Stepper ℝ) (hd : 0 < s.stepDistance)
    (hf : s.ahead d pos < fuel * s.stepDistance + s.stepDistance / 2) :
    Loops p lo hi pos d s (s.stepWhile p lo hi pos d fuel) := by
  induction fuel generalizing s with
  | zero =>
    refine .done (Bool.eq_false_iff.2 fun hr => ?_)
    have hle := reaches_nextStepPosition.1 hr
    rw [Nat.cast_zero,zero_mul,zero_add] at hf
    exact absurd hf (not_lt.2 hle)
  | succ n ih =>
    unfold stepWhile
    dsimp only
    split
    · rename_i hr
      set t := findCrossing p lo hi (s.nextStepPosition d) d
      refine .step hr (ih (s.step t d) hd ?_)
      -- One step brings the target nearer by exactly one step distance.
      have hs := ahead_stepAll s d pos [t]
      change (s.step t d).ahead d pos = _ at hs
      change (s.step t d).ahead d pos < n * s.stepDistance + s.stepDistance / 2
      rw [hs]
      push_cast at hf ⊢
      simp only [List.length_singleton,Nat.cast_one]
      linarith
    · rename_i hr
      exact .done (Bool.eq_false_iff.2 hr)

theorem loops_iff (hd : 0 < s.stepDistance) :
    Loops p lo hi pos d s s' ↔ s' = s.follow p lo hi pos d := by
  have hloops : Loops p lo hi pos d s (s.follow p lo hi pos d) := by
    unfold follow
    rw [if_neg (not_le.2 hd)]
    exact stepWhile_loops _ s hd (ahead_lt_stepBound hd d pos)
  exact ⟨fun h => h.unique hloops,fun h => h ▸ hloops⟩

end Loops

/-- The steps that a motor makes in a direction before a position is less than half a step ahead. -/
noncomputable def stepsTo (s : Stepper ℝ) (d : Direction) (pos : ℝ) : Nat :=
  ⌊s.ahead d pos / s.stepDistance + 1 / 2⌋₊

section Count
variable {pos pos' : ℝ} {d : Direction} {s : Stepper ℝ}

theorem follow_steps (p : ℝ → ℝ) (lo hi pos : ℝ) (d : Direction) (hd : 0 < s.stepDistance) :
    ∃ ts, s.follow p lo hi pos d = s.stepAll d ts ∧ ts.length = s.stepsTo d pos := by
  obtain ⟨ts,hts,hlt,hge⟩ : ∃ ts, s.follow p lo hi pos d = s.stepAll d ts ∧ _ := follow_spec hd
  refine ⟨ts,hts,?_⟩
  rw [ahead_stepAll] at hlt hge
  have hlt' : s.ahead d pos / s.stepDistance + 1 / 2 < ts.length + 1 := by
    rw [div_add' _ _ _ hd.ne',div_lt_iff₀ hd]
    linarith
  rcases eq_or_ne ts [] with rfl | hne
  · exact (Nat.floor_eq_zero.2 (by simpa using hlt')).symm
  · have hge' : (ts.length : ℝ) ≤ s.ahead d pos / s.stepDistance + 1 / 2 := by
      have := hge hne
      rw [div_add' _ _ _ hd.ne',le_div_iff₀ hd]
      linarith
    exact ((Nat.floor_eq_iff ((Nat.cast_nonneg _).trans hge')).2 ⟨hge',hlt'⟩).symm

theorem stepsTo_stepAll (hd : 0 < s.stepDistance) (ts : List ℝ) :
    (s.stepAll d ts).stepsTo d pos = s.stepsTo d pos - ts.length := by
  have hlen : s.ahead d pos / s.stepDistance - ts.length + 1 / 2 =
      s.ahead d pos / s.stepDistance + 1 / 2 - ts.length := by ring
  rw [stepsTo,ahead_stepAll,stepAll_stepDistance,sub_div,mul_div_cancel_right₀ _ hd.ne',hlen,
    Nat.floor_sub_natCast]
  rfl

theorem stepsTo_mono (hd : 0 < s.stepDistance) (h : 0 ≤ d.sign * (pos' - pos)) :
    s.stepsTo d pos ≤ s.stepsTo d pos' := by
  refine Nat.floor_le_floor (add_le_add_left (div_le_div_of_nonneg_right ?_ hd.le) _)
  simp only [ahead]
  linarith

theorem ahead_div_stepDistance (hd : 0 < s.stepDistance) :
    s.ahead d pos / s.stepDistance = d.sign * ((pos + s.offset) / s.stepDistance - s.counter) := by
  simp only [ahead,place,positionOfSteps,stepsToDistance]
  field_simp
  ring

theorem counter_positive (hd : 0 < s.stepDistance) :
    s.counter + s.stepsTo .positive pos * Direction.positive.count =
      max s.counter ⌊(pos + s.offset) / s.stepDistance + 1 / 2⌋ := by
  have hn : (s.stepsTo .positive pos : Int) =
      max (⌊(pos + s.offset) / s.stepDistance + 1 / 2⌋ - s.counter) 0 := by
    rw [stepsTo,ahead_div_stepDistance hd,← Int.floor_toNat,Int.ofNat_toNat,Direction.sign,one_mul,
      sub_add_eq_add_sub,Int.floor_sub_intCast]
  rw [hn,Direction.count]
  omega

theorem counter_negative (hd : 0 < s.stepDistance) :
    s.counter + s.stepsTo .negative pos * Direction.negative.count =
      min s.counter ⌈(pos + s.offset) / s.stepDistance - 1 / 2⌉ := by
  have hback : -1 * ((pos + s.offset) / s.stepDistance - s.counter) + 1 / 2 =
      -((pos + s.offset) / s.stepDistance - 1 / 2) + s.counter := by ring
  have hn : (s.stepsTo .negative pos : Int) =
      max (s.counter - ⌈(pos + s.offset) / s.stepDistance - 1 / 2⌉) 0 := by
    rw [stepsTo,ahead_div_stepDistance hd,← Int.floor_toNat,Int.ofNat_toNat,Direction.sign,hback,
      Int.floor_add_intCast,Int.floor_neg,neg_add_eq_sub]
  rw [hn,Direction.count]
  omega

end Count

noncomputable def made (d : Direction) : List ℝ → Stepper ℝ → List (StepEvent ℝ)
  | [],_ => []
  | t :: ts,s => ⟨t,d,(d == .positive) != s.inverted,s.counter + d.count⟩ :: made d ts (s.step t d)

section Made
variable {d : Direction} {ts ts' : List ℝ} {s : Stepper ℝ}

theorem stepAll_sink : (s.stepAll d ts).sink = s.sink.putAll (s.made d ts) := by
  induction ts generalizing s with
  | nil => rfl
  | cons t ts ih => exact ih

theorem length_made : (s.made d ts).length = ts.length := by
  induction ts generalizing s with
  | nil => rfl
  | cons t ts ih => exact congrArg Nat.succ ih

theorem counted_made : Counted s.counter (s.made d ts) := by
  induction ts generalizing s with
  | nil => trivial
  | cons t ts ih => exact ⟨rfl,ih (s := s.step t d)⟩

theorem direction_made {e : StepEvent ℝ} (h : e ∈ s.made d ts) : e.direction = d := by
  induction ts generalizing s with
  | nil => cases h
  | cons t ts ih =>
    rcases List.mem_cons.1 h with rfl | h
    · rfl
    · exact ih h

theorem untimed_made {s' : Stepper ℝ} (hi : s.inverted = s'.inverted) (hc : s.counter = s'.counter)
    (h : ts.length = ts'.length) :
    (s.made d ts).map (·.untimed) = (s'.made d ts').map (·.untimed) := by
  induction ts generalizing ts' s s' with
  | nil => rw [List.length_eq_zero_iff.1 h.symm]; rfl
  | cons t ts ih =>
    cases ts' with
    | nil => cases h
    | cons t' ts' =>
      have hrest : ((s.step t d).made d ts).map (·.untimed) =
          ((s'.step t' d).made d ts').map (·.untimed) :=
        ih hi (congrArg (· + d.count) hc) (Nat.succ.inj h)
      rw [made,made,List.map_cons,List.map_cons,hrest,StepEvent.untimed,StepEvent.untimed,hi,hc]

theorem stepAll_untimed (h : ts.length = ts'.length) :
    (s.stepAll d ts).counter = (s.stepAll d ts').counter ∧
      (s.stepAll d ts).sink.untimed = (s.stepAll d ts').sink.untimed := by
  rw [stepAll_counter,stepAll_counter,h,stepAll_sink,stepAll_sink]
  exact ⟨rfl,StepSink.untimed_putAll _ (untimed_made rfl rfl h)⟩

theorem follow_made (p : ℝ → ℝ) (lo hi pos : ℝ) (d : Direction) (hd : 0 < s.stepDistance) : ∃ es,
    (s.follow p lo hi pos d).sink = s.sink.putAll es ∧ es.length = s.stepsTo d pos ∧
      Counted s.counter es ∧ (∀ e ∈ es, e.direction = d) ∧
      (s.follow p lo hi pos d).counter = s.counter + s.stepsTo d pos * d.count := by
  obtain ⟨ts,hts,hn⟩ := follow_steps p lo hi pos d hd
  rw [hts,stepAll_counter,stepAll_sink,hn]
  exact ⟨s.made d ts,rfl,length_made.trans hn,counted_made,fun _ => direction_made,rfl⟩

end Made

theorem natAbs_mul_count (n : Nat) (d : Direction) : (n * d.count).natAbs = n := by
  cases d <;> simp [Direction.count]

/-- A way in one direction that is made in two parts comes to the same steps as made at once. -/
theorem follow_follow {p p' p'' : ℝ → ℝ} {lo hi lo' hi' lo'' hi'' pos pos' : ℝ} {d : Direction}
    (s : Stepper ℝ) (h : 0 ≤ d.sign * (pos' - pos)) :
    let twice := (s.follow p lo hi pos d).follow p' lo' hi' pos' d
    let once := s.follow p'' lo'' hi'' pos' d
    twice.counter = once.counter ∧ twice.sink.untimed = once.sink.untimed := by
  intro twice once
  by_cases hd : s.stepDistance ≤ 0
  · simp [twice,once,follow,hd]
  have hd := not_le.1 hd
  obtain ⟨ts,hts,hn⟩ := follow_steps p lo hi pos d hd
  obtain ⟨us,hus,hm⟩ := follow_steps (s := s.stepAll d ts) p' lo' hi' pos' d
    (by rwa [stepAll_stepDistance])
  obtain ⟨vs,hvs,hk⟩ := follow_steps p'' lo'' hi'' pos' d hd
  have htwice : twice = s.stepAll d (ts ++ us) := by
    simp only [twice,hts,hus]
    exact List.foldl_append.symm
  have hlen : (ts ++ us).length = vs.length := by
    have hle := stepsTo_mono hd h
    rw [List.length_append,hm,stepsTo_stepAll hd,hk,hn]
    omega
  rw [htwice,show once = s.stepAll d vs from hvs]
  exact stepAll_untimed hlen

/-- What the loop of a motor comes to on the way of its rail from one position to another, and the
steps that it makes. -/
structure Counts (p : ℝ → ℝ) (lo hi posLo posHi : ℝ) (s s' : Stepper ℝ)
    (es : List (StepEvent ℝ)) : Prop where
  ends : ∀ d, Direction.between? posLo posHi = some d → ∀ u, s.Loops p lo hi posHi d u ↔ u = s'
  forth : posLo < posHi →
    s'.counter = max s.counter ⌊(posHi + s.offset) / s.stepDistance + 1 / 2⌋
  back : posHi < posLo →
    s'.counter = min s.counter ⌈(posHi + s.offset) / s.stepDistance - 1 / 2⌉
  still : posLo = posHi → s' = s
  sink : s'.sink = s.sink.putAll es
  recorded : ∀ old, s.sink = .record old → s'.sink = .record (old ++ es.toArray)
  length : es.length = (s'.counter - s.counter).natAbs
  counted : Counted s.counter es
  directed : ∀ e ∈ es, Direction.between? posLo posHi = some e.direction

section Counts
variable {p : ℝ → ℝ} {lo hi posLo posHi : ℝ} {d : Direction} {s : Stepper ℝ}

theorem counts_still (p : ℝ → ℝ) (lo hi pos : ℝ) (s : Stepper ℝ) :
    s.Counts p lo hi pos pos s [] where
  ends _ hb := by rw [Direction.between?_eq_none.2 rfl] at hb; cases hb
  forth h := absurd h (lt_irrefl pos)
  back h := absurd h (lt_irrefl pos)
  still _ := rfl
  sink := rfl
  recorded old h := by simpa using h
  length := by simp
  counted := trivial
  directed := nofun

theorem counts_follow (hd : 0 < s.stepDistance) (hb : Direction.between? posLo posHi = some d) :
    ∃ es, s.Counts p lo hi posLo posHi (s.follow p lo hi posHi d) es := by
  obtain ⟨es,hsink,hlen,hcounted,hdir,hcounter⟩ := follow_made p lo hi posHi d hd
  have hsign := Direction.between?_eq_some.1 hb
  refine ⟨es,fun e he u => ?_,fun hlt => ?_,fun hlt => ?_,fun heq => ?_,hsink,fun old hold => ?_,?_,
    hcounted,fun e he => hb.trans (congrArg some (hdir e he).symm)⟩
  · obtain rfl := Option.some.inj (hb.symm.trans he)
    exact loops_iff hd
  · obtain rfl : d = .positive := by
      cases d <;> simp only [Direction.sign] at hsign ⊢; linarith
    rw [hcounter,counter_positive hd]
  · obtain rfl : d = .negative := by
      cases d <;> simp only [Direction.sign] at hsign ⊢; linarith
    rw [hcounter,counter_negative hd]
  · rw [heq,sub_self,mul_zero] at hsign
    exact absurd hsign (lt_irrefl 0)
  · rw [hsink,hold,StepSink.putAll_record]
  · rw [hcounter,add_sub_cancel_left,natAbs_mul_count,hlen]

theorem Counts.steps_eq {s' : Stepper ℝ} {es : List (StepEvent ℝ)}
    (h : s.Counts p lo hi posLo posHi s' es) (hb : Direction.between? posLo posHi = some d)
    (hs : s.sink = .record #[]) :
    s'.sink.events.toList.map (fun e => (e.direction,e.position)) =
      (List.range (s'.counter - s.counter).natAbs).map
        fun (i : Nat) => (d,s.counter + (i + 1) * d.count) := by
  have hdir : ∀ e ∈ es, e.direction = d := fun e he =>
    (Option.some.inj (hb.symm.trans (h.directed e he))).symm
  rw [h.recorded #[] hs,← h.length]
  simpa [StepSink.events] using h.counted.map_position hdir

end Counts

end Stepper

/-- The loop of a motor with a positive step distance ends. It leaves the counter at the last count
whose half step `posHi` has come to, or where it was if that is further on the way, and it has put
one step for each count on record, all in the direction of the way. A way that is made in two parts
comes to the same counters and, their times apart, to the same steps as made at once. -/
theorem stepMonotone_counts (ss : List (Stepper ℝ)) :
    (∀ (p : ℝ → ℝ) (lo hi posLo posHi : ℝ) (i : Nat) (s : Stepper ℝ),
      ss[i]? = some s → 0 < s.stepDistance →
        ∃ s' es, (stepMonotone p lo hi posLo posHi ss)[i]? = some s' ∧
          s.Counts p lo hi posLo posHi s' es) ∧
      ∀ (p p' p'' : ℝ → ℝ) (lo hi lo' hi' lo'' hi'' posLo posLo' pos pos' : ℝ) (d : Direction),
        Direction.between? posLo pos = some d → Direction.between? posLo' pos' = some d →
          0 ≤ d.sign * (pos' - pos) →
            (stepMonotone p' lo' hi' posLo' pos' (stepMonotone p lo hi posLo pos ss)).map
                (fun s => (s.counter,s.sink.untimed)) =
              (stepMonotone p'' lo'' hi'' posLo pos' ss).map
                fun s => (s.counter,s.sink.untimed) := by
  refine ⟨fun p lo hi posLo posHi i s hi' hd => ?_,
    fun p p' p'' lo hi lo' hi' lo'' hi'' posLo posLo' pos pos' d h h' hpos => ?_⟩
  · cases hb : Direction.between? posLo posHi with
    | none =>
      obtain rfl := Direction.between?_eq_none.1 hb
      exact ⟨s,[],by simpa only [stepMonotone,hb] using hi',s.counts_still p lo hi posLo⟩
    | some d =>
      obtain ⟨es,hes⟩ := Stepper.counts_follow hd hb
      refine ⟨s.follow p lo hi posHi d,es,?_,hes⟩
      simp only [stepMonotone,hb,List.getElem?_map,hi',Option.map_some]
  · have h'' : Direction.between? posLo pos' = some d := by
      have hsign := Direction.between?_eq_some.1 h
      refine Direction.between?_eq_some.2 ?_
      linarith
    simp only [stepMonotone,h,h',h'',List.map_map]
    refine List.map_congr_left fun s _ => ?_
    obtain ⟨hcounter,hsink⟩ := s.follow_follow hpos
    exact Prod.ext hcounter hsink

/-- A motor of half a unit a step is led to the middle between its counts 2 and 3, which belongs to
the third step, and from there back to the middle between 1 and 2, which belongs to the second one
back. On the first way it may have stopped anywhere. -/
theorem stepMonotone_counts_halves :
    let s : Stepper ℝ := { Stepper.ofName "s" "mcu" (1 / 2) with sink := .record #[] }
    let forth := stepMonotone (fun t : ℝ => t) 0 (5 / 4) 0 (5 / 4)
    let back := stepMonotone (fun t : ℝ => 5 / 4 - t) 0 (1 / 2) (5 / 4) (3 / 4)
    let part (pos : ℝ) := stepMonotone (fun t : ℝ => t) pos (5 / 4) pos (5 / 4)
    let first (pos : ℝ) := stepMonotone (fun t : ℝ => t) 0 pos 0 pos
    let steps (s : Stepper ℝ) := s.sink.events.toList.map fun e => (e.direction,e.position)
    0 < s.stepDistance ∧
      (∃ s', (forth [s])[0]? = some s' ∧ s'.counter = 3 ∧
        steps s' = [(.positive,1),(.positive,2),(.positive,3)]) ∧
      (∃ s', (back [{ s with counter := 3 }])[0]? = some s' ∧ s'.counter = 1 ∧
        steps s' = [(.negative,2),(.negative,1)]) ∧
      ∀ pos, 0 < pos → pos < 5 / 4 →
        (part pos (first pos [s])).map (fun s => (s.counter,s.sink.untimed)) =
          (forth [s]).map fun s => (s.counter,s.sink.untimed) := by
  intro s forth back part first steps
  have hd : 0 < s.stepDistance := by norm_num [s,Stepper.ofName]
  refine ⟨hd,?_,?_,fun pos hpos hlt => ?_⟩
  · obtain ⟨s',es,hs',h⟩ :=
      (stepMonotone_counts [s]).1 (fun t => t) 0 (5 / 4) 0 (5 / 4) 0 s rfl hd
    have hcounter : s'.counter = 3 := by
      rw [h.forth (by norm_num)]
      norm_num [s,Stepper.ofName]
    refine ⟨s',hs',hcounter,?_⟩
    have hb : Direction.between? (α := ℝ) 0 (5 / 4) = some .positive :=
      Direction.between?_eq_some.2 (by norm_num [Direction.sign])
    exact (h.steps_eq hb rfl).trans (by rw [hcounter]; rfl)
  · obtain ⟨s',es,hs',h⟩ := (stepMonotone_counts [{ s with counter := 3 }]).1
      (fun t => 5 / 4 - t) 0 (1 / 2) (5 / 4) (3 / 4) 0 _ rfl hd
    have hcounter : s'.counter = 1 := by
      rw [h.back (by norm_num)]
      norm_num [s,Stepper.ofName]
    refine ⟨s',hs',hcounter,?_⟩
    have hb : Direction.between? (α := ℝ) (5 / 4) (3 / 4) = some .negative :=
      Direction.between?_eq_some.2 (by norm_num [Direction.sign])
    exact (h.steps_eq hb rfl).trans (by rw [hcounter]; rfl)
  · refine (stepMonotone_counts [s]).2 _ _ _ _ _ _ _ _ _ _ _ _ _ .positive ?_ ?_ ?_
    · exact Direction.between?_eq_some.2 (by simpa [Direction.sign] using hpos)
    · exact Direction.between?_eq_some.2 (by simpa [Direction.sign] using hlt)
    · simpa [Direction.sign] using hlt.le

end Gantry
