import Mathlib
import Gantry.Proofs.Rail.Agreement
import Gantry.Proofs.Rail.Crossing

set_option autoImplicit false

namespace Gantry

/-- The counters after successive steps, each by one from the counter before it. -/
def Counted : Int → List (StepEvent ℝ) → Prop
  | _,[] => True
  | n,e :: es => e.position = n + e.direction.count ∧ Counted e.position es

@[simp] theorem netSteps_nil : netSteps ([] : List (StepEvent ℝ)) = 0 := rfl

@[simp] theorem netSteps_cons (e : StepEvent ℝ) (es : List (StepEvent ℝ)) :
    netSteps (e :: es) = e.direction.count + netSteps es := rfl

theorem netSteps_append (es es' : List (StepEvent ℝ)) :
    netSteps (es ++ es') = netSteps es + netSteps es' := by
  induction es with
  | nil => simp
  | cons e es ih => rw [List.cons_append,netSteps_cons,netSteps_cons,ih]; ring

theorem Counted.append {n : Int} {es es' : List (StepEvent ℝ)} (h : Counted n es)
    (h' : Counted (n + netSteps es) es') : Counted n (es ++ es') := by
  induction es generalizing n with
  | nil => simpa using h'
  | cons e es ih =>
    refine ⟨h.1,ih h.2 ?_⟩
    rw [h.1,add_assoc]
    exact h'

theorem Counted.map_position {n : Int} {es : List (StepEvent ℝ)} {d : Direction}
    (h : Counted n es) (hd : ∀ e ∈ es, e.direction = d) :
    es.map (fun e => (e.direction,e.position)) =
      (List.range es.length).map fun (i : Nat) => (d,n + (i + 1) * d.count) := by
  induction es generalizing n with
  | nil => rfl
  | cons e es ih =>
    obtain ⟨he,hes⟩ := List.forall_mem_cons.1 hd
    have hpos : e.position = n + d.count := he ▸ h.1
    rw [List.map_cons,ih h.2 hes,List.length_cons,List.range_succ_eq_map,List.map_cons,List.map_map,
      he,hpos]
    congr 1
    · simp
    · refine List.map_congr_left fun i _ => ?_
      simp only [Function.comp_apply,Nat.cast_succ]
      ring_nf

namespace StepSink

def putAll (es : List (StepEvent ℝ)) (k : StepSink ℝ) : StepSink ℝ :=
  es.foldl (fun k e => k.put e) k

theorem putAll_append (es es' : List (StepEvent ℝ)) (k : StepSink ℝ) :
    k.putAll (es ++ es') = (k.putAll es).putAll es' :=
  List.foldl_append

theorem putAll_record (es : List (StepEvent ℝ)) (old : Array (StepEvent ℝ)) :
    (record old).putAll es = record (old ++ es.toArray) := by
  induction es generalizing old with
  | nil => simp [putAll]
  | cons e es ih =>
    change (record (old.push e)).putAll es = _
    rw [ih]
    simp

end StepSink

namespace Stepper

structure Makes (s : Stepper ℝ) (lo hi : ℝ) (es : List (StepEvent ℝ)) (s' : Stepper ℝ) :
    Prop where
  sink : s'.sink = s.sink.putAll es
  ordered : es.Pairwise fun e e' => e.time ≤ e'.time
  within : ∀ e ∈ es, lo ≤ e.time ∧ e.time ≤ hi
  counted : Counted s.counter es
  counter : s'.counter = s.counter + netSteps es

section Makes
variable {s s' s'' : Stepper ℝ} {lo mid hi lo' hi' : ℝ} {es es' : List (StepEvent ℝ)}

theorem makes_nil (s : Stepper ℝ) (lo hi : ℝ) : s.Makes lo hi [] s :=
  ⟨rfl,.nil,nofun,trivial,by simp⟩

theorem Makes.mono (h : s.Makes lo hi es s') (hlo : lo' ≤ lo) (hhi : hi ≤ hi') :
    s.Makes lo' hi' es s' :=
  ⟨h.sink,h.ordered,fun e he => ⟨hlo.trans (h.within e he).1,(h.within e he).2.trans hhi⟩,
    h.counted,h.counter⟩

theorem Makes.trans (h : s.Makes lo mid es s') (h' : s'.Makes mid hi es' s'') (hlo : lo ≤ mid)
    (hhi : mid ≤ hi) : s.Makes lo hi (es ++ es') s'' where
  sink := by rw [h'.sink,h.sink,StepSink.putAll_append]
  ordered := List.pairwise_append.2 ⟨h.ordered,h'.ordered,fun e he e' he' =>
    (h.within e he).2.trans (h'.within e' he').1⟩
  within e he := by
    rcases List.mem_append.1 he with he | he
    · exact ⟨(h.within e he).1,(h.within e he).2.trans hhi⟩
    · exact ⟨hlo.trans (h'.within e he).1,(h'.within e he).2⟩
  counted := h.counted.append (h.counter ▸ h'.counted)
  counter := by rw [h'.counter,h.counter,netSteps_append,add_assoc]

theorem makes_step (s : Stepper ℝ) (d : Direction) (t : ℝ) :
    ∃ e, s.Makes t t [e] (s.step t d) :=
  ⟨⟨t,d,(d == .positive) != s.inverted,s.counter + d.count⟩,rfl,List.pairwise_singleton _ _,
    by simp,⟨rfl,trivial⟩,by simp [step]⟩

theorem Makes.congr (h : s.Makes lo hi es s') (hk : s''.sink = s'.sink)
    (hc : s''.counter = s'.counter) : s.Makes lo hi es s'' :=
  ⟨hk.trans h.sink,h.ordered,h.within,h.counted,hc.trans h.counter⟩

end Makes

section Follow
variable {p : ℝ → ℝ} {lo hi pos : ℝ} {d : Direction}

theorem stepWhile_makes (h : lo ≤ hi) (fuel : Nat) (s : Stepper ℝ) (hd : 0 < s.stepDistance) :
    ∃ es, s.Makes (findCrossing p lo hi (s.nextStepPosition d) d) hi es
      (s.stepWhile p lo hi pos d fuel) := by
  induction fuel generalizing s with
  | zero => exact ⟨[],makes_nil s _ _⟩
  | succ fuel ih =>
    unfold stepWhile
    dsimp only
    split
    · set t := findCrossing p lo hi (s.nextStepPosition d) d
      obtain ⟨e,he⟩ := s.makes_step d t
      obtain ⟨es,hes⟩ := ih (s.step t d) hd
      -- The bound from below is the crossing of the next step, which this one pushes on.
      have hnext : t ≤ findCrossing p lo hi ((s.step t d).nextStepPosition d) d :=
        findCrossing_step hd h t
      exact ⟨_,he.trans (hes.mono hnext le_rfl) le_rfl (findCrossing_mem h _).2⟩
    · exact ⟨[],makes_nil s _ _⟩

theorem follow_makes (h : lo ≤ hi) (s : Stepper ℝ) :
    ∃ es, s.Makes lo hi es (s.follow p lo hi pos d) := by
  unfold follow
  split
  · exact ⟨[],makes_nil s lo hi⟩
  · rename_i hd
    have hw : ∃ es, s.Makes (findCrossing p lo hi (s.nextStepPosition d) d) hi es
        (s.stepWhile p lo hi pos d (s.stepBound pos)) := stepWhile_makes h _ s (not_le.1 hd)
    obtain ⟨es,hes⟩ := hw
    exact ⟨es,hes.mono (findCrossing_mem h _).1 le_rfl⟩

end Follow

end Stepper

def StepsWithin (lo hi : ℝ) (f : List (Stepper ℝ) → List (Stepper ℝ)) : Prop :=
  ∃ g : Stepper ℝ → Stepper ℝ, (∀ ss, f ss = ss.map g) ∧
    ∀ s : Stepper ℝ, ∃ es, s.Makes lo hi es (g s)

namespace StepsWithin
variable {a b c lo hi : ℝ} {f g : List (Stepper ℝ) → List (Stepper ℝ)}

theorem id (lo hi : ℝ) : StepsWithin lo hi fun ss => ss :=
  ⟨fun s => s,by simp,fun s => ⟨[],s.makes_nil lo hi⟩⟩

theorem comp (h : StepsWithin a b f) (h' : StepsWithin b c g) (hab : a ≤ b) (hbc : b ≤ c) :
    StepsWithin a c fun ss => g (f ss) := by
  obtain ⟨k,hk,hm⟩ := h
  obtain ⟨k',hk',hm'⟩ := h'
  refine ⟨fun s => k' (k s),fun ss => ?_,fun s => ?_⟩
  · change g (f ss) = _
    rw [hk,hk',List.map_map]
    rfl
  · obtain ⟨es,hes⟩ := hm s
    obtain ⟨es',hes'⟩ := hm' (k s)
    exact ⟨_,hes.trans hes' hab hbc⟩

end StepsWithin

section Windows
variable {m : RailMotion ℝ} {p : ℝ → ℝ} {lo hi a b posLo posHi : ℝ}

theorem stepMonotone_within (h : lo ≤ hi) : StepsWithin lo hi (stepMonotone p lo hi posLo posHi) := by
  unfold stepMonotone
  split
  · exact ⟨_,fun _ => rfl,fun s => s.follow_makes h⟩
  · exact .id lo hi

theorem stepWindow_within (h : a ≤ b) : StepsWithin a b fun ss => stepWindow m ss a b := by
  have he := timeEpsilon_pos
  cases ht : turningPoint a b (m.position a) (m.position (0.5 * (a + b)))
      (m.positionBefore b) with
  | none =>
    simp only [stepWindow_of_none ht]
    exact stepMonotone_within h
  | some t =>
    obtain ⟨hat,htb⟩ := turningPoint_mem ht
    have hat : a ≤ t := by linarith
    have htb : t ≤ b := by linarith
    simp only [stepWindow_of_some ht]
    exact (stepMonotone_within hat).comp (stepMonotone_within htb) hat htb

theorem stepWindows_within {s : ℝ} {ts : List ℝ} (h : (s :: ts).Pairwise (· ≤ ·))
    (hs : ∀ t ∈ s :: ts, t ≤ hi) : StepsWithin s hi (stepWindows m (s :: ts)) := by
  induction ts generalizing s with
  | nil => exact .id s hi
  | cons t ts ih =>
    obtain ⟨hst,ht⟩ := List.pairwise_cons.1 h
    have hst := hst t List.mem_cons_self
    exact (stepWindow_within hst).comp (ih ht fun u hu => hs u (List.mem_cons_of_mem s hu)) hst
      (hs t (by simp))

theorem stepWindows_breakpoints {k : Track ℝ} {start stop : ℝ} (h : start < stop) :
    StepsWithin start stop (stepWindows m (breakpoints k start stop)) := by
  have he := timeEpsilon_pos
  rcases breakpoints_cases (k := k) h with ⟨hb,-⟩ | ⟨us,t,hb,hp,ht,-⟩
  · rw [hb]
    exact .id start stop
  · have hp : ((start :: us) ++ [t]).Pairwise (· ≤ ·) := hp.imp fun {u v} huv => by linarith
    rw [hb]
    refine stepWindows_within hp fun u hu => ?_
    have hut : u ≤ t := by
      rcases List.mem_append.1 (show u ∈ (start :: us) ++ [t] from hu) with hu | hu
      · exact (List.pairwise_append.1 hp).2.2 u hu t (by simp)
      · exact (List.mem_singleton.1 hu).le
    exact hut.trans ht

end Windows

namespace Rail
variable {r r' : Rail ℝ} {q : Option (SegmentQueue ℝ)} {upto : ℝ}

theorem advance_makes {k : Track ℝ} {start : ℝ} (h : r.lastFlushTime < upto) :
    List.Forall₂ (fun s s' => ∃ es, s.Makes r.lastFlushTime upto es s') r.steppers
      (r.advance k start upto).steppers := by
  obtain ⟨g,hg,hm⟩ := stepWindows_breakpoints (m := k.motion start) (k := k) h
  rw [advance_eq]
  dsimp only
  split
  · rw [hg,noteCommanded,List.map_map,List.forall₂_map_right_iff,List.forall₂_same]
    exact fun s _ => (hm s).imp fun _ hes => hes.congr rfl rfl
  · rw [hg,List.forall₂_map_right_iff,List.forall₂_same]
    exact fun s _ => hm s

theorem generateSteps_makes (h : r.generateSteps q upto = .ok r') :
    r'.lastFlushTime = max r.lastFlushTime upto ∧
      List.Forall₂ (fun s s' => ∃ es, s.Makes r.lastFlushTime upto es s') r.steppers r'.steppers := by
  have hsame : List.Forall₂ (fun s s' => ∃ es, s.Makes r.lastFlushTime upto es s')
      r.steppers r.steppers :=
    List.forall₂_same.2 fun s _ => ⟨[],s.makes_nil _ _⟩
  unfold generateSteps at h
  split at h
  · cases h
  split at h
  · rename_i hle
    rw [← Except.ok.inj h,max_eq_left hle]
    exact ⟨rfl,hsame⟩
  rename_i hlt
  rw [not_le] at hlt
  rw [max_eq_right hlt.le]
  obtain ⟨k,-,h⟩ := Results.bind_eq_ok.1 h
  split at h
  · rw [← Except.ok.inj h]
    exact ⟨advance_lastFlushTime,advance_makes hlt⟩
  · rw [← Except.ok.inj h]
    exact ⟨rfl,hsame⟩

end Rail

theorem forall₂_comp {α β γ : Type} {R : α → β → Prop} {S : β → γ → Prop} {T : α → γ → Prop}
    (h : ∀ a b c, R a b → S b c → T a c) {as : List α} {bs : List β} {cs : List γ}
    (hab : List.Forall₂ R as bs) (hbc : List.Forall₂ S bs cs) : List.Forall₂ T as cs := by
  induction hab generalizing cs with
  | nil =>
    cases hbc with
    | nil => exact .nil
  | cons ha _ ih =>
    cases hbc with
    | cons hb hbc => exact .cons (h _ _ _ ha hb) (ih hbc)

structure Logbook where
  rail : Rail ℝ
  queue : Option (SegmentQueue ℝ) := none
  added : List (Stepper ℝ) := []

namespace Logbook

noncomputable def fresh (name : String) : Logbook := { rail := .ofName name }

inductive Step : Logbook → Logbook → Prop where
  | addStepper (x : Logbook) (s : Stepper ℝ) (rail : Rail ℝ) :
      x.rail.addStepper s = .ok rail → Step x { x with rail, added := x.added ++ [s] }
  | bind (x : Logbook) (q : SegmentQueue ℝ) : Step x { x with queue := some q }
  | allocate (x : Logbook) (a : Allocator) : Step x { x with rail := x.rail.withAllocator a }
  | setPosition (x : Logbook) (coord : List ℝ) (rail : Rail ℝ) :
      x.rail.setPosition coord = .ok rail → Step x { x with rail }
  | append (x : Logbook) (q q' : SegmentQueue ℝ) (i : Nat) (m : Segment ℝ) :
      x.queue = some q → q.append i m = .ok q' → Step x { x with queue := some q' }
  | appendMove (x : Logbook) (q q' : SegmentQueue ℝ) (t : ℝ) (mv : ToolheadMove ℝ) :
      x.queue = some q → q.appendMove t mv = .ok q' → Step x { x with queue := some q' }
  | finalize (x : Logbook) (q : SegmentQueue ℝ) (before after : ℝ) :
      x.queue = some q → Step x { x with queue := some (q.finalize before after) }
  | generate (x : Logbook) (upto : ℝ) (rail : Rail ℝ) :
      x.rail.generateSteps x.queue upto = .ok rail → Step x { x with rail }

structure Kept (x : Logbook) : Prop where
  flushed : 0 ≤ x.rail.lastFlushTime
  makes : List.Forall₂ (fun s s' => ∃ es, s.Makes 0 x.rail.lastFlushTime es s') x.added
    x.rail.steppers

namespace Kept
variable {x y : Logbook} {rail : Rail ℝ}

theorem addStepper {s : Stepper ℝ} (h : x.Kept) (hr : x.rail.addStepper s = .ok rail) :
    Kept { x with rail, added := x.added ++ [s] } := by
  obtain ⟨ends,-,hr⟩ := Results.bind_eq_ok.1 hr
  rw [← Except.ok.inj hr]
  exact ⟨h.flushed,List.rel_append h.makes (.cons ⟨[],s.makes_nil _ _⟩ .nil)⟩

theorem setPosition {coord : List ℝ} (h : x.Kept) (hr : x.rail.setPosition coord = .ok rail) :
    Kept { x with rail } := by
  unfold Rail.setPosition at hr
  split at hr
  · rw [← Except.ok.inj hr]
    refine ⟨h.flushed,List.forall₂_map_right_iff.2 (h.makes.imp fun _ _ hs => ?_)⟩
    exact hs.imp fun _ hes => hes.congr rfl rfl
  · cases hr

theorem generate {upto : ℝ} (h : x.Kept) (hr : x.rail.generateSteps x.queue upto = .ok rail) :
    Kept { x with rail } := by
  obtain ⟨ht,hs⟩ := Rail.generateSteps_makes hr
  refine ⟨h.flushed.trans (ht ▸ le_max_left _ _),forall₂_comp ?_ h.makes hs⟩
  rintro s s' s'' ⟨es,hes⟩ ⟨es',hes'⟩
  change ∃ es, s.Makes 0 rail.lastFlushTime es s''
  rw [ht]
  exact ⟨_,hes.trans (hes'.mono le_rfl (le_max_right _ _)) h.flushed (le_max_left _ _)⟩

theorem step (h : x.Kept) (hs : Step x y) : y.Kept := by
  cases hs with
  | addStepper s rail hr => exact h.addStepper hr
  | setPosition coord rail hr => exact h.setPosition hr
  | generate upto rail hr => exact h.generate hr
  | bind | allocate | append | appendMove | finalize => exact ⟨h.flushed,h.makes⟩

theorem run (h : x.Kept) (hs : Relation.ReflTransGen Step x y) : y.Kept := by
  induction hs with
  | refl => exact h
  | tail _ hs ih => exact ih.step hs

end Kept

end Logbook

end Gantry
