import Mathlib
import Gantry.Proofs.Transform.Activation
import Gantry.Proofs.Transform.Arc
import Gantry.Proofs.Transform.Readout

/-!
The last position that a host remembers, and the one that its chain reads. A move, a reset and an
activation leave the two equal. A deactivation does not read the position again: it leaves them
equal exactly if the chain can be read afterwards and the pivot that comes off has the position in
place.
-/
set_option autoImplicit false

namespace Gantry

variable {α : Type} [Scalar α]

namespace Transform
variable {t u : Transform α} {last pos : List α}

/-- The chain reads a position, or it cannot be read through its front and what is behind shows the
position. -/
def Shows (last : List α) : Transform α → Prop
  | .terminal base => base.position = last
  | .detached _ => False
  | .over p next =>
    match (Transform.over p next).getPosition.1 with
    | .ok pos => pos = last
    | .error _ => next.Shows last

theorem shows_of_getPosition (h : t.getPosition.1 = .ok last) : t.Shows last := by
  cases t with
  | terminal base => exact Except.ok.inj h
  | detached p => cases h
  | «over» p next =>
    unfold Shows
    rw [h]

theorem Shows.eq_of_getPosition (h : t.Shows last) (hr : t.getPosition.1 = .ok pos) :
    pos = last := by
  cases t with
  | terminal base => exact (Except.ok.inj hr).symm.trans h
  | detached p => cases hr
  | «over» p next =>
    unfold Shows at h
    rwa [hr] at h

theorem Shows.behind {p : Pivot α} {next : Transform α} {e : Error α}
    (h : (Transform.over p next).Shows last)
    (hr : (Transform.over p next).getPosition.1 = .error e) : next.Shows last := by
  unfold Shows at h
  rwa [hr] at h

theorem shows_over_of_error {p : Pivot α} {next : Transform α} {e : Error α}
    (hr : (Transform.over p next).getPosition.1 = .error e) (h : next.Shows last) :
    (Transform.over p next).Shows last := by
  unfold Shows
  rwa [hr]

theorem Shows.congr (h : t.Shows last) (hb : t.bare = u.bare)
    (hu : t.base?.map (·.position) = u.base?.map (·.position)) : u.Shows last := by
  induction t generalizing u with
  | terminal base =>
    cases u <;> simp [bare] at hb
    exact (Option.some.inj hu).symm.trans h
  | detached p => exact h.elim
  | «over» p next ih =>
    cases u <;> simp only [bare,over.injEq,reduceCtorEq] at hb
    rename_i q next'
    have hread : (Transform.over p next).getPosition.1 = (Transform.over q next').getPosition.1 :=
      getPosition_congr (by simp [bare,hb]) hu
    cases hr : (Transform.over p next).getPosition.1 with
    | ok pos =>
      obtain rfl := h.eq_of_getPosition hr
      exact shows_of_getPosition (hread ▸ hr)
    | error e => exact shows_over_of_error (hread ▸ hr) (ih (h.behind hr) hb.2 hu)

end Transform

namespace TransformHost

def Agrees (h : TransformHost α) : Prop := h.getPosition.1 = .ok h.lastPosition

structure Tracked (h : TransformHost α) : Prop where
  shows : h.transform.Shows h.lastPosition
  registered : h.transform.Registered

theorem Agrees.tracked {h : TransformHost α} (ha : h.Agrees) (hr : h.transform.Registered) :
    h.Tracked := ⟨Transform.shows_of_getPosition ha,hr⟩

theorem resetLastPosition_cases (h : TransformHost α) :
    (∃ pos, h.resetLastPosition = (.ok pos,⟨h.transform.getPosition.2,pos⟩) ∧
      h.resetLastPosition.2.Agrees) ∨
    ∃ e, h.transform.getPosition.1 = .error e ∧
      h.resetLastPosition = (.error e,⟨h.transform.getPosition.2,h.lastPosition⟩) := by
  obtain ⟨r,t,ht⟩ : ∃ r t, h.transform.getPosition = (r,t) := ⟨_,_,rfl⟩
  have hg : h.getPosition = (r,⟨t,h.lastPosition⟩) := by simp [getPosition,ht]
  cases r with
  | ok pos =>
    refine .inl ⟨pos,by simp [resetLastPosition,hg,ht],?_⟩
    have hread := h.transform.getPosition_getPosition
    rw [ht] at hread
    simp only [resetLastPosition,hg]
    exact hread
  | error e => exact .inr ⟨e,by rw [ht],by simp [resetLastPosition,hg,ht]⟩

end TransformHost

def Activation.State.primed {n : Nat} (created : Fin n → Pivot α) (base : Terminal α)
    (lastPosition : List α) : State α n :=
  ((State.initial created base lastPosition).step .reset).2

section Exact
variable [Trigonometry]

namespace TransformHost
variable {h : TransformHost ℝ}

theorem tracked_resetLastPosition (hr : h.transform.Registered)
    (hs : ∀ e, h.transform.getPosition.1 = .error e → h.transform.Shows h.lastPosition) :
    h.resetLastPosition.2.Tracked := by
  have hreg := Transform.registered_getPosition hr
  rcases h.resetLastPosition_cases with ⟨pos,hreset,hagrees⟩ | ⟨e,he,hreset⟩
  · rw [hreset] at hagrees ⊢
    exact hagrees.tracked hreg
  · rw [hreset]
    exact ⟨(hs e he).congr (Transform.kept_getPosition 0 h.transform).bare.symm
      (congrArg _ (Transform.base?_getPosition h.transform).symm),hreg⟩

theorem agrees_moveTo (hr : h.transform.Registered) {target : List ℝ} {speed : ℝ}
    (hm : (h.moveTo target speed).1 = .ok ()) : (h.moveTo target speed).2.Agrees := by
  obtain ⟨r,t,ht⟩ : ∃ r t, h.transform.moveTo target speed = (r,t) := ⟨_,_,rfl⟩
  have hb := (Transform.kept_moveTo h.transform target speed).bare
  cases r with
  | error e => simp [moveTo,ht] at hm
  | ok _ =>
    rw [ht] at hb
    have hread := (Transform.rests_of_moveWithin ht).1.getPosition
      (Transform.registered_of_bare hb hr)
    simpa [moveTo,ht,Agrees,getPosition] using hread

theorem Tracked.moveTo (ht : h.Tracked) (target : List ℝ) (speed : ℝ) :
    (h.moveTo target speed).2.Tracked := by
  obtain ⟨r,t,hm⟩ : ∃ r t, h.transform.moveTo target speed = (r,t) := ⟨_,_,rfl⟩
  have hb := (Transform.kept_moveTo h.transform target speed).bare
  have hreg : t.Registered := by
    rw [hm] at hb
    exact Transform.registered_of_bare hb ht.registered
  cases r with
  | ok _ =>
    have hok : (h.moveTo target speed).1 = .ok () := by simp [TransformHost.moveTo,hm]
    refine (agrees_moveTo ht.registered hok).tracked ?_
    simpa [TransformHost.moveTo,hm] using hreg
  | error e =>
    rw [hm] at hb
    have hbase := Transform.base?_of_refused le_rfl hm
    have hshows := ht.shows.congr hb.symm (congrArg _ hbase.symm)
    simp only [TransformHost.moveTo,hm]
    exact ⟨hshows,hreg⟩

end TransformHost

namespace Activation
variable {n : Nat} {s : State ℝ n} {i : Fin n}

/-- A deactivation leaves the position where the host knows it: it can be read afterwards, and the
pivot that comes off had it in place. -/
def State.LeavesInPlace (s : State ℝ n) (i : Fin n) : Prop :=
  (∃ pos, (s.step (.deactivate i)).2.host.getPosition.1 = .ok pos) ∧
  ∀ p next pos, (s.controls i).parked = none → s.host.transform = .over p next →
    s.host.getPosition.1 = .ok pos → p.Sends pos pos

/-- A pivot has a position in place that is read both in front of it and behind it. -/
theorem sends_self_iff {p : Pivot ℝ} {next : Transform ℝ} {last : List ℝ} (hp : p.Registered)
    (hr : (Transform.over p next).getPosition.1 = .ok last) :
    next.getPosition.1 = .ok last ↔ p.Sends last last := by
  obtain ⟨c,hn,d,hd⟩ := (Transform.reads_iff hp).1 hr
  rw [hn,Except.ok.injEq]
  constructor
  · rintro rfl
    exact ⟨d,hd⟩
  · rintro ⟨d',hd'⟩
    rw [hd,Except.ok.injEq,Prod.mk.injEq] at hd'
    exact hd'.1

theorem deactivate_cases (s : State ℝ n) (i : Fin n) :
    (∃ r, s.step (.deactivate i) = (r,s) ∧ (r = .ok () → (s.controls i).parked ≠ none)) ∨
    ∃ p next, (s.controls i).parked = none ∧ s.host.transform = .over p next ∧
      (s.step (.deactivate i)).2.host = { s.host with transform := next } := by
  cases hc : (s.controls i).parked with
  | some p => exact .inl ⟨_,step_deactivate_of_parked hc,by simp⟩
  | none =>
    have hself := update_controls_self s i (c := s.controls i) rfl
    cases ht : s.host.transform with
    | terminal base =>
      refine .inl ⟨.error (.command .transformNotOnTop),?_,by simp⟩
      simp only [State.step,PivotControl.deactivate,hc,ht,hself]
    | detached p =>
      refine .inl ⟨.error pivotDetached,?_,by simp⟩
      simp only [State.step,PivotControl.deactivate,hc,ht,hself]
    | «over» p next => exact .inr ⟨p,next,rfl,rfl,by rw [step_deactivate_of_active hc ht]⟩

theorem agrees_deactivate_iff (ht : s.host.Tracked)
    (hok : (s.step (.deactivate i)).1 = .ok ()) :
    (s.step (.deactivate i)).2.host.Agrees ↔ s.LeavesInPlace i := by
  unfold State.LeavesInPlace
  rcases deactivate_cases s i with ⟨r,hs,hparked⟩ | ⟨p,next,hc,hover,hs⟩
  · rw [hs] at hok ⊢
    refine ⟨fun ha => ⟨⟨_,ha⟩,fun q next pos hnone => ?_⟩,fun ⟨⟨pos,hpos⟩,_⟩ => ?_⟩
    · exact absurd hnone (hparked hok)
    · rwa [ht.shows.eq_of_getPosition hpos] at hpos
  · have hshows : (Transform.over p next).Shows s.host.lastPosition := hover ▸ ht.shows
    have hreg : p.Registered := (hover ▸ ht.registered : Transform.Registered (.over p next)).1
    have hread : s.host.getPosition.1 = (Transform.over p next).getPosition.1 := by
      rw [← hover]
      rfl
    rw [hs]
    constructor
    -- A front that answers names the last position itself; one that does not leaves it to the rear.
    · intro ha
      refine ⟨⟨_,ha⟩,fun q next' pos _ hq hpos => ?_⟩
      obtain ⟨rfl,rfl⟩ := Transform.over.inj (hover.symm.trans hq)
      rw [hread] at hpos
      obtain rfl := hshows.eq_of_getPosition hpos
      exact (sends_self_iff hreg hpos).1 ha
    · rintro ⟨⟨c,hc'⟩,hplace⟩
      cases hfront : (Transform.over p next).getPosition.1 with
      | ok pos =>
        obtain rfl := hshows.eq_of_getPosition hfront
        exact (sends_self_iff hreg hfront).2 (hplace p next _ hc hover (hread.trans hfront))
      | error e =>
        obtain rfl := (hshows.behind hfront).eq_of_getPosition hc'
        exact hc'

theorem agrees_activate (axes : ExtraAxes) (hok : (s.step (.activate i axes)).1 = .ok ()) :
    (s.step (.activate i axes)).2.host.Agrees := by
  cases hc : (s.controls i).parked with
  | none => simp [step_activate_of_active hc] at hok
  | some p =>
    simp only [State.step,PivotControl.activate,hc] at hok ⊢
    rcases TransformHost.resetLastPosition_cases
      ({ s.host with transform := .over (p.resolve axes) s.host.transform }) with
      ⟨pos,-,hagrees⟩ | ⟨e,-,hreset⟩
    · exact hagrees
    · rw [hreset] at hok
      cases hok

theorem tracked_activate (ht : s.host.Tracked) (axes : ExtraAxes) :
    (s.step (.activate i axes)).2.host.Tracked := by
  cases hc : (s.controls i).parked with
  | none => rwa [step_activate_of_active hc]
  | some p =>
    simp only [State.step,PivotControl.activate,hc]
    refine TransformHost.tracked_resetLastPosition ?_ fun e he => ?_
    · exact ⟨p.registered_resolve axes,ht.registered⟩
    · exact Transform.shows_over_of_error he ht.shows

theorem agrees_reset (hok : (s.step .reset).1 = .ok ()) : (s.step .reset).2.host.Agrees := by
  simp only [State.step] at hok ⊢
  rcases s.host.resetLastPosition_cases with ⟨pos,-,hagrees⟩ | ⟨e,-,hreset⟩
  · exact hagrees
  · rw [hreset] at hok
    cases hok

theorem tracked_deactivate (ht : s.host.Tracked)
    (hagrees : (s.step (.deactivate i)).1 = .ok () → (s.step (.deactivate i)).2.host.Agrees) :
    (s.step (.deactivate i)).2.host.Tracked := by
  rcases deactivate_cases s i with ⟨r,hs,-⟩ | ⟨p,next,hc,hover,hs⟩
  · rwa [hs]
  · have hreg : (Transform.over p next).Registered := hover ▸ ht.registered
    refine (hagrees ?_).tracked ?_
    · rw [step_deactivate_of_active hc hover]
    · rw [hs]
      exact hreg.2

/-- Commands other than changes of the extra axes leave the host tracked, if every deactivation that
succeeds leaves it in agreement, and then all commands that succeed do. -/
theorem tracked_step (ht : s.host.Tracked) {c : Command ℝ n} (hc : ∀ axes, c ≠ .resolve axes)
    (hd : ∀ i, c = .deactivate i → (s.step c).1 = .ok () → (s.step c).2.host.Agrees) :
    (s.step c).2.host.Tracked ∧ ((s.step c).1 = .ok () → (s.step c).2.host.Agrees) := by
  cases c with
  | activate i axes => exact ⟨tracked_activate ht axes,agrees_activate axes⟩
  | deactivate i => exact ⟨tracked_deactivate ht (hd i rfl),hd i rfl⟩
  | move target speed => exact ⟨ht.moveTo target speed,TransformHost.agrees_moveTo ht.registered⟩
  | reset =>
    exact ⟨TransformHost.tracked_resetLastPosition ht.registered fun _ _ => ht.shows,agrees_reset⟩
  | resolve axes => exact absurd rfl (hc axes)

theorem tracked_run {commands : List (Command ℝ n)} (h : s.host.Tracked)
    (hc : ∀ axes, .resolve axes ∉ commands)
    (hd : ∀ done i rest, commands = done ++ .deactivate i :: rest → (s.run done).host.Tracked →
      ((s.run done).step (.deactivate i)).1 = .ok () →
      ((s.run done).step (.deactivate i)).2.host.Agrees) :
    (s.run commands).host.Tracked := by
  induction commands using List.reverseRecOn with
  | nil => exact h
  | append_singleton commands c ih =>
    have hrun := ih (fun axes hmem => hc axes (by simp [hmem])) fun done i rest hdone =>
      hd done i (rest ++ [c]) (by simp [hdone])
    rw [run_snoc]
    refine (tracked_step hrun (fun axes hres => hc axes (by simp [hres])) ?_).1
    rintro i rfl
    exact hd commands i [] rfl hrun

/-- After every command that succeeds the last position is the one that the chain reads, exactly if
every deactivation that succeeds leaves the position where the host knows it. -/
theorem agrees_iff (created : Fin n → Pivot ℝ) (base : Terminal ℝ) (lastPosition : List ℝ)
    (commands : List (Command ℝ n)) (hc : ∀ axes, .resolve axes ∉ commands) :
    (∀ done c rest, commands = done ++ c :: rest →
      (((State.primed created base lastPosition).run done).step c).1 = .ok () →
      (((State.primed created base lastPosition).run done).step c).2.host.Agrees) ↔
    ∀ done i rest, commands = done ++ .deactivate i :: rest →
      (((State.primed created base lastPosition).run done).step (.deactivate i)).1 = .ok () →
      ((State.primed created base lastPosition).run done).LeavesInPlace i := by
  have hstart : (State.primed created base lastPosition).host.Tracked := ⟨rfl,trivial⟩
  generalize State.primed created base lastPosition = s at *
  have hquiet (done rest) (hdone : commands = done ++ rest) (axes) : .resolve axes ∉ done :=
    fun hmem => hc axes (by simp [hdone,hmem])
  constructor
  · intro hall done i rest hdone hok
    have ht : (s.run done).host.Tracked :=
      tracked_run hstart (hquiet done _ hdone) fun done' i' rest' hdone' _ =>
        hall done' (.deactivate i') (rest' ++ .deactivate i :: rest) (by simp [hdone,hdone'])
    exact (agrees_deactivate_iff ht hok).1 (hall done _ rest hdone hok)
  · intro hplace done c rest hdone hok
    have ht : (s.run done).host.Tracked :=
      tracked_run hstart (hquiet done _ hdone) fun done' i' rest' hdone' ht' hok' =>
        (agrees_deactivate_iff ht' hok').2
          (hplace done' i' (rest' ++ c :: rest) (by simp [hdone,hdone']) hok')
    refine (tracked_step ht (fun axes hres => ?_) ?_).2 hok
    · exact hc axes (by simp [hdone,hres])
    · rintro i rfl hok'
      exact (agrees_deactivate_iff ht hok').2 (hplace done i rest hdone hok')

end Activation

end Exact

namespace Activation

noncomputable def spindle : Pivot ℝ where
  stages := [⟨"c",.z,⟨0,0,0⟩,none⟩]
  invResolution := 1 / 0.1
  axisToRadians := 2.0 * Scalar.pi / 360

theorem coords_spindle (x y z e c : ℝ) (pass : Pass) :
    (spindle.resolve ⟨["c"]⟩).coords [x,y,z,e,c] pass =
      .ok ([(turn (c * spindle.factor pass) x y).1,(turn (c * spindle.factor pass) x y).2,z,e,c],
        [0,0,0,0,x * x + y * y]) := by
  have hslot : (⟨["c"]⟩ : ExtraAxes).slot? "c" = some 4 := by decide
  cases pass <;>
    simp [Pivot.coords,Pivot.along,Pivot.factor,Pivot.resolve,Stage.resolve,spindle,hslot,
      Turned.pass,Turned.coord,Stage.rotate,Vector3.rotate,Vector3.radius2,Vector3.plane,
      Vector3.sub,Vector3.add]

theorem made_spindle : ((Pivot.ofResolution 0.1 360 : Except (ConfigError ℝ) (Pivot ℝ)) >>=
    (·.addStage "c" .z ⟨0,0,0⟩)) = .ok spindle := by
  norm_num [Pivot.ofResolution,Results.ok_bind,Pivot.addStage,Pivot.maxStages,spindle]

theorem coords_spindle_quarter : (spindle.resolve ⟨["c"]⟩).coords [0,10,0,0,90] .reverse =
    .ok ([10,0,0,0,90],[0,0,0,0,100]) := by
  have hquarter : (90 : ℝ) * spindle.factor .reverse = -(Real.pi / 2) := by
    show (90 : ℝ) * -(2.0 * Real.pi / 360) = -(Real.pi / 2)
    norm_num
    ring
  rw [coords_spindle,hquarter,turn_real,Real.sin_neg,Real.cos_neg,Real.sin_pi_div_two,
    Real.cos_pi_div_two]
  norm_num

noncomputable def spindleAt (pos : List ℝ) : State ℝ 1 := .primed (fun _ => spindle) ⟨pos,#[]⟩ []

theorem activate_spindle {pos pos' d : List ℝ}
    (h : (spindle.resolve ⟨["c"]⟩).coords pos .reverse = .ok (pos',d)) :
    (spindleAt pos).step (.activate 0 ⟨["c"]⟩) = (.ok (),⟨fun _ => ⟨none⟩,
      ⟨.over ((spindle.resolve ⟨["c"]⟩).arrive pos' d) (.terminal ⟨pos,#[]⟩),pos'⟩⟩) := by
  have hone : Function.update (fun _ : Fin 1 => (⟨some spindle⟩ : PivotControl ℝ)) 0 ⟨none⟩ =
      fun _ => ⟨none⟩ := by
    funext i
    rw [Subsingleton.elim i 0,Function.update_self]
  simp [spindleAt,State.primed,State.initial,State.step,PivotControl.activate,
    TransformHost.resetLastPosition,TransformHost.getPosition,Transform.getPosition,h,hone,
    Except.map]

/-- A spindle that stands at a quarter of a turn comes off, and the host still has the position in
front of it for the last one. -/
theorem deactivate_leaves_behind :
    ((Pivot.ofResolution 0.1 360 : Except (ConfigError ℝ) (Pivot ℝ)) >>=
      (·.addStage "c" .z ⟨0,0,0⟩)) = .ok spindle ∧ ∃ s s',
    (spindleAt [0,10,0,0,90]).step (.activate 0 ⟨["c"]⟩) = (.ok (),s) ∧
    s.step (.deactivate 0) = (.ok (),s') ∧ s'.host.lastPosition = [10,0,0,0,90] ∧
    s'.host.getPosition.1 = .ok [0,10,0,0,90] := by
  exact ⟨made_spindle,_,_,activate_spindle coords_spindle_quarter,step_deactivate_of_active rfl rfl,
    rfl,rfl⟩

theorem agrees_iff_onLine : (∀ axes, .resolve axes ∉
      ([.activate 0 ⟨["c"]⟩,.deactivate 0] : List (Command ℝ 1))) ∧
    ∀ done c rest, [.activate 0 ⟨["c"]⟩,.deactivate 0] = done ++ c :: rest →
      (((spindleAt [0,0,5,0,90]).run done).step c).1 = .ok () →
      (((spindleAt [0,0,5,0,90]).run done).step c).2.host.Agrees := by
  have hc : ∀ axes, .resolve axes ∉
      ([.activate 0 ⟨["c"]⟩,.deactivate 0] : List (Command ℝ 1)) := by simp
  refine ⟨hc,(@agrees_iff .real 1 (fun _ => spindle) ⟨[0,0,5,0,90],#[]⟩ [] _ hc).2 ?_⟩
  intro done i rest hdone _
  have hplace (pass : Pass) : (spindle.resolve ⟨["c"]⟩).coords [0,0,5,0,90] pass =
      .ok ([0,0,5,0,90],[0,0,0,0,0]) := by
    simp [coords_spindle,turn_real]
  have hactivate := activate_spindle (hplace .reverse)
  obtain rfl : i = 0 := Subsingleton.elim i 0
  rcases done with _ | ⟨c,_ | ⟨c',done⟩⟩ <;> simp at hdone
  obtain ⟨rfl,-⟩ := hdone
  show @State.LeavesInPlace .real 1 ((spindleAt [0,0,5,0,90]).step (.activate 0 ⟨["c"]⟩)).2 0
  rw [hactivate]
  refine ⟨⟨_,rfl⟩,fun p next pos _ hover hread => ?_⟩
  obtain ⟨rfl,rfl⟩ := Transform.over.inj hover
  have hagain : ((spindle.resolve ⟨["c"]⟩).arrive [0,0,5,0,90] [0,0,0,0,0]).coords [0,0,5,0,90]
      .reverse = .ok ([0,0,5,0,90],[0,0,0,0,0]) := hplace .reverse
  obtain rfl : [0,0,5,0,90] = pos := by
    simpa [TransformHost.getPosition,Transform.getPosition,hagain] using hread
  exact ⟨_,hplace .forward⟩

end Activation

end Gantry
