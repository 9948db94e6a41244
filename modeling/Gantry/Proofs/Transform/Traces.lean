import Mathlib
import Gantry.Proofs.Exact
import Gantry.Proofs.Transform.Readout

set_option autoImplicit false

namespace Gantry

variable {α : Type}

namespace Transform

theorem bare_ne_over (p : Pivot α) (t : Transform α) : (Transform.over p t).bare ≠ t.bare := by
  intro h
  have hdepth : t.depth + 1 = t.depth := depth_of_bare h
  omega

theorem getPosition_isOk [Scalar α] {t : Transform α} :
    (∃ pos, t.getPosition.1 = .ok pos) ↔
      ∃ base, t.base? = some base ∧ t.Reaches base.position.length := by
  constructor
  · rintro ⟨pos,h⟩
    have hlevel : t.getPosition.2.Level pos.length := level_of_getPosition (Prod.ext h rfl)
    obtain ⟨base,hb,hlen⟩ := hlevel.base?
    rw [base?_getPosition] at hb
    refine ⟨base,hb,?_⟩
    rw [hlen,← reaches_of_bare (kept_getPosition 0 t).bare]
    exact hlevel.reaches
  · rintro ⟨base,hb,hreach⟩
    obtain ⟨pos,t',h,-⟩ := hreach.getPosition fun b hb' => by
      rw [Option.some.inj (hb'.symm.trans hb)]
    exact ⟨pos,by rw [h]⟩

end Transform

namespace PivotControl

theorem isActive_iff {c : PivotControl α} : c.isActive = true ↔ c.parked = none :=
  Option.isNone_iff_eq_none

structure Stranded (p : Pivot α) (axes : ExtraAxes) (h : TransformHost α) (c' : PivotControl α)
    (h' : TransformHost α) : Prop where
  active : c'.parked = none
  chain : h'.transform.bare = (Transform.over (p.resolve axes) h.transform).bare
  base : h'.transform.base? = h.transform.base?
  last : h'.lastPosition = h.lastPosition

theorem Stranded.deactivate {p : Pivot α} {axes : ExtraAxes} {h h' : TransformHost α}
    {c' : PivotControl α} (hs : Stranded p axes h c' h') :
    ∃ q h'', c'.deactivate h' = (.ok (),⟨some q⟩,h'') ∧
      q.arrive [] [] = (p.resolve axes).arrive [] [] ∧ h''.transform.bare = h.transform.bare ∧
      h''.transform.base? = h.transform.base? ∧ h''.lastPosition = h.lastPosition := by
  have hchain := hs.chain
  cases ht : h'.transform with
  | terminal base => simp [ht,Transform.bare] at hchain
  | detached q => simp [ht,Transform.bare] at hchain
  | «over» q next =>
    rw [ht,Transform.bare,Transform.bare,Transform.over.injEq] at hchain
    refine ⟨q,{ h' with transform := next },?_,hchain.1,hchain.2,?_,hs.last⟩
    · simp [PivotControl.deactivate,hs.active,ht]
    · rw [← hs.base,ht]
      rfl

variable [Scalar α] {c : PivotControl α} {h : TransformHost α} {axes : ExtraAxes} {p : Pivot α}
  {t : Transform α} {pos : List α} {e : Error α}

/-- An activation leaves no trace if it is refused: the control, the transforms of the chain and the
last position are as before. -/
def Traceless (c : PivotControl α) (h : TransformHost α) (axes : ExtraAxes) : Prop :=
  ∀ e c' h', c.activate h axes = (.error e,c',h') → c'.isActive = c.isActive ∧
    h'.transform.bare = h.transform.bare ∧ h'.lastPosition = h.lastPosition

theorem activate_of_active (hc : c.parked = none) :
    c.activate h axes = (.error (.command .transformAlreadyActive),c,h) := by
  simp [activate,hc]

theorem activate_of_read (hc : c.parked = some p)
    (hr : (Transform.over (p.resolve axes) h.transform).getPosition = (.ok pos,t)) :
    c.activate h axes = (.ok (),⟨none⟩,⟨t,pos⟩) := by
  simp [activate,hc,TransformHost.resetLastPosition,TransformHost.getPosition,hr,Except.map]

theorem activate_of_unread (hc : c.parked = some p)
    (hr : (Transform.over (p.resolve axes) h.transform).getPosition = (.error e,t)) :
    c.activate h axes = (.error e,⟨none⟩,⟨t,h.lastPosition⟩) := by
  simp [activate,hc,TransformHost.resetLastPosition,TransformHost.getPosition,hr,Except.map]

theorem stranded_of_unread
    (hr : (Transform.over (p.resolve axes) h.transform).getPosition = (.error e,t)) :
    Stranded p axes h ⟨none⟩ ⟨t,h.lastPosition⟩ := by
  have hk := (Transform.kept_getPosition 0 (Transform.over (p.resolve axes) h.transform)).bare
  have hb := Transform.base?_getPosition (Transform.over (p.resolve axes) h.transform)
  rw [hr] at hk hb
  exact ⟨rfl,hk,hb,rfl⟩

/-- Refused activations leave no trace exactly while there is nothing to refuse after the pivot has
been put in place. Otherwise the control is stranded, is refused as active when it is activated
again, and comes back by a deactivation. -/
theorem activate_traceless_iff (c : PivotControl α) (h : TransformHost α) (axes : ExtraAxes) :
    (c.Traceless h axes ↔ c.isActive = true ∨ ∃ p base, c.parked = some p ∧
      h.transform.base? = some base ∧
      (Transform.over (p.resolve axes) h.transform).Reaches base.position.length) ∧
    ∀ e c' h', c.activate h axes = (.error e,c',h') →
      (c.isActive = true ∧ c' = c ∧ h' = h) ∨ ∃ p, c.parked = some p ∧ Stranded p axes h c' h' ∧
        (∀ axes', c'.activate h' axes' = (.error (.command .transformAlreadyActive),c',h')) ∧
        ∃ q h'', c'.deactivate h' = (.ok (),⟨some q⟩,h'') ∧
          q.arrive [] [] = (p.resolve axes).arrive [] [] ∧ h''.transform.bare = h.transform.bare ∧
          h''.transform.base? = h.transform.base? ∧ h''.lastPosition = h.lastPosition := by
  cases hc : c.parked with
  | none =>
    have hactive : c.isActive = true := isActive_iff.2 hc
    refine ⟨iff_of_true (fun e c' h' hr => ?_) (.inl hactive),fun e c' h' hr => ?_⟩ <;>
      rw [activate_of_active hc] at hr <;> cases hr
    · exact ⟨rfl,rfl,rfl⟩
    · exact .inl ⟨hactive,rfl,rfl⟩
  | some p =>
    have hparked : ¬c.isActive = true := by simp [isActive_iff,hc]
    -- an activation succeeds exactly where the pivot that it has put in front can be read
    have hread : (∃ q base, some p = some q ∧ h.transform.base? = some base ∧
        (Transform.over (q.resolve axes) h.transform).Reaches base.position.length) ↔
          ∃ pos, (Transform.over (p.resolve axes) h.transform).getPosition.1 = .ok pos := by
      rw [Transform.getPosition_isOk]
      simp [Transform.base?]
    rw [hread]
    obtain ⟨r,t,hr⟩ : ∃ r t, (Transform.over (p.resolve axes) h.transform).getPosition = (r,t) :=
      ⟨_,_,rfl⟩
    cases r with
    | ok pos =>
      refine ⟨iff_of_true (fun e c' h' hact => ?_) (.inr ⟨pos,by rw [hr]⟩),fun e c' h' hact => ?_⟩ <;>
        rw [activate_of_read hc hr] at hact <;> cases hact
    | error e =>
      have hstranded := stranded_of_unread hr
      refine ⟨iff_of_false (fun hn => ?_) ?_,fun e' c' h' hact => ?_⟩
      · obtain ⟨-,hbare,-⟩ := hn _ _ _ (activate_of_unread hc hr)
        exact Transform.bare_ne_over _ _ (hstranded.chain.symm.trans hbare)
      · rintro (hact | ⟨pos,hpos⟩)
        · exact hparked hact
        · simp [hr] at hpos
      · rw [activate_of_unread hc hr] at hact
        cases hact
        exact .inr ⟨p,rfl,hstranded,fun axes' => activate_of_active rfl,hstranded.deactivate⟩

/-- The position has no entry for the axis of the stage: the refused activation leaves a chain of a
pivot where there was only an end, and an active control. -/
theorem activate_leaves_pivot : ∃ p : Pivot ℝ,
    (Pivot.ofResolution 0.1 360 >>= fun p => p.addStage "c" .z ⟨0,0,0⟩) = .ok p ∧
    ∃ c' h', activate ⟨some p⟩ ⟨.terminal ⟨[0,0,0,0],#[]⟩,[]⟩ ⟨["c"]⟩ =
        (.error (.motion (.coordinateTooShort 4 4)),c',h') ∧
      c'.isActive = true ∧ h'.transform.isPivot = true ∧ h'.lastPosition = [] ∧
      ¬Traceless ⟨some p⟩ ⟨.terminal ⟨[0,0,0,0],#[]⟩,[]⟩ ⟨["c"]⟩ := by
  set p : Pivot ℝ :=
    { stages := [⟨"c",.z,⟨0,0,0⟩,none⟩], invResolution := 1 / 0.1,
      axisToRadians := 2.0 * Scalar.pi / 360 }
  have hp : (Pivot.ofResolution 0.1 360 >>= fun p => p.addStage "c" .z ⟨0,0,0⟩) = .ok p := by
    have hres : (0 : ℝ) < 0.1 := by norm_num
    simp [Pivot.ofResolution,hres,Results.ok_bind,Pivot.addStage,Pivot.maxStages,p]
  have hr : (Transform.over (p.resolve ⟨["c"]⟩) (.terminal ⟨[0,0,0,0],#[]⟩)).getPosition =
      (.error (.motion (.coordinateTooShort 4 4)),
        .over (p.resolve ⟨["c"]⟩) (.terminal ⟨[0,0,0,0],#[]⟩)) := by
    have hslot : p.resolve ⟨["c"]⟩ = { p with stages := [⟨"c",.z,⟨0,0,0⟩,some 4⟩] } := rfl
    simp [hslot,Transform.getPosition,Pivot.coords,Pivot.along,Turned.pass,Turned.coord,bind,
      Except.bind]
  have hact := activate_of_unread (c := ⟨some p⟩) (h := ⟨.terminal ⟨[0,0,0,0],#[]⟩,[]⟩) rfl hr
  refine ⟨p,hp,_,_,hact,rfl,rfl,rfl,fun hn => ?_⟩
  obtain ⟨hactive,-⟩ := hn _ _ _ hact
  cases hactive

end PivotControl

end Gantry
