import Mathlib
import Gantry.Proofs.Manual.Roster

/-!
Registrations: a manual axis notes the letter under which toolhead moves drive it, and the toolhead
notes the axis among its extra axes and its rail among the rails it makes steps for. The three agree
after any commands and whatever else the toolhead takes on, for every step of a registration that can
fail comes before all that it would have to take back.
-/
set_option autoImplicit false

namespace Gantry
variable {α : Type} [Scalar α] {σ : Type} [AxisHost σ α] [StepperEnable σ α]

structure Station (α σ : Type) where
  axis : ManualAxis α
  host : σ

inductive Command (α : Type) where
  | gcodeAxis (text : String)
  | enable (on : Bool)
  | setPosition (pos : α)
  | move (target : α) (speed accel : Option α) (synchronize : Bool)
  | home (coordinator : HomingRequest α → HomingPlan α) (target : α) (speed accel : Option α)
    (triggered checkTrigger : Bool)

def Command.isRegistration : Command α → Bool
  | .gcodeAxis _ => true
  | _ => false

structure Response (α : Type) where
  result : Except (Error α) Unit
  request : Option (HomingRequest α) := none
  replies : List (Except (Error α) (HomingReply α)) := []

/-- What happens apart from the commands: other axes and rails come and go, and moves of the
toolhead leave a rail and a queue behind. -/
inductive Elsewhere (α : Type) where
  | addAxis (axis : ExtraAxis) (pos : α)
  | removeAxis (name : String)
  | registerGenerator (owner : Nat)
  | unregisterGenerator (owner : Nat)
  | drive (rail : Rail α) (queue : SegmentQueue α)

def Elsewhere.Spares (name : String) (owner : Nat) : Elsewhere α → Prop
  | .addAxis axis _ => axis.name ≠ name
  | .removeAxis other => other ≠ name
  | .registerGenerator other => other ≠ owner
  | .unregisterGenerator other => other ≠ owner
  | .drive _ _ => True

inductive Event (α : Type) where
  | command (c : Command α)
  | elsewhere (e : Elsewhere α)

def Event.Spares (name : String) (owner : Nat) : Event α → Prop
  | .command _ => True
  | .elsewhere e => e.Spares name owner

namespace Station
variable {ros : Roster σ} {owner : Nat} {x : Station α σ}

def perform (owner : Nat) (x : Station α σ) : Command α → Response α × Station α σ
  | .gcodeAxis text =>
    let (result,axis,host) := x.axis.setGcodeAxis owner x.host text
    ({ result },⟨axis,host⟩)
  | .enable on =>
    let (result,axis,host) := x.axis.enable x.host on
    ({ result },⟨axis,host⟩)
  | .setPosition pos =>
    match x.axis.setPosition pos with
    | .ok axis => ({ result := .ok () },{ x with axis })
    | .error e => ({ result := .error e },x)
  | .move target speed accel synchronize =>
    let (result,axis,host) := x.axis.moveTo x.host target speed accel synchronize
    ({ result },⟨axis,host⟩)
  | .home coordinator target speed accel triggered checkTrigger =>
    let (request,o) :=
      x.axis.homingMove x.host coordinator target speed accel triggered checkTrigger
    (⟨o.result,request,o.replies⟩,⟨o.axis,o.surroundings⟩)

def elsewhere (x : Station α σ) : Elsewhere α → Station α σ
  | .addAxis axis pos => { x with host := (AxisHost.addExtraAxis axis pos x.host).2 }
  | .removeAxis name => { x with host := (AxisHost.removeExtraAxis name x.host).2 }
  | .registerGenerator owner => { x with host := AxisHost.registerGenerator owner x.host }
  | .unregisterGenerator owner => { x with host := AxisHost.unregisterGenerator owner x.host }
  | .drive rail queue => { x with axis := { x.axis with rail, queue } }

def step (owner : Nat) (x : Station α σ) : Event α → Station α σ
  | .command c => (x.perform owner c).2
  | .elsewhere e => x.elsewhere e

def after (owner : Nat) (x : Station α σ) (events : List (Event α)) : Station α σ :=
  events.foldl (step owner) x

/-- The toolhead notes an axis of a name as often as the axis notes a letter. -/
structure Mirrored (ros : Roster σ) (owner : Nat) (name : String) (x : Station α σ) : Prop where
  objectName : x.axis.objectName = name
  mirror : (ros.notes x.host).Mirror name owner x.axis.letter.isSome

section Mirrored
variable {name : String} (h : x.Mirrored ros owner name)
include h

omit [Scalar α] in
theorem Mirrored.of_keeps {r : ManualAxis α × σ} (hk : x.axis.Keeps ros x.host r) :
    Mirrored ros owner name ⟨r.1,r.2⟩ := by
  refine ⟨hk.objectName.trans h.objectName,?_⟩
  rw [hk.letter,hk.notes]
  exact h.mirror

omit [Scalar α] in
theorem Mirrored.registerAs (hl : ¬x.axis.letter.isSome) (letter : Char) :
    let (_,axis,host) := x.axis.registerAs owner x.host letter
    Mirrored ros owner name ⟨axis,host⟩ := by
  unfold ManualAxis.registerAs
  cases hadd : AxisHost.addExtraAxis ⟨x.axis.objectName,letter,owner⟩ x.axis.rail.commandedPos
      x.host with
  | mk r s =>
    cases r with
    | error e =>
      obtain rfl := ros.add_error _ _ _ _ e hadd
      exact h
    | ok u =>
      -- the rail is handed over only after the toolhead took the name
      obtain ⟨slot,registry,hreg,hnotes⟩ := ros.add_ok _ _ _ _ hadd
      have hmirror := h.mirror
      rw [Bool.eq_false_iff.2 hl] at hmirror
      rw [h.objectName] at hreg
      refine ⟨h.objectName,?_⟩
      rw [ros.register,hnotes]
      exact hmirror.register hreg

omit [Scalar α] in
theorem Mirrored.unregister (hl : x.axis.letter.isSome) :
    let (_,axis,host) := x.axis.unregister owner x.host
    Mirrored ros owner name ⟨axis,host⟩ := by
  unfold ManualAxis.unregister
  cases hremove : AxisHost.removeExtraAxis x.axis.objectName x.host with
  | mk r s =>
    cases r with
    | error e =>
      refine ⟨h.objectName,?_⟩
      rw [ros.remove_error _ _ _ e hremove]
      exact h.mirror
    | ok u =>
      have hnotes := ros.remove_ok _ _ _ hremove
      have hmirror := h.mirror
      rw [hl] at hmirror
      rw [h.objectName] at hnotes
      refine ⟨h.objectName,?_⟩
      -- it does not matter whether one rail of the owner is dropped or all are: there is one
      rcases ros.unregister owner s with hg | hg
      · exact hmirror.release (by rw [hg,hnotes]) (Or.inl (by rw [hg,hnotes]))
      · exact hmirror.release (by rw [hg,hnotes]) (Or.inr (by rw [hg,hnotes]))

theorem Mirrored.perform (c : Command α) : (x.perform owner c).2.Mirrored ros owner name := by
  cases c with
  | gcodeAxis text =>
    simp only [Station.perform,ManualAxis.setGcodeAxis]
    split_ifs with hl ht ht
    · exact h.unregister hl
    · exact h
    · exact h
    · split
      · exact h
      · exact h.registerAs hl _
  | enable on => exact h.of_keeps (ManualAxis.enable_spec ros x.axis x.host on).1
  | setPosition pos =>
    simp only [Station.perform]
    cases hp : x.axis.setPosition pos with
    | ok axis => exact h.of_keeps (ManualAxis.keeps_setPosition ros x.host hp)
    | error e => exact h
  | move target speed accel synchronize =>
    exact h.of_keeps
      (ManualAxis.moveTo_spec ros x.axis x.host target speed accel synchronize).1
  | home coordinator target speed accel triggered checkTrigger =>
    exact h.of_keeps (ManualAxis.homingMove_spec ros x.axis x.host coordinator target speed accel
      triggered checkTrigger).1

omit [Scalar α] in
theorem Mirrored.elsewhere {e : Elsewhere α} (he : e.Spares name owner) :
    (x.elsewhere e).Mirrored ros owner name := by
  refine ⟨by cases e <;> exact h.objectName,?_⟩
  cases e with
  | addAxis axis pos =>
    cases hadd : AxisHost.addExtraAxis axis pos x.host with
    | mk r s =>
      simp only [Station.elsewhere,hadd]
      cases r with
      | error e => rw [ros.add_error _ _ _ _ e hadd]; exact h.mirror
      | ok u =>
        obtain ⟨slot,registry,hreg,hnotes⟩ := ros.add_ok _ _ _ _ hadd
        rw [hnotes]
        exact h.mirror.register_other he hreg
  | removeAxis other =>
    cases hremove : AxisHost.removeExtraAxis other x.host with
    | mk r s =>
      simp only [Station.elsewhere,hremove]
      cases r with
      | error e => rw [ros.remove_error _ _ _ e hremove]; exact h.mirror
      | ok u =>
        rw [ros.remove_ok _ _ _ hremove]
        exact h.mirror.remove_other he
  | registerGenerator o =>
    simp only [Station.elsewhere,ros.register]
    exact h.mirror.generate_other he
  | unregisterGenerator o =>
    simp only [Station.elsewhere]
    exact h.mirror.release_other he (ros.unregister o x.host)
  | drive rail queue => exact h.mirror

end Mirrored

theorem perform_of_letter (hl : x.axis.letter.isSome) {c : Command α}
    (hc : c.isRegistration = false) : (x.perform owner c).1.result =
      .error (.command (.axisRegistered x.axis.name)) := by
  have hcheck := ManualAxis.checkCommandable_of_letter hl
  cases c with
  | gcodeAxis text => cases hc
  | enable on => simp only [perform,ManualAxis.enable,hcheck]
  | setPosition pos => simp only [perform,ManualAxis.setPosition,hcheck]; rfl
  | move target speed accel synchronize => simp only [perform,ManualAxis.moveTo,hcheck]; rfl
  | home coordinator target speed accel triggered checkTrigger =>
    simp only [perform,ManualAxis.homingMove,ManualAxis.checkHoming,hcheck]; rfl

theorem perform_refused (ros : Roster σ) {c : Command α} (h : Refused (x.perform owner c).1.result)
    (hq : (x.perform owner c).1.request = none)
    (hgo : ¬(x.axis.letter.isSome ∧ c = .gcodeAxis "")) : (x.perform owner c).2 = x := by
  have hstation {r : ManualAxis α × σ} (hr : r = (x.axis,x.host)) : Station.mk r.1 r.2 = x := by
    rw [hr]
  cases c with
  | gcodeAxis text =>
    refine hstation (ManualAxis.setGcodeAxis_refused ros h fun hgo' => hgo ⟨hgo'.1,?_⟩)
    rw [hgo'.2]
  | enable on => exact hstation ((ManualAxis.enable_spec ros x.axis x.host on).2 h)
  | setPosition pos =>
    simp only [perform] at h ⊢
    cases hp : x.axis.setPosition pos with
    | ok axis => rw [hp] at h; exact absurd h (not_refused_ok ())
    | error e => rfl
  | move target speed accel synchronize =>
    exact hstation ((ManualAxis.moveTo_spec ros x.axis x.host target speed accel synchronize).2 h)
  | home coordinator target speed accel triggered checkTrigger =>
    obtain ⟨ha,hs⟩ := (ManualAxis.homingMove_spec ros x.axis x.host coordinator target speed accel
      triggered checkTrigger).2.1 hq
    exact congrArg₂ Station.mk ha hs

theorem not_refused_of_mem_replies (ros : Roster σ) {c : Command α}
    {r : Except (Error α) (HomingReply α)} (hr : r ∈ (x.perform owner c).1.replies) :
    ¬Refused r := by
  cases c with
  | home coordinator target speed accel triggered checkTrigger =>
    exact (ManualAxis.homingMove_spec ros x.axis x.host coordinator target speed accel triggered
      checkTrigger).2.2 r hr
  | setPosition pos =>
    simp only [perform] at hr
    split at hr <;> cases hr
  | gcodeAxis text => cases hr
  | enable on => cases hr
  | move target speed accel synchronize => cases hr

theorem Mirrored.step {name : String} (h : x.Mirrored ros owner name) {e : Event α}
    (he : e.Spares name owner) : (x.step owner e).Mirrored ros owner name := by
  cases e with
  | command c => exact h.perform c
  | elsewhere e => exact h.elsewhere he

theorem Mirrored.after {name : String} (h : x.Mirrored ros owner name) {events : List (Event α)}
    (he : ∀ e ∈ events, e.Spares name owner) : (x.after owner events).Mirrored ros owner name := by
  induction events generalizing x with
  | nil => exact h
  | cons e events ih =>
    obtain ⟨hfirst,hrest⟩ := List.forall_mem_cons.1 he
    exact ih (h.step hfirst) hrest

structure Consistent (ros : Roster σ) (owner : Nat) (x : Station α σ) : Prop where
  named : x.axis.letter.isSome ↔ x.axis.objectName ∈ (ros.notes x.host).registry.names
  driven : x.axis.letter.isSome ↔ owner ∈ (ros.notes x.host).generators
  once : x.axis.letter.isSome →
    (ros.notes x.host).registry.names.count x.axis.objectName = 1 ∧
      (ros.notes x.host).generators.count owner = 1
  refuses : ∀ c : Command α, x.axis.letter.isSome → c.isRegistration = false →
    (x.perform owner c).1.result = .error (.command (.axisRegistered x.axis.name))
  /-- A command is refused by the axis, or by the toolhead that does not take it, before anything
  happens. Other refusals are those of a coordinator, and of a toolhead that does not let the axis
  go. -/
  untouched : ∀ c : Command α, Refused (x.perform owner c).1.result →
    (x.perform owner c).1.request = none → ¬(x.axis.letter.isSome ∧ c = .gcodeAxis "") →
    (x.perform owner c).2 = x
  replies : ∀ c : Command α, ∀ r ∈ (x.perform owner c).1.replies, ¬Refused r

theorem Mirrored.consistent {name : String} (h : x.Mirrored ros owner name) :
    x.Consistent ros owner where
  named := by rw [h.objectName,h.mirror.mem_names_iff]
  driven := by rw [h.mirror.mem_generators_iff]
  once hl := by
    have hm := h.mirror
    rw [hl] at hm
    rw [h.objectName]
    exact ⟨hm.names,hm.generators⟩
  refuses _ hl hc := perform_of_letter hl hc
  untouched _ hr hq hgo := perform_refused ros hr hq hgo
  replies _ _ hr := not_refused_of_mem_replies ros hr

structure Apart (ros : Roster σ) (owner : Nat) (x : Station α σ) : Prop where
  letter : x.axis.letter = none
  name : x.axis.objectName ∉ (ros.notes x.host).registry.names
  owner : owner ∉ (ros.notes x.host).generators

omit [Scalar α] in
theorem Apart.mirrored (h : x.Apart ros owner) : x.Mirrored ros owner x.axis.objectName := by
  refine ⟨rfl,?_⟩
  rw [h.letter]
  exact ⟨List.count_eq_zero.2 h.name,List.count_eq_zero.2 h.owner⟩

/-- Whatever commands an axis is given, and whatever else happens to other axes, the axis and the
toolhead agree on whether it is registered, and refused commands leave no trace. -/
theorem consistent_of_run {events : List (Event α)} (apart : x.Apart ros owner)
    (spared : ∀ e ∈ events, e.Spares x.axis.objectName owner) :
    (x.after owner events).axis.objectName = x.axis.objectName ∧
      (x.after owner events).Consistent ros owner :=
  have h := apart.mirrored.after spared
  ⟨h.objectName,h.consistent⟩

end Station

namespace Station

def lift : Station Float (Toolhead Float) := ⟨.ofRail "lift" (.ofName "lift") 5 0,{ clock := 0 }⟩

def relettered : List (Event Float) :=
  [.command (.gcodeAxis "A"),.command (.move 1 none none true),
    .elsewhere (.addAxis ⟨"manual_stepper b",'B',1⟩ 0),.command (.gcodeAxis "B"),
    .command (.gcodeAxis ""),.command (.gcodeAxis "a"),.command (.move 1 none (some (-1)) true),
    .elsewhere (.removeAxis "manual_stepper b"),.command (.gcodeAxis "C")]

theorem consistent_of_relettered : (lift.after 0 relettered).axis.letter = some 'C' ∧
    (lift.after 0 relettered).axis.objectName ∈ (lift.after 0 relettered).host.registry.names := by
  have hletter : (lift.after 0 relettered).axis.letter = some 'C' := by decide +kernel
  have apart : lift.Apart Toolhead.roster 0 := ⟨rfl,List.not_mem_nil,List.not_mem_nil⟩
  have spared : ∀ e ∈ relettered, e.Spares lift.axis.objectName 0 := by
    have hname : "manual_stepper b" ≠ lift.axis.objectName := by decide +kernel
    simp [relettered,Event.Spares,Elsewhere.Spares,hname]
  obtain ⟨-,h⟩ := consistent_of_run apart spared
  exact ⟨hletter,h.named.1 (by rw [hletter]; rfl)⟩

end Station

end Gantry
