import Mathlib
import Gantry.Settings.Construction
import Gantry.Proofs.Exact
import Gantry.Proofs.Results

/-!
The wiring of a sound machine. Every endstop has to stop certain motors: those of its own rail, and
on coupled rails those whose belts move with it. Sound settings are built exactly where each
endstop sits on the controller of all motors that it has to stop, and then it stops these motors and
no others.
-/
set_option autoImplicit false

namespace Gantry
open Results

variable {α : Type}

theorem Label.text_injective {limit : Nat} : Function.Injective (@Label.text limit) := by
  rintro ⟨s,_⟩ ⟨t,_⟩ h
  cases h
  rfl

def ConfigError.IsMismatch (e : ConfigError α) : Prop :=
  ∃ endstop controller stepper other, e = .controllerMismatch endstop controller stepper other

namespace Endstop
variable {e : Endstop} {s : StepperRef} {ss ts : List StepperRef}

def stopping (e : Endstop) (ss : List StepperRef) : Endstop :=
  { e with steppers := e.steppers ++ ss }

@[simp] theorem stopping_nil (e : Endstop) : e.stopping [] = e := by simp [stopping]

@[simp] theorem stopping_stopping (e : Endstop) (ss ts : List StepperRef) :
    (e.stopping ss).stopping ts = e.stopping (ss ++ ts) := by simp [stopping]

@[simp] theorem stopping_controller (e : Endstop) (ss : List StepperRef) :
    (e.stopping ss).controller = e.controller := rfl

/-- No two of the motors that are stopped, or that come to be stopped, share a name. -/
def Fresh (e : Endstop) (ss : List StepperRef) : Prop :=
  ((e.stopping ss).steppers.map (·.name)).Nodup

theorem Fresh.stopping (h : e.Fresh (ss ++ ts)) : (e.stopping ss).Fresh ts := by
  rwa [Fresh,stopping_stopping]

theorem Fresh.of_append (h : e.Fresh (ss ++ ts)) : e.Fresh ss := by
  simp only [Fresh,Endstop.stopping,← List.append_assoc,List.map_append] at h ⊢
  exact h.of_append_left

theorem Fresh.hasStepper (h : e.Fresh [s]) : e.hasStepper s.name.text = false := by
  simp only [Fresh,Endstop.stopping,List.map_append,List.nodup_append] at h
  simp only [Endstop.hasStepper,List.any_eq_false,beq_iff_eq]
  intro t ht htext
  exact h.2.2 t.name (List.mem_map_of_mem ht) s.name (by simp) (Label.text_injective htext)

theorem hinged_addStepper (fresh : e.Fresh [s]) :
    Hinged (ConfigError.IsMismatch (α := α)) (s.controller = e.controller) (e.stopping [s])
      (e.addStepper s) where
  yields := fun hc => by simp [addStepper,hc,fresh.hasStepper,Endstop.stopping]
  refuses := fun hc => ⟨_,if_pos hc,_,_,_,_,rfl⟩

theorem hinged_addSteppers (fresh : e.Fresh ss) :
    Hinged (ConfigError.IsMismatch (α := α)) (∀ s ∈ ss, s.controller = e.controller)
      (e.stopping ss) (e.addSteppers ss) := by
  induction ss generalizing e with
  | nil =>
    rw [stopping_nil]
    exact Hinged.ok.congr (by simp)
  | cons s ss ih =>
    have fresh : e.Fresh ([s] ++ ss) := fresh
    have both := (hinged_addStepper (α := α) fresh.of_append).bind (f := (addSteppers · ss))
      (ih fresh.stopping)
    rw [stopping_stopping] at both
    exact both.congr (by simp)

end Endstop

namespace Rail
variable {r : Rail α} {e : Endstop}

theorem hinged_addStepper {s : Stepper α} (single : r.endstops = [e]) (fresh : e.Fresh [s.ref]) :
    Hinged ConfigError.IsMismatch (s.controller = e.controller)
      { r with steppers := r.steppers ++ [s], endstops := [e.stopping [s.ref]] }
      (r.addStepper s) := by
  have h := (Endstop.hinged_addStepper (α := α) fresh).map
    fun e => { r with steppers := r.steppers ++ [s], endstops := [e] }
  refine (congrArg _ ?_).mp h
  simp only [addStepper,single,List.mapM_cons,List.mapM_nil]
  cases e.addStepper (α := α) s.ref <;> rfl

theorem hinged_addSteppers {ss : List (Stepper α)} (single : r.endstops = [e])
    (fresh : e.Fresh (ss.map Stepper.ref)) :
    Hinged ConfigError.IsMismatch (∀ s ∈ ss, s.controller = e.controller)
      { r with steppers := r.steppers ++ ss, endstops := [e.stopping (ss.map Stepper.ref)] }
      (ss.foldlM addStepper r) := by
  induction ss generalizing r e with
  | nil =>
    have same : { r with steppers := r.steppers ++ [], endstops := [e.stopping []] } = r := by
      simp [← single]
    rw [List.map_nil,same]
    exact Hinged.ok.congr (by simp)
  | cons s ss ih =>
    have fresh : e.Fresh ([s.ref] ++ ss.map Stepper.ref) := fresh
    have both := (hinged_addStepper single fresh.of_append).bind
      (f := fun r => ss.foldlM addStepper r) (ih rfl fresh.stopping)
    simp only [List.append_assoc,Endstop.stopping_stopping] at both
    exact both.congr (by simp)

theorem hinged_addSteppersToEndstops {refs : List StepperRef} (single : r.endstops = [e])
    (fresh : e.Fresh refs) :
    Hinged ConfigError.IsMismatch (∀ s ∈ refs, s.controller = e.controller)
      { r with endstops := [e.stopping refs] } (r.addSteppersToEndstops refs) := by
  have h := (Endstop.hinged_addSteppers (α := α) fresh).map
    fun e => { r with endstops := [e] }
  refine (congrArg _ ?_).mp h
  simp only [addSteppersToEndstops,single,List.mapM_cons,List.mapM_nil]
  cases e.addSteppers (α := α) refs <;> rfl

theorem addSteppersToEndstops_withAllocator (r : Rail α) (a : Allocator) (refs : List StepperRef) :
    (r.withAllocator a).addSteppersToEndstops refs =
      (r.addSteppersToEndstops refs).map (·.withAllocator a) := by
  unfold addSteppersToEndstops
  cases h : r.endstops.mapM (Endstop.addSteppers (α := α) · refs) <;>
    simp [withAllocator,h,bind,Except.bind,pure,Except.pure,Except.map]

end Rail

def StepperSettings.ref (s : StepperSettings α) : StepperRef := ⟨s.name,s.controller⟩

def RailSettings.Reaches (r : RailSettings α) (ss : List (StepperSettings α)) : Prop :=
  ∀ e ∈ r.endstop, ∀ s ∈ ss, s.controller = e.controller

theorem RailSettings.reaches_append {r : RailSettings α} {ss ts : List (StepperSettings α)} :
    r.Reaches (ss ++ ts) ↔ r.Reaches ss ∧ r.Reaches ts := by
  simp [Reaches,or_imp,forall_and]

namespace RailSettings
variable [Scalar α] {r : RailSettings α} {e : EndstopSettings}

def stopping (r : RailSettings α) (e : EndstopSettings) (stopped : List (StepperSettings α)) :
    Rail α :=
  { Rail.ofName r.name.text with
    steppers := r.steppers.map .ofSettings
    endstops := [(Endstop.ofSettings r.name e).stopping (stopped.map StepperSettings.ref)] }

@[simp] theorem ref_ofSettings (s : StepperSettings α) : (Stepper.ofSettings s).ref = s.ref := by
  simp [Stepper.ofSettings,Stepper.ofName,Stepper.ref,StepperSettings.ref]

@[simp] theorem stepperRefs_stopping (r : RailSettings α) (e : EndstopSettings)
    (stopped : List (StepperSettings α)) :
    (r.stopping e stopped).stepperRefs = r.steppers.map StepperSettings.ref := by
  simp [stopping,Rail.stepperRefs]

theorem hinged_ofSettings (homed : r.endstop = some e) (hr : r.steppers ≠ [])
    (distinct : (r.steppers.map (·.name)).Nodup) :
    Hinged ConfigError.IsMismatch (r.Reaches r.steppers) (r.stopping e r.steppers)
      (Rail.ofSettings r) := by
  have fresh : (Endstop.ofSettings r.name e).Fresh ((r.steppers.map Stepper.ofSettings).map
      Stepper.ref) := by
    simpa [Endstop.Fresh,Endstop.stopping,Endstop.ofSettings,List.map_map,Function.comp_def,
      StepperSettings.ref] using distinct
  let bare : Rail α :=
    { Rail.ofName r.name.text with endstops := [Endstop.ofSettings r.name e] }
  have h := Rail.hinged_addSteppers (r := bare) rfl fresh
  have built : Rail.ofSettings r =
      (r.steppers.map Stepper.ofSettings).foldlM Rail.addStepper bare := by
    simp only [Rail.ofSettings,List.isEmpty_iff,hr,if_false,Rail.ofParts,homed]
    rfl
  have full : { bare with
      steppers := bare.steppers ++ r.steppers.map Stepper.ofSettings
      endstops := [(Endstop.ofSettings r.name e).stopping
        ((r.steppers.map Stepper.ofSettings).map Stepper.ref)] } = r.stopping e r.steppers := by
    simp [bare,Rail.ofName,stopping,List.map_map,Function.comp_def]
  rw [built,← full]
  exact h.congr (by simp [Reaches,homed,Stepper.ofSettings,Stepper.ofName,Endstop.ofSettings])

theorem hinged_addSteppersToEndstops {q : RailSettings α} {f : EndstopSettings}
    {stopped others : List (StepperSettings α)} (homed : r.endstop = some e)
    (distinct : ((stopped ++ q.steppers).map (·.name)).Nodup) :
    Hinged ConfigError.IsMismatch (r.Reaches q.steppers) (r.stopping e (stopped ++ q.steppers))
      ((r.stopping e stopped).addSteppersToEndstops (q.stopping f others).stepperRefs) := by
  rw [stepperRefs_stopping]
  have fresh : ((Endstop.ofSettings r.name e).stopping (stopped.map StepperSettings.ref)).Fresh
      (q.steppers.map StepperSettings.ref) := by
    simpa [Endstop.Fresh,Endstop.stopping,Endstop.ofSettings,List.map_map,Function.comp_def,
      StepperSettings.ref] using distinct
  have h := Rail.hinged_addSteppersToEndstops (r := r.stopping e stopped) rfl fresh
  rw [Endstop.stopping_stopping,← List.map_append] at h
  exact h.congr (by simp [Reaches,homed,StepperSettings.ref,Endstop.ofSettings])

theorem hinged_singleStepper {stopped : List (StepperSettings α)} (one : r.steppers.length = 1) :
    Hinged ConfigError.IsMismatch True () (Kinematics.singleStepper (r.stopping e stopped)) := by
  have h : Kinematics.singleStepper (r.stopping e stopped) = .ok () := by
    simp [Kinematics.singleStepper,stopping,one]
  rw [h]
  exact .ok

end RailSettings

def motorNames (rails : List (RailSettings α)) : List Name :=
  (rails.flatMap (·.steppers)).map (·.name)

theorem foldlM_claimName {names names' : List Name} {xs : List Name}
    (h : xs.foldlM (claimName (α := α)) names = .ok names') :
    names' = names ++ xs ∧ (names.Nodup → names'.Nodup) := by
  induction xs generalizing names with
  | nil =>
    cases h
    simp
  | cons x xs ih =>
    obtain ⟨claimed,hx,hxs⟩ := bind_eq_ok.1 h
    simp only [claimName] at hx
    split at hx
    · cases hx
    case isFalse new =>
      cases hx
      obtain ⟨rfl,hn⟩ := ih hxs
      refine ⟨by simp,fun hnames => hn ?_⟩
      exact List.nodup_append.2 ⟨hnames,by simp,by grind⟩

namespace KinematicsSettings

/-- Every rail has motors and an endstop, no two motors share a name, and only a hybrid machine has
carriages, of one motor each. -/
structure Sound (k : KinematicsSettings α) : Prop where
  driven : ∀ r ∈ k.rails, r.steppers ≠ []
  homed : ∀ r ∈ k.rails, ∃ e, r.endstop = some e
  distinct : (motorNames k.rails).Nodup
  carriages : k.topology = .hybridCoreXY →
    k.x.steppers.length = 1 ∧ ∀ r ∈ k.second, r.steppers.length = 1
  second : k.topology ≠ .hybridCoreXY → k.second = none

variable [Scalar α] {k : KinematicsSettings α}

theorem foldlM_checkRail {rails : List (RailSettings α)} {names names' : List Name}
    (h : rails.foldlM checkRail names = .ok names') :
    (∀ r ∈ rails, r.steppers ≠ [] ∧ ∃ e, r.endstop = some e) ∧
      names' = names ++ motorNames rails ∧ (names.Nodup → names'.Nodup) := by
  induction rails generalizing names with
  | nil =>
    cases h
    simp [motorNames]
  | cons r rails ih =>
    obtain ⟨claimed,hr,hrails⟩ := bind_eq_ok.1 h
    obtain ⟨driven,hr⟩ := check_eq_ok.1 hr
    split at hr
    · cases hr
    case isFalse homed =>
      obtain ⟨rfl,hclaimed⟩ := foldlM_claimName hr
      obtain ⟨hall,rfl,hn⟩ := ih hrails
      refine ⟨List.forall_mem_cons.2 ⟨⟨?_,?_⟩,hall⟩,by simp [motorNames],fun h => hn (hclaimed h)⟩
      · rintro empty
        simp [RailSettings.check,empty] at driven
      · exact Option.ne_none_iff_exists'.1 (by simpa using homed)

omit [Scalar α] in
theorem checkSingle_eq_ok {r : RailSettings α} (h : r.checkSingle = .ok ()) :
    r.steppers.length = 1 := by
  by_contra hn
  simp [RailSettings.checkSingle,hn] at h

theorem Sound.of_check {names : List Name} (h : k.check = .ok names) : k.Sound := by
  obtain ⟨claimed,hrails,h⟩ := bind_eq_ok.1 h
  obtain ⟨hall,rfl,hn⟩ := foldlM_checkRail hrails
  refine ⟨fun r hr => (hall r hr).1,fun r hr => (hall r hr).2,by simpa using hn,fun ht => ?_,
    fun ht => ?_⟩
  · simp only [ht] at h
    obtain ⟨hx,h⟩ := check_eq_ok.1 h
    obtain ⟨hsecond,-⟩ := check_eq_ok.1 h
    refine ⟨checkSingle_eq_ok hx,fun r hr => checkSingle_eq_ok ?_⟩
    rwa [Option.mem_def.1 hr] at hsecond
  · cases hs : k.second with
    | none => rfl
    | some r => cases hk : k.topology <;> simp_all [bind,Except.bind]

def stops (k : KinematicsSettings α) : List (RailSettings α × List (StepperSettings α)) :=
  match k.topology with
  | .coreXY =>
    let belts := k.x.steppers ++ k.y.steppers
    [(k.x,belts),(k.y,belts),(k.z,k.z.steppers)]
  | .coreXZ =>
    let belts := k.x.steppers ++ k.z.steppers
    [(k.x,belts),(k.y,k.y.steppers),(k.z,belts)]
  | .hybridCoreXY =>
    let carriages := k.x.steppers ++ k.second.toList.flatMap (·.steppers)
    [(k.x,k.x.steppers),(k.y,k.y.steppers ++ carriages),(k.z,k.z.steppers)] ++
      k.second.toList.map fun r => (r,r.steppers)

def OneController (k : KinematicsSettings α) : Prop :=
  ∀ p ∈ k.stops, p.1.Reaches p.2

end KinematicsSettings

namespace RailSettings
variable {r : RailSettings α}

structure Built (r : RailSettings α) (stopped : List (StepperSettings α)) (rail : Rail α) :
    Prop where
  name : rail.name = r.name
  motors : rail.stepperRefs = r.steppers.map StepperSettings.ref
  endstop : ∃ s e, r.endstop = some s ∧ rail.endstops = [e] ∧ e.name = r.name ∧ e.pin = s.pin ∧
    e.controller = s.controller ∧ e.steppers.Perm (stopped.map StepperSettings.ref) ∧
    (e.steppers.map (·.name)).Nodup

theorem Built.withAllocator {rail : Rail α} {stopped : List (StepperSettings α)} {a : Allocator}
    (h : r.Built stopped rail) : r.Built stopped (rail.withAllocator a) :=
  ⟨h.name,h.motors,h.endstop⟩

variable [Scalar α]

theorem built_stopping {e : EndstopSettings} {stopped stops : List (StepperSettings α)}
    (homed : r.endstop = some e) (distinct : (stops.map (·.name)).Nodup)
    (same : stops.Perm stopped) : r.Built stopped (r.stopping e stops) where
  name := Label.clip_text _
  motors := stepperRefs_stopping r e stops
  endstop := by
    refine ⟨e,_,homed,rfl,rfl,rfl,rfl,?_,?_⟩
    · simpa [Endstop.stopping,Endstop.ofSettings] using same.map StepperSettings.ref
    · simpa [Endstop.stopping,Endstop.ofSettings,List.map_map,Function.comp_def,
        StepperSettings.ref] using distinct

end RailSettings

def AllBuilt (stops : List (RailSettings α × List (StepperSettings α))) (rails : List (Rail α)) :
    Prop :=
  List.Forall₂ (fun p rail => p.1.Built p.2 rail) stops rails

namespace Kinematics
variable [Scalar α] {x y z r : RailSettings α} {ex ey ez er : EndstopSettings} {rail : Rail α}

theorem hinged_coreXY (hex : x.endstop = some ex) (hey : y.endstop = some ey)
    (hz : z.Built z.steppers rail)
    (distinct : ((x.steppers ++ y.steppers).map (·.name)).Nodup) :
    ∃ built, Hinged ConfigError.IsMismatch
      (x.Reaches y.steppers ∧ y.Reaches x.steppers) built
      (coreXY (x.stopping ex x.steppers) (y.stopping ey y.steppers) rail) ∧
      AllBuilt [(x,x.steppers ++ y.steppers),(y,x.steppers ++ y.steppers),(z,z.steppers)]
        built.rails := by
  have crossed : ((y.steppers ++ x.steppers).map (·.name)).Nodup :=
    (List.perm_append_comm.map _).nodup_iff.1 distinct
  refine ⟨_,.congr ((RailSettings.hinged_addSteppersToEndstops hex distinct).bind
    ((RailSettings.hinged_addSteppersToEndstops hey crossed).bind .ok)) (by simp),?_⟩
  exact .cons (RailSettings.built_stopping hex distinct (.refl _)).withAllocator
    (.cons (RailSettings.built_stopping hey crossed List.perm_append_comm).withAllocator
      (.cons hz.withAllocator .nil))

theorem hinged_coreXZ (hex : x.endstop = some ex) (hez : z.endstop = some ez)
    (hy : y.Built y.steppers rail)
    (distinct : ((x.steppers ++ z.steppers).map (·.name)).Nodup) :
    ∃ built, Hinged ConfigError.IsMismatch
      (z.Reaches x.steppers ∧ x.Reaches z.steppers) built
      (coreXZ (x.stopping ex x.steppers) rail (z.stopping ez z.steppers)) ∧
      AllBuilt [(x,x.steppers ++ z.steppers),(y,y.steppers),(z,x.steppers ++ z.steppers)]
        built.rails := by
  have crossed : ((z.steppers ++ x.steppers).map (·.name)).Nodup :=
    (List.perm_append_comm.map _).nodup_iff.1 distinct
  refine ⟨_,.congr ((RailSettings.hinged_addSteppersToEndstops hez crossed).bind
    ((RailSettings.hinged_addSteppersToEndstops hex distinct).bind .ok)) (by simp),?_⟩
  exact .cons (RailSettings.built_stopping hex distinct (.refl _)).withAllocator
    (.cons hy.withAllocator
      (.cons (RailSettings.built_stopping hez crossed List.perm_append_comm).withAllocator .nil))

theorem hinged_hybridCoreXY (one : x.steppers.length = 1)
    (hx : x.Built x.steppers (x.stopping ex x.steppers)) (hey : y.endstop = some ey)
    (hz : z.Built z.steppers rail) (distinct : ((y.steppers ++ x.steppers).map (·.name)).Nodup) :
    ∃ built, Hinged ConfigError.IsMismatch (y.Reaches x.steppers) built
      (hybridCoreXY (x.stopping ex x.steppers) (y.stopping ey y.steppers) rail none) ∧
      AllBuilt [(x,x.steppers),(y,y.steppers ++ x.steppers),(z,z.steppers)] built.rails := by
  refine ⟨_,.congr ((RailSettings.hinged_singleStepper one).bind
    ((RailSettings.hinged_addSteppersToEndstops hey distinct).bind .ok)) (by simp),?_⟩
  exact .cons hx.withAllocator
    (.cons (RailSettings.built_stopping hey distinct (.refl _)).withAllocator
      (.cons hz.withAllocator .nil))

theorem hinged_hybridCoreXY_second (one : x.steppers.length = 1) (single : r.steppers.length = 1)
    (hx : x.Built x.steppers (x.stopping ex x.steppers))
    (hr : r.Built r.steppers (r.stopping er r.steppers))
    (hey : y.endstop = some ey) (hz : z.Built z.steppers rail)
    (distinct : ((y.steppers ++ x.steppers ++ r.steppers).map (·.name)).Nodup) :
    ∃ built, Hinged ConfigError.IsMismatch
      (y.Reaches x.steppers ∧ y.Reaches r.steppers) built
      (hybridCoreXY (x.stopping ex x.steppers) (y.stopping ey y.steppers) rail
        (some (r.stopping er r.steppers))) ∧
      AllBuilt [(x,x.steppers),(y,y.steppers ++ x.steppers ++ r.steppers),(z,z.steppers),
        (r,r.steppers)] built.rails := by
  have front : ((y.steppers ++ x.steppers).map (·.name)).Nodup := by
    rw [List.map_append] at distinct
    exact distinct.of_append_left
  have last : Hinged ConfigError.IsMismatch (y.Reaches r.steppers)
      ((y.stopping ey (y.steppers ++ x.steppers ++ r.steppers)).withAllocator (.cartesian .y))
      (((y.stopping ey (y.steppers ++ x.steppers)).withAllocator
        (.cartesian .y)).addSteppersToEndstops (r.stopping er r.steppers).stepperRefs) := by
    rw [Rail.addSteppersToEndstops_withAllocator]
    exact (RailSettings.hinged_addSteppersToEndstops hey distinct).map
      (·.withAllocator (.cartesian .y))
  refine ⟨_,.congr ((RailSettings.hinged_singleStepper one).bind
    ((RailSettings.hinged_addSteppersToEndstops hey front).bind
      ((RailSettings.hinged_singleStepper single).bind (last.bind .ok)))) (by simp),?_⟩
  exact .cons hx.withAllocator
    (.cons (RailSettings.built_stopping hey distinct (.refl _)).withAllocator
      (.cons hz.withAllocator (.cons hr.withAllocator .nil)))

end Kinematics

namespace KinematicsSettings
variable [Scalar α] {k : KinematicsSettings α}

theorem Sound.hinged {r : RailSettings α} (sound : k.Sound) (hr : r ∈ k.rails) :
    ∃ e, r.endstop = some e ∧ Hinged ConfigError.IsMismatch
      (r.Reaches r.steppers) (r.stopping e r.steppers)
      (Rail.ofSettings r) := by
  obtain ⟨e,homed⟩ := sound.homed r hr
  obtain ⟨before,after,hsplit⟩ := List.append_of_mem hr
  have hsub : (r.steppers.map (·.name)).Sublist (motorNames k.rails) := by
    simp [motorNames,hsplit]
  exact ⟨e,homed,RailSettings.hinged_ofSettings homed (sound.driven r hr)
    (sound.distinct.sublist hsub)⟩

/-- A machine with belts: each of the two rails on them stops the motors of both. -/
theorem Sound.exists_hinged_belts (sound : k.Sound) (belts : k.topology ≠ .hybridCoreXY) :
    ∃ built, Hinged ConfigError.IsMismatch k.OneController built (Kinematics.ofSettings k) ∧
      AllBuilt k.stops built.rails := by
  obtain ⟨ex,hex,hx⟩ := sound.hinged (r := k.x) (by simp [rails])
  obtain ⟨ey,hey,hy⟩ := sound.hinged (r := k.y) (by simp [rails])
  obtain ⟨ez,hez,hz⟩ := sound.hinged (r := k.z) (by simp [rails])
  have distinct := sound.distinct
  simp only [motorNames,rails,List.flatMap_append,List.flatMap_cons,List.flatMap_nil,
    List.append_nil,List.map_append,List.nodup_append] at distinct
  cases ht : k.topology with
  | coreXY =>
    have bz := RailSettings.built_stopping hez (by grind) (.refl k.z.steppers)
    obtain ⟨built,hb,hall⟩ := Kinematics.hinged_coreXY hex hey bz
      (by simp only [List.map_append,List.nodup_append]; grind)
    refine ⟨built,?_,by simpa only [stops,ht] using hall⟩
    simp only [Kinematics.ofSettings,ht]
    refine .congr (hx.bind (hy.bind (hz.bind hb))) ?_
    simp only [OneController,stops,ht,List.mem_cons,List.not_mem_nil,or_false,forall_eq_or_imp,
      forall_eq,RailSettings.reaches_append]
    tauto
  | coreXZ =>
    have hy' := RailSettings.built_stopping hey (by grind) (.refl k.y.steppers)
    obtain ⟨built,hb,hall⟩ := Kinematics.hinged_coreXZ hex hez hy'
      (by simp only [List.map_append,List.nodup_append]; grind)
    refine ⟨built,?_,by simpa only [stops,ht] using hall⟩
    simp only [Kinematics.ofSettings,ht]
    refine .congr (hx.bind (hy.bind (hz.bind hb))) ?_
    simp only [OneController,stops,ht,List.mem_cons,List.not_mem_nil,or_false,forall_eq_or_imp,
      forall_eq,RailSettings.reaches_append]
    tauto
  | hybridCoreXY => exact absurd ht belts

/-- A hybrid machine: the y rail stops the motors of all carriages that ride on it. -/
theorem Sound.exists_hinged_carriages (sound : k.Sound) (ht : k.topology = .hybridCoreXY) :
    ∃ built, Hinged ConfigError.IsMismatch k.OneController built (Kinematics.ofSettings k) ∧
      AllBuilt k.stops built.rails := by
  obtain ⟨ex,hex,hx⟩ := sound.hinged (r := k.x) (by simp [rails])
  obtain ⟨ey,hey,hy⟩ := sound.hinged (r := k.y) (by simp [rails])
  obtain ⟨ez,hez,hz⟩ := sound.hinged (r := k.z) (by simp [rails])
  obtain ⟨one,ones⟩ := sound.carriages ht
  have distinct := sound.distinct
  simp only [motorNames,rails,List.flatMap_append,List.flatMap_cons,List.flatMap_nil,
    List.append_nil,List.map_append,List.nodup_append] at distinct
  have bx := RailSettings.built_stopping hex (by grind) (.refl k.x.steppers)
  have bz := RailSettings.built_stopping hez (by grind) (.refl k.z.steppers)
  cases hs : k.second with
  | none =>
    obtain ⟨built,hb,hall⟩ := Kinematics.hinged_hybridCoreXY one bx hey bz
      (by simp only [List.map_append,List.nodup_append]; grind)
    refine ⟨built,?_,by simpa [stops,ht,hs] using hall⟩
    simp only [Kinematics.ofSettings,ht,hs]
    refine .congr (hx.bind (hy.bind (hz.bind hb))) ?_
    simp only [OneController,stops,ht,hs,Option.toList_none,List.flatMap_nil,List.append_nil,
      List.map_nil,List.mem_cons,List.not_mem_nil,or_false,forall_eq_or_imp,forall_eq,
      RailSettings.reaches_append]
    tauto
  | some r =>
    obtain ⟨er,her,hr⟩ := sound.hinged (r := r) (by simp [rails,hs])
    simp only [hs,Option.toList_some,List.flatMap_cons,List.flatMap_nil,List.append_nil]
      at distinct
    have br := RailSettings.built_stopping her (by grind) (.refl r.steppers)
    obtain ⟨built,hb,hall⟩ := Kinematics.hinged_hybridCoreXY_second one (ones r hs) bx br hey bz
      (by simp only [List.map_append,List.nodup_append]; grind)
    refine ⟨built,?_,by simpa [stops,ht,hs] using hall⟩
    simp only [Kinematics.ofSettings,ht,hs]
    refine .congr ((hr.map some).bind (hx.bind (hy.bind (hz.bind hb)))) ?_
    simp only [OneController,stops,ht,hs,Option.toList_some,List.flatMap_cons,List.flatMap_nil,
      List.append_nil,List.map_cons,List.map_nil,List.cons_append,List.nil_append,List.mem_cons,
      List.not_mem_nil,or_false,forall_eq_or_imp,forall_eq,RailSettings.reaches_append]
    tauto

theorem Sound.exists_hinged (sound : k.Sound) :
    ∃ built, Hinged ConfigError.IsMismatch k.OneController built (Kinematics.ofSettings k) ∧
      AllBuilt k.stops built.rails := by
  by_cases ht : k.topology = .hybridCoreXY
  · exact sound.exists_hinged_carriages ht
  · exact sound.exists_hinged_belts ht

end KinematicsSettings

theorem MachineSettings.sound_of_validate [Scalar α] {m : MachineSettings α}
    {k : KinematicsSettings α} (valid : m.validate = .ok ()) (coupled : m.kinematics = some k) :
    k.Sound := by
  simp only [validate,coupled] at valid
  obtain ⟨names,hk,-⟩ := bind_eq_ok.1 valid
  exact .of_check hk

/-- The rails of valid settings are built exactly where each endstop is on the controller of all
motors that it has to stop. Nothing else is a reason for refusal, and each endstop of the machine
stops these motors, each once, and no others. -/
theorem Kinematics.ofSettings_wiring [Scalar α] {m : MachineSettings α} {k : KinematicsSettings α}
    (valid : m.validate = .ok ()) (coupled : m.kinematics = some k) :
    ((∃ built, Kinematics.ofSettings k = .ok built) ↔ k.OneController) ∧
      (∀ e, Kinematics.ofSettings k = .error e → e.IsMismatch) ∧
      ∀ built, Kinematics.ofSettings k = .ok built → AllBuilt k.stops built.rails := by
  obtain ⟨built,hinged,hall⟩ := (m.sound_of_validate valid coupled).exists_hinged
  refine ⟨hinged.exists_eq_ok,fun e he => hinged.error he,fun other hother => ?_⟩
  rwa [hinged.eq_of_ok hother]

noncomputable def StepperSettings.plain (name : String) : StepperSettings ℝ :=
  { name := .clip name, stepPin := .clip "step", dirPin := .clip "dir"
    rotationDistance := 40, gearRatio := 1 }

theorem StepperSettings.check_plain (name : String) : (plain name).check = .ok () := by
  have hr : checkPositive "rotation_distance" (40 : ℝ) = .ok () := if_neg (by norm_num)
  have hg : checkPositive "gear_ratio" (1 : ℝ) = .ok () := if_neg (by norm_num)
  simp [check,plain,hr,hg,ok_bind]

noncomputable def RailSettings.plain (names : List String) : RailSettings ℝ where
  steppers := names.map .plain
  endstop := some { pin := .clip "stop" }

theorem KinematicsSettings.checkRail_plain {names : List String} (driven : names ≠ [])
    (taken : List Name) :
    checkRail taken (.plain names) = (names.map .clip).foldlM claimName taken := by
  have hs : (names.map StepperSettings.plain).forM StepperSettings.check = .ok () :=
    forM_eq_ok.2 (by simp [StepperSettings.check_plain])
  have hc : (RailSettings.plain names).check = .ok () := by
    rw [RailSettings.check,if_neg (by simpa [RailSettings.plain] using driven)]
    exact hs
  rw [checkRail,hc,ok_bind,if_neg (by simp [RailSettings.plain])]
  simp [RailSettings.plain,StepperSettings.plain,List.map_map,Function.comp_def]

/-- The endstops of two belts stop all their motors, however many there are. -/
theorem Kinematics.ofSettings_wiring_belts : ∃ (k : KinematicsSettings ℝ) (built : Kinematics ℝ),
    k.topology = .coreXY ∧ k.x.steppers.length = 1 ∧ k.y.steppers.length = 2 ∧
      ({ kinematics := some k } : MachineSettings ℝ).validate = .ok () ∧
      Kinematics.ofSettings k = .ok built ∧ AllBuilt k.stops built.rails := by
  let k : KinematicsSettings ℝ :=
    { topology := .coreXY, x := .plain ["a"], y := .plain ["b","c"], z := .plain ["z"] }
  have valid : ({ kinematics := some k } : MachineSettings ℝ).validate = .ok () := by
    simp [MachineSettings.validate,KinematicsSettings.check,KinematicsSettings.rails,k,
      KinematicsSettings.checkRail_plain]
    rfl
  obtain ⟨built_iff,-,wired⟩ := Kinematics.ofSettings_wiring valid rfl
  obtain ⟨built,hb⟩ := built_iff.2 (by
    simp [KinematicsSettings.OneController,KinematicsSettings.stops,k,RailSettings.Reaches,
      RailSettings.plain,StepperSettings.plain])
  exact ⟨k,built,rfl,rfl,rfl,valid,hb,wired built hb⟩

end Gantry
