import Mathlib
import Gantry.Proofs.Numeric.Quotient
import Gantry.Proofs.Settings.Wiring

/-!
Usable settings. Validation compares numbers with zero and refuses those that are at most zero, so a
number that takes part in no comparison passes, and so does an infinite one. Sound settings are usable
exactly where the mechanics of each motor give a positive step distance, speeds are ordered, and the
numbers of the pivot are finite. Whatever passes, a manual axis is refused for its wiring alone.
-/
set_option autoImplicit false

namespace Gantry
open Results

def MachineSettings.motors {α : Type} (m : MachineSettings α) : List (StepperSettings α) :=
  (m.kinematics.toList.flatMap (·.rails)).flatMap (·.steppers) ++ m.manual.map (·.2.stepper)

section Checks
variable {α : Type} [Scalar α]

theorem checkPositive_eq_ok {option : String} {x : α} : checkPositive option x = .ok () ↔ ¬x ≤ 0 := by
  simp [checkPositive]

theorem checkNonNegative_eq_ok {option : String} {x : α} :
    checkNonNegative option x = .ok () ↔ ¬x < 0 := by
  simp [checkNonNegative]

theorem StepperSettings.check_eq_ok {s : StepperSettings α} :
    s.check = .ok () ↔ ¬s.rotationDistance ≤ 0 ∧ s.fullSteps ≠ 0 ∧ ¬s.gearRatio ≤ 0 := by
  rw [check,Results.check_eq_ok,checkPositive_eq_ok]
  by_cases h : s.fullSteps = 0 <;> simp [h,checkPositive_eq_ok]

theorem foldlM_checkRail_motors {rails : List (RailSettings α)} {names names' : List Name}
    (h : rails.foldlM KinematicsSettings.checkRail names = .ok names') :
    ∀ s ∈ rails.flatMap (·.steppers), s.check = .ok () := by
  induction rails generalizing names with
  | nil => simp
  | cons r rails ih =>
    obtain ⟨claimed,hr,hrails⟩ := bind_eq_ok.1 h
    have hr := (Results.check_eq_ok.1 hr).1
    rw [RailSettings.check] at hr
    split at hr
    · cases hr
    · rw [List.flatMap_cons]
      exact List.forall_mem_append.2 ⟨forM_eq_ok.1 hr,ih hrails⟩

theorem foldlM_checkManual {ss : List (ManualSettings α)} {names names' : List Name}
    (h : ss.foldlM MachineSettings.checkManual names = .ok names') :
    ∀ s ∈ ss, s.stepper.check = .ok () ∧ checkPositive "velocity" s.velocity = .ok () ∧
      checkNonNegative "accel" s.accel = .ok () := by
  induction ss generalizing names with
  | nil => simp
  | cons s ss ih =>
    obtain ⟨claimed,hs,hss⟩ := bind_eq_ok.1 h
    obtain ⟨hmotor,hs⟩ := Results.check_eq_ok.1 hs
    obtain ⟨taken,-,hs⟩ := bind_eq_ok.1 hs
    obtain ⟨hv,hs⟩ := Results.check_eq_ok.1 hs
    exact List.forall_mem_cons.2 ⟨⟨hmotor,hv,(Results.check_eq_ok.1 hs).1⟩,ih hss⟩

namespace MachineSettings

structure Checked (m : MachineSettings α) : Prop where
  motors : ∀ s ∈ m.motors, s.check = .ok ()
  pivot : ∀ p ∈ m.pivot, m.checkPivot p = .ok ()
  velocity : ∀ e ∈ m.manual, checkPositive "velocity" e.2.velocity = .ok ()
  accel : ∀ e ∈ m.manual, checkNonNegative "accel" e.2.accel = .ok ()

theorem checked_of_validate {m : MachineSettings α} (h : m.validate = .ok ()) : m.Checked := by
  -- the names claimed by coupled rails are none where there are no such rails
  have hsplit : ∃ names : List Name, (∀ k ∈ m.kinematics, k.check = .ok names) ∧ (do
      m.pivot.forM m.checkPivot
      let _ ← (m.manual.map Prod.snd).foldlM checkManual names
      pure ()) = .ok () := by
    unfold validate at h
    cases hkin : m.kinematics with
    | none =>
      rw [hkin] at h
      exact ⟨[],by simp,h⟩
    | some k =>
      rw [hkin] at h
      obtain ⟨names,hk,h⟩ := bind_eq_ok.1 h
      exact ⟨names,by simpa using hk,h⟩
  obtain ⟨names,hk,h⟩ := hsplit
  obtain ⟨hp,h⟩ := Results.check_eq_ok.1 h
  obtain ⟨names',hm,-⟩ := bind_eq_ok.1 h
  have hmanual := foldlM_checkManual hm
  simp only [List.forall_mem_map] at hmanual
  refine ⟨List.forall_mem_append.2 ⟨?_,?_⟩,?_,?_,?_⟩
  · cases hkin : m.kinematics with
    | none => simp
    | some k =>
      obtain ⟨claimed,hrails,-⟩ := bind_eq_ok.1 (hk k hkin)
      simpa using foldlM_checkRail_motors hrails
  · exact List.forall_mem_map.2 fun e he => (hmanual e he).1
  · intro p hmem
    rw [Option.mem_def.1 hmem] at hp
    exact hp
  · exact fun e he => (hmanual e he).2.1
  · exact fun e he => (hmanual e he).2.2

end MachineSettings

end Checks

section Manual
variable {α : Type} [Scalar α] {s : ManualSettings α}

/-- A manual axis whose speeds pass is built exactly where its endstop, if it has one, is on the
controller of its motor. -/
theorem ManualAxis.hinged_ofSettings (name : Name)
    (hv : checkPositive "velocity" s.velocity = .ok ())
    (ha : checkNonNegative "accel" s.accel = .ok ()) : ∃ rail, Hinged ConfigError.IsMismatch
      (∀ e ∈ s.endstop, s.stepper.controller = e.controller)
      (.ofRail name.text rail s.velocity s.accel) (ManualAxis.ofSettings name s) := by
  have hrail : ∃ rail, Hinged ConfigError.IsMismatch
      (∀ e ∈ s.endstop, s.stepper.controller = e.controller) rail
      (Rail.ofParts s.stepper.name s.endstop [s.stepper]) := by
    cases he : s.endstop with
    | none =>
      refine ⟨{ Rail.ofName s.stepper.name.text with steppers := [.ofSettings s.stepper] },?_⟩
      exact Hinged.ok.congr (by simp)
    | some e =>
      let r : RailSettings α := { steppers := [s.stepper], endstop := some e }
      have h := RailSettings.hinged_ofSettings (r := r) rfl (by simp [r]) (by simp [r])
      exact ⟨_,h.congr (by simp [r,RailSettings.Reaches])⟩
  obtain ⟨rail,hrail⟩ := hrail
  refine ⟨rail,?_⟩
  have h := hrail.bind (f := fun rail => .ok (ManualAxis.ofRail name.text rail s.velocity s.accel))
    .ok
  rw [ManualAxis.ofSettings,hv,ok_bind,ha,ok_bind]
  exact h.congr (by simp)

end Manual

section Pivot
variable {α : Type} [Scalar α]

def StageSettings.stage (s : StageSettings α) : Stage α :=
  { control := s.control, rotateAxis := s.rotateAxis, offset := s.offset }

theorem StageOptions.length_stagesFrom {o : StageOptions α} {n i : Nat}
    {stages : List (StageSettings α)} (h : o.stagesFrom n i = .ok stages) : stages.length ≤ n := by
  induction n generalizing i stages with
  | zero =>
    cases h
    exact le_rfl
  | succ n ih =>
    obtain ⟨s,-,h⟩ := bind_eq_ok.1 h
    cases s with
    | none =>
      cases h
      exact Nat.zero_le _
    | some s =>
      obtain ⟨rest,hrest,h⟩ := bind_eq_ok.1 h
      cases h
      exact Nat.succ_le_succ (ih hrest)

theorem StageOptions.length_stages {o : StageOptions α} {stages : List (StageSettings α)}
    (h : o.stages = .ok stages) : stages.length ≤ Pivot.maxStages := by
  obtain ⟨read,hread,h⟩ := bind_eq_ok.1 h
  split at h
  · cases h
  · cases h
    exact length_stagesFrom hread

omit [Scalar α] in
theorem Pivot.foldlM_addStage {stages : List (StageSettings α)} (p : Pivot α)
    (h : p.stages.length + stages.length ≤ maxStages) :
    stages.foldlM (fun p s => p.addStage s.control s.rotateAxis s.offset) p =
      .ok { p with stages := p.stages ++ stages.map StageSettings.stage } := by
  induction stages generalizing p with
  | nil => simp [pure,Except.pure]
  | cons s stages ih =>
    rw [List.length_cons] at h
    have hadd : p.addStage s.control s.rotateAxis s.offset =
        .ok { p with stages := p.stages ++ [s.stage] } := if_neg (by omega)
    rw [List.foldlM_cons,hadd,ok_bind,ih _ (by simp; omega)]
    simp

theorem Pivot.ofResolution_eq_ok {resolution fullRotation : α} {q : Pivot α} :
    Pivot.ofResolution resolution fullRotation = .ok q ↔
      (Scalar.isFinite resolution = true ∧ 0 < resolution) ∧
        (Scalar.isFinite fullRotation = true ∧ 0 < fullRotation) ∧
        q = { invResolution := 1 / resolution
              axisToRadians := 2.0 * Scalar.pi / fullRotation } := by
  unfold Pivot.ofResolution
  dsimp only
  split
  · rename_i h
    have hr : ¬(Scalar.isFinite resolution = true ∧ 0 < resolution) := by
      simpa [Classical.or_iff_not_imp_left] using h
    simp only [hr,false_and,reduceCtorEq]
  · rename_i h
    have hr : Scalar.isFinite resolution = true ∧ 0 < resolution := by simpa using h
    split
    · rename_i h
      have hf : ¬(Scalar.isFinite fullRotation = true ∧ 0 < fullRotation) := by
        simpa [Classical.or_iff_not_imp_left] using h
      simp only [hf,false_and,and_false,reduceCtorEq]
    · rename_i h
      have hf : Scalar.isFinite fullRotation = true ∧ 0 < fullRotation := by simpa using h
      simp only [hr,hf,true_and,Except.ok.injEq,eq_comm]

theorem Pivot.ofSettings_eq {p : PivotSettings α} {stages : List (StageSettings α)}
    (h : p.options.stages = .ok stages) : Pivot.ofSettings p =
      (Pivot.ofResolution p.resolution p.fullRotation).map
        fun q => { q with stages := stages.map StageSettings.stage } := by
  unfold Pivot.ofSettings
  cases hq : Pivot.ofResolution p.resolution p.fullRotation with
  | error e => rfl
  | ok q =>
    obtain ⟨-,-,rfl⟩ := Pivot.ofResolution_eq_ok.1 hq
    have hlength := StageOptions.length_stages h
    rw [ok_bind,h,ok_bind,foldlM_addStage _ (by simpa using hlength)]
    rfl

theorem MachineSettings.Checked.exists_stages {m : MachineSettings α} {p : PivotSettings α}
    (h : m.Checked) (hp : p ∈ m.pivot) : ∃ stages, p.options.stages = .ok stages ∧
      ∀ s ∈ stages, ∃ i, m.checkControl s i = .ok () := by
  obtain ⟨-,hrest⟩ := Results.check_eq_ok.1 (h.pivot p hp)
  obtain ⟨-,hrest⟩ := Results.check_eq_ok.1 hrest
  obtain ⟨stages,hstages,hrest⟩ := bind_eq_ok.1 hrest
  refine ⟨stages,hstages,fun s hs => ?_⟩
  obtain ⟨i,hi,rfl⟩ := List.getElem_of_mem hs
  exact ⟨i,forM_eq_ok.1 hrest (stages[i],i) (List.mem_zipIdx_iff_getElem?.2 (by simp [hi]))⟩

theorem MachineSettings.Checked.exists_pivot_iff [LawfulScalar α] {m : MachineSettings α}
    (h : m.Checked) {p : PivotSettings α} (hp : p ∈ m.pivot) :
    (∃ q, Pivot.ofSettings p = .ok q) ↔
      Scalar.isFinite p.resolution = true ∧ Scalar.isFinite p.fullRotation = true := by
  obtain ⟨stages,hstages,-⟩ := h.exists_stages hp
  obtain ⟨hr,hrest⟩ := Results.check_eq_ok.1 (h.pivot p hp)
  have hf := (Results.check_eq_ok.1 hrest).1
  have hpos {option : String} {x : α} (hx : checkPositive option x = .ok ())
      (hfin : Scalar.isFinite x = true) : 0 < x :=
    LawfulScalar.lt_of_not_le (LawfulScalar.finite hfin) LawfulScalar.zero_le_zero
      (checkPositive_eq_ok.1 hx)
  rw [Pivot.ofSettings_eq hstages]
  constructor
  · rintro ⟨q,hq⟩
    obtain ⟨q,hq,-⟩ := map_eq_ok.1 hq
    obtain ⟨⟨hr,-⟩,⟨hf,-⟩,-⟩ := Pivot.ofResolution_eq_ok.1 hq
    exact ⟨hr,hf⟩
  · rintro ⟨hfr,hff⟩
    exact ⟨_,map_eq_ok.2 ⟨_,Pivot.ofResolution_eq_ok.2 ⟨⟨hfr,hpos hr hfr⟩,⟨hff,hpos hf hff⟩,rfl⟩,
      rfl⟩⟩

end Pivot

namespace MachineSettings

/-- The numbers of a machine can be used as they are: every motor steps by a positive distance, the
speeds of manual axes are in range, and the pivot is built. -/
structure Usable {α : Type} [Scalar α] (m : MachineSettings α) : Prop where
  motors : ∀ s ∈ m.motors, 0 < s.stepDistance
  velocity : ∀ e ∈ m.manual, 0 < e.2.velocity
  accel : ∀ e ∈ m.manual, 0 ≤ e.2.accel
  pivot : ∀ p ∈ m.pivot, ∃ q, Pivot.ofSettings p = .ok q

end MachineSettings

def StepperSettings.turnSteps {α : Type} [Scalar α] (s : StepperSettings α) : α :=
  (s.fullSteps.toNat : α) * (s.microsteps.divisor : α) * s.gearRatio

/-- A turn has a finite number of microsteps, and its travel, which is a number and may be infinite,
is so large that the share of one step does not vanish. -/
def StepperSettings.Geared (s : StepperSettings Float) : Prop :=
  ∃ (turn : EReal) (steps : ℝ), Measures s.rotationDistance turn ∧ Measures s.turnSteps steps ∧
    ((2 ^ (-1075 : ℤ) * steps : ℝ) : EReal) < turn

theorem Microsteps.divisor_bounds (m : Microsteps) : 1 ≤ m.divisor ∧ m.divisor ≤ 256 := by
  have h := m.isDivisor
  simp only [divisors,List.mem_cons,List.not_mem_nil,or_false] at h
  omega

section Float

theorem StepperSettings.turnSteps_not_le {s : StepperSettings Float} (h : s.check = .ok ()) :
    ¬s.turnSteps ≤ 0 := by
  obtain ⟨-,hfull,hgear⟩ := StepperSettings.check_eq_ok.1 h
  intro hle
  obtain ⟨v,o,hv,ho,hvo⟩ := measures_of_le hle
  obtain rfl := ho.unique measures_zero
  obtain ⟨w,hw⟩ := hv.of_mul_right
  have hwpos : 0 < w := not_le.1 fun hle => hgear ((hw.le_iff measures_zero).2 hle)
  obtain ⟨hlo,hhi⟩ := s.microsteps.divisor_bounds
  have hone : 1 ≤ s.fullSteps.toNat := Nat.one_le_iff_ne_zero.2 fun hz =>
    hfull (UInt16.toNat_inj.1 hz)
  have hword : s.fullSteps.toNat < 2 ^ 16 := s.fullSteps.toNat_lt
  have hprod : s.fullSteps.toNat * s.microsteps.divisor < 2 ^ 53 :=
    (Nat.mul_le_mul hword.le hhi).trans_lt (by norm_num)
  obtain ⟨c,hc,hcount⟩ := (measures_natCast (n := s.fullSteps.toNat) (by omega)).mul
    (measures_natCast (n := s.microsteps.divisor) (by omega))
  rw [← Nat.cast_mul] at hc
  rw [hc.eq_of_exact (exact_natCast hprod),clip_natCast hprod] at hcount
  have hge : (1 : ℝ) ≤ (s.fullSteps.toNat * s.microsteps.divisor : ℕ) := by
    exact_mod_cast Nat.mul_le_mul hone hlo
  -- the count of steps is exact and at least one, so the product is no less than the gear
  induction w with
  | bot => exact absurd hwpos (not_lt.2 bot_le)
  | top =>
    obtain rfl := hv.unique (hcount.mul_top (by linarith) hw)
    exact absurd hvo (not_le.2 (EReal.coe_lt_top 0))
  | coe g =>
    obtain ⟨d,hd,hsteps⟩ := hcount.mul hw
    obtain rfl := hv.unique hsteps
    have hg : 0 < g := EReal.coe_pos.1 hwpos
    have hgd : g ≤ d := hd.le_of_le hw.exact (le_mul_of_one_le_left hg.le hge)
    exact absurd hvo (not_le.2 (clip_pos.2 (hg.trans_le hgd)))

theorem StepperSettings.stepDistance_pos_iff {s : StepperSettings Float} (h : s.check = .ok ()) :
    0 < s.stepDistance ↔ s.Geared :=
  pos_div_iff (StepperSettings.check_eq_ok.1 h).1 (turnSteps_not_le h)

namespace MachineSettings

/-- What validation leaves open about the numbers of a machine: that the mechanics give a step
distance, that speeds can be compared, and that the numbers of the pivot are finite. -/
structure Measurable (m : MachineSettings Float) : Prop where
  motors : ∀ s ∈ m.motors, s.Geared
  velocity : ∀ e ∈ m.manual, Scalar.isNaN e.2.velocity = false
  accel : ∀ e ∈ m.manual, Scalar.isNaN e.2.accel = false
  pivot : ∀ p ∈ m.pivot,
    Scalar.isFinite p.resolution = true ∧ Scalar.isFinite p.fullRotation = true

variable {m : MachineSettings Float}

theorem Checked.usable_of_measurable (h : m.Checked) (hm : m.Measurable) : m.Usable where
  motors := fun s hs => (StepperSettings.stepDistance_pos_iff (h.motors s hs)).2 (hm.motors s hs)
  velocity := fun e he => LawfulScalar.lt_of_not_le (LawfulScalar.isNaN_eq_false.1 (hm.velocity e he))
    LawfulScalar.zero_le_zero (checkPositive_eq_ok.1 (h.velocity e he))
  accel := fun e he => LawfulScalar.le_of_not_lt (LawfulScalar.isNaN_eq_false.1 (hm.accel e he))
    LawfulScalar.zero_le_zero (checkNonNegative_eq_ok.1 (h.accel e he))
  pivot := fun p hp => (h.exists_pivot_iff hp).2 (hm.pivot p hp)

theorem Checked.measurable_of_usable (h : m.Checked) (hu : m.Usable) : m.Measurable where
  motors := fun s hs => (StepperSettings.stepDistance_pos_iff (h.motors s hs)).1 (hu.motors s hs)
  velocity := fun e he => LawfulScalar.isNaN_eq_false.2
    (LawfulScalar.le_right (LawfulScalar.le_of_lt (hu.velocity e he)))
  accel := fun e he => LawfulScalar.isNaN_eq_false.2 (LawfulScalar.le_right (hu.accel e he))
  pivot := fun p hp => (h.exists_pivot_iff hp).1 (hu.pivot p hp)

/-- Sound settings are usable exactly where validation leaves nothing open about their numbers; and
whatever they are, a manual axis is refused for the controller of its endstop alone. -/
theorem usable_iff (h : m.validate = .ok ()) : (m.Usable ↔ m.Measurable) ∧
    ∀ e ∈ m.manual, ∀ err, ManualAxis.ofSettings e.1 e.2 = .error err → err.IsMismatch := by
  have hc := checked_of_validate h
  refine ⟨⟨hc.measurable_of_usable,hc.usable_of_measurable⟩,fun e he err herr => ?_⟩
  obtain ⟨rail,hinged⟩ := ManualAxis.hinged_ofSettings e.1 (hc.velocity e he) (hc.accel e he)
  exact hinged.error herr

def ofTravel (rotationDistance : Float) : MachineSettings Float where
  pivot := some
    { PivotSettings.plain with
      options := ((PivotSettings.plain : PivotSettings Float).options.insert "control_0"
        (.text "manual_stepper a")).insert "rotate_axis_0" (.text "z") }
  manual := [(.clip "a",
    { stepper :=
        { name := .clip "a", stepPin := .clip "P0", dirPin := .clip "P1", rotationDistance
          gearRatio := 1 }
      velocity := 5
      accel := 0 })]

theorem usable_iff_ofTravel : (ofTravel 40).validate = .ok () ∧
    ((ofTravel 40).Usable ↔ (ofTravel 40).Measurable) ∧
      ∀ e ∈ (ofTravel 40).manual, ∀ err, ManualAxis.ofSettings e.1 e.2 = .error err →
        err.IsMismatch := by
  have hvalid : (ofTravel 40).validate = .ok () := by rfl
  exact ⟨hvalid,usable_iff hvalid⟩

/-- A travel that takes part in no comparison passes, and gives a step distance that is not
positive. -/
theorem undefined_travel_passes : (ofTravel (0 / 0)).validate = .ok () ∧ ¬(ofTravel (0 / 0)).Usable := by
  refine ⟨rfl,fun h => ?_⟩
  have hstep := h.motors _ (List.mem_append_right _ (List.mem_singleton_self _))
  revert hstep
  decide +kernel

end MachineSettings

end Float

end Gantry
