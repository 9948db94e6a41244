import Mathlib
import Gantry.Proofs.Manual.Refusals
import Gantry.Proofs.Transform.Slots

set_option autoImplicit false

namespace Gantry

structure Notes where
  registry : ExtraAxes
  generators : List Nat

/-- What a toolhead notes of an axis: its name and its rail once each while it is registered, and
neither of them otherwise. -/
structure Notes.Mirror (n : Notes) (name : String) (owner : Nat) (registered : Bool) : Prop where
  names : n.registry.names.count name = registered.toNat
  generators : n.generators.count owner = registered.toNat

namespace Notes.Mirror
variable {α : Type} {n : Notes} {name other : String} {owner o slot : Nat} {registered : Bool}
  {registry : ExtraAxes}

theorem mem_names_iff (h : n.Mirror name owner registered) :
    name ∈ n.registry.names ↔ registered := by
  rw [← List.count_pos_iff,h.names]
  cases registered <;> simp

theorem mem_generators_iff (h : n.Mirror name owner registered) :
    owner ∈ n.generators ↔ registered := by
  rw [← List.count_pos_iff,h.generators]
  cases registered <;> simp

theorem register_other (h : n.Mirror name owner registered) (hne : other ≠ name)
    (hr : n.registry.register (α := α) other = .ok (slot,registry)) :
    Mirror { n with registry } name owner registered := by
  refine ⟨?_,h.generators⟩
  rw [(ExtraAxes.register_eq_ok hr).2,List.count_append,List.count_singleton,h.names]
  simp [hne]

theorem remove_other (h : n.Mirror name owner registered) (hne : other ≠ name) :
    Mirror { n with registry := (n.registry.remove other).2 } name owner registered := by
  refine ⟨?_,h.generators⟩
  rw [ExtraAxes.names_remove,List.count_erase_of_ne hne.symm,h.names]

theorem generate_other (h : n.Mirror name owner registered) (hne : o ≠ owner) :
    Mirror { n with generators := n.generators ++ [o] } name owner registered := by
  refine ⟨h.names,?_⟩
  rw [List.count_append,List.count_singleton,h.generators]
  simp [hne]

theorem release_other {n' : Notes} (h : n.Mirror name owner registered) (hne : o ≠ owner)
    (hn : n' = { n with generators := n.generators.erase o } ∨
      n' = { n with generators := n.generators.filter (· ≠ o) }) :
    n'.Mirror name owner registered := by
  rcases hn with rfl | rfl <;> refine ⟨h.names,?_⟩
  · rw [List.count_erase_of_ne hne.symm,h.generators]
  · rw [List.count_filter (by simpa using hne.symm),h.generators]

theorem register (h : n.Mirror name owner false)
    (hr : n.registry.register (α := α) name = .ok (slot,registry)) :
    Mirror ⟨registry,n.generators ++ [owner]⟩ name owner true := by
  constructor
  · rw [(ExtraAxes.register_eq_ok hr).2,List.count_append,h.names]
    simp
  · rw [List.count_append,h.generators]
    simp

theorem release {n' : Notes} (h : n.Mirror name owner true)
    (hr : n'.registry = (n.registry.remove name).2)
    (hg : n'.generators = n.generators.erase owner ∨
      n'.generators = n.generators.filter (· ≠ owner)) : n'.Mirror name owner false := by
  constructor
  · rw [hr,ExtraAxes.names_remove,List.count_erase_self,h.names]
    rfl
  · rcases hg with hg | hg
    · rw [hg,List.count_erase_self,h.generators]
      rfl
    · rw [hg]
      exact List.count_eq_zero.2 (by simp)

end Notes.Mirror

variable {α : Type} [Scalar α] {σ : Type} [AxisHost σ α] [StepperEnable σ α]

/-- A toolhead with notes. An axis is added as the registry of names takes it, or nothing happens;
the clock and the motors leave the notes alone. -/
structure Roster (σ : Type) {α : Type} [AxisHost σ α] [StepperEnable σ α] where
  notes : σ → Notes
  add_ok : ∀ (axis : ExtraAxis) (pos : α) (s s' : σ),
    AxisHost.addExtraAxis axis pos s = (.ok (),s') →
    ∃ slot registry, (notes s).registry.register (α := α) axis.name = .ok (slot,registry) ∧
      notes s' = { notes s with registry }
  add_error : ∀ (axis : ExtraAxis) (pos : α) (s s' : σ) (e : Error α),
    AxisHost.addExtraAxis axis pos s = (.error e,s') → s' = s
  remove_ok : ∀ (name : String) (s s' : σ), AxisHost.removeExtraAxis name s = (.ok (),s') →
    notes s' = { notes s with registry := ((notes s).registry.remove name).2 }
  remove_error : ∀ (name : String) (s s' : σ) (e : Error α),
    AxisHost.removeExtraAxis name s = (.error e,s') → notes s' = notes s
  register : ∀ (owner : Nat) (s : σ), notes (AxisHost.registerGenerator owner s) =
    { notes s with generators := (notes s).generators ++ [owner] }
  unregister : ∀ (owner : Nat) (s : σ),
    notes (AxisHost.unregisterGenerator owner s) =
        { notes s with generators := (notes s).generators.erase owner } ∨
      notes (AxisHost.unregisterGenerator owner s) =
        { notes s with generators := (notes s).generators.filter (· ≠ owner) }
  read : ∀ s : σ, notes (MotionClock.lastMoveTime s).2 = notes s
  dwell : ∀ (d : α) (s : σ), notes (MotionClock.dwell d s) = notes s
  activity : ∀ (t : α) (s : σ), notes (MotionClock.noteActivity t s) = notes s
  enable : ∀ (name : Name) (on : Bool) (t : α) (s : σ),
    notes (StepperEnable.setEnabled name on t s) = notes s

def Toolhead.roster : Roster (Toolhead α) where
  notes t := ⟨t.registry,t.generators⟩
  add_ok axis pos t t' h := by
    change t.addExtraAxis axis pos = _ at h
    unfold Toolhead.addExtraAxis at h
    split at h
    · cases h
    · rename_i slot registry hreg
      cases h
      exact ⟨slot,registry,hreg,rfl⟩
  add_error axis pos t t' e h := by
    change t.addExtraAxis axis pos = _ at h
    unfold Toolhead.addExtraAxis at h
    split at h <;> cases h
    rfl
  remove_ok name t t' h := by
    obtain rfl : t.removeExtraAxis name = t' := congrArg Prod.snd h
    unfold Toolhead.removeExtraAxis
    split
    · rename_i slot registry hr
      rw [hr]
    · rename_i registry hr
      rw [ExtraAxes.remove_of_absent (by rw [← ExtraAxes.remove_fst,hr])]
  remove_error name t t' e h := by cases h
  register owner t := rfl
  unregister owner t := Or.inr rfl
  read t := rfl
  dwell d t := rfl
  activity u t := rfl
  enable name on u t := rfl

namespace ManualAxis
variable {ros : Roster σ} {a b : ManualAxis α} {s s' : σ} {r : ManualAxis α × σ}

structure Keeps (ros : Roster σ) (a : ManualAxis α) (s : σ) (r : ManualAxis α × σ) : Prop where
  name : r.1.name = a.name
  objectName : r.1.objectName = a.objectName
  letter : r.1.letter = a.letter
  notes : ros.notes r.2 = ros.notes s

omit [Scalar α] in
theorem Keeps.refl (ros : Roster σ) (a : ManualAxis α) (s : σ) : a.Keeps ros s (a,s) :=
  ⟨rfl,rfl,rfl,rfl⟩

omit [Scalar α] in
theorem Keeps.trans (h : a.Keeps ros s (b,s')) (hr : b.Keeps ros s' r) : a.Keeps ros s r :=
  ⟨hr.name.trans h.name,hr.objectName.trans h.objectName,hr.letter.trans h.letter,
    hr.notes.trans h.notes⟩

theorem keeps_sync (ros : Roster σ) (a : ManualAxis α) (s : σ) : a.Keeps ros s (a.sync s) := by
  have hread := ros.read s
  unfold sync
  split
  rename_i t s' ht
  rw [ht] at hread
  split
  · exact ⟨rfl,rfl,rfl,(ros.dwell _ s').trans hread⟩
  · exact ⟨rfl,rfl,rfl,hread⟩

theorem Keeps.synchronize (h : a.Keeps ros s (b,s')) (synchronize : Bool) :
    a.Keeps ros s (if synchronize then b.sync s' else (b,s')) := by
  cases synchronize with
  | true => exact h.trans (keeps_sync ros b s')
  | false => exact h

theorem drive_spec (ros : Roster σ) (a : ManualAxis α) (s : σ) (target speed accel : α)
    (synchronize : Bool) : a.Keeps ros s (a.drive s target speed accel synchronize).2 ∧
      ¬Refused (a.drive s target speed accel synchronize).1 := by
  have hsync := keeps_sync ros a s
  unfold drive
  generalize a.sync s = x at *
  obtain ⟨b,s₁⟩ := x
  dsimp only
  split
  · exact ⟨hsync,nofun⟩
  · split
    · rename_i e he
      obtain ⟨m,rfl⟩ := ((b.rail.ofMotion_generateSteps _ _).map _) e he
      exact ⟨⟨hsync.name,hsync.objectName,hsync.letter,hsync.notes⟩,nofun⟩
    · rename_i c hc
      obtain ⟨rail,-,rfl⟩ := Results.map_eq_ok.1 hc
      refine ⟨Keeps.synchronize ?_ synchronize,nofun⟩
      exact ⟨hsync.name,hsync.objectName,hsync.letter,(ros.activity _ s₁).trans hsync.notes⟩

theorem answer_spec (ros : Roster σ) (a : ManualAxis α) (s : σ) (action : HomingAction α) :
    a.Keeps ros s (a.answer s action).2 ∧ ¬Refused (a.answer s action).1 := by
  cases action with
  | setPosition coord =>
    have hmotion := (ofMotion_firstOf coord).bind a.ofMotion_place
    simp only [answer]
    cases hp : firstOf coord >>= a.place with
    | ok b =>
      obtain ⟨pos,-,hp⟩ := Results.bind_eq_ok.1 hp
      obtain ⟨rail,-,rfl⟩ := Results.map_eq_ok.1 hp
      exact ⟨⟨rfl,rfl,rfl,rfl⟩,not_refused_ok _⟩
    | error e =>
      rw [hp] at hmotion
      exact ⟨.refl ros a s,(hmotion.map fun _ => HomingReply.done).not_refused⟩
  | flush => exact ⟨keeps_sync ros a s,not_refused_ok _⟩
  | lastMoveTime => exact ⟨keeps_sync ros a s,not_refused_ok _⟩
  | dwell d => exact ⟨⟨rfl,rfl,rfl,rfl⟩,not_refused_ok _⟩
  | dripMove coord speed =>
    have hmotion := ofMotion_firstOf coord
    simp only [answer]
    cases hf : firstOf coord with
    | error e =>
      rw [hf] at hmotion
      exact ⟨.refl ros a s,(hmotion.map fun _ => HomingReply.done).not_refused⟩
    | ok target =>
      obtain ⟨hkeeps,hdrive⟩ := drive_spec ros a s target speed a.homingAccel true
      exact ⟨hkeeps,fun h => hdrive (refused_map.1 h)⟩
  | position => exact ⟨.refl ros a s,not_refused_ok _⟩
  | steppers => exact ⟨.refl ros a s,not_refused_ok _⟩
  | calcPosition p =>
    exact ⟨.refl ros a s,((a.ofMotion_calcPosition p).map _).not_refused⟩
  | stepperPositions => exact ⟨.refl ros a s,not_refused_ok _⟩

/-- However a coordinator goes on, it is never told of a refused command. -/
theorem follow_spec (ros : Roster σ) (a : ManualAxis α) (s : σ) (plan : HomingPlan α) :
    a.Keeps ros s ((a.follow s plan).axis,(a.follow s plan).surroundings) ∧
      ∀ r ∈ (a.follow s plan).replies, ¬Refused r := by
  induction plan generalizing a s with
  | finish result => exact ⟨.refl ros a s,nofun⟩
  | ask action next ih =>
    obtain ⟨hkeeps,hanswer⟩ := answer_spec ros a s action
    obtain ⟨hrest,hreplies⟩ := ih _ _ _
    exact ⟨hkeeps.trans hrest,List.forall_mem_cons.2 ⟨hanswer,hreplies⟩⟩

theorem enable_spec (ros : Roster σ) (a : ManualAxis α) (s : σ) (on : Bool) :
    a.Keeps ros s (a.enable s on).2 ∧ (Refused (a.enable s on).1 → (a.enable s on).2 = (a,s)) := by
  unfold ManualAxis.enable
  split
  · exact ⟨.refl ros a s,fun _ => rfl⟩
  · refine ⟨?_,fun h => absurd h (not_refused_ok ())⟩
    have hsync := keeps_sync ros a s
    have hswitch (refs : List StepperRef) (t : α) (s : σ) :
        ros.notes (refs.foldl (fun s r => StepperEnable.setEnabled r.name on t s) s) =
          ros.notes s := by
      induction refs generalizing s with
      | nil => rfl
      | cons r refs ih => exact (ih _).trans (ros.enable r.name on t s)
    refine Keeps.trans ?_ (keeps_sync ros (a.sync s).1 _)
    exact ⟨hsync.name,hsync.objectName,hsync.letter,(hswitch _ _ _).trans hsync.notes⟩

theorem moveTo_spec (ros : Roster σ) (a : ManualAxis α) (s : σ) (target : α)
    (speed accel : Option α) (synchronize : Bool) :
    a.Keeps ros s (a.moveTo s target speed accel synchronize).2 ∧
      (Refused (a.moveTo s target speed accel synchronize).1 →
        (a.moveTo s target speed accel synchronize).2 = (a,s)) := by
  rcases a.moveTo_cases s target speed accel synchronize with ⟨hc,v,w,hs⟩ | ⟨e,he⟩
  · obtain ⟨hkeeps,hdrive⟩ := drive_spec ros a s target v w synchronize
    rw [moveTo_eq target synchronize hc hs]
    exact ⟨hkeeps,fun h => absurd h hdrive⟩
  · rw [he]
    exact ⟨.refl ros a s,fun _ => rfl⟩

theorem keeps_setPosition (ros : Roster σ) (s : σ) {pos : α} (h : a.setPosition pos = .ok b) :
    a.Keeps ros s (b,s) := by
  obtain ⟨-,h⟩ := Results.check_eq_ok.1 h
  obtain ⟨rail,-,rfl⟩ := Results.map_eq_ok.1 h
  exact ⟨rfl,rfl,rfl,rfl⟩

/-- A homing move that asks no coordinator changes nothing, and what a coordinator is told is never
a refused command. -/
theorem homingMove_spec (ros : Roster σ) (a : ManualAxis α) (s : σ)
    (coordinator : HomingRequest α → HomingPlan α) (target : α) (speed accel : Option α)
    (triggered checkTrigger : Bool) :
    let (request,o) := a.homingMove s coordinator target speed accel triggered checkTrigger
    a.Keeps ros s (o.axis,o.surroundings) ∧ (request = none → o.axis = a ∧ o.surroundings = s) ∧
      ∀ r ∈ o.replies, ¬Refused r := by
  unfold homingMove
  cases a.checkHoming speed accel with
  | error e => exact ⟨.refl ros a s,fun _ => ⟨rfl,rfl⟩,nofun⟩
  | ok v =>
    -- all checks are behind us: what is refused from here on is up to the coordinator
    obtain ⟨hkeeps,hreplies⟩ := follow_spec ros { a with homingAccel := v.2, state := .homing } s
      (coordinator ⟨a.rail.endstops,[target,0,0,0],v.1,triggered,checkTrigger⟩)
    exact ⟨⟨hkeeps.name,hkeeps.objectName,hkeeps.letter,hkeeps.notes⟩,nofun,hreplies⟩

omit [Scalar α] in
/-- A refused registration changes nothing. Only the toolhead can refuse to let an axis go. -/
theorem setGcodeAxis_refused (ros : Roster σ) {owner : Nat} {text : String}
    (h : Refused (a.setGcodeAxis owner s text).1) (hgo : ¬(a.letter.isSome ∧ text = "")) :
    (a.setGcodeAxis owner s text).2 = (a,s) := by
  unfold setGcodeAxis at h ⊢
  split_ifs at h ⊢ with hl ht ht
  · exact absurd ⟨hl,ht⟩ hgo
  · rfl
  · rfl
  · cases hletter : letter? text with
    | none => rfl
    | some letter =>
      simp only [hletter,registerAs] at h ⊢
      cases hadd : AxisHost.addExtraAxis ⟨a.objectName,letter,owner⟩ a.rail.commandedPos s with
      | mk r s' =>
        rw [hadd] at h
        cases r with
        | ok u => exact absurd h (not_refused_ok ())
        | error e => rw [ros.add_error _ _ s s' e hadd]

end ManualAxis

end Gantry
