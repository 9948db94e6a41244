import Mathlib
import Gantry.Proofs.Rail.Track
import Gantry.Topology.Kinematics

set_option autoImplicit false

namespace Gantry

namespace RailPositions
variable {α : Type}

theorem ofList_eq {entries : List (Name × α)} (hn : (entries.map Prod.fst).Nodup)
    (hl : entries.length ≤ capacity) : ofList entries = ⟨entries⟩ := by
  induction entries using List.reverseRecOn with
  | nil => rfl
  | append_singleton es e ih =>
    rw [List.map_append,List.nodup_append] at hn
    rw [List.length_append,List.length_singleton] at hl
    have hi := ih hn.1 (by omega)
    have hnew : (es.any fun x => x.1 = e.1) = false := by
      rw [List.any_eq_false]
      intro x hx he
      have hxe := of_decide_eq_true he
      exact hn.2.2 _ (List.mem_map_of_mem hx) e.1 (by simp) hxe
    unfold ofList at hi ⊢
    rw [List.foldl_append,hi]
    simp only [List.foldl_cons,List.foldl_nil,insert,hnew]
    simp [show es.length < capacity by omega]

theorem get?_ofList {entries : List (Name × α)} (hn : (entries.map Prod.fst).Nodup)
    (hl : entries.length ≤ capacity) {name : Name} {pos : α} (h : (name,pos) ∈ entries) :
    (ofList entries).get? name = some pos := by
  rw [ofList_eq hn hl]
  clear hl
  unfold get?
  induction entries with
  | nil => simp at h
  | cons e es ih =>
    rw [List.map_cons,List.nodup_cons] at hn
    by_cases he : e.1 = name
    · rcases List.mem_cons.1 h with rfl | h
      · simp
      · exact absurd (he ▸ List.mem_map_of_mem h) hn.1
    · rcases List.mem_cons.1 h with rfl | h
      · exact absurd rfl he
      · simpa [he] using ih hn.2 h

end RailPositions

theorem Rail.addSteppersToEndstops_eq {r r' : Rail ℝ} {refs : List StepperRef}
    (h : r.addSteppersToEndstops refs = .ok r') : ∃ endstops, r' = { r with endstops } := by
  obtain ⟨endstops,-,h⟩ := Results.bind_eq_ok.1 h
  exact ⟨endstops,(Results.pure_eq_ok.1 h).symm⟩

namespace Kinematics

def mapRails (k : Kinematics ℝ) (g : Rail ℝ → Rail ℝ) : Kinematics ℝ :=
  { k with
    x := g k.x
    y := g k.y
    z := g k.z
    second := k.second.map fun s => { s with rail := g s.rail } }

@[simp] theorem rails_mapRails (k : Kinematics ℝ) (g : Rail ℝ → Rail ℝ) :
    (k.mapRails g).rails = k.rails.map g := by
  cases h : k.second <;> simp [rails,mapRails,h]

@[simp] theorem rails_activate (k : Kinematics ℝ) (carriage : Carriage) :
    (k.activate carriage).rails = k.rails := by
  cases h : k.second <;> simp [rails,activate,h]

theorem updateRails_eq {k : Kinematics ℝ} {f : Rail ℝ → Except (Error ℝ) (Rail ℝ)}
    {g : Rail ℝ → Rail ℝ} (h : ∀ r ∈ k.rails, f r = .ok (g r)) :
    k.updateRails f = (.ok (),k.mapRails g) := by
  have hx := h k.x (by simp [rails])
  have hy := h k.y (by simp [rails])
  have hz := h k.z (by simp [rails])
  cases hs : k.second with
  | none => simp only [updateRails,hx,hy,hz,hs,mapRails,Option.map_none]
  | some s =>
    have hr := h s.rail (by simp [rails,hs])
    simp only [updateRails,hx,hy,hz,hs,hr,mapRails,Option.map_some]

theorem setPosition_eq_mapRails (k : Kinematics ℝ) {coord : List ℝ} (long : 3 ≤ coord.length) :
    k.setPosition coord = (.ok (),k.mapRails fun r => { r with
      steppers := r.steppers.map (·.setPosition (r.allocator.combined (coord.getD · 0)))
      commandedPos := r.allocator.combined (coord.getD · 0) }) := by
  refine updateRails_eq fun r _ => Rail.setPosition_eq fun i hi => ?_
  have hi : i < coord.length := lt_of_lt_of_le (Allocator.channels_lt_three hi) long
  simp [List.getElem?_eq_getElem hi]

def Wired (k : Kinematics ℝ) : Prop :=
  match k.topology with
  | .coreXY => k.x.allocator = .coreXY .plus ∧ k.y.allocator = .coreXY .minus ∧
      k.z.allocator = .cartesian .z
  | .coreXZ => k.x.allocator = .coreXZ .plus ∧ k.y.allocator = .cartesian .y ∧
      k.z.allocator = .coreXZ .minus
  | .hybridCoreXY => k.x.allocator = .coreXY .minus ∧ k.y.allocator = .cartesian .y ∧
      k.z.allocator = .cartesian .z ∧ ∀ s ∈ k.second, s.rail.allocator = .coreXY .plus

inductive Built : Kinematics ℝ → Prop where
  | coreXY {a b z : Rail ℝ} {k : Kinematics ℝ} : Kinematics.coreXY a b z = .ok k → Built k
  | coreXZ {a y b : Rail ℝ} {k : Kinematics ℝ} : Kinematics.coreXZ a y b = .ok k → Built k
  | hybridCoreXY {x y z : Rail ℝ} {second : Option (Rail ℝ)} {k : Kinematics ℝ} :
      Kinematics.hybridCoreXY x y z second = .ok k → Built k

theorem Built.wired {k : Kinematics ℝ} (h : k.Built) : k.Wired := by
  cases h with
  | coreXY h =>
    obtain ⟨a,-,h⟩ := Results.bind_eq_ok.1 h
    obtain ⟨b,-,h⟩ := Results.bind_eq_ok.1 h
    obtain rfl := Results.pure_eq_ok.1 h
    exact ⟨rfl,rfl,rfl⟩
  | coreXZ h =>
    obtain ⟨b,-,h⟩ := Results.bind_eq_ok.1 h
    obtain ⟨a,-,h⟩ := Results.bind_eq_ok.1 h
    obtain rfl := Results.pure_eq_ok.1 h
    exact ⟨rfl,rfl,rfl⟩
  | @hybridCoreXY x y z second k h =>
    obtain ⟨-,h⟩ := Results.check_eq_ok.1 h
    obtain ⟨y,-,h⟩ := Results.bind_eq_ok.1 h
    cases second with
    | none =>
      obtain rfl := Results.pure_eq_ok.1 h
      exact ⟨rfl,rfl,rfl,by simp⟩
    | some r =>
      obtain ⟨-,h⟩ := Results.check_eq_ok.1 h
      obtain ⟨y',hy,h⟩ := Results.bind_eq_ok.1 h
      obtain ⟨endstops,rfl⟩ := Rail.addSteppersToEndstops_eq hy
      obtain rfl := Results.pure_eq_ok.1 h
      exact ⟨rfl,rfl,rfl,by simp [Rail.withAllocator]⟩

theorem Wired.mapRails {k : Kinematics ℝ} {g : Rail ℝ → Rail ℝ} (h : k.Wired)
    (hg : ∀ r ∈ k.rails, (g r).allocator = r.allocator) : (k.mapRails g).Wired := by
  have hx := hg k.x (by simp [rails])
  have hy := hg k.y (by simp [rails])
  have hz := hg k.z (by simp [rails])
  unfold Wired at h ⊢
  simp only [Kinematics.mapRails,hx,hy,hz]
  cases ht : k.topology with
  | coreXY => simpa [ht] using h
  | coreXZ => simpa [ht] using h
  | hybridCoreXY =>
    simp only [ht] at h
    refine ⟨h.1,h.2.1,h.2.2.1,fun s hs => ?_⟩
    obtain ⟨r,hr,rfl⟩ := Option.mem_map.1 hs
    rw [hg r.rail (by simp [rails,Option.mem_def.1 hr])]
    exact h.2.2.2 r hr

theorem Wired.activate {k : Kinematics ℝ} (h : k.Wired) (carriage : Carriage) :
    (k.activate carriage).Wired := by
  unfold Wired at h ⊢
  cases ht : k.topology with
  | coreXY => simpa [ht,Kinematics.activate] using h
  | coreXZ => simpa [ht,Kinematics.activate] using h
  | hybridCoreXY =>
    simp only [ht] at h
    simp only [Kinematics.activate,ht]
    refine ⟨h.1,h.2.1,h.2.2.1,fun s hs => ?_⟩
    obtain ⟨r,hr,rfl⟩ := Option.mem_map.1 hs
    exact h.2.2.2 r hr

theorem length_rails_le (k : Kinematics ℝ) : k.rails.length ≤ RailPositions.capacity := by
  cases h : k.second <;> simp [rails,h,RailPositions.capacity]

theorem railPosition_stepperPositions {k : Kinematics ℝ}
    (hn : (k.rails.map (·.name)).Nodup) {r : Rail ℝ} (hr : r ∈ k.rails) :
    railPosition k.stepperPositions r = .ok r.commandedPos := by
  have hl := k.length_rails_le
  have hg : k.stepperPositions.get? r.name = some r.commandedPos := by
    refine RailPositions.get?_ofList ?_ (by simpa using hl) (List.mem_map.2 ⟨r,hr,rfl⟩)
    simpa [List.map_map,Function.comp_def] using hn
  simp only [railPosition,hg]

/-- The coordinate that all rails follow is the one that their positions stand for. -/
theorem calcPosition_stepperPositions {k : Kinematics ℝ} (hw : k.Wired)
    (hn : (k.rails.map (·.name)).Nodup) {p : Nat → ℝ}
    (hp : ∀ r ∈ k.rails, r.commandedPos = r.allocator.combined p) :
    k.calcPosition k.stepperPositions = .ok (p 0,p 1,p 2) := by
  have hx := railPosition_stepperPositions hn (r := k.x) (by simp [rails])
  have hy := railPosition_stepperPositions hn (r := k.y) (by simp [rails])
  have hz := railPosition_stepperPositions hn (r := k.z) (by simp [rails])
  rw [hp k.x (by simp [rails])] at hx
  rw [hp k.y (by simp [rails])] at hy
  rw [hp k.z (by simp [rails])] at hz
  unfold calcPosition
  simp only [hx,hy,hz,Results.ok_bind]
  unfold Wired at hw
  cases ht : k.topology with
  | coreXY =>
    simp only [ht] at hw
    simp only [hw.1,hw.2.1,hw.2.2]
    simp [Allocator.combined,Allocator.terms,Sign.factor,Axis.index,pure,Except.pure]
    ring_nf; simp
  | coreXZ =>
    simp only [ht] at hw
    simp only [hw.1,hw.2.1,hw.2.2]
    simp [Allocator.combined,Allocator.terms,Sign.factor,Axis.index,pure,Except.pure]
    ring_nf; simp
  | hybridCoreXY =>
    simp only [ht] at hw
    obtain ⟨ha,hb,hc,hd⟩ := hw
    simp only [ha,hb,hc]
    cases hs : k.second with
    | none => simp [Allocator.combined,Allocator.terms,Sign.factor,Axis.index,pure,Except.pure]
    | some carriage =>
      obtain ⟨r,active⟩ := carriage
      cases active with
      | first =>
        simp [Allocator.combined,Allocator.terms,Sign.factor,Axis.index,pure,Except.pure]
      | second =>
        have hr := railPosition_stepperPositions hn (r := r) (by simp [rails,hs])
        rw [hp r (by simp [rails,hs]),hd ⟨r,.second⟩ (by simp [hs])] at hr
        simp only [hr,Results.ok_bind]
        simp [Allocator.combined,Allocator.terms,Sign.factor,Axis.index,pure,Except.pure]

end Kinematics

end Gantry
