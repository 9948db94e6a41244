import Mathlib
import Gantry.Proofs.Topology.Coordinates

/-!
Coordinates and rail positions determine each other. The coordinate that a machine is set to is read
back from its rails. The other way round, three rails can be put at any positions; with a second
carriage there is one position too many, and both carriages read the same coordinate exactly where
some coordinate puts all four rails.
-/
set_option autoImplicit false

namespace Gantry

namespace Topology

noncomputable def railsAt (t : Topology) (c : ℝ × ℝ × ℝ) : ℝ × ℝ × ℝ :=
  match t with
  | .coreXY => (c.1 + c.2.1,c.1 - c.2.1,c.2.2)
  | .coreXZ => (c.1 + c.2.2,c.2.1,c.1 - c.2.2)
  | .hybridCoreXY => (c.1 - c.2.1,c.2.1,c.2.2)

noncomputable def coordinateAt (t : Topology) (r : ℝ × ℝ × ℝ) : ℝ × ℝ × ℝ :=
  match t with
  | .coreXY => (0.5 * (r.1 + r.2.1),0.5 * (r.1 - r.2.1),r.2.2)
  | .coreXZ => (0.5 * (r.1 + r.2.2),r.2.1,0.5 * (r.1 - r.2.2))
  | .hybridCoreXY => (r.1 + r.2.1,r.2.1,r.2.2)

theorem railsAt_coordinateAt (t : Topology) (r : ℝ × ℝ × ℝ) : t.railsAt (t.coordinateAt r) = r := by
  obtain ⟨a,b,c⟩ := r
  cases t <;> refine Prod.ext ?_ (Prod.ext ?_ ?_) <;> simp only [railsAt,coordinateAt] <;> ring

end Topology

namespace Kinematics
variable {k : Kinematics ℝ} {p : RailPositions ℝ} {a b c d : ℝ} {s : SecondCarriage ℝ}

def Covered (k : Kinematics ℝ) (p : RailPositions ℝ) : Prop :=
  ∀ r ∈ k.rails, ∃ pos, p.get? r.name = some pos

def Holds (k : Kinematics ℝ) (p : RailPositions ℝ) : Prop :=
  ∀ r ∈ k.rails, p.get? r.name = some r.commandedPos

theorem forall_mem_rails {P : Rail ℝ → Prop} :
    (∀ r ∈ k.rails, P r) ↔ P k.x ∧ P k.y ∧ P k.z ∧ ∀ s ∈ k.second, P s.rail := by
  cases h : k.second <;> simp [rails,h]

theorem Wired.railsAt (hw : k.Wired) (q : Nat → ℝ) :
    (k.x.allocator.combined q,k.y.allocator.combined q,k.z.allocator.combined q) =
      k.topology.railsAt (q 0,q 1,q 2) := by
  unfold Wired at hw
  cases ht : k.topology with
  | coreXY =>
    simp only [ht] at hw
    simp [hw,Topology.railsAt,Allocator.combined,Allocator.terms,Sign.factor,Axis.index,
      sub_eq_add_neg]
  | coreXZ =>
    simp only [ht] at hw
    simp [hw,Topology.railsAt,Allocator.combined,Allocator.terms,Sign.factor,Axis.index,
      sub_eq_add_neg]
  | hybridCoreXY =>
    simp only [ht] at hw
    simp [hw,Topology.railsAt,Allocator.combined,Allocator.terms,Sign.factor,Axis.index,
      sub_eq_add_neg]

theorem Wired.combined_second (hw : k.Wired) (ht : k.topology = .hybridCoreXY)
    (hs : k.second = some s) (q : Nat → ℝ) : s.rail.allocator.combined q = q 0 + q 1 := by
  unfold Wired at hw
  simp only [ht] at hw
  simp [hw.2.2.2 s hs,Allocator.combined,Allocator.terms,Sign.factor,Axis.index]

theorem Wired.setPosition (hw : k.Wired) {coord : List ℝ} (long : 3 ≤ coord.length) :
    (k.setPosition coord).2.Wired := by
  rw [k.setPosition_eq_mapRails long]
  exact hw.mapRails fun _ _ => rfl

theorem holds_setPosition {coord : List ℝ} (long : 3 ≤ coord.length) :
    (k.setPosition coord).2.Holds p ↔
      ∀ r ∈ k.rails, p.get? r.name = some (r.allocator.combined (coord.getD · 0)) := by
  rw [k.setPosition_eq_mapRails long]
  unfold Holds
  rw [rails_mapRails,List.forall_mem_map]

theorem railPosition_of_get? {r : Rail ℝ} (h : p.get? r.name = some a) :
    railPosition p r = .ok a := by
  simp only [railPosition,h]

section Positions
variable (hx : p.get? k.x.name = some a) (hy : p.get? k.y.name = some b)
  (hz : p.get? k.z.name = some c)
include hx hy hz

theorem calcPosition_of_first (hs : ∀ s ∈ k.second, s.active = .first) :
    k.calcPosition p = .ok (k.topology.coordinateAt (a,b,c)) := by
  unfold calcPosition
  simp only [railPosition_of_get? hx,railPosition_of_get? hy,railPosition_of_get? hz,
    Results.ok_bind]
  cases k.topology with
  | coreXY => rfl
  | coreXZ => rfl
  | hybridCoreXY =>
    cases h : k.second with
    | none => rfl
    | some s =>
      obtain ⟨r,active⟩ := s
      obtain rfl : active = .first := hs _ h
      rfl

theorem calcPosition_of_second (ht : k.topology = .hybridCoreXY) (hs : k.second = some s)
    (hactive : s.active = .second) (hr : p.get? s.rail.name = some d) :
    k.calcPosition p = .ok (d - b,b,c) := by
  obtain ⟨r,active⟩ := s
  obtain rfl : active = .second := hactive
  unfold calcPosition
  simp only [railPosition_of_get? hx,railPosition_of_get? hy,railPosition_of_get? hz,ht,hs,
    railPosition_of_get? hr,Results.ok_bind]
  rfl

theorem holds_coordinateAt (hw : k.Wired) (hs : k.second = none) {x y z : ℝ}
    (h : k.topology.coordinateAt (a,b,c) = (x,y,z)) : (k.setPosition [x,y,z]).2.Holds p := by
  have hrails := hw.railsAt ([x,y,z].getD · 0)
  rw [show k.topology.railsAt ([x,y,z].getD 0 0,[x,y,z].getD 1 0,[x,y,z].getD 2 0) = (a,b,c) from
    h ▸ k.topology.railsAt_coordinateAt (a,b,c),Prod.mk.injEq,Prod.mk.injEq] at hrails
  obtain ⟨ha,hb,hc⟩ := hrails
  refine (holds_setPosition le_rfl).2 (forall_mem_rails.2 ⟨?_,?_,?_,by simp [hs]⟩)
  · rw [hx,ha]
  · rw [hy,hb]
  · rw [hz,hc]

/-- Four rails are where some coordinate puts them if the two carriages are apart by twice the
position of the rail that they ride on. -/
theorem exists_holds_iff (hw : k.Wired) (ht : k.topology = .hybridCoreXY) (hs : k.second = some s)
    (hr : p.get? s.rail.name = some d) :
    (∃ coord : List ℝ, 3 ≤ coord.length ∧ (k.setPosition coord).2.Holds p) ↔ a + b = d - b := by
  have hput (coord : List ℝ) (long : 3 ≤ coord.length) : (k.setPosition coord).2.Holds p ↔
      (a,b,c) = (coord.getD 0 0 - coord.getD 1 0,coord.getD 1 0,coord.getD 2 0) ∧
        d = coord.getD 0 0 + coord.getD 1 0 := by
    have hrails := hw.railsAt (coord.getD · 0)
    simp only [ht,Topology.railsAt] at hrails
    rw [holds_setPosition long,forall_mem_rails,hx,hy,hz,← hrails]
    simp [hs,hr,hw.combined_second ht hs,and_assoc]
  constructor
  · rintro ⟨coord,long,hp⟩
    obtain ⟨habc,hd⟩ := (hput coord long).1 hp
    rw [Prod.mk.injEq,Prod.mk.injEq] at habc
    obtain ⟨ha,hb,-⟩ := habc
    linarith
  · intro hab
    refine ⟨[a + b,b,c],le_rfl,(hput _ le_rfl).2 ⟨?_,?_⟩⟩
    · simp
    · simp only [List.getD_cons_zero,List.getD_cons_succ]
      linarith

end Positions

theorem Built.topology_of_second (h : k.Built) (hs : k.second = some s) :
    k.topology = .hybridCoreXY := by
  cases h with
  | coreXY h =>
    obtain ⟨a,-,h⟩ := Results.bind_eq_ok.1 h
    obtain ⟨b,-,h⟩ := Results.bind_eq_ok.1 h
    obtain rfl := Results.pure_eq_ok.1 h
    cases hs
  | coreXZ h =>
    obtain ⟨b,-,h⟩ := Results.bind_eq_ok.1 h
    obtain ⟨a,-,h⟩ := Results.bind_eq_ok.1 h
    obtain rfl := Results.pure_eq_ok.1 h
    cases hs
  | @hybridCoreXY x y z second k h =>
    obtain ⟨-,h⟩ := Results.check_eq_ok.1 h
    obtain ⟨y,-,h⟩ := Results.bind_eq_ok.1 h
    cases second with
    | none =>
      obtain rfl := Results.pure_eq_ok.1 h
      rfl
    | some r =>
      obtain ⟨-,h⟩ := Results.check_eq_ok.1 h
      obtain ⟨y',-,h⟩ := Results.bind_eq_ok.1 h
      obtain rfl := Results.pure_eq_ok.1 h
      rfl

/-- Setting and reading positions are inverse to each other: a coordinate is read back, whichever
carriages are active when it is set and when it is read; three rails are put at any positions; and
four are where some coordinate puts them exactly if both carriages read the same coordinate. -/
theorem setPosition_inverse (built : k.Built) (named : (k.rails.map (·.name)).Nodup) :
    (∀ coord : List ℝ, 3 ≤ coord.length → ∀ carriage, ∃ k',
      (k.activate carriage).setPosition coord = (.ok (),k') ∧ ∀ carriage',
        (k'.activate carriage').calcPosition (k'.activate carriage').stepperPositions =
          .ok (coord.getD 0 0,coord.getD 1 0,coord.getD 2 0)) ∧
    (k.second = none → ∀ p, k.Covered p → ∃ x y z k', k.calcPosition p = .ok (x,y,z) ∧
      k.setPosition [x,y,z] = (.ok (),k') ∧ k'.Holds p) ∧
    (k.second ≠ none → ∀ p, k.Covered p →
      ((k.activate .first).calcPosition p = (k.activate .second).calcPosition p ↔
        ∃ coord k', 3 ≤ coord.length ∧ k.setPosition coord = (.ok (),k') ∧ k'.Holds p)) := by
  refine ⟨fun coord long carriage => ?_,fun hs p hp => ?_,fun hs p hp => ?_⟩
  · refine ⟨_,(k.activate carriage).setPosition_eq_mapRails long,fun carriage' => ?_⟩
    have hw : Wired _ := (built.wired.activate carriage).setPosition long
    rw [(k.activate carriage).setPosition_eq_mapRails long] at hw
    refine calcPosition_stepperPositions (p := (coord.getD · 0)) (hw.activate carriage') ?_
      fun r hr => ?_
    · simpa [List.map_map,Function.comp_def] using named
    · rw [rails_activate,rails_mapRails] at hr
      obtain ⟨r',-,rfl⟩ := List.mem_map.1 hr
      rfl
  · obtain ⟨⟨a,hx⟩,⟨b,hy⟩,⟨c,hz⟩,-⟩ := forall_mem_rails.1 hp
    obtain ⟨x,y,z,hxyz⟩ : ∃ x y z, k.topology.coordinateAt (a,b,c) = (x,y,z) := ⟨_,_,_,rfl⟩
    refine ⟨x,y,z,_,?_,k.setPosition_eq_mapRails le_rfl,?_⟩
    · rw [calcPosition_of_first hx hy hz (by simp [hs]),hxyz]
    · have h := holds_coordinateAt hx hy hz built.wired hs hxyz
      rwa [k.setPosition_eq_mapRails le_rfl] at h
  · obtain ⟨s,hs⟩ := Option.ne_none_iff_exists'.1 hs
    have ht := built.topology_of_second hs
    obtain ⟨⟨a,hx⟩,⟨b,hy⟩,⟨c,hz⟩,hr⟩ := forall_mem_rails.1 hp
    obtain ⟨d,hd⟩ := hr s hs
    have hfirst : (k.activate .first).calcPosition p = .ok (a + b,b,c) := by
      rw [calcPosition_of_first (k := k.activate .first) hx hy hz (by simp [activate])]
      simp only [activate,ht,Topology.coordinateAt]
    have hsecond : (k.activate .second).calcPosition p = .ok (d - b,b,c) :=
      calcPosition_of_second (k := k.activate .second) (s := { s with active := .second }) hx hy hz
        ht (by simp [activate,hs]) rfl hd
    have hexists := exists_holds_iff hx hy hz built.wired ht hs hd
    -- the two readings agree in y and z, so x alone is left to compare
    rw [hfirst,hsecond,Except.ok.injEq,Prod.mk.injEq,and_iff_left rfl,← hexists]
    refine exists_congr fun coord => ?_
    constructor
    · rintro ⟨long,hold⟩
      exact ⟨_,long,Prod.ext (by rw [k.setPosition_eq_mapRails long]) rfl,hold⟩
    · rintro ⟨k',long,hk,hold⟩
      exact ⟨long,by rwa [hk]⟩

noncomputable def oneMotor (name : String) : Rail ℝ :=
  { Rail.ofName name with steppers := [.ofName name "mcu" 1] }

/-- With two carriages, a coordinate set for the second one is read back for the first. -/
theorem setPosition_inverse_twoCarriages : ∃ k k' : Kinematics ℝ,
    hybridCoreXY (oneMotor "x") (oneMotor "y") (oneMotor "z") (some (oneMotor "u")) = .ok k ∧
    (k.rails.map (·.name)).Nodup ∧ (k.activate .second).setPosition [1,2,3] = (.ok (),k') ∧
    (k'.activate .first).calcPosition (k'.activate .first).stepperPositions = .ok (1,2,3) := by
  obtain ⟨k,hk,hr⟩ : ∃ k : Kinematics ℝ,
      hybridCoreXY (oneMotor "x") (oneMotor "y") (oneMotor "z") (some (oneMotor "u")) = .ok k ∧
      k.rails.map (·.name) = [.clip "x",.clip "y",.clip "z",.clip "u"] := ⟨_,rfl,rfl⟩
  have hn : (k.rails.map (·.name)).Nodup := by
    rw [hr]
    decide
  obtain ⟨k',hk',hread⟩ :=
    (setPosition_inverse (.hybridCoreXY hk) hn).1 [1,2,3] (by simp) .second
  exact ⟨k,k',hk,hn,hk',hread .first⟩

end Kinematics

end Gantry
