import Mathlib
import Gantry.Proofs.Transform.Rotation

set_option autoImplicit false

namespace Gantry

def Pass.opposite : Pass → Pass
  | .forward => .reverse
  | .reverse => .forward

noncomputable def space (u : List ℝ) : EuclideanSpace ℝ (Fin 3) :=
  !₂[u.getD 0 0,u.getD 1 0,u.getD 2 0]

theorem dist_space (v w : Vector3 ℝ) (k l : List ℝ) :
    dist (space (v.x :: v.y :: v.z :: k)) (space (w.x :: w.y :: w.z :: l)) = √(v.gap2 w) := by
  simp [space,EuclideanSpace.dist_eq,Fin.sum_univ_three,Real.dist_eq,Vector3.gap2]

namespace Pivot

theorem along_opposite {α : Type} (p : Pivot α) (pass : Pass) :
    p.along pass.opposite = (p.along pass).reverse := by
  cases pass <;> simp [along,Pass.opposite]

variable [Trigonometry] {p : Pivot ℝ} {pass : Pass} {u v u' v' d e : List ℝ}

theorem factor_opposite (p : Pivot ℝ) (pass : Pass) :
    p.factor pass.opposite = -p.factor pass := by
  cases pass with
  | forward => rfl
  | reverse => exact (neg_neg p.axisToRadians).symm

theorem coords_unmoved (hp : p.Registered) (h : p.coords u pass = .ok (v,d)) :
    v.length = u.length ∧ ∀ i, 3 ≤ i → v[i]? = u[i]? := by
  refine ⟨length_coords h,fun i hi => ?_⟩
  obtain ⟨x,y,z,rest,q,rfl,rfl,-⟩ := coords_eq hp h
  obtain ⟨k,rfl⟩ := Nat.exists_eq_add_of_le' hi
  rfl

theorem coords_undone (hp : p.Registered) (h : p.coords u pass = .ok (v,d)) :
    ∃ e, p.coords v pass.opposite = .ok (u,e) := by
  have hfit : p.Fits v.length := length_coords h ▸ coords_fits h
  obtain ⟨w,e,hw⟩ := hfit.coords pass.opposite
  obtain ⟨x,y,z,rest,q,rfl,rfl,hq⟩ := coords_eq hp h
  obtain ⟨x',y',z',rest',r,hv,rfl,hr⟩ := coords_eq hp hw
  simp only [List.cons.injEq] at hv
  obtain ⟨rfl,rfl,rfl,rfl⟩ := hv
  rw [factor_opposite,along_opposite,hq,walk_neg_walk] at hr
  rw [hr] at hw
  exact ⟨e,hw⟩

theorem dist_coords (hp : p.Registered) (huv : ∀ i, 3 ≤ i → u[i]? = v[i]?)
    (hu : p.coords u pass = .ok (u',d)) (hv : p.coords v pass = .ok (v',e)) :
    dist (space u') (space v') = dist (space u) (space v) := by
  obtain ⟨x,y,z,rest,q,rfl,rfl,hq⟩ := coords_eq hp hu
  obtain ⟨x',y',z',rest',q',rfl,rfl,hq'⟩ := coords_eq hp hv
  have hrest : rest = rest' := List.ext_getElem? fun i => huv (i + 3) (Nat.le_add_left _ _)
  subst hrest
  rw [dist_space,hq,hq',gap2_walk,← dist_space ⟨x,y,z⟩ ⟨x',y',z'⟩ rest rest]

structure Rigid (p : Pivot ℝ) : Prop where
  succeeds : ∀ u pass, (∃ r, p.coords u pass = .ok r) ↔
    3 ≤ u.length ∧ ∀ s ∈ p.stages, ∀ i, s.slot = some i → i < u.length
  undone : ∀ u v d pass, p.coords u pass = .ok (v,d) → ∃ e, p.coords v pass.opposite = .ok (u,e)
  unmoved : ∀ u v d pass, p.coords u pass = .ok (v,d) →
    v.length = u.length ∧ ∀ i, 3 ≤ i → v[i]? = u[i]?
  isometric : ∀ u v u' v' d e pass, (∀ i, 3 ≤ i → u[i]? = v[i]?) →
    p.coords u pass = .ok (u',d) → p.coords v pass = .ok (v',e) →
    dist (space u') (space v') = dist (space u) (space v)

theorem rigid_of_registered (hp : p.Registered) : p.Rigid where
  succeeds _ pass := coords_isOk pass
  undone _ _ _ _ := coords_undone hp
  unmoved _ _ _ _ := coords_unmoved hp
  isometric _ _ _ _ _ _ _ := dist_coords hp

def threeStages : Pivot ℝ where
  stages := [⟨"c",.x,⟨0,4,2⟩,some 4⟩,⟨"c",.z,⟨1,-3,0⟩,some 4⟩,⟨"b",.y,⟨1,1,1⟩,none⟩]
  invResolution := 1
  axisToRadians := 2

omit [Trigonometry] in
theorem registered_threeStages : threeStages.Registered := by
  intro s hs i hi
  refine ⟨⟨["c"]⟩,?_⟩
  simp only [threeStages,List.mem_cons,List.not_mem_nil,or_false] at hs
  rcases hs with rfl | rfl | rfl
  · exact hi
  · exact hi
  · cases hi

omit [Trigonometry] in
theorem rigid_threeStages : threeStages.Registered ∧
    ∃ v d, @coords ℝ (@circularScalar .real) threeStages [12,-4,7,0,33] .forward = .ok (v,d) ∧
      ∃ e, @coords ℝ (@circularScalar .real) threeStages v .reverse = .ok ([12,-4,7,0,33],e) := by
  have h := @rigid_of_registered .real threeStages registered_threeStages
  refine ⟨registered_threeStages,?_⟩
  obtain ⟨⟨v,d⟩,hv⟩ := (@Rigid.succeeds .real _ h [12,-4,7,0,33] .forward).2 ⟨by decide,by
    intro s hs i hi
    simp only [threeStages,List.mem_cons,List.not_mem_nil,or_false] at hs
    rcases hs with rfl | rfl | rfl <;> cases hi <;> decide⟩
  exact ⟨v,d,hv,@Rigid.undone .real _ h _ _ _ .forward hv⟩

end Pivot

end Gantry
