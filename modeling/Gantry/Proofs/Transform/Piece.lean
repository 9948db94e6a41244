import Mathlib
import Gantry.Proofs.Transform.Arc

set_option autoImplicit false

namespace Gantry

section Coordinates

theorem Vector3.between_one (v w : Vector3 ℝ) : v.between w 1 = w := by
  simp [between]

theorem heading_drop (u : List ℝ) {i : Nat} (hi : 3 ≤ i) : heading (u.drop 3) i = u.getD i 0 := by
  rw [heading,List.getElem?_drop,Nat.add_sub_cancel' hi,List.getD_eq_getElem?_getD]

def coordinate (v : Vector3 ℝ) (θ : Nat → ℝ) (n : Nat) : List ℝ :=
  v.x :: v.y :: v.z :: (List.range n).map fun i => θ (i + 3)

@[simp] theorem length_coordinate (v : Vector3 ℝ) (θ : Nat → ℝ) (n : Nat) :
    (coordinate v θ n).length = n + 3 := by simp [coordinate]

@[simp] theorem ofCoord_coordinate (v : Vector3 ℝ) (θ : Nat → ℝ) (n : Nat) :
    Vector3.ofCoord (coordinate v θ n) = v := rfl

theorem getD_coordinate (v : Vector3 ℝ) (θ : Nat → ℝ) {n i : Nat} (h : 3 ≤ i) (hi : i < n + 3) :
    (coordinate v θ n).getD i 0 = θ i := by
  obtain ⟨k,rfl⟩ := Nat.exists_eq_add_of_le' h
  have hk : k < n := by omega
  simp [coordinate,hk]

theorem walk_congr {f : ℝ} {θ η : Nat → ℝ} {l : List (Stage ℝ)} (v : Vector3 ℝ)
    (h : ∀ s ∈ l, ∀ i, s.slot = some i → θ i = η i) : walk f θ l v = walk f η l v := by
  induction l generalizing v with
  | nil => rfl
  | cons s l ih =>
    obtain ⟨hs,hl⟩ := List.forall_mem_cons.1 h
    rw [walk_cons,walk_cons,Stage.place_congr_slot hs,ih _ hl]

end Coordinates

namespace Pivot
variable {p : Pivot ℝ} {u v c d : List ℝ} {resolution fullRotation : ℝ} {n : Nat}
  {before after : List (Stage ℝ)} {s m : Stage ℝ} {e : Nat} {θ η : Nat → ℝ}

theorem exists_fits (p : Pivot ℝ) : ∃ n, p.Fits (n + 3) := by
  obtain ⟨n,hn⟩ : ∃ n, ∀ s ∈ p.stages, ∀ i, s.slot = some i → i < n := by
    induction p.stages with
    | nil => exact ⟨0,nofun⟩
    | cons s l ih =>
      obtain ⟨n,hn⟩ := ih
      refine ⟨max n (s.slot.getD 0 + 1),fun s' hs' i hi => ?_⟩
      rcases List.mem_cons.1 hs' with rfl | hs'
      · simp [hi]
      · exact (hn s' hs' i hi).trans_le (le_max_left _ _)
  exact ⟨n,Nat.le_add_left _ _,fun s hs i hi => (hn s hs i hi).trans_le (Nat.le_add_right _ _)⟩

theorem arm_eq (hp : p.Registered) (hl : p.stages = before ++ s :: after)
    (hθ : ∀ s' ∈ p.stages, ∀ i, s'.slot = some i → u.getD i 0 = θ i) :
    p.arm before s u = √(s.radius2 (walk p.axisToRadians θ before (.ofCoord u))) := by
  have hmem : ∀ s' ∈ before, s' ∈ p.stages := fun s' hs' => by simp [hl,hs']
  rw [arm,walk_congr _ fun s' hs' i hi =>
    (heading_drop u ((hp s' (hmem s' hs')).three_le hi)).trans (hθ s' (hmem s' hs') i hi)]

theorem getD_coords_of_last (hp : p.Registered) (h : p.coords u .forward = .ok (c,d))
    (hl : p.stages = before ++ m :: after) (hm : m.slot = some e)
    (hafter : ∀ s ∈ after, s.slot ≠ some e)
    (hθ : ∀ s' ∈ p.stages, ∀ i, s'.slot = some i → u.getD i 0 = θ i) :
    d.getD e 0 = m.radius2 (walk p.axisToRadians θ before (.ofCoord u)) := by
  have hmem : ∀ s' ∈ before, s' ∈ p.stages := fun s' hs' => by simp [hl,hs']
  rw [List.getD_eq_getElem?_getD,getElem?_coords hp h hl hm hafter,walk_congr _ fun s' hs' i hi =>
    (heading_drop u ((hp s' (hmem s' hs')).three_le hi)).trans (hθ s' (hmem s' hs') i hi)]
  rfl

theorem exists_arrived (hu : p.Fits u.length) : ∃ c d next, p.coords u .forward = .ok (c,d) ∧
    Transform.Operated (.over p (.terminal ⟨u,#[]⟩)) (.over (p.arrive u d) next) := by
  obtain ⟨pos,t₁,ht₁,hlen⟩ := Transform.Reaches.getPosition (t := .over p (.terminal ⟨u,#[]⟩))
    ⟨hu,trivial⟩ fun base hbase => by cases hbase; rfl
  have hop : Transform.Operated (.over p (.terminal ⟨u,#[]⟩)) t₁ := by
    have hread := Transform.Operated.read (t := .over p (.terminal ⟨u,#[]⟩)) .start
    rwa [ht₁] at hread
  have hlevel : t₁.Level u.length := hlen ▸ Transform.level_of_getPosition ht₁
  obtain ⟨t₂,hm,⟨_,hmoved⟩,-⟩ := @Transform.Level.made .real _ _ _ u hlevel le_rfl rfl 0
  have hop₂ := hop.move u 0
  obtain ⟨q,next,rfl,hq⟩ := hop.follows
  rw [show ((Transform.over q next).moveTo u 0) = _ from hm] at hop₂
  cases hmoved with
  | pivot straight relayed =>
    obtain ⟨image,-,himage⟩ := @Straight.final .real _ _ _ straight
    obtain rfl | ⟨_,_,rfl,-⟩ := hq <;> exact ⟨image,_,_,himage,hop₂⟩

theorem sweeps_of_arcBound {c' d' : List ℝ} {next : Transform ℝ}
    (hu : p.coords u .forward = .ok (c,d)) (hv : p.coords v .forward = .ok (c',d'))
    (hlen : v.length = u.length)
    (h : (Transform.over (p.arrive u d) next).ArcBound resolution fullRotation v) {w w' : List ℝ}
    (hw : [w,w'] <:+: u :: ((p.arrive u d).stops v d' ++ [v])) :
    p.Sweeps resolution fullRotation w w' := by
  have hfu : p.Fits u.length := coords_fits hu
  have hfv : p.Fits v.length := coords_fits hv
  obtain ⟨plan,hplan⟩ := (plan_isOk (p := p.arrive u d) hfu).2 hfv
  obtain ⟨image,images,himage,himages,htargets⟩ := plan_eq_ok.1 hplan
  have hr : (Transform.over (p.arrive u d) next).refresh v.length =
      (.ok (),.over (p.arrive u d) next) := by
    simp [Transform.refresh,arrive,hlen]
  have hpoints : List.Forall₂ (p.arrive u d).Sends
      ((p.arrive u d).stops v plan.radii2 ++ [v]) plan.targets :=
    htargets ▸ List.rel_append himages (.cons ⟨_,himage⟩ .nil)
  cases hv.symm.trans himage
  exact h _ next plan _ hr hplan hpoints w w' hw

def Last (p : Pivot ℝ) (e : Nat) (before : List (Stage ℝ)) (m : Stage ℝ) : Prop :=
  ∃ after, p.stages = before ++ m :: after ∧ m.slot = some e ∧ ∀ s ∈ after, s.slot ≠ some e

/-- The arc that a move between two coordinates is taken to sweep at a stage. -/
noncomputable def reckoned (p : Pivot ℝ) (θ η : Nat → ℝ) (x y : Vector3 ℝ) (e : Nat)
    (before : List (Stage ℝ)) (m : Stage ℝ) : ℝ :=
  |η e - θ e| * p.axisToRadians * √(max (m.radius2 (walk p.axisToRadians θ before x))
    (m.radius2 (walk p.axisToRadians η before y)))

theorem getD_coordinate_of_fits (hp : p.Registered) (hn : p.Fits (n + 3)) (x : Vector3 ℝ)
    (θ : Nat → ℝ) : ∀ s ∈ p.stages, ∀ i, s.slot = some i → (coordinate x θ n).getD i 0 = θ i :=
  fun s hs i hi => getD_coordinate x θ ((hp s hs).three_le hi) (hn.2 s hs i hi)

theorem sweepAt_coordinate {x y : Vector3 ℝ} {c' d' : List ℝ} (hp : p.Registered)
    (hn : p.Fits (n + 3)) (hu : p.coords (coordinate x θ n) .forward = .ok (c,d))
    (hv : p.coords (coordinate y η n) .forward = .ok (c',d')) (hm : p.Last e before m) :
    (p.arrive (coordinate x θ n) d).sweepAt (coordinate y η n) d' e =
      p.reckoned θ η x y e before m := by
  obtain ⟨after,hl,hm,hafter⟩ := hm
  have hmem : m ∈ p.stages := by simp [hl]
  have hx := getD_coordinate_of_fits hp hn x θ
  have hy := getD_coordinate_of_fits hp hn y η
  have hdx := getD_coords_of_last hp hu hl hm hafter hx
  have hdy := getD_coords_of_last hp hv hl hm hafter hy
  rw [ofCoord_coordinate] at hdx hdy
  simp only [sweepAt,arrive,reckoned]
  rw [hx m hmem e hm,hy m hmem e hm,hdx,hdy]

theorem exists_last (h : ∃ s ∈ p.stages, s.slot = some e) : ∃ before m, p.Last e before m := by
  obtain ⟨before,m,after,hl,hm,hafter⟩ := Stage.exists_last_of_slot h
  exact ⟨before,m,after,hl,hm,hafter⟩

theorem reckoned_eq_zero {x y : Vector3 ℝ} (h : η e = θ e) : p.reckoned θ η x y e before m = 0 := by
  rw [reckoned,h,sub_self,abs_zero,zero_mul,zero_mul]

structure CutInto (p : Pivot ℝ) (resolution : ℝ) (θ η : Nat → ℝ) (x y : Vector3 ℝ) (N : ℕ) :
    Prop where
  ne_zero : N ≠ 0
  le : ∀ e, (∃ s ∈ p.stages, s.slot = some e) → ∃ before m, p.Last e before m ∧
    p.reckoned θ η x y e before m ≤ N * resolution
  lt : N = 1 ∨ ∃ e before m, p.Last e before m ∧
    (N - 1) * resolution < p.reckoned θ η x y e before m

section Piece
variable {x y : Vector3 ℝ} {c' d' : List ℝ} {next : Transform ℝ} {N : ℕ}

theorem CutInto.length_stops (hcut : p.CutInto resolution θ η x y N)
    (hb : p.Built resolution fullRotation) (hn : p.Fits (n + 3))
    (hu : p.coords (coordinate x θ n) .forward = .ok (c,d))
    (hv : p.coords (coordinate y η n) .forward = .ok (c',d')) :
    ((p.arrive (coordinate x θ n) d).stops (coordinate y η n) d').length + 1 = N := by
  have hres := hb.resolution_pos
  have hql : p.Fits (coordinate x θ n).length := (length_coordinate x θ n).symm ▸ hn
  have hqv : p.Fits (coordinate y η n).length := (length_coordinate y η n).symm ▸ hn
  set q := p.arrive (coordinate x θ n) d
  have htravel : q.travel (coordinate y η n) d' ≤ N * resolution := by
    refine (travel_le_iff (p := q) hql hqv (by positivity)).2 fun s hs e he => ?_
    obtain ⟨before,m,hm,hle⟩ := hcut.le e ⟨s,hs,he⟩
    rwa [sweepAt_coordinate hb.registered hn hu hv hm]
  refine length_stops_eq hres hb.invResolution hcut.ne_zero htravel (hcut.lt.imp id ?_)
  rintro ⟨e,before,m,hm,hlt⟩
  obtain ⟨after,hl,hme,-⟩ := id hm
  rw [← sweepAt_coordinate hb.registered hn hu hv hm] at hlt
  exact hlt.trans_le (sweepAt_le_travel (p := q) hql hqv (show m ∈ p.stages by simp [hl]) hme)

theorem exists_first_stop (hp : p.Registered) (hn : p.Fits (n + 3))
    (hN : ((p.arrive (coordinate x θ n) d).stops (coordinate y η n) d').length + 1 = N) :
    ∃ w rest, (p.arrive (coordinate x θ n) d).stops (coordinate y η n) d' ++ [coordinate y η n] =
      w :: rest ∧ Vector3.ofCoord w = x.between y (1 / N) ∧
      ∀ s ∈ p.stages, ∀ i, s.slot = some i → w.getD i 0 = θ i + (η i - θ i) * (1 / N) := by
  have hql : p.Fits (coordinate x θ n).length := (length_coordinate x θ n).symm ▸ hn
  have hqv : p.Fits (coordinate y η n).length := (length_coordinate y η n).symm ▸ hn
  have hx := getD_coordinate_of_fits hp hn x θ
  have hy := getD_coordinate_of_fits hp hn y η
  set q := p.arrive (coordinate x θ n) d with hq
  obtain ⟨w,rest,hw⟩ := List.exists_cons_of_ne_nil
    (show q.stops (coordinate y η n) d' ++ [coordinate y η n] ≠ [] by simp)
  have hfirst : (q.lastPos :: (q.stops (coordinate y η n) d' ++ [coordinate y η n]))[1]? = some w := by
    rw [hw]; rfl
  refine ⟨w,rest,hw,?_,fun s hs i hi => ?_⟩
  · rw [ofCoord_of_stop hfirst hql.1 hqv.1,hN,Nat.cast_one]
    rfl
  · have hlast : q.lastPos.getD i 0 = θ i := hx s hs i hi
    rw [getD_of_stop hfirst (hql.2 s hs i hi) (hqv.2 s hs i hi),hN,Nat.cast_one,hy s hs i hi,hlast]

/-- What the bound says of the first piece of a move. -/
theorem CutInto.piece (hcut : p.CutInto resolution θ η x y N)
    (hb : p.Built resolution fullRotation) (hn : p.Fits (n + 3))
    (hu : p.coords (coordinate x θ n) .forward = .ok (c,d))
    (h : (Transform.over (p.arrive (coordinate x θ n) d) next).ArcBound resolution fullRotation
      (coordinate y η n))
    (hl : p.stages = before ++ s :: after) (he : s.slot = some e) :
    |η e - θ e| / N * p.axisToRadians *
      √(s.radius2 (walk p.axisToRadians (fun i => θ i + (η i - θ i) * (1 / N)) before
        (x.between y (1 / N)))) ≤ resolution := by
  have hs : s ∈ p.stages := by simp [hl]
  obtain ⟨c',d',hv⟩ := Fits.coords (p := p) (c := coordinate y η n) (by simpa using hn) .forward
  obtain ⟨w,rest,hw,hpoint,hwθ⟩ :=
    exists_first_stop hb.registered hn (hcut.length_stops hb hn hu hv)
  have hsweep := sweeps_of_arcBound hu hv (by simp) h ⟨[],rest,by rw [hw]; rfl⟩ before s after e hl he
  have harm := arm_eq hb.registered hl hwθ
  rw [hwθ s hs e he,getD_coordinate_of_fits hb.registered hn x θ s hs e he,add_sub_cancel_left,
    mul_one_div,abs_div,Nat.abs_cast,← hb.axisToRadians,harm,hpoint] at hsweep
  have hnn : 0 ≤ |η e - θ e| / N * p.axisToRadians :=
    mul_nonneg (by positivity) hb.axisToRadians_pos.le
  exact (mul_le_mul_of_nonneg_left (le_max_right _ _) hnn).trans hsweep

end Piece

end Pivot

end Gantry
