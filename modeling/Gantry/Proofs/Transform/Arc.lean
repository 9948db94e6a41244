import Mathlib
import Gantry.Proofs.Transform.Memory
import Gantry.Proofs.Transform.Straight

/-!
The arc that the stages of a pivot sweep in the pieces of a move. A move is cut by the distances from
the pivots at its ends, of which every slot keeps one. Where all stages turn around one line, no stage
changes the distance from it, and in between the ends it is never larger than at both of them: then
no piece sweeps more than the resolution.
-/
set_option autoImplicit false

namespace Gantry

/-- The line that a stage turns around: its direction, and where it meets the plane across. -/
def Stage.line {α : Type} (s : Stage α) : Axis × α × α := (s.rotateAxis,s.offset.plane s.rotateAxis)

def Pivot.Coaxial {α : Type} (p : Pivot α) : Prop :=
  ∀ s ∈ p.stages, ∀ s' ∈ p.stages, s.slot.isSome → s'.slot.isSome → s.line = s'.line

def Vector3.between (v w : Vector3 ℝ) (t : ℝ) : Vector3 ℝ :=
  ⟨v.x + (w.x - v.x) * t,v.y + (w.y - v.y) * t,v.z + (w.z - v.z) * t⟩

namespace Stage
variable {s s' : Stage ℝ}

theorem radius2_of_line {α : Type} [Scalar α] {s s' : Stage α} (h : s.line = s'.line)
    (v : Vector3 α) : s.radius2 v = s'.radius2 v := by
  obtain ⟨_,axis,o,_⟩ := s
  obtain ⟨_,axis',o',_⟩ := s'
  obtain ⟨rfl,h⟩ := Prod.mk.injEq .. ▸ h
  cases axis <;> simp_all [radius2,Vector3.radius2,Vector3.plane,Vector3.sub]

theorem radius2_between (s : Stage ℝ) (v w : Vector3 ℝ) {t : ℝ} (h0 : 0 ≤ t) (h1 : t ≤ 1) :
    s.radius2 (v.between w t) ≤ max (s.radius2 v) (s.radius2 w) := by
  have hmix : s.radius2 (v.between w t) ≤ (1 - t) * s.radius2 v + t * s.radius2 w := by
    have ht := mul_nonneg h0 (sub_nonneg.2 h1)
    obtain ⟨-,axis,o,-⟩ := s
    cases axis <;>
      simp only [radius2,Vector3.radius2,Vector3.plane,Vector3.sub,Vector3.between]
    · nlinarith [mul_nonneg ht (sq_nonneg (v.y - w.y)),mul_nonneg ht (sq_nonneg (v.z - w.z))]
    · nlinarith [mul_nonneg ht (sq_nonneg (v.x - w.x)),mul_nonneg ht (sq_nonneg (v.z - w.z))]
    · nlinarith [mul_nonneg ht (sq_nonneg (v.x - w.x)),mul_nonneg ht (sq_nonneg (v.y - w.y))]
  have hv := mul_le_mul_of_nonneg_left (le_max_left (s.radius2 v) (s.radius2 w)) (sub_nonneg.2 h1)
  have hw := mul_le_mul_of_nonneg_left (le_max_right (s.radius2 v) (s.radius2 w)) h0
  linarith

theorem rotate_zero (s : Stage ℝ) (v : Vector3 ℝ) : (s.rotate 0 v).1 = v := by
  obtain ⟨_,axis,o,_⟩ := s
  cases axis <;> simp [rotate,Vector3.rotate,Vector3.plane,Vector3.add,Vector3.sub,turn_real]

theorem place_of_zero {θ : Nat → ℝ} (h : ∀ i, s.slot = some i → θ i = 0) (f : ℝ) (v : Vector3 ℝ) :
    s.place f θ v = v := by
  cases hs : s.slot with
  | none => exact place_of_none hs f θ v
  | some i => rw [place_of_slot hs,h i hs,zero_mul,rotate_zero]

theorem walk_of_zero {θ : Nat → ℝ} {l : List (Stage ℝ)}
    (h : ∀ s ∈ l, ∀ i, s.slot = some i → θ i = 0) (f : ℝ) (v : Vector3 ℝ) : walk f θ l v = v := by
  induction l with
  | nil => rfl
  | cons s l ih =>
    obtain ⟨hs,hl⟩ := List.forall_mem_cons.1 h
    rw [walk_cons,place_of_zero hs,ih hl]

theorem radius2_walk {f : ℝ} {θ : Nat → ℝ} {l : List (Stage ℝ)} (v : Vector3 ℝ)
    (h : ∀ s' ∈ l, ∀ i, s'.slot = some i → s'.line = s.line ∨ θ i = 0) :
    s.radius2 (walk f θ l v) = s.radius2 v := by
  induction l generalizing v with
  | nil => rfl
  | cons s' l ih =>
    obtain ⟨hs',hl⟩ := List.forall_mem_cons.1 h
    rw [walk_cons,ih _ hl]
    by_cases hi : s'.line = s.line
    · rw [← radius2_of_line hi,← radius2_of_line hi,@radius2_place .real]
    · rw [place_of_zero fun i h => (hs' i h).resolve_left hi]

end Stage

namespace Pivot
variable {p q : Pivot ℝ} {target radii2 u v : List ℝ} {resolution fullRotation : ℝ}

/-- How far from its line a stage finds a coordinate, after the stages before it. -/
noncomputable def arm (p : Pivot ℝ) (before : List (Stage ℝ)) (s : Stage ℝ) (u : List ℝ) : ℝ :=
  √(s.radius2 (walk p.axisToRadians (heading (u.drop 3)) before (.ofCoord u)))

structure Built (p : Pivot ℝ) (resolution fullRotation : ℝ) : Prop where
  resolution_pos : 0 < resolution
  fullRotation_pos : 0 < fullRotation
  invResolution : p.invResolution = 1 / resolution
  axisToRadians : p.axisToRadians = 2 * Real.pi / fullRotation
  registered : p.Registered

def Sweeps (p : Pivot ℝ) (resolution fullRotation : ℝ) (u v : List ℝ) : Prop :=
  ∀ before s after e, p.stages = before ++ s :: after → s.slot = some e →
    |v.getD e 0 - u.getD e 0| * (2 * Real.pi / fullRotation) *
      max (p.arm before s u) (p.arm before s v) ≤ resolution

end Pivot

/-- In the next move to a target, no stage of the pivot in front sweeps more than the resolution
between two neighbours among the last position and the points whose images are sent on. -/
def Transform.ArcBound (resolution fullRotation : ℝ) (t : Transform ℝ) (target : List ℝ) : Prop :=
  ∀ q next plan points, t.refresh target.length = (.ok (),.over q next) →
    q.plan target = .ok plan → List.Forall₂ q.Sends points plan.targets →
    ∀ u v, [u,v] <:+: q.lastPos :: points → q.Sweeps resolution fullRotation u v

namespace Pivot
variable {p q : Pivot ℝ} {target radii2 u v w : List ℝ} {plan : Plan ℝ}
  {resolution fullRotation : ℝ} {s : Stage ℝ} {e i k : Nat}

theorem Built.invResolution_pos (h : p.Built resolution fullRotation) : 0 < p.invResolution := by
  rw [h.invResolution]
  exact one_div_pos.2 h.resolution_pos

theorem Built.axisToRadians_pos (h : p.Built resolution fullRotation) : 0 < p.axisToRadians := by
  rw [h.axisToRadians]
  exact div_pos Real.two_pi_pos h.fullRotation_pos

theorem Built.resolution_eq (h : p.Built resolution fullRotation) :
    p.resolution = resolution := by
  rw [Pivot.resolution,h.invResolution,one_div_one_div]

theorem sends_unique {u' : List ℝ} (hp : p.Registered) (h : p.Sends u v) (h' : p.Sends u' v) :
    u = u' := by
  obtain ⟨d,h⟩ := h
  obtain ⟨d',h'⟩ := h'
  obtain ⟨e,he⟩ := @coords_undone .real _ _ _ _ _ hp h
  obtain ⟨e',he'⟩ := @coords_undone .real _ _ _ _ _ hp h'
  cases he.symm.trans he'
  rfl

theorem eq_of_sends {points : List (List ℝ)} (hp : p.Registered) (h : p.plan target = .ok plan)
    (hs : List.Forall₂ p.Sends points plan.targets) :
    points = p.stops target plan.radii2 ++ [target] := by
  obtain ⟨image,images,himage,himages,htargets⟩ := plan_eq_ok.1 h
  have hs' : List.Forall₂ p.Sends (p.stops target plan.radii2 ++ [target]) plan.targets :=
    htargets ▸ List.rel_append himages (.cons ⟨_,himage⟩ .nil)
  have hu : Relator.LeftUnique p.Sends := fun _ _ _ => sends_unique hp
  exact List.left_unique_forall₂' hu hs hs'

theorem length_stops : (p.stops target radii2).length + 1 =
    max 1 ⌈p.travel target radii2 * p.invResolution⌉₊ := by
  rw [stops,@cuts_exact .real,List.length_map,List.length_range,Scalar.ceil_exact]
  omega

/-- A move whose longest arc is at most `N` times the resolution, and more than one time less, is cut
into `N` pieces. -/
theorem length_stops_eq {N : ℕ} (hres : 0 < resolution) (hinv : p.invResolution = 1 / resolution)
    (hN : N ≠ 0) (hle : p.travel target radii2 ≤ N * resolution)
    (hlt : N = 1 ∨ (N - 1) * resolution < p.travel target radii2) :
    (p.stops target radii2).length + 1 = N := by
  rw [length_stops,hinv,mul_one_div]
  have hhigh : ⌈p.travel target radii2 / resolution⌉₊ ≤ N :=
    Nat.ceil_le.2 ((div_le_iff₀ hres).2 hle)
  obtain rfl | hlt := hlt
  · omega
  · have hceil := Nat.le_ceil (p.travel target radii2 / resolution)
    rw [div_le_iff₀ hres] at hceil
    have hlow : (N : ℝ) < ⌈p.travel target radii2 / resolution⌉₊ + 1 := by
      linarith [lt_of_mul_lt_mul_right (hlt.trans_le hceil) hres.le]
    have hlow' : N < ⌈p.travel target radii2 / resolution⌉₊ + 1 := by exact_mod_cast hlow
    omega

theorem getD_of_stop (h : (p.lastPos :: (p.stops target radii2 ++ [target]))[k]? = some w)
    (hi : i < p.lastPos.length) (hi' : i < target.length) :
    w.getD i 0 = p.lastPos.getD i 0 + (target.getD i 0 - p.lastPos.getD i 0) *
      (k / ((p.stops target radii2).length + 1 : ℕ)) := by
  cases k with
  | zero => cases h; simp
  | succ k =>
    rw [List.getElem?_cons_succ] at h
    by_cases hk : k < (p.stops target radii2).length
    · rw [List.getElem?_append_left hk,List.getElem?_eq_getElem hk] at h
      have hn : (p.stops target radii2).length + 1 = _ := length_stops
      have hc : (p.stops target radii2).length + 1 =
        ⌈p.travel target radii2 * p.invResolution⌉₊ := by omega
      rw [hc]
      cases h
      simp only [stops,@cuts_exact .real,Scalar.ceil_exact,List.getElem_map,List.getElem_range]
      rw [step,List.getD_eq_getElem _ _ (by simp [hi,hi']),List.getElem_zipWith,
        List.getD_eq_getElem _ _ hi,List.getD_eq_getElem _ _ hi',mul_div_assoc]
    · have hlen : k = (p.stops target radii2).length := by
        have := (List.getElem?_eq_some_iff.1 h).1
        simp at this
        omega
      subst hlen
      rw [List.getElem?_concat_length] at h
      cases h
      have hn : (((p.stops target radii2).length + 1 : ℕ) : ℝ) ≠ 0 := by positivity
      rw [div_self hn]
      ring

noncomputable def sweepAt (p : Pivot ℝ) (target radii2 : List ℝ) (e : Nat) : ℝ :=
  |target.getD e 0 - p.lastPos.getD e 0| * p.axisToRadians *
    √(max (p.lastRadii2.getD e 0) (radii2.getD e 0))

theorem foldl_larger_le {l : List ℝ} {a T : ℝ} :
    l.foldl Scalar.larger a ≤ T ↔ a ≤ T ∧ ∀ x ∈ l, x ≤ T := by
  induction l generalizing a with
  | nil => simp
  | cons x l ih => simp [ih,and_assoc]

theorem sweep_eq (hs : s.slot = some e) (hl : e < p.lastPos.length) (ht : e < target.length) :
    p.sweep target radii2 s = if target.getD e 0 = p.lastPos.getD e 0 then none else
      some (p.sweepAt target radii2 e) := by
  simp [sweep,sweepAt,hs,hl,ht,List.getD_eq_getElem?_getD]

theorem travel_le_iff (hl : p.Fits p.lastPos.length) (ht : p.Fits target.length) {T : ℝ}
    (hT : 0 ≤ T) : p.travel target radii2 ≤ T ↔
      ∀ s ∈ p.stages, ∀ e, s.slot = some e → p.sweepAt target radii2 e ≤ T := by
  rw [travel,foldl_larger_le,and_iff_right hT]
  constructor
  · intro h s hs e he
    by_cases heq : target.getD e 0 = p.lastPos.getD e 0
    · rw [sweepAt,heq,sub_self,abs_zero,zero_mul,zero_mul]
      exact hT
    · refine h _ (List.mem_filterMap.2 ⟨s,hs,?_⟩)
      rw [sweep_eq he (hl.2 s hs e he) (ht.2 s hs e he),if_neg heq]
  · intro h x hx
    obtain ⟨s,hs,hx⟩ := List.mem_filterMap.1 hx
    cases he : s.slot with
    | none => simp [sweep,he] at hx
    | some e =>
      rw [sweep_eq he (hl.2 s hs e he) (ht.2 s hs e he)] at hx
      split at hx <;> cases hx
      exact h s hs e he

theorem sweepAt_le_travel (hl : p.Fits p.lastPos.length) (ht : p.Fits target.length)
    (hs : s ∈ p.stages) (he : s.slot = some e) :
    p.sweepAt target radii2 e ≤ p.travel target radii2 := by
  have h0 : 0 ≤ p.travel target radii2 := (foldl_larger_le.1 le_rfl).1
  exact (travel_le_iff hl ht h0).1 le_rfl s hs e he

theorem exists_of_neighbours {l : List (List ℝ)} (h : [u,v] <:+: l) :
    ∃ k, l[k]? = some u ∧ l[k + 1]? = some v := by
  obtain ⟨before,after,rfl⟩ := h
  exact ⟨before.length,by simp,by simp⟩

theorem lt_of_stop (h : (p.lastPos :: (p.stops target radii2 ++ [target]))[k]? = some w) :
    k < (p.stops target radii2).length + 2 := by
  have hk := (List.getElem?_eq_some_iff.1 h).1
  simp only [List.length_cons,List.length_append,List.length_nil] at hk
  omega

theorem ofCoord_of_stop (h : (p.lastPos :: (p.stops target radii2 ++ [target]))[k]? = some w)
    (hl : 3 ≤ p.lastPos.length) (ht : 3 ≤ target.length) :
    Vector3.ofCoord w = (Vector3.ofCoord p.lastPos).between (.ofCoord target)
      (k / ((p.stops target radii2).length + 1 : ℕ)) := by
  simp only [Vector3.ofCoord,Vector3.between]
  rw [getD_of_stop h (by omega) (by omega),getD_of_stop h (by omega) (by omega),
    getD_of_stop h (by omega) (by omega)]

/-- A piece sweeps at most the resolution, unless a stage is farther from its line than the distances
that the move was cut by. -/
theorem arc_le (hl : p.Fits p.lastPos.length) (ht : p.Fits target.length)
    (hinv : 0 < p.invResolution) (hf : 0 ≤ p.axisToRadians) (hs : s ∈ p.stages)
    (he : s.slot = some e)
    (hu : (p.lastPos :: (p.stops target radii2 ++ [target]))[k]? = some u)
    (hv : (p.lastPos :: (p.stops target radii2 ++ [target]))[k + 1]? = some v) {r : ℝ}
    (hr : r ≤ √(max (p.lastRadii2.getD e 0) (radii2.getD e 0))) :
    |v.getD e 0 - u.getD e 0| * p.axisToRadians * r ≤ p.resolution := by
  have hel := hl.2 s hs e he
  have het := ht.2 s hs e he
  have hn : (p.stops target radii2).length + 1 = _ := length_stops
  set n := (p.stops target radii2).length + 1
  have hpos : (0 : ℝ) < n := by positivity
  have hpiece : v.getD e 0 - u.getD e 0 = (target.getD e 0 - p.lastPos.getD e 0) / n := by
    rw [getD_of_stop hu hel het,getD_of_stop hv hel het]
    push_cast [n]
    ring
  have htravel : p.sweepAt target radii2 e ≤ p.travel target radii2 :=
    sweepAt_le_travel hl ht hs he
  -- The number of pieces is a ceiling, so it is never short of the travel in steps.
  have hceil : p.travel target radii2 * p.invResolution ≤ n := by
    refine (Nat.le_ceil _).trans ?_
    rw [hn]
    exact_mod_cast le_max_right _ _
  have hnn : 0 ≤ |target.getD e 0 - p.lastPos.getD e 0| / n * p.axisToRadians := by positivity
  calc |v.getD e 0 - u.getD e 0| * p.axisToRadians * r
      = |target.getD e 0 - p.lastPos.getD e 0| / n * p.axisToRadians * r := by
        rw [hpiece,abs_div,abs_of_pos hpos]
    _ ≤ |target.getD e 0 - p.lastPos.getD e 0| / n * p.axisToRadians *
          √(max (p.lastRadii2.getD e 0) (radii2.getD e 0)) := mul_le_mul_of_nonneg_left hr hnn
    _ = p.sweepAt target radii2 e / n := by rw [sweepAt]; ring
    _ ≤ p.travel target radii2 / n := div_le_div_of_nonneg_right htravel hpos.le
    _ ≤ p.resolution := by
        rw [resolution,div_le_div_iff₀ hpos hinv]
        linarith

theorem Coaxial.getD_coords {pass : Pass} {d : List ℝ} (hc : p.Coaxial) (hp : p.Registered)
    (h : p.coords u pass = .ok (v,d)) (hs : s ∈ p.stages) (he : s.slot = some e) :
    d.getD e 0 = s.radius2 (.ofCoord u) ∧ s.radius2 (.ofCoord v) = s.radius2 (.ofCoord u) := by
  have hline : ∀ s' ∈ p.along pass, ∀ i, s'.slot = some i → s'.line = s.line := fun s' hs' i hi =>
    hc s' (mem_along.1 hs') s hs (by simp [hi]) (by simp [he])
  obtain ⟨before,m,after,hl,hm,hafter⟩ := Stage.exists_last_of_slot ⟨s,mem_along.2 hs,he⟩
  have hd := getElem?_coords hp h hl hm hafter
  have hmline := hline m (by simp [hl]) e hm
  have hbefore : ∀ s' ∈ before, ∀ i, s'.slot = some i → s'.line = m.line := fun s' hs' i hi =>
    (hline s' (by simp [hl,hs']) i hi).trans hmline.symm
  rw [Stage.radius2_walk _ fun s' hs' i hi => .inl (hbefore s' hs' i hi),
    Stage.radius2_of_line hmline] at hd
  refine ⟨by rw [List.getD_eq_getElem?_getD,hd]; rfl,?_⟩
  rw [ofCoord_coords hp h,Stage.radius2_walk _ fun s' hs' i hi => .inl (hline s' hs' i hi)]

theorem Coaxial.arm_eq (hc : p.Coaxial) {before after : List (Stage ℝ)}
    (hl : p.stages = before ++ s :: after) (he : s.slot = some e) (u : List ℝ) :
    p.arm before s u = √(s.radius2 (.ofCoord u)) := by
  rw [arm,Stage.radius2_walk]
  exact fun s' hs' i hi =>
    .inl (hc s' (by simp [hl,hs']) s (by simp [hl]) (by simp [hi]) (by simp [he]))

theorem Marked.getD_lastRadii2 (hm : p.Marked) (hc : p.Coaxial) (hp : p.Registered)
    (hs : s ∈ p.stages) (he : s.slot = some e) :
    p.lastRadii2.getD e 0 = s.radius2 (.ofCoord p.lastPos) := by
  obtain ⟨v,h⟩ | ⟨u,h⟩ := hm
  · exact (hc.getD_coords hp h hs he).1
  · exact (hc.getD_coords hp h hs he).1.trans (hc.getD_coords hp h hs he).2.symm

theorem Coaxial.sweeps (hc : p.Coaxial) (hb : p.Built resolution fullRotation) (hm : p.Marked)
    (hplan : p.plan target = .ok plan)
    (h : [u,v] <:+: p.lastPos :: (p.stops target plan.radii2 ++ [target])) :
    p.Sweeps resolution fullRotation u v := by
  intro before s after e hl he
  have hs : s ∈ p.stages := by simp [hl]
  obtain ⟨image,images,himage,-⟩ := plan_eq_ok.1 hplan
  have hlast := hm.fits
  have htarget := coords_fits himage
  obtain ⟨k,hu,hv⟩ := exists_of_neighbours h
  have hk := lt_of_stop hv
  have hbetween (t : ℝ) (h0 : 0 ≤ t) (h1 : t ≤ 1) :
      √(s.radius2 ((Vector3.ofCoord p.lastPos).between (.ofCoord target) t)) ≤
        √(max (p.lastRadii2.getD e 0) (plan.radii2.getD e 0)) := by
    rw [hm.getD_lastRadii2 hc hb.registered hs he,(hc.getD_coords hb.registered himage hs he).1]
    exact Real.sqrt_le_sqrt (s.radius2_between _ _ h0 h1)
  have hn : (0 : ℝ) < ((p.stops target plan.radii2).length + 1 : ℕ) := by positivity
  have hr : max (p.arm before s u) (p.arm before s v) ≤
      √(max (p.lastRadii2.getD e 0) (plan.radii2.getD e 0)) := by
    rw [hc.arm_eq hl he,hc.arm_eq hl he,ofCoord_of_stop hu hlast.1 htarget.1,
      ofCoord_of_stop hv hlast.1 htarget.1]
    refine max_le (hbetween _ (by positivity) ?_) (hbetween _ (by positivity) ?_) <;>
      rw [div_le_one hn] <;> exact_mod_cast by omega
  have harc := arc_le hlast htarget hb.invResolution_pos hb.axisToRadians_pos.le hs he hu hv hr
  rwa [hb.axisToRadians,hb.resolution_eq] at harc

theorem Follows.built (h : p.Follows q) (hb : p.Built resolution fullRotation) :
    q.Built resolution fullRotation := by
  obtain rfl | ⟨_,_,rfl,-⟩ := h
  · exact hb
  · exact ⟨hb.1,hb.2,hb.3,hb.4,hb.5⟩

theorem Follows.coaxial (h : p.Follows q) (hc : p.Coaxial) : q.Coaxial := by
  obtain rfl | ⟨_,_,rfl,-⟩ := h <;> exact hc

theorem ofResolution_isOk (hr : 0 < resolution) (hf : 0 < fullRotation) :
    ∃ p : Pivot ℝ, ofResolution resolution fullRotation = .ok p := by
  simp [ofResolution,hr,hf]

theorem built_resolve {p₀ : Pivot ℝ} (h : ofResolution resolution fullRotation = .ok p₀)
    (stages : List (Stage ℝ)) (axes : ExtraAxes) :
    (({ p₀ with stages }).resolve axes).Built resolution fullRotation ∧
      (({ p₀ with stages }).resolve axes).lastPos = [] := by
  unfold ofResolution at h
  simp only [Scalar.isFinite_exact,Bool.true_and,Bool.not_eq_true'] at h
  split at h
  · cases h
  · split at h
    · cases h
    · rename_i hr hf
      cases h
      refine ⟨⟨by simpa using hr,by simpa using hf,rfl,?_,registered_resolve _ _⟩,rfl⟩
      norm_num [Pivot.resolve]
      rfl

end Pivot

/-- A pivot whose stages turn around one line keeps to the resolution, over whatever chain. -/
theorem Transform.arcBound_of_coaxial {p : Pivot ℝ} {next t : Transform ℝ}
    {resolution fullRotation : ℝ} (hc : p.Coaxial) (hb : p.Built resolution fullRotation)
    (hp : p.lastPos = []) (h : Operated (.over p next) t) (target : List ℝ) :
    t.ArcBound resolution fullRotation target := by
  intro q next' plan points hr hplan hpoints u v huv
  have ht : target ≠ [] := by
    rintro rfl
    obtain ⟨image,images,himage,-⟩ := Pivot.plan_eq_ok.1 hplan
    simpa using (Pivot.coords_fits himage).1
  obtain ⟨hq,hm⟩ := h.marked hp hr ht
  have hbq := hq.built hb
  rw [Pivot.eq_of_sends hbq.registered hplan hpoints] at huv
  exact (hq.coaxial hc).sweeps hbq hm hplan huv

end Gantry
