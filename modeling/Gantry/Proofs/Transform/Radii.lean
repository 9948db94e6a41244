import Mathlib
import Gantry.Proofs.Transform.Current
import Gantry.Proofs.Transform.Spins

/-!
The distances that the two passes leave. Each stage finds a point as far from its line on the way back
as on the way there, but of the stages of one slot the last one that a pass comes through is the one
that counts: on the way there the last of the list, on the way back the first. The passes agree
exactly if the stages of each slot turn around one line, with nothing else turned in between.
-/
set_option autoImplicit false

namespace Gantry

variable {α : Type}

namespace Pivot

section Passes
variable [Scalar α] {p : Pivot α} {pass : Pass} {u v d : List α} {e : Nat}

/-- A pass and the one that undoes it leave the same distances. -/
def SameRadii (p : Pivot α) : Prop :=
  ∀ u v d, p.coords u .forward = .ok (v,d) → p.coords v .reverse = .ok (u,d)

/-- A read remembers the distances that a move to the position read would remember. -/
def Recalls (p : Pivot α) : Prop :=
  ∀ next pos q next', (Transform.over p next).getPosition = (.ok pos,.over q next') →
    ∃ image, p.coords pos .forward = .ok (image,q.lastRadii2)

theorem length_radii2 (h : p.coords u pass = .ok (v,d)) : d.length = u.length := by
  obtain ⟨x,y,z,rest,rfl⟩ := exists_cartesian (three_le_of_coords h)
  obtain ⟨t,ht,-,rfl⟩ := coords_eq_ok.1 h
  rw [Turned.length_radii2 ht,List.length_replicate]
  rfl

theorem getElem?_coords_of_unused (h : p.coords u pass = .ok (v,d))
    (hs : ∀ s ∈ p.stages, s.slot ≠ some e) (he : e < u.length) : d[e]? = some 0 := by
  obtain ⟨x,y,z,rest,rfl⟩ := exists_cartesian (three_le_of_coords h)
  obtain ⟨t,ht,-,rfl⟩ := coords_eq_ok.1 h
  rw [Turned.foldlM_getElem?_of_unused (fun s hmem => hs s (mem_along.1 hmem)) ht]
  exact List.getElem?_replicate_of_lt he

end Passes

section Circular
variable [Trigonometry] {p : Pivot ℝ} {u v d d' : List ℝ}

theorem radii2_eq_of_bundled (hp : p.Registered) (hb : Stage.Bundled p.stages)
    (hd : p.coords u .forward = .ok (v,d)) (hd' : p.coords v .reverse = .ok (u,d')) : d = d' := by
  have hlen : v.length = u.length := length_coords hd
  refine List.ext_getElem? fun e => ?_
  by_cases hs : ∃ s ∈ p.stages, s.slot = some e
  · obtain ⟨r,hr,hfound⟩ := exists_found_forward hp hd hs
    obtain ⟨r',hr',hfound'⟩ := exists_found_reverse hp hd' hs
    rw [hr,hr',hb.found_unique hfound hfound']
  · push Not at hs
    by_cases he : e < u.length
    · rw [getElem?_coords_of_unused hd hs he,getElem?_coords_of_unused hd' hs (hlen ▸ he)]
    · rw [List.getElem?_eq_none,List.getElem?_eq_none]
      · rw [length_radii2 hd']
        omega
      · rw [length_radii2 hd]
        omega

theorem sameRadii_of_bundled (hp : p.Registered) (hb : Stage.Bundled p.stages) : p.SameRadii := by
  intro u v d hd
  obtain ⟨d',hd'⟩ := coords_undone hp hd
  rw [radii2_eq_of_bundled hp hb hd hd']
  exact hd'

theorem sameRadii_iff_recalls (hp : p.Registered) : p.SameRadii ↔ p.Recalls := by
  constructor
  · intro h next pos q next' hread
    unfold Transform.getPosition at hread
    dsimp only at hread
    split at hread
    · cases hread
    · rename_i coord _
      split at hread
      · cases hread
      · rename_i pos radii2 hback
        cases hread
        obtain ⟨d,hthere⟩ := coords_undone hp hback
        cases hback.symm.trans (h pos coord d hthere)
        exact ⟨coord,hthere⟩
  -- Only a reading over a terminal at the very image `v` makes the recall speak of `u`.
  · intro h u v d hthere
    obtain ⟨d',hback⟩ := coords_undone hp hthere
    have hread : (Transform.over p (.terminal ⟨v,#[]⟩)).getPosition =
        (.ok u,.over (p.arrive u d') (.terminal ⟨v,#[]⟩)) := by
      have hback : p.coords v .reverse = .ok (u,d') := hback
      simp [Transform.getPosition,hback]
    obtain ⟨image,himage⟩ := h _ _ _ _ hread
    cases hthere.symm.trans himage
    exact hback

end Circular

section Real
variable {p : Pivot ℝ} {resolution fullRotation : ℝ}

theorem SameRadii.endsAgree (h : p.SameRadii) (hp : p.Registered) :
    Stage.EndsAgree p.axisToRadians p.stages := by
  intro θ v e before s mid u after hl hs hu hbefore hafter
  obtain ⟨k,hfit⟩ := p.exists_fits
  obtain ⟨c,d,hthere⟩ := Fits.coords (c := coordinate v θ k) (by simpa using hfit) .forward
  have hsplit : p.stages = before ++ s :: (mid ++ u :: after) := by simpa using hl
  have hfirst := @getElem?_coords_reverse .real _ _ _ _ _ hp (h _ _ _ hthere) _ _ _ hsplit hs hbefore
  have hlast := getElem?_coords hp hthere hl hu hafter
  have hradii : s.radius2 (walk p.axisToRadians (heading ((coordinate v θ k).drop 3)) before v) =
      u.radius2 (walk p.axisToRadians (heading ((coordinate v θ k).drop 3)) (before ++ s :: mid) v) :=
    Option.some.inj (hfirst.symm.trans hlast)
  have hheading (t : Stage ℝ) (ht : t ∈ before ++ s :: mid) (i : Nat) (hi : t.slot = some i) :
      heading ((coordinate v θ k).drop 3) i = θ i :=
    heading_coordinate hp hfit (hl ▸ List.mem_append_left _ ht) hi
  rwa [walk_congr v hheading,
    walk_congr v fun t ht => hheading t (List.mem_append_left _ ht)] at hradii

/-- With any sine and cosine, or with the real ones alone, both passes leave the same distances and a
read remembers what a move to its position would, exactly if the stages are in bundles. -/
theorem sameRadii_tfae {p₀ : Pivot ℝ} (h : ofResolution resolution fullRotation = .ok p₀)
    (stages : List (Stage ℝ)) (axes : ExtraAxes) :
    [Stage.Bundled (({ p₀ with stages }).resolve axes).stages,
      ∀ T : Trigonometry, @SameRadii ℝ (@circularScalar T) (({ p₀ with stages }).resolve axes),
      ∀ T : Trigonometry, @Recalls ℝ (@circularScalar T) (({ p₀ with stages }).resolve axes),
      (({ p₀ with stages }).resolve axes).SameRadii,
      (({ p₀ with stages }).resolve axes).Recalls].TFAE := by
  obtain ⟨hb,-⟩ := built_resolve h stages axes
  tfae_have 1 → 2 := fun hbundled T => @sameRadii_of_bundled T _ hb.registered hbundled
  tfae_have 2 → 3 := fun hsame T => (@sameRadii_iff_recalls T _ hb.registered).1 (hsame T)
  tfae_have 3 → 5 := fun hrecalls => hrecalls .real
  tfae_have 5 → 4 := (@sameRadii_iff_recalls .real _ hb.registered).2
  tfae_have 4 → 1 := fun hsame => (hsame.endsAgree hb.registered).bundled hb.axisToRadians_pos.ne'
  tfae_finish

def bundles : List (Stage ℝ) :=
  [⟨"a",.z,⟨0,0,0⟩,none⟩,⟨"a",.z,⟨0,0,3⟩,none⟩,⟨"b",.x,⟨0,4,2⟩,none⟩]

theorem sameRadii_bundles : ∃ p₀ : Pivot ℝ, ofResolution 1 360 = .ok p₀ ∧
    (∀ T : Trigonometry,
      @SameRadii ℝ (@circularScalar T) (({ p₀ with stages := bundles }).resolve ⟨["a","b"]⟩)) ∧
    (({ p₀ with stages := bundles }).resolve ⟨["a","b"]⟩).Recalls := by
  obtain ⟨p₀,h⟩ := ofResolution_isOk (one_pos : (0 : ℝ) < 1) (by norm_num : (0 : ℝ) < 360)
  have hstages : (({ p₀ with stages := bundles }).resolve ⟨["a","b"]⟩).stages =
    [⟨"a",.z,⟨0,0,0⟩,some 4⟩,⟨"a",.z,⟨0,0,3⟩,some 4⟩,⟨"b",.x,⟨0,4,2⟩,some 5⟩] := rfl
  have hbundled : Stage.Bundled (({ p₀ with stages := bundles }).resolve ⟨["a","b"]⟩).stages := by
    rw [hstages]
    refine ⟨fun s t e hst hs ht => ?_,fun s t u e hstu hs hu _ => ?_⟩
    · have hmem (x : Stage ℝ) (hx : x ∈ [s,t]) := hst.subset hx
      simp only [List.mem_cons,List.not_mem_nil,or_false,forall_eq_or_imp,forall_eq] at hmem
      obtain ⟨rfl | rfl | rfl,rfl | rfl | rfl⟩ := hmem <;> first | rfl | cases hs.trans ht.symm
    · -- there is no room between the stages of the first axis
      obtain ⟨rfl,-,rfl,-⟩ := by simpa only [List.cons.injEq] using hstu.eq_of_length rfl
      cases hs.trans hu.symm
  have htfae := sameRadii_tfae h bundles ⟨["a","b"]⟩
  exact ⟨p₀,h,(htfae.out 0 1).1 hbundled,(htfae.out 0 4).1 hbundled⟩

/-- Of two stages of one axis around two lines, each pass leaves the distance from another one. -/
theorem radii2_twoLines : ∃ p₀ : Pivot ℝ, ofResolution 10 360 = .ok p₀ ∧
    (({ p₀ with stages := twoLines 10 }).resolve ⟨["a"]⟩).coords [10,0,0,0,0] .forward =
      .ok ([10,0,0,0,0],[0,0,0,0,0]) ∧
    (({ p₀ with stages := twoLines 10 }).resolve ⟨["a"]⟩).coords [10,0,0,0,0] .reverse =
      .ok ([10,0,0,0,0],[0,0,0,0,100]) ∧
    ¬(({ p₀ with stages := twoLines 10 }).resolve ⟨["a"]⟩).SameRadii := by
  obtain ⟨p₀,h⟩ := ofResolution_isOk (by norm_num : (0 : ℝ) < 10) (by norm_num : (0 : ℝ) < 360)
  set p := ({ p₀ with stages := twoLines 10 }).resolve ⟨["a"]⟩
  have hstages : p.stages = [⟨"a",.z,⟨0,0,0⟩,some 4⟩,⟨"a",.z,⟨10,0,0⟩,some 4⟩] := rfl
  have hthere : p.coords [10,0,0,0,0] .forward = .ok ([10,0,0,0,0],[0,0,0,0,0]) := by
    simp [coords,along,hstages,Turned.pass,Turned.coord,Stage.rotate,Vector3.rotate,Vector3.radius2,
      Vector3.plane,Vector3.add,Vector3.sub,turn_real,List.replicate,pure,Except.pure,bind,
      Except.bind]
  have hback : p.coords [10,0,0,0,0] .reverse = .ok ([10,0,0,0,0],[0,0,0,0,100]) := by
    simp [coords,along,hstages,Turned.pass,Turned.coord,Stage.rotate,Vector3.rotate,Vector3.radius2,
      Vector3.plane,Vector3.add,Vector3.sub,turn_real,List.replicate,pure,Except.pure,bind,
      Except.bind]
    norm_num
  refine ⟨p₀,h,hthere,hback,fun hsame => ?_⟩
  have hagain := hback.symm.trans (hsame _ _ _ hthere)
  simp at hagain

end Real

end Pivot

end Gantry
