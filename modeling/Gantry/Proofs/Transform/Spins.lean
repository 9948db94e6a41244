import Mathlib
import Gantry.Proofs.Transform.Turns

/-!
Spins: stages one after another, all turned by one angle. If a line is kept in place by the spins of
all angles, every stage turns around that line. The first look is at the moment at which the angle
leaves zero: a stage across would tilt the line. Stages along the line shift it in the plane across by
a polynomial in the unit number of the angle, in which the stages are found one by one.
-/
set_option autoImplicit false

namespace Gantry

namespace Vector3
variable {c : ℝ → Vector3 ℝ} {v w : Vector3 ℝ}

def tilt (v : Vector3 ℝ) : Axis → Vector3 ℝ
  | .x => ⟨0,-v.z,v.y⟩
  | .y => ⟨v.z,0,-v.x⟩
  | .z => ⟨-v.y,v.x,0⟩

theorem plane_sub (v w : Vector3 ℝ) (axis : Axis) :
    (v.sub w).plane axis = v.plane axis - w.plane axis := by
  cases axis <;> rfl

structure Leaves (c : ℝ → Vector3 ℝ) (v w : Vector3 ℝ) : Prop where
  start : c 0 = v
  x : HasDerivAt (fun a => (c a).x) w.x 0
  y : HasDerivAt (fun a => (c a).y) w.y 0
  z : HasDerivAt (fun a => (c a).z) w.z 0

theorem hasDerivAt_turn {f g : ℝ → ℝ} {f' g' : ℝ} (hf : HasDerivAt f f' 0) (hg : HasDerivAt g g' 0) :
    HasDerivAt (fun a => (turn a (f a) (g a)).1) (f' - g 0) 0 ∧
      HasDerivAt (fun a => (turn a (f a) (g a)).2) (g' + f 0) 0 := by
  have hcos : HasDerivAt Real.cos 0 0 := by simpa using Real.hasDerivAt_cos 0
  have hsin : HasDerivAt Real.sin 1 0 := by simpa using Real.hasDerivAt_sin 0
  simp only [turn_real]
  constructor
  · refine ((hf.mul hcos).sub (hg.mul hsin)).congr_deriv ?_
    simp
  · refine ((hf.mul hsin).add (hg.mul hcos)).congr_deriv ?_
    simp [add_comm]

theorem Leaves.rotate (h : Leaves c v w) (axis : Axis) :
    Leaves (fun a => (c a).rotate axis a) v (w.add (v.tilt axis)) := by
  have hstart : (c 0).rotate axis 0 = v := by
    rw [h.start]
    cases axis <;> simp [Vector3.rotate,plane,turn_real]
  have hv := h.start
  cases axis with
  | x =>
    obtain ⟨h1,h2⟩ := hasDerivAt_turn h.y h.z
    exact ⟨hstart,h.x.congr_deriv (by simp [add,tilt]),
      h1.congr_deriv (by simp [add,tilt,hv,sub_eq_add_neg]),h2.congr_deriv (by simp [add,tilt,hv])⟩
  | y =>
    obtain ⟨h1,h2⟩ := hasDerivAt_turn h.z h.x
    exact ⟨hstart,h2.congr_deriv (by simp [add,tilt,hv]),h.y.congr_deriv (by simp [add,tilt]),
      h1.congr_deriv (by simp [add,tilt,hv,sub_eq_add_neg])⟩
  | z =>
    obtain ⟨h1,h2⟩ := hasDerivAt_turn h.x h.y
    exact ⟨hstart,h1.congr_deriv (by simp [add,tilt,hv,sub_eq_add_neg]),
      h2.congr_deriv (by simp [add,tilt,hv]),h.z.congr_deriv (by simp [add,tilt])⟩

theorem Leaves.foldl (h : Leaves c v w) (l : List Axis) :
    Leaves (fun a => l.foldl (fun u axis => u.rotate axis a) (c a)) v
      (l.foldl (fun u axis => u.add (v.tilt axis)) w) := by
  induction l generalizing c w with
  | nil => exact h
  | cons axis l ih => exact ih (h.rotate axis)

theorem Leaves.plane (h : Leaves c v w) (axis : Axis) :
    HasDerivAt (fun a => ((c a).plane axis).1) (w.plane axis).1 0 ∧
      HasDerivAt (fun a => ((c a).plane axis).2) (w.plane axis).2 0 := by
  cases axis
  · exact ⟨h.y,h.z⟩
  · exact ⟨h.z,h.x⟩
  · exact ⟨h.x,h.y⟩

theorem Leaves.plane_eq_zero (h : Leaves c v w) {axis : Axis} (hc : ∀ a, (c a).plane axis = (0,0)) :
    w.plane axis = (0,0) := by
  obtain ⟨h1,h2⟩ := h.plane axis
  simp only [hc] at h1 h2
  exact Prod.ext (h1.unique (hasDerivAt_const 0 0)) (h2.unique (hasDerivAt_const 0 0))

theorem foldl_tilt (v w : Vector3 ℝ) (l : List Axis) :
    l.foldl (fun u axis => u.add (v.tilt axis)) w =
      ⟨w.x + l.count .y * v.z - l.count .z * v.y,w.y + l.count .z * v.x - l.count .x * v.z,
        w.z + l.count .x * v.y - l.count .y * v.x⟩ := by
  induction l generalizing w with
  | nil => simp
  | cons axis l ih =>
    rw [List.foldl_cons,ih]
    cases axis <;> simp [add,tilt] <;> refine ⟨?_,?_⟩ <;> ring

/-- A vector along an axis goes aside unless it is turned around that axis alone. -/
theorem eq_of_foldl_tilt {l : List Axis} {axis axis' : Axis}
    (h : (l.foldl (fun (u : Vector3 ℝ) axis => u.add ((shift ⟨0,0,0⟩ 1 axis').tilt axis))
      ⟨0,0,0⟩).plane axis' = (0,0)) (hl : axis ∈ l) : axis = axis' := by
  have hcount : l.count axis ≠ 0 := (List.count_pos_iff.2 hl).ne'
  rw [foldl_tilt] at h
  cases axis' <;> cases axis <;> simp_all [Vector3.plane,shift]

end Vector3

namespace Stage
variable {s m : Stage ℝ} {k : List (Stage ℝ)}

noncomputable def spin (a : ℝ) (k : List (Stage ℝ)) (v : Vector3 ℝ) : Vector3 ℝ :=
  k.foldl (fun v s => (s.rotate a v).1) v

theorem rotate_sub_rotate (s : Stage ℝ) (a : ℝ) (v w : Vector3 ℝ) :
    (s.rotate a v).1.sub (s.rotate a w).1 = (v.sub w).rotate s.rotateAxis a := by
  obtain ⟨_,axis,o,_⟩ := s
  cases axis <;>
    simp only [rotate,Vector3.rotate,Vector3.plane,Vector3.add,Vector3.sub,turn_real,
      Vector3.ext_iff] <;>
    refine ⟨?_,?_,?_⟩ <;> ring

theorem spin_sub_spin (a : ℝ) (k : List (Stage ℝ)) (v w : Vector3 ℝ) :
    (spin a k v).sub (spin a k w) =
      (k.map (·.rotateAxis)).foldl (fun u axis => u.rotate axis a) (v.sub w) := by
  induction k generalizing v w with
  | nil => rfl
  | cons s k ih =>
    have hs := ih (s.rotate a v).1 (s.rotate a w).1
    rw [rotate_sub_rotate] at hs
    exact hs

/-- Stages that keep a line in place are all along it. -/
theorem rotateAxis_eq_of_spin (h : ∀ a v, m.radius2 v = 0 → m.radius2 (spin a k v) = 0)
    (hs : s ∈ k) : s.rotateAxis = m.rotateAxis := by
  have hon (a t : ℝ) : (spin a k (m.offset.shift t m.rotateAxis)).plane m.rotateAxis =
      m.offset.plane m.rotateAxis := radius2_eq_zero_iff.1 (h a _ (m.radius2_shift t))
  have hway : (m.offset.shift 1 m.rotateAxis).sub (m.offset.shift 0 m.rotateAxis) =
      Vector3.shift ⟨0,0,0⟩ 1 m.rotateAxis := by
    cases m.rotateAxis <;> simp [Vector3.sub,Vector3.shift]
  -- the way from one point of the line to another, turned with them
  have hleaves := Vector3.Leaves.foldl (c := fun _ => Vector3.shift ⟨0,0,0⟩ 1 m.rotateAxis)
    (w := ⟨0,0,0⟩) ⟨rfl,hasDerivAt_const _ _,hasDerivAt_const _ _,hasDerivAt_const _ _⟩
    (k.map (·.rotateAxis))
  simp only [← hway,← spin_sub_spin] at hleaves
  rw [hway] at hleaves
  refine Vector3.eq_of_foldl_tilt (hleaves.plane_eq_zero fun a => ?_) (List.mem_map_of_mem hs)
  rw [Vector3.plane_sub,hon,hon,sub_self]
  rfl

section Across
open Polynomial

/-- Where a point is in the plane across the line of a stage, as a number around that line. -/
noncomputable def across (m : Stage ℝ) (v : Vector3 ℝ) : ℂ :=
  ⟨((v.sub m.offset).plane m.rotateAxis).1,((v.sub m.offset).plane m.rotateAxis).2⟩

theorem radius2_eq_normSq (m : Stage ℝ) (v : Vector3 ℝ) :
    m.radius2 v = Complex.normSq (m.across v) := rfl

theorem line_eq_of_across (haxis : s.rotateAxis = m.rotateAxis) (h : m.across s.offset = 0) :
    s.line = m.line := by
  have hon : m.radius2 s.offset = 0 := by rw [radius2_eq_normSq,h,map_zero]
  rw [radius2_eq_zero_iff] at hon
  rw [line,line,haxis,hon]

noncomputable def unit (a : ℝ) : ℂ := ⟨Real.cos a,Real.sin a⟩

theorem across_rotate (h : s.rotateAxis = m.rotateAxis) (a : ℝ) (v : Vector3 ℝ) :
    m.across (s.rotate a v).1 = unit a * m.across v + (1 - unit a) * m.across s.offset := by
  obtain ⟨_,axis,o,_⟩ := s
  obtain ⟨_,axis',o',_⟩ := m
  obtain rfl : axis = axis' := h
  cases axis <;>
    simp [across,unit,rotate,Vector3.rotate,Vector3.plane,Vector3.add,Vector3.sub,turn_real,
      Complex.ext_iff] <;>
    constructor <;> ring

/-- Where turns around some places take the middle, as a polynomial in the number of the turn. -/
noncomputable def drift (l : List ℂ) : ℂ[X] := l.foldl (fun q δ => X * q + (1 - X) * C δ) 0

theorem drift_snoc (l : List ℂ) (δ : ℂ) : drift (l ++ [δ]) = X * drift l + (1 - X) * C δ := by
  simp [drift]

theorem across_spin (hk : ∀ s ∈ k, s.rotateAxis = m.rotateAxis) (a : ℝ) {v : Vector3 ℝ}
    (hv : m.across v = 0) :
    m.across (spin a k v) = (drift (k.map fun s => m.across s.offset)).eval (unit a) := by
  induction k using List.reverseRecOn with
  | nil => simpa [drift,spin] using hv
  | append_singleton k s ih =>
    have hspin : spin a (k ++ [s]) v = (s.rotate a (spin a k v)).1 := by simp [spin]
    rw [hspin,across_rotate (hk s (by simp)),ih fun s' hs' => hk s' (by simp [hs']),List.map_append,
      List.map_singleton,drift_snoc]
    simp

/-- Places around which the turns by all angles keep the middle are all in the middle. -/
theorem eq_zero_of_drift {l : List ℂ} (h : drift l = 0) : ∀ δ ∈ l, δ = 0 := by
  induction l using List.reverseRecOn with
  | nil => simp
  | append_singleton l δ ih =>
    rw [drift_snoc] at h
    have hlast : δ = 0 := by simpa using congrArg (eval 0) h
    rw [hlast,C_0,mul_zero,add_zero] at h
    have hrest := ih ((mul_eq_zero.1 h).resolve_left X_ne_zero)
    intro δ' hδ'
    rcases List.mem_append.1 hδ' with hδ' | hδ'
    · exact hrest δ' hδ'
    · exact (List.mem_singleton.1 hδ').trans hlast

theorem drift_eq_zero {l : List ℂ} (h : ∀ a, (drift l).eval (unit a) = 0) : drift l = 0 := by
  refine eq_zero_of_infinite_isRoot _ ?_
  have hre : Set.Icc (-1) 1 ⊆ Complex.re '' {w | IsRoot (drift l) w} := by
    intro x hx
    exact ⟨unit (Real.arccos x),h _,Real.cos_arccos hx.1 hx.2⟩
  exact ((Set.Icc_infinite (by norm_num)).mono hre).of_image _

/-- A line that is kept in place by the spins of all angles is the line of every stage. -/
theorem line_eq_of_spin (h : ∀ a v, m.radius2 v = 0 → m.radius2 (spin a k v) = 0) (hs : s ∈ k) :
    s.line = m.line := by
  have haxis (s' : Stage ℝ) (hs' : s' ∈ k) := rotateAxis_eq_of_spin h hs'
  have hstart : m.radius2 m.offset = 0 := radius2_eq_zero_iff.2 rfl
  have hmiddle : m.across m.offset = 0 := Complex.normSq_eq_zero.1 hstart
  have hdrift : drift (k.map fun s => m.across s.offset) = 0 := by
    refine drift_eq_zero fun a => ?_
    rw [← across_spin haxis a hmiddle]
    exact Complex.normSq_eq_zero.1 (h a _ hstart)
  exact line_eq_of_across (haxis s hs) (eq_zero_of_drift hdrift _ (List.mem_map.2 ⟨s,hs,rfl⟩))

end Across

theorem walk_oneAxis (f φ : ℝ) (e : Nat) (l : List (Stage ℝ)) (v : Vector3 ℝ) :
    walk f (oneAxis e φ) l v = spin (φ * f) (l.filter (·.slot = some e)) v := by
  induction l generalizing v with
  | nil => rfl
  | cons s l ih =>
    rw [walk_cons,ih]
    by_cases hs : s.slot = some e
    · rw [place_of_slot hs,oneAxis,if_pos rfl,List.filter_cons_of_pos (by simpa using hs)]
      rfl
    · have hstay (i : Nat) (hi : s.slot = some i) : oneAxis e φ i = 0 :=
        if_neg fun hie : i = e => hs (hie ▸ hi)
      rw [List.filter_cons_of_neg (by simpa using hs),place_of_zero hstay]

/-- The first and the last stage of each slot find every point at one distance. -/
def EndsAgree (f : ℝ) (l : List (Stage ℝ)) : Prop :=
  ∀ θ v e before s mid u after, l = before ++ s :: mid ++ u :: after → s.slot = some e →
    u.slot = some e → (∀ t ∈ before, t.slot ≠ some e) → (∀ t ∈ after, t.slot ≠ some e) →
      s.radius2 (walk f θ before v) = u.radius2 (walk f θ (before ++ s :: mid) v)

section Ends
variable {l before mid after : List (Stage ℝ)} {u : Stage ℝ} {f : ℝ} {e : Nat}

theorem EndsAgree.line_eq (h : EndsAgree f l) (hf : f ≠ 0) (hl : l = before ++ s :: mid ++ u :: after)
    (hs : s.slot = some e) (hu : u.slot = some e) (hbefore : ∀ t ∈ before, t.slot ≠ some e)
    (hafter : ∀ t ∈ after, t.slot ≠ some e) :
    u.line = s.line ∧ ∀ t ∈ mid, t.slot.isSome → t.line = s.line := by
  -- the points that come to the first stage are all points
  have hkeep (θ : Nat → ℝ) (w : Vector3 ℝ) : s.radius2 w = u.radius2 (walk f θ (s :: mid) w) := by
    have hends := h θ (walk (-f) θ before.reverse w) e before s mid u after hl hs hu hbefore hafter
    rwa [walk_append,@walk_walk_neg .real] at hends
  have hline : u.line = s.line := by
    refine line_eq_of_subset fun v hv => ?_
    rw [← hv,hkeep (fun _ => 0),walk_of_zero fun _ _ _ _ => rfl]
  refine ⟨hline,fun t ht htslot => ?_⟩
  obtain ⟨g,hg⟩ := Option.isSome_iff_exists.1 htslot
  refine line_eq_of_spin (k := (s :: mid).filter (·.slot = some g)) (fun a v hv => ?_)
    (List.mem_filter.2 ⟨List.mem_cons_of_mem s ht,by simpa using hg⟩)
  rw [← div_mul_cancel₀ a hf,← walk_oneAxis,← radius2_of_line hline,← hkeep]
  exact hv

/-- Whatever turns between two stages of a slot lies between the first and the last of them. -/
theorem EndsAgree.between (h : EndsAgree f l) (hf : f ≠ 0) {r r' : List (Stage ℝ)}
    (hl : l = r ++ mid ++ r') (hs : s ∈ r) (hu : u ∈ r') (hse : s.slot = some e)
    (hue : u.slot = some e) :
    u.line = s.line ∧ ∀ t ∈ mid, t.slot.isSome → t.line = s.line := by
  obtain ⟨before,x,r₁,rfl,hx,hbefore⟩ := exists_first_of_slot ⟨s,hs,hse⟩
  obtain ⟨r₂,y,after,rfl,hy,hafter⟩ := exists_last_of_slot ⟨u,hu,hue⟩
  have hends : l = before ++ x :: (r₁ ++ mid ++ r₂) ++ y :: after := by simp [hl]
  obtain ⟨hyline,hmid⟩ := h.line_eq hf hends hx hy hbefore hafter
  have hsline : s.line = x.line := by
    rcases List.mem_append.1 hs with hs | hs
    · exact absurd hse (hbefore s hs)
    · rcases List.mem_cons.1 hs with rfl | hs
      · rfl
      · exact hmid s (by simp [hs]) (by simp [hse])
  have huline : u.line = x.line := by
    rcases List.mem_append.1 hu with hu | hu
    · exact hmid u (by simp [hu]) (by simp [hue])
    · rcases List.mem_cons.1 hu with rfl | hu
      · exact hyline
      · exact absurd hue (hafter u hu)
  exact ⟨huline.trans hsline.symm,fun t ht hslot => (hmid t (by simp [ht]) hslot).trans hsline.symm⟩

theorem EndsAgree.bundled (h : EndsAgree f l) (hf : f ≠ 0) : Bundled l where
  line s t e hst hs ht := by
    obtain ⟨r,r',rfl,hsr,hr'⟩ := List.cons_sublist_iff.1 hst
    have hl : r ++ r' = r ++ [] ++ r' := by simp
    exact (h.between hf hl hsr (List.singleton_sublist.1 hr') hs ht).1
  between s t u e hstu hs hu ht := by
    obtain ⟨r,r',rfl,hsr,hr'⟩ := List.cons_sublist_iff.1 hstu
    obtain ⟨k,k',rfl,htk,hk'⟩ := List.cons_sublist_iff.1 hr'
    exact (h.between hf (by simp) hsr (List.singleton_sublist.1 hk') hs hu).2 t htk ht

end Ends

end Stage

end Gantry
