import Mathlib
import Gantry.Proofs.Transform.Skew

/-!
Orders of turns. Neighbours that turn around one line can change places: the stages take a point to
the same place and find it at the same distances on its way. Nothing else can be changed: stages in
bundles that turn every point alike, however their axes stand, differ by such exchanges.
-/
set_option autoImplicit false

namespace Gantry

variable {α : Type}

namespace Stage

def turning (l : List (Stage α)) : List (Stage α) := l.filter (·.slot.isSome)

/-- Stages with the same slots around the same lines, but for neighbours around one line that have
changed places. -/
inductive Exchanged : List (Stage α) → List (Stage α) → Prop
  | nil : Exchanged [] []
  | cons {s t : Stage α} {l k : List (Stage α)} (slot : s.slot = t.slot) (line : s.line = t.line)
      (h : Exchanged l k) : Exchanged (s :: l) (t :: k)
  | swap {s t : Stage α} (line : s.line = t.line) (l : List (Stage α)) :
      Exchanged (s :: t :: l) (t :: s :: l)
  | trans {l k m : List (Stage α)} (h : Exchanged l k) (h' : Exchanged k m) : Exchanged l m

/-- All stages with a slot turn around one line, and so do those that turn between two of them. -/
structure Bundled (l : List (Stage α)) : Prop where
  line : ∀ s t e, [s,t].Sublist l → s.slot = some e → t.slot = some e → t.line = s.line
  between : ∀ s t u e, [s,t,u].Sublist l → s.slot = some e → u.slot = some e → t.slot.isSome →
    t.line = s.line

section Lists
variable {s t : Stage α} {l k m : List (Stage α)}

theorem Exchanged.refl (l : List (Stage α)) : Exchanged l l := by
  induction l with
  | nil => exact .nil
  | cons s l ih => exact .cons rfl rfl ih

theorem Exchanged.symm (h : Exchanged l k) : Exchanged k l := by
  induction h with
  | nil => exact .nil
  | cons slot line _ ih => exact .cons slot.symm line.symm ih
  | swap line l => exact .swap line.symm l
  | trans _ _ ih ih' => exact .trans ih' ih

theorem exchanged_append (h : ∀ t ∈ l, t.line = s.line) :
    Exchanged (l ++ s :: k) (s :: (l ++ k)) := by
  induction l with
  | nil => exact .refl _
  | cons t l ih =>
    obtain ⟨ht,hl⟩ := List.forall_mem_cons.1 h
    exact .trans (.cons rfl rfl (ih hl)) (.swap ht (l ++ k))

theorem Bundled.sublist (h : Bundled l) (hk : k.Sublist l) : Bundled k where
  line s t e hs := h.line s t e (hs.trans hk)
  between s t u e hs := h.between s t u e (hs.trans hk)

theorem turning_sublist (l : List (Stage α)) : (turning l).Sublist l := List.filter_sublist

theorem exists_split {u : Stage α} (h : [s,t,u].Sublist l) :
    ∃ before between after, l = before ++ s :: between ++ u :: after ∧ t ∈ between := by
  obtain ⟨r,r',rfl,hs,h⟩ := List.cons_sublist_iff.1 h
  obtain ⟨k,k',rfl,ht,hu⟩ := List.cons_sublist_iff.1 h
  obtain ⟨before,k₁,rfl⟩ := List.append_of_mem hs
  obtain ⟨k₂,after,rfl⟩ := List.append_of_mem (List.singleton_sublist.1 hu)
  exact ⟨before,k₁ ++ (k ++ k₂),after,by simp,by simp [ht]⟩

theorem bundled_turning : Bundled (turning l) ↔ Bundled l := by
  refine ⟨fun h => ⟨fun s t e hl hs ht => ?_,fun s t u e hl hs hu ht => ?_⟩,
    fun h => h.sublist (turning_sublist l)⟩
  · have hfilter := hl.filter fun s : Stage α => s.slot.isSome
    exact h.line s t e (by simpa [turning,hs,ht] using hfilter) hs ht
  · have hfilter := hl.filter fun s : Stage α => s.slot.isSome
    exact h.between s t u e (by simpa [turning,hs,hu,ht] using hfilter) hs hu ht

end Lists

section Found
variable [Scalar α]

def found (factor : α) (θ : Nat → α) : List (Stage α) → Vector3 α → List (Nat × α)
  | [], _ => []
  | s :: l, p => s.slot.toList.map (·,s.radius2 p) ++ found factor θ l (s.place factor θ p)

variable {factor : α} {θ : Nat → α} {l : List (Stage α)} {p : Vector3 α} {e : Nat} {r : α}

theorem mem_found : (e,r) ∈ found factor θ l p ↔ ∃ before s after, l = before ++ s :: after ∧
    s.slot = some e ∧ s.radius2 (walk factor θ before p) = r := by
  induction l generalizing p with
  | nil => simp [found]
  | cons s l ih =>
    rw [found,List.mem_append,ih]
    constructor
    · rintro (h | ⟨before,t,after,rfl,ht,hr⟩)
      · obtain ⟨e',he',heq⟩ := List.mem_map.1 h
        obtain ⟨rfl,rfl⟩ := Prod.mk.injEq .. ▸ heq
        exact ⟨[],s,l,rfl,by simpa using he',rfl⟩
      · exact ⟨s :: before,t,after,rfl,ht,hr⟩
    · rintro ⟨before,t,after,hl,ht,hr⟩
      cases before with
      | nil =>
        obtain ⟨rfl,rfl⟩ := List.cons.injEq .. ▸ hl
        exact .inl (List.mem_map.2 ⟨e,by simpa using ht,by rw [← hr,walk_nil]⟩)
      | cons s' before =>
        obtain ⟨rfl,rfl⟩ := List.cons.injEq .. ▸ hl
        exact .inr ⟨before,t,after,rfl,ht,hr⟩

theorem walk_turning (factor : α) (θ : Nat → α) (l : List (Stage α)) (p : Vector3 α) :
    walk factor θ (turning l) p = walk factor θ l p := by
  induction l generalizing p with
  | nil => rfl
  | cons s l ih =>
    cases hs : s.slot with
    | none => simp [turning,hs,place_of_none hs,← ih]
    | some e => simp [turning,hs,← ih]

theorem found_turning (factor : α) (θ : Nat → α) (l : List (Stage α)) (p : Vector3 α) :
    found factor θ (turning l) p = found factor θ l p := by
  induction l generalizing p with
  | nil => rfl
  | cons s l ih =>
    cases hs : s.slot with
    | none => simp [turning,hs,place_of_none hs,← ih,found]
    | some e => simp [turning,hs,← ih,found]

theorem found_congr {η : Nat → α} (h : ∀ s ∈ l, ∀ i, s.slot = some i → θ i = η i) :
    found factor θ l p = found factor η l p := by
  induction l generalizing p with
  | nil => rfl
  | cons s l ih =>
    obtain ⟨hs,hl⟩ := List.forall_mem_cons.1 h
    rw [found,found,place_congr_slot hs,ih hl]

end Found

section Exchange
variable [Trigonometry] {s t : Stage ℝ} {l k : List (Stage ℝ)} {f : ℝ} {θ : Nat → ℝ} {e : Nat}
  {r r' : ℝ}

theorem place_congr (hslot : s.slot = t.slot) (hline : s.line = t.line) (f : ℝ) (θ : Nat → ℝ)
    (v : Vector3 ℝ) : s.place f θ v = t.place f θ v := by
  cases hs : s.slot with
  | none => rw [place_of_none hs,place_of_none (hslot.symm.trans hs)]
  | some i =>
    rw [place_of_slot hs,place_of_slot (hslot.symm.trans hs),rotate_of_line hline]

theorem rotate_comm (s : Stage ℝ) (a b : ℝ) (v : Vector3 ℝ) :
    (s.rotate a (s.rotate b v).1).1 = (s.rotate b (s.rotate a v).1).1 := by
  obtain ⟨_,axis,o,_⟩ := s
  cases axis <;>
    simp only [rotate,Vector3.rotate,Vector3.plane,Vector3.add,Vector3.sub,turn_exact,
      add_sub_cancel_right,Vector3.ext_iff,true_and,and_true] <;>
    constructor <;> ring

theorem place_comm (h : s.line = t.line) (f : ℝ) (θ : Nat → ℝ) (v : Vector3 ℝ) :
    t.place f θ (s.place f θ v) = s.place f θ (t.place f θ v) := by
  cases hs : s.slot with
  | none => rw [place_of_none hs,place_of_none hs]
  | some i =>
    cases ht : t.slot with
    | none => rw [place_of_none ht,place_of_none ht]
    | some j =>
      simp only [place_of_slot hs,place_of_slot ht,rotate_of_line h]
      rw [rotate_comm]

theorem radius2_place_of_line (h : s.line = t.line) (f : ℝ) (θ : Nat → ℝ) (v : Vector3 ℝ) :
    s.radius2 (t.place f θ v) = s.radius2 v := by
  rw [radius2_of_line h,radius2_place,radius2_of_line h]

theorem radius2_walk_of_line (h : ∀ t ∈ l, t.slot.isSome → t.line = s.line) (f : ℝ) (θ : Nat → ℝ)
    (v : Vector3 ℝ) : s.radius2 (walk f θ l v) = s.radius2 v := by
  induction l generalizing v with
  | nil => rfl
  | cons t l ih =>
    obtain ⟨ht,hl⟩ := List.forall_mem_cons.1 h
    rw [walk_cons,ih hl]
    cases hslot : t.slot with
    | none => rw [place_of_none hslot]
    | some i => exact radius2_place_of_line (ht (by simp [hslot])).symm f θ v

theorem Exchanged.walk_eq (h : Exchanged l k) (f : ℝ) (θ : Nat → ℝ) (v : Vector3 ℝ) :
    walk f θ l v = walk f θ k v := by
  induction h generalizing v with
  | nil => rfl
  | cons slot line _ ih => rw [walk_cons,walk_cons,place_congr slot line,ih]
  | swap line l => rw [walk_cons,walk_cons,walk_cons,walk_cons,place_comm line]
  | trans _ _ ih ih' => rw [ih,ih']

theorem Exchanged.found_perm (h : Exchanged l k) (f : ℝ) (θ : Nat → ℝ) (v : Vector3 ℝ) :
    (found f θ l v).Perm (found f θ k v) := by
  induction h generalizing v with
  | nil => exact .refl _
  | cons slot line _ ih =>
    rw [found,found,slot,radius2_of_line line,place_congr slot line]
    exact (ih _).append_left _
  | swap line l =>
    simp only [found]
    rw [place_comm line,radius2_place_of_line line.symm,radius2_place_of_line line,
      ← List.append_assoc,← List.append_assoc]
    exact List.perm_append_comm.append_right _
  | trans _ _ ih ih' => exact (ih v).trans (ih' v)

theorem Bundled.found_unique (h : Bundled l) {v : Vector3 ℝ} (hr : (e,r) ∈ found f θ l v)
    (hr' : (e,r') ∈ found f θ l v) : r = r' := by
  induction l generalizing v with
  | nil => cases hr
  | cons s l ih =>
    have hl := h.sublist (List.sublist_cons_self s l)
    -- what comes later in the bundle is as far from the line as the first stage
    have hlater {r'} (hs : s.slot = some e) (hr' : (e,r') ∈ found f θ l (s.place f θ v)) :
        r' = s.radius2 v := by
      obtain ⟨before,u,after,rfl,hu,rfl⟩ := mem_found.1 hr'
      have hline : u.line = s.line := h.line s u e (by simp) hs hu
      rw [radius2_of_line hline,radius2_walk_of_line (s := s),radius2_place]
      intro t ht hslot
      refine h.between s t u e (.cons_cons s ?_) hs hu hslot
      exact (List.singleton_sublist.2 ht).append (List.singleton_sublist.2 List.mem_cons_self)
    have hfirst {r'} (hr' : (e,r') ∈ s.slot.toList.map (·,s.radius2 v)) :
        s.slot = some e ∧ r' = s.radius2 v := by
      simpa [eq_comm] using hr'
    rw [found,List.mem_append] at hr hr'
    rcases hr with hr | hr <;> rcases hr' with hr' | hr'
    · rw [(hfirst hr).2,(hfirst hr').2]
    · rw [(hfirst hr).2,hlater (hfirst hr).1 hr']
    · rw [(hfirst hr').2,hlater (hfirst hr').1 hr]
    · exact ih hl hr hr'

end Exchange

section Distinct
variable {s t u : Stage ℝ} {l k : List (Stage ℝ)} {f : ℝ} {e : Nat} {v : Vector3 ℝ}

theorem rotate_of_radius2_eq_zero (h : s.radius2 v = 0) (a : ℝ) : (s.rotate a v).1 = v := by
  rw [radius2_eq_zero_iff] at h
  obtain ⟨_,axis,o,_⟩ := s
  obtain ⟨x,y,z⟩ := v
  cases axis <;>
    simp_all [rotate,Vector3.rotate,Vector3.plane,Vector3.add,Vector3.sub,turn_real]

/-- Only points of its line are left in place by half a turn of a stage. -/
theorem radius2_eq_zero_of_half (h : (s.rotate Real.pi v).1 = v) : s.radius2 v = 0 := by
  rw [radius2_eq_zero_iff]
  obtain ⟨_,axis,o,_⟩ := s
  cases axis <;>
    simp only [rotate,Vector3.rotate,Vector3.plane,Vector3.add,Vector3.sub,turn_real,Real.cos_pi,
      Real.sin_pi,Vector3.ext_iff,Prod.mk.injEq] at h ⊢ <;>
    constructor <;> linarith

theorem exists_radius2_ne_zero (s : Stage ℝ) : ∃ v, s.radius2 v ≠ 0 := by
  obtain ⟨_,axis,o,_⟩ := s
  refine ⟨o.add ⟨1,1,1⟩,?_⟩
  cases axis <;> norm_num [radius2,Vector3.radius2,Vector3.plane,Vector3.sub,Vector3.add]

theorem exists_multiple {n : Nat} (hn : 0 < n) (hf : f ≠ 0) (a : ℝ) :
    ∃ φ : ℝ, (n : ℝ) * (φ * f) = a :=
  ⟨a / (n * f),by field_simp⟩

def oneAxis (e : Nat) (φ : ℝ) (i : Nat) : ℝ := if i = e then φ else 0

theorem walk_single (hl : ∀ s' ∈ l, s'.slot = some e → s'.line = s.line) (f φ : ℝ)
    (v : Vector3 ℝ) : walk f (oneAxis e φ) l v =
      (s.rotate (l.countP (·.slot = some e) * (φ * f)) v).1 := by
  rw [walk_of_axis (θ := oneAxis e φ) (fun _ _ i _ hi => if_neg hi) hl,oneAxis,if_pos rfl]

theorem countP_slot_pos (hs : s ∈ l) (he : s.slot = some e) :
    0 < l.countP fun s' => s'.slot = some e :=
  List.countP_pos_iff.2 ⟨s,hs,by simpa using he⟩

theorem Bundled.line_of_mem (h : Bundled l) (hs : s ∈ l) (ht : t ∈ l) (hes : s.slot = some e)
    (het : t.slot = some e) : t.line = s.line := by
  obtain ⟨before,after,rfl⟩ := List.append_of_mem hs
  rcases List.mem_append.1 ht with ht | ht
  · have hpair : [t,s].Sublist (before ++ s :: after) :=
      (List.singleton_sublist.2 ht).append (List.singleton_sublist.2 List.mem_cons_self)
    exact (h.line t s e hpair het hes).symm
  · rcases List.mem_cons.1 ht with rfl | ht
    · rfl
    · have hpair : [s,t].Sublist (before ++ s :: after) :=
        ((List.singleton_sublist.2 ht).cons_cons s).trans (List.sublist_append_right _ _)
      exact h.line s t e hpair hes het

/-- Stages that find every point at one distance for each slot are in bundles. -/
theorem bundled_of_found (hf : f ≠ 0) (h : ∀ θ v e r r', (e,r) ∈ found f θ l v →
    (e,r') ∈ found f θ l v → r = r') : Bundled l := by
  -- with all axes at zero, every stage finds the point in its place
  have hline {s t : Stage ℝ} {e : Nat} (hs : s ∈ l) (ht : t ∈ l) (hse : s.slot = some e)
      (hte : t.slot = some e) : t.line = s.line := by
    have hfound (v : Vector3 ℝ) {u : Stage ℝ} (hu : u ∈ l) (hue : u.slot = some e) :
        (e,u.radius2 v) ∈ found f (fun _ => 0) l v := by
      obtain ⟨before,after,hl⟩ := List.append_of_mem hu
      exact mem_found.2 ⟨before,u,after,hl,hue,by rw [walk_of_zero fun _ _ _ _ => rfl]⟩
    refine line_eq_of_subset fun v hv => ?_
    rw [← hv]
    exact h _ v e _ _ (hfound v ht hte) (hfound v hs hse)
  refine ⟨fun s t e hst => hline (hst.subset (by simp)) (hst.subset (by simp)),
    fun s t u e hstu hs hu ht => ?_⟩
  obtain ⟨g,hg⟩ := Option.isSome_iff_exists.1 ht
  have hmem {x} (hx : x ∈ [s,t,u]) : x ∈ l := hstu.subset hx
  obtain ⟨before,between,after,rfl,htb⟩ := exists_split hstu
  -- the stages from the first to the last make one turn around the line between
  refine line_eq_of_turns fun w hw a => ?_
  have hcount := countP_slot_pos (List.mem_cons_of_mem s htb) hg
  obtain ⟨φ,hφ⟩ := exists_multiple hcount hf a
  have hturn : walk f (oneAxis g φ) (s :: between) w = (t.rotate a w).1 := by
    rw [walk_single (s := t),hφ]
    intro x hx hxg
    exact hline (hmem (by simp)) (by simp at hx ⊢; tauto) hg hxg
  have hstart := @walk_walk_neg .real f (oneAxis g φ) w before
  have hfirst := (mem_found (l := before ++ s :: between ++ u :: after)).2
    ⟨before,s,between ++ u :: after,by simp,hs,congrArg s.radius2 hstart⟩
  have hlast := mem_found.2 ⟨before ++ s :: between,u,after,rfl,hu,
    congrArg u.radius2 ((walk_append ..).trans ((congrArg _ hstart).trans hturn))⟩
  rw [← radius2_of_line (hline (hmem (by simp)) (hmem (by simp)) hs hu),
    h _ _ e _ _ hlast hfirst,hw]

/-- Stages that turn every point alike have the same slots, around the same lines. -/
theorem Bundled.exists_line_eq (hl : Bundled l) (hk : Bundled k) (hf : f ≠ 0)
    (h : ∀ θ v, walk f θ l v = walk f θ k v) (hs : s ∈ l) (he : s.slot = some e) :
    ∃ t ∈ k, t.slot = some e ∧ t.line = s.line := by
  have hwalk (φ : ℝ) (v : Vector3 ℝ) :=
    walk_single (v := v) (fun s' hs' => hl.line_of_mem hs hs' he) f φ
  obtain ⟨v,hv⟩ := s.exists_radius2_ne_zero
  by_cases hnone : ∀ t ∈ k, t.slot ≠ some e
  · -- half a turn is made by the one and nothing by the other
    obtain ⟨φ,hφ⟩ := exists_multiple (countP_slot_pos hs he) hf Real.pi
    have hstay : walk f (oneAxis e φ) k v = v := by
      refine walk_of_zero (fun t ht i hi => if_neg ?_) f v
      rintro rfl
      exact hnone t ht hi
    rw [← h,hwalk,hφ] at hstay
    exact absurd (radius2_eq_zero_of_half hstay) hv
  · push Not at hnone
    obtain ⟨t,ht,het⟩ := hnone
    refine ⟨t,ht,het,(line_eq_of_turns fun w hw a => ?_).symm⟩
    obtain ⟨φ,hφ⟩ := exists_multiple (countP_slot_pos hs he) hf a
    rw [← hφ,← hwalk,h,walk_single fun t' ht' => hk.line_of_mem ht ht' het,@radius2_rotate .real]
    exact hw

theorem line_eq_of_comm (h : ∀ a b v, (s.rotate a (t.rotate b v).1).1 =
    (t.rotate b (s.rotate a v).1).1) : s.line = t.line := by
  refine line_eq_of_turns fun v hv a => radius2_eq_zero_of_half ?_
  rw [← h,rotate_of_radius2_eq_zero hv]

theorem exists_first_of_slot (h : ∃ s ∈ l, s.slot = some e) :
    ∃ before s after, l = before ++ s :: after ∧ s.slot = some e ∧
      ∀ u ∈ before, u.slot ≠ some e := by
  obtain ⟨s,hs,he⟩ := h
  obtain ⟨t,ht⟩ := Option.isSome_iff_exists.1
    (List.find?_isSome (p := fun s : Stage ℝ => decide (s.slot = some e)).2
      ⟨s,hs,by simpa using he⟩)
  obtain ⟨hte,before,after,hl,hbefore⟩ := List.find?_eq_some_iff_append.1 ht
  exact ⟨before,t,after,hl,by simpa using hte,fun u hu => by simpa using hbefore u hu⟩

/-- Two axes that turn in one order here and in the other there, and every point alike, turn around
one line. -/
theorem line_eq_of_orders {x : Stage ℝ} {g : Nat} (hf : f ≠ 0) (hne : e ≠ g)
    (h : ∀ θ v, walk f θ l v = walk f θ k v) (hs : s ∈ l) (hse : s.slot = some e) (hx : x ∈ l)
    (hxg : x.slot = some g) (hle : ∀ s' ∈ l, s'.slot = some e → s'.line = s.line)
    (hlg : ∀ s' ∈ l, s'.slot = some g → s'.line = u.line)
    (hke : ∀ s' ∈ k, s'.slot = some e → s'.line = s.line)
    (hkg : ∀ s' ∈ k, s'.slot = some g → s'.line = u.line)
    (hl : l.Pairwise fun y z => y.slot = some g → z.slot ≠ some e)
    (hk : k.Pairwise fun y z => y.slot = some e → z.slot ≠ some g) : u.line = s.line := by
  refine line_eq_of_comm fun b a v => ?_
  obtain ⟨ε,hε⟩ := exists_multiple (countP_slot_pos hs hse) hf a
  obtain ⟨γ,hγ⟩ := exists_multiple (countP_slot_pos hx hxg) hf b
  have hturn (w : Vector3 ℝ) := h (oneAxis e ε) w
  have hturn' (w : Vector3 ℝ) := h (oneAxis g γ) w
  simp only [walk_single hle,walk_single hke,hε] at hturn
  simp only [walk_single hlg,walk_single hkg,hγ] at hturn'
  have hboth := h (Pivot.twoAxes e g ε γ) v
  rw [walk_of_order hne (fun _ _ i _ => Pivot.twoAxes_of_ne) hle hlg hl,
    walk_of_order hne.symm (fun _ _ i _ hg he => Pivot.twoAxes_of_ne he hg) hkg hke hk,
    Pivot.twoAxes_fst,Pivot.twoAxes_snd hne,hε,hγ,← hturn,← hturn'] at hboth
  exact hboth

/-- What turns before the first stage of an axis that comes first elsewhere is around its line. -/
theorem Bundled.line_eq_of_front {before after : List (Stage ℝ)} {g : Nat}
    (hl : Bundled (s :: l)) (hk : Bundled (before ++ t :: after)) (hf : f ≠ 0)
    (h : ∀ θ v, walk f θ (s :: l) v = walk f θ (before ++ t :: after) v) (he : s.slot = some e)
    (het : t.slot = some e) (hline : t.line = s.line) (hbefore : ∀ u ∈ before, u.slot ≠ some e)
    (hu : u ∈ before) (hug : u.slot = some g) : u.line = s.line := by
  have hne : e ≠ g := fun heg => hbefore u hu (heg ▸ hug)
  have huk : u ∈ before ++ t :: after := List.mem_append_left _ hu
  have htk : t ∈ before ++ t :: after := by simp
  have hsl : s ∈ s :: l := List.mem_cons_self
  obtain ⟨x,hx,hxg,hxu⟩ := hk.exists_line_eq hl hf (fun θ v => (h θ v).symm) huk hug
  have hlg (s') (hs' : s' ∈ s :: l) (hg : s'.slot = some g) : s'.line = u.line :=
    (hl.line_of_mem hx hs' hxg hg).trans hxu
  have hke (s') (hs' : s' ∈ before ++ t :: after) (hs'e : s'.slot = some e) : s'.line = s.line :=
    (hk.line_of_mem htk hs' het hs'e).trans hline
  by_contra hcontra
  refine hcontra (line_eq_of_orders hf hne h hsl he hx hxg (fun s' hs' => hl.line_of_mem hsl hs' he)
    hlg hke (fun s' hs' => hk.line_of_mem huk hs' hug) ?_ ?_) <;>
    refine List.pairwise_iff_forall_sublist.2 fun {y z} hyz hy hz => hcontra ?_
  · -- the other axis would be between two stages of the first
    have hyz' : [y,z].Sublist l := by
      cases hyz with
      | cons _ hyz => exact hyz
      | cons_cons _ _ => exact absurd (Option.some.inj (he.symm.trans hy)) hne
    rw [← hlg y (hyz.subset (by simp)) hy]
    exact hl.between s y z e (hyz'.cons_cons s) he hz (by simp [hy])
  · -- the first axis would be between two stages of the other
    have hyz' : [y,z].Sublist (t :: after) := by
      obtain ⟨l₁,l₂,hsplit,h₁,h₂⟩ := List.sublist_append_iff.1 hyz
      cases l₁ with
      | nil => rwa [hsplit]
      | cons _ l₁ =>
        obtain ⟨rfl,-⟩ := List.cons.inj hsplit
        exact absurd hy (hbefore y (h₁.subset List.mem_cons_self))
    rw [← hke y (hyz.subset (by simp)) hy]
    have huyz : [u,y,z].Sublist (before ++ t :: after) := (List.singleton_sublist.2 hu).append hyz'
    exact (hk.between u y z g huyz hug hz (by simp [hy])).symm

/-- Stages in bundles that turn every point alike, however their axes stand, differ by exchanges of
neighbours around one line. -/
theorem exchanged_of_walk_eq (hl : Bundled l) (hk : Bundled k) (hf : f ≠ 0)
    (hln : ∀ s ∈ l, s.slot.isSome) (hkn : ∀ s ∈ k, s.slot.isSome)
    (h : ∀ θ v, walk f θ l v = walk f θ k v) : Exchanged l k := by
  induction l generalizing k with
  | nil =>
    cases k with
    | nil => exact .nil
    | cons t k =>
      obtain ⟨e,he⟩ := Option.isSome_iff_exists.1 (hkn t List.mem_cons_self)
      obtain ⟨s,hs,-⟩ := hk.exists_line_eq hl hf (fun θ v => (h θ v).symm) List.mem_cons_self he
      cases hs
  | cons s l ih =>
    obtain ⟨e,he⟩ := Option.isSome_iff_exists.1 (hln s List.mem_cons_self)
    obtain ⟨t',ht',het',hline'⟩ := hl.exists_line_eq hk hf h List.mem_cons_self he
    -- the first stage of that slot comes to the front
    obtain ⟨before,t,after,rfl,het,hbefore⟩ := exists_first_of_slot ⟨t',ht',het'⟩
    have hline : t.line = s.line :=
      (hk.line_of_mem ht' (by simp) het' het).trans hline'
    have hfront : ∀ u ∈ before, u.line = t.line := by
      intro u hu
      obtain ⟨g,hg⟩ := Option.isSome_iff_exists.1 (hkn u (List.mem_append_left _ hu))
      exact (hl.line_eq_of_front hk hf h he het hline hbefore hu hg).trans hline.symm
    have hex := exchanged_append (k := after) hfront
    have hrest : Exchanged l (before ++ after) := by
      refine ih (hl.sublist (List.sublist_cons_self s l)) (hk.sublist ?_) ?_ ?_ fun θ v => ?_
      · simp
      · exact fun s' hs' => hln s' (List.mem_cons_of_mem s hs')
      · exact fun s' hs' => hkn s' (by simp at hs' ⊢; tauto)
      · have hv : s.place f θ (s.place (-f) θ v) = v := by
          have := @place_neg_place .real (-f) θ v s
          rwa [neg_neg] at this
        have hthrough := h θ (s.place (-f) θ v)
        rw [@Exchanged.walk_eq .real _ _ hex,walk_cons,walk_cons,hv,
          ← @place_congr .real _ _ (he.trans het.symm) hline.symm,hv] at hthrough
        exact hthrough
    exact .trans (.cons (he.trans het.symm) hline.symm hrest) hex.symm

end Distinct

end Stage

end Gantry
