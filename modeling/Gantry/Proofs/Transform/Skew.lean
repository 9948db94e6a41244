import Mathlib
import Gantry.Proofs.Transform.Lines
import Gantry.Proofs.Transform.Piece

set_option autoImplicit false

namespace Gantry

namespace Pivot
variable {p : Pivot ℝ} {resolution fullRotation : ℝ} {before after k : List (Stage ℝ)}
  {s m : Stage ℝ} {e : Nat}

def Bounded (p : Pivot ℝ) (resolution fullRotation : ℝ) : Prop :=
  ∀ base t target, Transform.Operated (.over p (.terminal base)) t →
    t.ArcBound resolution fullRotation target

theorem Bounded.piece (h : p.Bounded resolution fullRotation)
    (hb : p.Built resolution fullRotation) {θ η : Nat → ℝ} {x y : Vector3 ℝ} {N : ℕ}
    (hcut : p.CutInto resolution θ η x y N) (hl : p.stages = before ++ s :: after)
    (he : s.slot = some e) :
    |η e - θ e| / N * p.axisToRadians *
      √(s.radius2 (walk p.axisToRadians (fun i => θ i + (η i - θ i) * (1 / N)) before
        (x.between y (1 / N)))) ≤ resolution := by
  obtain ⟨n,hn⟩ := p.exists_fits
  obtain ⟨c,d,next,hu,hop⟩ := exists_arrived (p := p) (u := coordinate x θ n) (by simpa using hn)
  exact hcut.piece hb hn hu (h _ _ _ hop) hl he

/-- Where the last stage with a slot finds a point on its line, so do the others: a move may turn the
axis as far as it likes and be taken to sweep nothing. -/
theorem Bounded.radius2_eq_zero (h : p.Bounded resolution fullRotation)
    (hb : p.Built resolution fullRotation) (hm : p.Last e k m)
    (hl : p.stages = before ++ s :: after) (he : s.slot = some e) (θ : Nat → ℝ) {v : Vector3 ℝ}
    (hv : m.radius2 v = 0) :
    s.radius2 (walk p.axisToRadians θ before (walk (-p.axisToRadians) θ k.reverse v)) = 0 := by
  have hf := hb.axisToRadians_pos
  have hres := hb.resolution_pos
  by_contra hne
  have hpos := Real.sqrt_pos.2 ((s.radius2_nonneg _).lt_of_ne' hne)
  set r := √(s.radius2 (walk p.axisToRadians θ before (walk (-p.axisToRadians) θ k.reverse v)))
  obtain ⟨δ,hδ0,hδ⟩ : ∃ δ, 0 < δ ∧ δ * p.axisToRadians * r = resolution + 1 :=
    ⟨(resolution + 1) / (p.axisToRadians * r),by positivity,by field_simp⟩
  -- turned so far that the arc is too long, while the last stage is on its line and counts nothing
  set θ' := Function.update θ e (θ e + δ) with hθ'
  have hcut : p.CutInto resolution θ' θ (walk (-p.axisToRadians) θ' k.reverse v)
      (walk (-p.axisToRadians) θ k.reverse v) 1 := by
    refine ⟨one_ne_zero,fun e' he' => ?_,.inl rfl⟩
    by_cases hee : e' = e
    · subst hee
      refine ⟨k,m,hm,?_⟩
      rw [reckoned,@walk_walk_neg .real,@walk_walk_neg .real,hv,max_self,Real.sqrt_zero,mul_zero]
      positivity
    · obtain ⟨before',m',hm'⟩ := exists_last he'
      refine ⟨before',m',hm',?_⟩
      rw [reckoned_eq_zero (by simp [hθ',hee])]
      positivity
  have hpiece := h.piece hb hcut hl he
  have hend : (fun i => θ' i + (θ i - θ' i) * (1 / ((1 : ℕ) : ℝ))) = θ := by
    funext i
    simp
  rw [hend,Nat.cast_one,one_div_one,Vector3.between_one,hθ',Function.update_self,
    sub_add_cancel_left,abs_neg,abs_of_pos hδ0,div_one] at hpiece
  linarith

theorem Bounded.line_eq_of_slot (h : p.Bounded resolution fullRotation)
    (hb : p.Built resolution fullRotation) (hm : p.Last e k m) (hs : s ∈ p.stages)
    (he : s.slot = some e) : s.line = m.line := by
  obtain ⟨before,after,hl⟩ := List.append_of_mem hs
  refine Stage.line_eq_of_subset fun v hv => ?_
  have hzero := h.radius2_eq_zero hb hm hl he (fun _ => 0) hv
  rwa [Stage.walk_of_zero fun _ _ _ _ => rfl,Stage.walk_of_zero fun _ _ _ _ => rfl] at hzero

def twoAxes (a b : Nat) (α β : ℝ) (i : Nat) : ℝ := if i = a then α else if i = b then β else 0

section TwoAxes
variable {a b i : Nat} {α β : ℝ}

@[simp] theorem twoAxes_fst : twoAxes a b α β a = α := if_pos rfl

theorem twoAxes_snd (h : a ≠ b) : twoAxes a b α β b = β := by simp [twoAxes,h.symm]

theorem twoAxes_of_ne (ha : i ≠ a) (hb : i ≠ b) : twoAxes a b α β i = 0 := by simp [twoAxes,ha,hb]

end TwoAxes

/-- The last stage that turns is around another line than one before it. -/
structure Crossed (p : Pivot ℝ) (a b : Nat) (k : List (Stage ℝ)) (s m : Stage ℝ) : Prop where
  split : ∃ after, p.stages = k ++ m :: after ∧ ∀ s' ∈ after, s'.slot = none
  slot_last : m.slot = some b
  mem : s ∈ k
  slot : s.slot = some a
  line_ne : s.line ≠ m.line

section Crossed
variable {a b : Nat}

theorem Crossed.last (hc : p.Crossed a b k s m) : p.Last b k m := by
  obtain ⟨after,hl,hafter⟩ := hc.split
  exact ⟨after,hl,hc.slot_last,fun s' hs' => by simp [hafter s' hs']⟩

theorem Crossed.mem_stages (hc : p.Crossed a b k s m) {s' : Stage ℝ} (hs' : s' ∈ k) :
    s' ∈ p.stages := by
  obtain ⟨after,hl,-⟩ := hc.split
  simp [hl,hs']

theorem Crossed.line_eq (hc : p.Crossed a b k s m) (h : p.Bounded resolution fullRotation)
    (hb : p.Built resolution fullRotation) {s' : Stage ℝ} (hs' : s' ∈ k) (ha : s'.slot = some a) :
    s'.line = s.line := by
  obtain ⟨before,m',hm'⟩ := exists_last ⟨s,hc.mem_stages hc.mem,hc.slot⟩
  exact (h.line_eq_of_slot hb hm' (hc.mem_stages hs') ha).trans
    (h.line_eq_of_slot hb hm' (hc.mem_stages hc.mem) hc.slot).symm

theorem Crossed.line_eq_last (hc : p.Crossed a b k s m) (h : p.Bounded resolution fullRotation)
    (hb : p.Built resolution fullRotation) {s' : Stage ℝ} (hs' : s' ∈ k) (he : s'.slot = some b) :
    s'.line = m.line :=
  h.line_eq_of_slot hb hc.last (hc.mem_stages hs') he

theorem Crossed.ne (hc : p.Crossed a b k s m) (h : p.Bounded resolution fullRotation)
    (hb : p.Built resolution fullRotation) : a ≠ b := by
  rintro rfl
  exact hc.line_ne (hc.line_eq_last h hb hc.mem hc.slot)

/-- No stage of the first axis comes after one of the second: with the first turned by some angle and
standing still, the second would carry points of its line off the line. -/
theorem Crossed.order (hc : p.Crossed a b k s m) (h : p.Bounded resolution fullRotation)
    (hb : p.Built resolution fullRotation) :
    k.Pairwise fun s' s'' => s'.slot = some b → s''.slot ≠ some a := by
  refine List.pairwise_iff_forall_sublist.2 fun {s' s''} hsub hsb hsa => ?_
  obtain ⟨r,r',rfl,hr,hr'⟩ := List.cons_sublist_iff.1 hsub
  obtain ⟨before,r,rfl⟩ := List.append_of_mem hr
  have hs'' : s'' ∈ r' := List.singleton_sublist.1 hr'
  obtain ⟨after,hl,-⟩ := hc.split
  have hf := hb.axisToRadians_pos
  -- otherwise all turns of the first line would keep the second one in place
  refine hc.line_ne (Stage.line_eq_of_turns fun v hv φ => ?_)
  set n := (s' :: (r ++ r')).reverse.countP (·.slot = some a)
  have hn : 0 < n := List.countP_pos_iff.2 ⟨s'',by simp [hs''],by simpa using hsa⟩
  set θ := twoAxes a b (-(φ / (n * p.axisToRadians))) 0
  have hl' : p.stages = before ++ s' :: (r ++ r' ++ m :: after) := by simp [hl]
  have hzero := h.radius2_eq_zero hb hc.last hl' hsb θ hv
  have hturn : walk (-p.axisToRadians) θ (s' :: (r ++ r')).reverse v = (s.rotate φ v).1 := by
    rw [Stage.walk_of_axis (a := a) (s := s)]
    · congr 2
      simp only [θ,twoAxes_fst]
      field_simp
      exact mul_comm _ _
    · intro _ _ i _ hi
      simp [θ,twoAxes,hi]
    · intro t ht hta
      refine hc.line_eq h hb ?_ hta
      simp only [List.mem_reverse,List.mem_cons,List.mem_append] at ht ⊢
      tauto
  rw [show before ++ s' :: r ++ r' = before ++ (s' :: (r ++ r')) by simp,List.reverse_append,
    walk_append,hturn,@walk_walk_neg .real] at hzero
  rwa [← Stage.radius2_of_line (hc.line_eq_last h hb (by simp) hsb)]

theorem Crossed.countP_pos (hc : p.Crossed a b k s m) :
    (0 : ℝ) < k.countP (·.slot = some a) :=
  Nat.cast_pos.2 (List.countP_pos_iff.2 ⟨s,hc.mem,by simpa using hc.slot⟩)

theorem Crossed.radius2_walk (hc : p.Crossed a b k s m) (h : p.Bounded resolution fullRotation)
    (hb : p.Built resolution fullRotation) (α β : ℝ) (v : Vector3 ℝ) :
    m.radius2 (walk p.axisToRadians (twoAxes a b α β) k v) =
      m.radius2 (s.rotate (k.countP (·.slot = some a) * (α * p.axisToRadians)) v).1 := by
  rw [Stage.radius2_walk_of_order (hc.ne h hb) (fun _ _ i _ => twoAxes_of_ne) (fun _ => hc.line_eq h hb)
    (fun _ => hc.line_eq_last h hb) (hc.order h hb),twoAxes_fst]

theorem Crossed.exists_first (hc : p.Crossed a b k s m) (h : p.Bounded resolution fullRotation)
    (hb : p.Built resolution fullRotation) : ∃ k' m', p.Last a k' m' ∧ ∀ α β v,
      m'.radius2 (walk p.axisToRadians (twoAxes a b α β) k' v) = s.radius2 v := by
  obtain ⟨k',m',k'',rfl,hm',hk''⟩ := Stage.exists_last_of_slot ⟨s,hc.mem,hc.slot⟩
  obtain ⟨after,hl,hafter⟩ := hc.split
  have hne := hc.ne h hb
  have hline : m'.line = s.line := hc.line_eq h hb (by simp) hm'
  refine ⟨k',m',⟨k'' ++ m :: after,by simp [hl],hm',fun t ht => ?_⟩,fun α β v => ?_⟩
  · rcases List.mem_append.1 ht with ht | ht
    · exact hk'' t ht
    · rcases List.mem_cons.1 ht with rfl | ht
      · simpa [hc.slot_last] using hne.symm
      · simp [hafter t ht]
  · rw [Stage.radius2_walk,Stage.radius2_of_line hline]
    intro t ht i hi
    by_cases hia : i = a
    · subst hia
      exact .inl ((hc.line_eq h hb (by simp [ht]) hi).trans hline.symm)
    · refine .inr (twoAxes_of_ne hia fun hib => ?_)
      subst hib
      have horder := List.pairwise_append.1 (hc.order h hb)
      exact horder.2.2 t ht m' (by simp) hi hm'

/-- A move between points that come to the second line, which turns the first axis from one side to
the other: what the second axis turns meanwhile does not count. -/
theorem Crossed.cutInto (hc : p.Crossed a b k s m) (h : p.Bounded resolution fullRotation)
    (hb : p.Built resolution fullRotation) {v w : Vector3 ℝ} {τ φ : ℝ} (hv : m.radius2 v = 0)
    (hw : m.radius2 w = 0) (hτ : 0 < τ)
    (hφ : k.countP (·.slot = some a) * (τ * p.axisToRadians) = φ)
    (hlt : resolution < 2 * τ * p.axisToRadians * √(max (s.radius2 v) (s.radius2 w)))
    (hle : τ * p.axisToRadians * √(max (s.radius2 v) (s.radius2 w)) ≤ resolution) (δ : ℝ) :
    p.CutInto resolution (twoAxes a b (-τ) 0) (twoAxes a b τ δ) (s.rotate φ v).1
      (s.rotate (-φ) w).1 2 := by
  have hres := hb.resolution_pos
  obtain ⟨k',m',hm',hfirst⟩ := hc.exists_first h hb
  have hsweep : p.reckoned (twoAxes a b (-τ) 0) (twoAxes a b τ δ) (s.rotate φ v).1
      (s.rotate (-φ) w).1 a k' m' =
        2 * τ * p.axisToRadians * √(max (s.radius2 v) (s.radius2 w)) := by
    rw [reckoned,hfirst,hfirst,@Stage.radius2_rotate .real,@Stage.radius2_rotate .real,
      twoAxes_fst,twoAxes_fst,sub_neg_eq_add,← two_mul,abs_of_pos (by positivity)]
  refine ⟨two_ne_zero,fun e he => ?_,.inr ⟨a,k',m',hm',?_⟩⟩
  · by_cases hea : e = a
    · subst hea
      refine ⟨k',m',hm',?_⟩
      rw [hsweep,Nat.cast_ofNat]
      linarith
    · by_cases heb : e = b
      · subst heb
        refine ⟨k,m,hc.last,?_⟩
        rw [reckoned,hc.radius2_walk h hb,hc.radius2_walk h hb,Stage.rotate_add,Stage.rotate_add,
          neg_mul,mul_neg,hφ,neg_add_cancel,add_neg_cancel,Stage.rotate_zero,Stage.rotate_zero,hv,hw,
          max_self,Real.sqrt_zero,mul_zero]
        positivity
      · obtain ⟨before,m'',hm''⟩ := exists_last he
        refine ⟨before,m'',hm'',?_⟩
        rw [reckoned_eq_zero (by rw [twoAxes_of_ne hea heb,twoAxes_of_ne hea heb])]
        positivity
  · rw [hsweep,Nat.cast_ofNat]
    linarith

/-- In the middle of such a move the second axis may have turned as far as it likes, so the point
there has to be on the second line as well. -/
theorem Crossed.chord (hc : p.Crossed a b k s m) (h : p.Bounded resolution fullRotation)
    (hb : p.Built resolution fullRotation) {v w : Vector3 ℝ} {τ φ : ℝ} (hv : m.radius2 v = 0)
    (hw : m.radius2 w = 0) (hτ : 0 < τ)
    (hφ : k.countP (·.slot = some a) * (τ * p.axisToRadians) = φ)
    (hlt : resolution < 2 * τ * p.axisToRadians * √(max (s.radius2 v) (s.radius2 w)))
    (hle : τ * p.axisToRadians * √(max (s.radius2 v) (s.radius2 w)) ≤ resolution) :
    m.radius2 ((s.rotate φ v).1.between (s.rotate (-φ) w).1 (1 / 2)) = 0 := by
  have hf := hb.axisToRadians_pos
  have hres := hb.resolution_pos
  by_contra hoff
  have hpos := Real.sqrt_pos.2 ((m.radius2_nonneg _).lt_of_ne' hoff)
  set r := √(m.radius2 ((s.rotate φ v).1.between (s.rotate (-φ) w).1 (1 / 2)))
  obtain ⟨δ,hδ0,hδ⟩ : ∃ δ, 0 < δ ∧ δ / 2 * p.axisToRadians * r = resolution + 1 :=
    ⟨2 * (resolution + 1) / (p.axisToRadians * r),by positivity,by field_simp⟩
  obtain ⟨after,hl,-⟩ := hc.split
  have hpiece := h.piece hb (hc.cutInto h hb hv hw hτ hφ hlt hle δ) hl hc.slot_last
  have hmid : (fun i => twoAxes a b (-τ) 0 i +
      (twoAxes a b τ δ i - twoAxes a b (-τ) 0 i) * (1 / ((2 : ℕ) : ℝ))) =
        twoAxes a b 0 (δ / 2) := by
    funext i
    unfold twoAxes
    split
    · push_cast; ring
    · split <;> push_cast <;> ring
  rw [hmid,hc.radius2_walk h hb,zero_mul,mul_zero,Stage.rotate_zero,twoAxes_snd (hc.ne h hb),
    twoAxes_snd (hc.ne h hb),sub_zero,abs_of_pos hδ0,Nat.cast_ofNat,hδ] at hpiece
  linarith

end Crossed

theorem Bounded.coaxial (h : p.Bounded resolution fullRotation)
    (hb : p.Built resolution fullRotation) : p.Coaxial := by
  intro s hs s' hs' hi hi'
  obtain ⟨k,m,after,hl,hm,hafter⟩ := Stage.exists_last (P := (·.slot.isSome)) ⟨s,hs,hi⟩
  obtain ⟨b,hmb⟩ := Option.isSome_iff_exists.1 hm
  have hline : ∀ t ∈ p.stages, t.slot.isSome → t.line = m.line := by
    intro t ht hti
    by_contra hne
    rw [hl,List.mem_append,List.mem_cons] at ht
    rcases ht with ht | rfl | ht
    · obtain ⟨a,hta⟩ := Option.isSome_iff_exists.1 hti
      have hc : p.Crossed a b k t m :=
        ⟨⟨after,hl,fun s' hs' => by simpa using hafter s' hs'⟩,hmb,ht,hta,hne⟩
      have hn := hc.countP_pos
      have hf := hb.axisToRadians_pos
      refine hne (Stage.line_eq_of_chords (mul_pos hn hb.resolution_pos)
        fun v w φ hv hw hφ hlt hle => ?_)
      obtain ⟨τ,hτ,rfl⟩ : ∃ τ, 0 < τ ∧ k.countP (·.slot = some a) * (τ * p.axisToRadians) = φ :=
        ⟨φ / (k.countP (·.slot = some a) * p.axisToRadians),by positivity,by field_simp⟩
      refine hc.chord h hb hv hw hτ rfl ?_ ?_
      · exact lt_of_mul_lt_mul_left (by linarith) hn.le
      · exact le_of_mul_le_mul_left (by linarith) hn
    · exact hne rfl
    · exact hafter t ht hti
  exact (hline s hs hi).trans (hline s' hs' hi').symm

/-- A pivot keeps all arcs within its resolution, over any chain or over the end of a chain alone,
exactly if all stages that turn do so around one line. -/
theorem arcs_bounded_tfae {p₀ : Pivot ℝ} (h : ofResolution resolution fullRotation = .ok p₀)
    (stages : List (Stage ℝ)) (axes : ExtraAxes) :
    [(({ p₀ with stages }).resolve axes).Coaxial,
      ∀ next t target, Transform.Operated (.over (({ p₀ with stages }).resolve axes) next) t →
        t.ArcBound resolution fullRotation target,
      ∀ base t target,
        Transform.Operated (.over (({ p₀ with stages }).resolve axes) (.terminal base)) t →
          t.ArcBound resolution fullRotation target].TFAE := by
  obtain ⟨hb,hp⟩ := built_resolve h stages axes
  tfae_have 1 → 2 := fun hc next t target ht => Transform.arcBound_of_coaxial hc hb hp ht target
  tfae_have 2 → 3 := fun h base => h (.terminal base)
  tfae_have 3 → 1 := fun h => Bounded.coaxial h hb
  tfae_finish

theorem arcs_bounded_of_single : ∃ p₀ : Pivot ℝ, ofResolution 1 360 = .ok p₀ ∧
    ∀ next t target, Transform.Operated (.over (({ p₀ with
        stages := [⟨"a",.z,⟨0,0,0⟩,none⟩] }).resolve ⟨["a"]⟩) next) t →
      t.ArcBound 1 360 target := by
  obtain ⟨p₀,h⟩ := ofResolution_isOk (one_pos : (0 : ℝ) < 1) (by norm_num : (0 : ℝ) < 360)
  refine ⟨p₀,h,((arcs_bounded_tfae h _ _).out 0 1).1 fun s hs s' hs' _ _ => ?_⟩
  rw [List.mem_singleton.1 hs,List.mem_singleton.1 hs']

def twoLines (distance : ℝ) : List (Stage ℝ) :=
  [⟨"a",.z,⟨0,0,0⟩,none⟩,⟨"a",.z,⟨distance,0,0⟩,none⟩]

/-- A quarter of a turn, ten away from the first line, is made in one piece: that is an arc of more
than fifteen, and the resolution is ten. -/
theorem quarter_turn_uncut : ∃ (p₀ : Pivot ℝ) (t : Transform ℝ), ofResolution 10 360 = .ok p₀ ∧
    Transform.Operated (.over (({ p₀ with stages := twoLines 10 }).resolve ⟨["a"]⟩)
      (.terminal ⟨[10,0,0,0,0],#[]⟩)) t ∧ ¬t.ArcBound 10 360 [0,-10,0,0,90] := by
  obtain ⟨p₀,h⟩ := ofResolution_isOk (by norm_num : (0 : ℝ) < 10) (by norm_num : (0 : ℝ) < 360)
  obtain ⟨hb,-⟩ := built_resolve h (twoLines 10) ⟨["a"]⟩
  set p := ({ p₀ with stages := twoLines 10 }).resolve ⟨["a"]⟩
  have hstages : p.stages = [] ++ ⟨"a",.z,⟨0,0,0⟩,some 4⟩ :: [⟨"a",.z,⟨10,0,0⟩,some 4⟩] := rfl
  have hslot : ∀ s ∈ p.stages, ∀ i, s.slot = some i → i = 4 := by
    intro s hs i hi
    simp only [hstages,List.nil_append,List.mem_cons,List.not_mem_nil,or_false] at hs
    rcases hs with rfl | rfl <;> cases hi <;> rfl
  have hfit : p.Fits (2 + 3) := ⟨by norm_num,fun s hs i hi => by rw [hslot s hs i hi]; norm_num⟩
  have hquarter : 90 * p.axisToRadians = Real.pi / 2 := by rw [hb.axisToRadians]; ring
  set θ : Nat → ℝ := fun _ => 0
  set η : Nat → ℝ := fun i => if i = 4 then 90 else 0
  have hstart : Stage.radius2 ⟨"a",.z,⟨10,0,0⟩,some 4⟩
      (walk p.axisToRadians θ [⟨"a",.z,⟨0,0,0⟩,some 4⟩] ⟨10,0,0⟩) = 0 := by
    rw [Stage.walk_of_zero fun _ _ _ _ => rfl]
    norm_num [Stage.radius2,Vector3.radius2,Vector3.plane,Vector3.sub]
  have hend : Stage.radius2 ⟨"a",.z,⟨10,0,0⟩,some 4⟩
      (walk p.axisToRadians η [⟨"a",.z,⟨0,0,0⟩,some 4⟩] ⟨0,-10,0⟩) = 0 := by
    rw [walk_cons,walk_nil,Stage.place_of_slot rfl,show η 4 = 90 from if_pos rfl,hquarter]
    norm_num [Stage.rotate,Stage.radius2,Vector3.rotate,Vector3.radius2,Vector3.plane,Vector3.sub,
      Vector3.add,turn_real]
  -- the second stage is on its line at both ends, so nothing is cut
  have hcut : p.CutInto 10 θ η ⟨10,0,0⟩ ⟨0,-10,0⟩ 1 := by
    refine ⟨one_ne_zero,?_,.inl rfl⟩
    rintro e ⟨s,hs,he⟩
    obtain rfl := hslot s hs e he
    refine ⟨[⟨"a",.z,⟨0,0,0⟩,some 4⟩],⟨"a",.z,⟨10,0,0⟩,some 4⟩,⟨[],hstages,rfl,by simp⟩,?_⟩
    rw [reckoned,hstart,hend,max_self,Real.sqrt_zero,mul_zero]
    norm_num
  have hu : [10,0,0,0,0] = coordinate ⟨10,0,0⟩ θ 2 := rfl
  have hv : [0,-10,0,0,90] = coordinate ⟨0,-10,0⟩ η 2 := by simp [coordinate,η,List.range_succ]
  obtain ⟨c,d,next,hc,hop⟩ := exists_arrived (p := p) (u := [10,0,0,0,0]) hfit
  refine ⟨p₀,_,h,hop,fun hbound => ?_⟩
  rw [hu] at hc
  rw [hv,hu] at hbound
  have hpiece := hcut.piece hb hfit hc hbound hstages rfl
  rw [walk_nil,Nat.cast_one,one_div_one,Vector3.between_one,div_one,
    show |η 4 - θ 4| = 90 by norm_num [η,θ],hquarter,
    show Stage.radius2 ⟨"a",.z,⟨0,0,0⟩,some 4⟩ (⟨0,-10,0⟩ : Vector3 ℝ) = 10 ^ 2 by
      norm_num [Stage.radius2,Vector3.radius2,Vector3.plane,Vector3.sub],
    Real.sqrt_sq (by norm_num)] at hpiece
  linarith [Real.pi_gt_three]

end Pivot

end Gantry
