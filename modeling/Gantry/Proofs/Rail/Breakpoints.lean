import Mathlib
import Gantry.Proofs.Rail.Track

set_option autoImplicit false

namespace Gantry

section Order

theorem mergeSort_sorted {α : Type} [Scalar α] [LawfulScalar α] (ts : List α) :
    (ts.mergeSort Scalar.sortsBefore).Pairwise fun x y => Scalar.sortsBefore x y = true :=
  List.pairwise_mergeSort
    (fun x y z (hxy : Scalar.sortsBefore x y = true) (hyz : Scalar.sortsBefore y z = true) =>
      LawfulScalar.sortsBefore_trans hxy hyz) LawfulScalar.sortsBefore_total ts

noncomputable def inOrder (ts : List ℝ) : List ℝ := ts.mergeSort Scalar.sortsBefore

theorem inOrder_perm (ts : List ℝ) : (inOrder ts).Perm ts := List.mergeSort_perm ts _

@[simp] theorem mem_inOrder {ts : List ℝ} {t : ℝ} : t ∈ inOrder ts ↔ t ∈ ts :=
  (inOrder_perm ts).mem_iff

theorem inOrder_sorted (ts : List ℝ) : (inOrder ts).Pairwise (· ≤ ·) :=
  (mergeSort_sorted ts).imp fun {a b} hab => by simpa using hab

theorem inOrder_eq {ts us : List ℝ} (hp : ts.Perm us) (hs : us.Pairwise (· ≤ ·)) :
    inOrder ts = us :=
  List.Perm.eq_of_pairwise (fun _ _ _ _ hab hba => le_antisymm hab hba) (inOrder_sorted ts) hs
    ((inOrder_perm ts).trans hp)

end Order

namespace Track

noncomputable def inside (k : Track ℝ) (start stop : ℝ) : List ℝ :=
  (k.touching start stop).flatMap fun m => m.boundaries.filter fun t => start < t ∧ t < stop

theorem mem_inside {k : Track ℝ} {start stop t : ℝ} :
    t ∈ k.inside start stop ↔
      (∃ m ∈ k.touching start stop, t ∈ m.boundaries) ∧ start < t ∧ t < stop := by
  simp only [inside,List.mem_flatMap,List.mem_filter,decide_eq_true_eq]
  exact ⟨fun ⟨m,hm,hb,ht⟩ => ⟨⟨m,hm,hb⟩,ht⟩,fun ⟨⟨m,hm,hb⟩,ht⟩ => ⟨m,hm,hb,ht⟩⟩

end Track

section Sorted
variable {k : Track ℝ} {start stop : ℝ}

theorem sorted_inside (h : start < stop) :
    (start :: (inOrder (k.inside start stop) ++ [stop])).Pairwise (· ≤ ·) := by
  have hi : ∀ t ∈ inOrder (k.inside start stop), start < t ∧ t < stop := by
    intro t ht
    exact (Track.mem_inside.1 (mem_inOrder.1 ht)).2
  refine List.pairwise_cons.2 ⟨?_,List.pairwise_append.2 ⟨inOrder_sorted _,by simp,?_⟩⟩
  · intro t ht
    rcases List.mem_append.1 ht with ht | ht
    · exact (hi t ht).1.le
    · rw [List.mem_singleton.1 ht]; exact h.le
  · intro t ht u hu
    rw [List.mem_singleton.1 hu]; exact (hi t ht).2.le

theorem breakpoints_eq (h : start < stop) :
    breakpoints k start stop = spaced start (inOrder (k.inside start stop) ++ [stop]) := by
  have hp : (start :: stop :: k.inside start stop).Perm
      (start :: (inOrder (k.inside start stop) ++ [stop])) := by
    refine List.Perm.cons start ?_
    exact ((inOrder_perm _).symm.cons stop).trans (List.perm_append_singleton stop _).symm
  have he : (start :: stop :: k.inside start stop).mergeSort Scalar.sortsBefore =
      start :: (inOrder (k.inside start stop) ++ [stop]) := inOrder_eq hp (sorted_inside h)
  unfold Track.inside at he
  simp only [breakpoints,breakTimes,he,Track.inside]

end Sorted

section Cut
variable {α : Type} [Scalar α] {a b start stop : α} {ts : List α}

theorem spaced_cut (a : α) (ts : List α) : ∃ us, spaced a ts = a :: us ∧ us ⊆ ts := by
  induction ts generalizing a with
  | nil => exact ⟨[],rfl,List.nil_subset []⟩
  | cons t ts ih =>
    unfold spaced
    split
    · obtain ⟨us,hus,hsub⟩ := ih a
      exact ⟨us,hus,List.subset_cons_of_subset t hsub⟩
    · obtain ⟨us,hus,hsub⟩ := ih t
      exact ⟨spaced t ts,rfl,by rw [hus]; exact List.cons_subset_cons t hsub⟩

theorem spaced_head (a : α) (ts : List α) : ∃ us, spaced a ts = a :: us := by
  obtain ⟨us,hus,-⟩ := spaced_cut a ts
  exact ⟨us,hus⟩

theorem mem_of_mem_spaced (h : b ∈ spaced a ts) : b = a ∨ b ∈ ts := by
  obtain ⟨us,hus,hsub⟩ := spaced_cut a ts
  rw [hus] at h
  exact (List.mem_cons.1 h).imp_right fun hb => hsub hb

variable [LawfulScalar α]

theorem mergeSort_cons_of_lt (h : ∀ t ∈ ts, a < t) :
    ∃ us, (a :: ts).mergeSort Scalar.sortsBefore = a :: us ∧ us.Perm ts := by
  have hperm : ((a :: ts).mergeSort Scalar.sortsBefore).Perm (a :: ts) := List.mergeSort_perm _ _
  have hsort := mergeSort_sorted (a :: ts)
  cases hl : (a :: ts).mergeSort Scalar.sortsBefore with
  | nil => simp [hl] at hperm
  | cons x us =>
    rw [hl] at hperm hsort
    have hxa : x = a := by
      by_contra hne
      have hx := (List.mem_cons.1 (hperm.subset List.mem_cons_self)).resolve_left hne
      have ha := (List.mem_cons.1 (hperm.symm.subset List.mem_cons_self)).resolve_left
        (fun he => hne he.symm)
      have hle := (List.pairwise_cons.1 hsort).1 a ha
      have haa := LawfulScalar.le_left (LawfulScalar.le_of_lt (h x hx))
      simp only [Scalar.sortsBefore,LawfulScalar.isNaN_eq_false.2 haa,Bool.or_false,
        decide_eq_true_eq] at hle
      exact LawfulScalar.not_lt_of_le hle (h x hx)
    subst hxa
    exact ⟨us,rfl,(List.perm_cons x).1 hperm⟩

theorem breakpoints_cut (k : Track α) (h : start < stop) :
    ∃ us, breakpoints k start stop = start :: us ∧ ∀ t ∈ us, start < t := by
  unfold breakpoints breakTimes
  dsimp only
  set inside := (k.touching start stop).flatMap fun m =>
    m.boundaries.filter fun t => start < t ∧ t < stop with hinside
  have hlt : ∀ t ∈ stop :: inside, start < t := by
    refine List.forall_mem_cons.2 ⟨h,fun t ht => ?_⟩
    obtain ⟨m,-,hm⟩ := List.mem_flatMap.1 ht
    exact (of_decide_eq_true (List.mem_filter.1 hm).2).1
  -- All other times lie behind the start, so sorting leaves it in front.
  obtain ⟨us,hus,hperm⟩ := mergeSort_cons_of_lt hlt
  rw [hus]
  obtain ⟨vs,hvs,hsub⟩ := spaced_cut start us
  exact ⟨vs,hvs,fun t ht => hlt t (hperm.subset (hsub ht))⟩

end Cut

section Spaced
variable {a b t : ℝ} {ts : List ℝ}

theorem spaced_cons_of_near (h : |t - a| < timeEpsilon) :
    spaced a (t :: ts) = spaced a ts := by
  simp [spaced,h]

theorem spaced_cons_of_far (h : timeEpsilon ≤ |t - a|) :
    spaced a (t :: ts) = a :: spaced t ts := by
  simp [spaced,not_lt.2 h]

/-- Times close to the last one kept are swallowed. -/
theorem spaced_append_of_near (h : ∀ u ∈ ts, |u - a| < timeEpsilon) (us : List ℝ) :
    spaced a (ts ++ us) = spaced a us := by
  induction ts with
  | nil => rfl
  | cons t ts ih =>
    rw [List.cons_append,spaced_cons_of_near (h t List.mem_cons_self)]
    exact ih fun u hu => h u (List.mem_cons_of_mem t hu)

theorem spaced_of_near (h : ∀ u ∈ ts, |u - a| < timeEpsilon) : spaced a ts = [a] := by
  have hs := spaced_append_of_near h []
  rw [List.append_nil] at hs
  rw [hs]; rfl

theorem spaced_of_last_near (h : (a :: (ts ++ [b])).Pairwise (· ≤ ·)) (hb : b < a + timeEpsilon) :
    spaced a (ts ++ [b]) = [a] := by
  obtain ⟨ha,hts⟩ := List.pairwise_cons.1 h
  refine spaced_of_near fun u hu => ?_
  have hub : u ≤ b := by
    rcases List.mem_append.1 hu with hu | hu
    · exact (List.pairwise_append.1 hts).2.2 u hu b (List.mem_singleton_self b)
    · exact (List.mem_singleton.1 hu).le
  rw [abs_of_nonneg (by linarith [ha u hu])]
  linarith

theorem spaced_apart (h : (a :: ts).Pairwise (· ≤ ·)) :
    (spaced a ts).Pairwise fun u v => u + timeEpsilon ≤ v := by
  induction ts generalizing a with
  | nil => exact List.pairwise_singleton _ _
  | cons t ts ih =>
    obtain ⟨ha,ht⟩ := List.pairwise_cons.1 h
    have hat := ha t List.mem_cons_self
    rcases lt_or_ge |t - a| timeEpsilon with hn | hf
    · rw [spaced_cons_of_near hn]
      exact ih (h.sublist (by simp))
    · rw [spaced_cons_of_far hf]
      rw [abs_of_nonneg (by linarith)] at hf
      refine List.pairwise_cons.2 ⟨fun b hb => ?_,ih ht⟩
      have htb : t ≤ b := by
        rcases mem_of_mem_spaced hb with rfl | hb
        · exact le_rfl
        · exact (List.pairwise_cons.1 ht).1 b hb
      linarith

/-- Every time is kept or follows a kept one closely. -/
theorem exists_mem_spaced (h : (a :: ts).Pairwise (· ≤ ·)) (ht : t ∈ a :: ts) :
    ∃ b ∈ spaced a ts, b ≤ t ∧ t < b + timeEpsilon := by
  have he := timeEpsilon_pos
  induction ts generalizing a with
  | nil => exact ⟨a,List.mem_singleton_self a,by simp_all⟩
  | cons u us ih =>
    obtain ⟨ha,hu⟩ := List.pairwise_cons.1 h
    have hau := ha u List.mem_cons_self
    rcases lt_or_ge |u - a| timeEpsilon with hn | hf
    · rw [spaced_cons_of_near hn]
      have hs : (a :: us).Pairwise (· ≤ ·) := h.sublist (by simp)
      rw [abs_of_nonneg (by linarith)] at hn
      rcases List.mem_cons.1 ht with rfl | ht
      · exact ih hs List.mem_cons_self
      · rcases List.mem_cons.1 ht with rfl | ht
        · obtain ⟨vs,hv⟩ := spaced_head a us
          exact ⟨a,hv ▸ List.mem_cons_self,hau,by linarith⟩
        · exact ih hs (List.mem_cons_of_mem a ht)
    · rw [spaced_cons_of_far hf]
      rcases List.mem_cons.1 ht with rfl | ht
      · exact ⟨t,List.mem_cons_self,le_rfl,by linarith⟩
      · obtain ⟨b,hb,hbt⟩ := ih hu ht
        exact ⟨b,List.mem_cons_of_mem a hb,hbt⟩

theorem spaced_append (h : ∀ u ∈ a :: ts, u + timeEpsilon ≤ t) :
    ∃ us, spaced a (ts ++ [t]) = a :: us ++ [t] := by
  induction ts generalizing a with
  | nil =>
    have hf : timeEpsilon ≤ |t - a| := by
      have hat := h a List.mem_cons_self
      exact le_abs.2 (Or.inl (by linarith))
    exact ⟨[],by rw [List.nil_append,spaced_cons_of_far hf]; rfl⟩
  | cons u ts ih =>
    rcases lt_or_ge |u - a| timeEpsilon with hn | hf
    · rw [List.cons_append,spaced_cons_of_near hn]
      exact ih fun v hv => h v (by simp_all; tauto)
    · rw [List.cons_append,spaced_cons_of_far hf]
      obtain ⟨us,hu⟩ := ih (a := u) fun v hv => h v (List.mem_cons_of_mem a hv)
      exact ⟨u :: us,by rw [hu]; rfl⟩

/-- Times close to the first one or closely behind a second one leave these two. -/
theorem spaced_pair (h : (a :: ts).Pairwise (· ≤ ·)) (hb : b ∈ ts) (hab : a + timeEpsilon ≤ b)
    (hn : ∀ t ∈ ts, t < a + timeEpsilon ∨ b ≤ t ∧ t < b + timeEpsilon) : spaced a ts = [a,b] := by
  have he := timeEpsilon_pos
  induction ts with
  | nil => cases hb
  | cons t ts ih =>
    obtain ⟨ha,ht⟩ := List.pairwise_cons.1 h
    have hat := ha t List.mem_cons_self
    rcases hn t List.mem_cons_self with htn | ⟨hbt,htb⟩
    · have hb : b ∈ ts := (List.mem_cons.1 hb).resolve_left (by rintro rfl; linarith)
      rw [spaced_cons_of_near (by rw [abs_of_nonneg] <;> linarith)]
      exact ih (h.sublist (by simp)) hb fun u hu => hn u (List.mem_cons_of_mem t hu)
    · have htb : t = b := by
        rcases List.mem_cons.1 hb with rfl | hb
        · rfl
        · exact le_antisymm ((List.pairwise_cons.1 ht).1 b hb) hbt
      subst htb
      have hnear : ∀ u ∈ ts, |u - t| < timeEpsilon := by
        intro u hu
        have htu := (List.pairwise_cons.1 ht).1 u hu
        rw [abs_of_nonneg (by linarith)]
        rcases hn u (List.mem_cons_of_mem t hu) with hu | hu <;> linarith
      rw [spaced_cons_of_far (le_abs.2 (Or.inl (by linarith))),spaced_of_near hnear]

end Spaced

/-- A range whose boundaries are close to its start or closely behind another time is one
window. -/
theorem breakpoints_of_pair {k : Track ℝ} {start stop t : ℝ} (h : start + timeEpsilon ≤ t)
    (hs : t ≤ stop) (hst : stop < t + timeEpsilon) (ht : t = stop ∨ t ∈ k.inside start stop)
    (hn : ∀ u ∈ k.inside start stop, u < start + timeEpsilon ∨ t ≤ u) :
    breakpoints k start stop = [start,t] := by
  have he := timeEpsilon_pos
  have hlt : start < stop := by linarith
  rw [breakpoints_eq hlt]
  refine spaced_pair (sorted_inside hlt) ?_ h fun u hu => ?_
  · rcases ht with rfl | ht
    · simp
    · exact List.mem_append_left _ (mem_inOrder.2 ht)
  · rcases List.mem_append.1 hu with hu | hu
    · have hu := mem_inOrder.1 hu
      have hus := (Track.mem_inside.1 hu).2.2
      exact (hn u hu).imp_right fun htu => ⟨htu,by linarith⟩
    · rw [List.mem_singleton.1 hu]
      exact Or.inr ⟨hs,hst⟩

theorem breakpoints_of_near {k : Track ℝ} {start stop : ℝ} (h : start + timeEpsilon ≤ stop)
    (hn : ∀ t ∈ k.inside start stop, t < start + timeEpsilon) :
    breakpoints k start stop = [start,stop] :=
  breakpoints_of_pair h le_rfl (by linarith [timeEpsilon_pos]) (Or.inl rfl)
    fun t ht => Or.inl (hn t ht)

theorem mem_breakpoints {k : Track ℝ} {start stop u : ℝ} (h : start < stop)
    (hu : u ∈ breakpoints k start stop) : start ≤ u ∧ u ≤ stop := by
  rw [breakpoints_eq h] at hu
  have hs := sorted_inside (k := k) h
  rcases mem_of_mem_spaced hu with rfl | hu
  · exact ⟨le_rfl,h.le⟩
  · refine ⟨(List.pairwise_cons.1 hs).1 u hu,?_⟩
    rcases List.mem_append.1 hu with hu | hu
    · exact (Track.mem_inside.1 (mem_inOrder.1 hu)).2.2.le
    · exact (List.mem_singleton.1 hu).le

/-- A range that is not shorter than the slack is cut near its end; a shorter one is not cut. -/
theorem breakpoints_cases {k : Track ℝ} {start stop : ℝ} (h : start < stop) :
    breakpoints k start stop = [start] ∧ stop < start + timeEpsilon ∨
    ∃ us t, breakpoints k start stop = start :: us ++ [t] ∧
      (start :: us ++ [t]).Pairwise (fun u v => u + timeEpsilon ≤ v) ∧
      t ≤ stop ∧ stop < t + timeEpsilon := by
  have he := timeEpsilon_pos
  have hs := sorted_inside (k := k) h
  have hp := spaced_apart hs
  obtain ⟨b,hb,-,hsb⟩ := exists_mem_spaced hs (t := stop) (by simp)
  obtain ⟨us,hus⟩ := spaced_head start (inOrder (k.inside start stop) ++ [stop])
  rw [breakpoints_eq h]
  rcases List.eq_nil_or_concat us with hnil | ⟨us,t,rfl⟩
  · rw [hnil] at hus
    rw [hus,List.mem_singleton] at hb
    exact Or.inl ⟨hus,hb ▸ hsb⟩
  · rw [List.concat_eq_append,← List.cons_append] at hus
    refine Or.inr ⟨us,t,hus,hus ▸ hp,?_,?_⟩
    · have hmem : t ∈ breakpoints k start stop := by
        rw [breakpoints_eq h,hus]; simp
      exact (mem_breakpoints h hmem).2
    · have hbt : b ≤ t := by
        rw [hus] at hb hp
        rcases List.mem_append.1 hb with hb | hb
        · linarith [(List.pairwise_append.1 hp).2.2 b hb t (by simp)]
        · exact (List.mem_singleton.1 hb).le
      linarith

section Cuts
variable {k : Track ℝ} {start stop : ℝ}

/-- Each boundary inside the range is cut, or follows a cut within the slack. -/
theorem exists_cut {m : Segment ℝ} {t : ℝ} (h : start < stop) (hm : m ∈ k.touching start stop)
    (ht : t ∈ m.boundaries) (hlo : start < t) (hhi : t < stop) :
    ∃ u ∈ breakpoints k start stop, u ≤ t ∧ t < u + timeEpsilon := by
  rw [breakpoints_eq h]
  refine exists_mem_spaced (sorted_inside h) (List.mem_cons_of_mem _ (List.mem_append_left _ ?_))
  exact mem_inOrder.2 (Track.mem_inside.2 ⟨⟨m,hm,ht⟩,hlo,hhi⟩)

theorem breakpoints_ends (k : Track ℝ) (h : start < stop) :
    (breakpoints k start stop).head? = some start ∧
      (breakpoints k start stop).Pairwise (fun u v => u + timeEpsilon ≤ v) ∧
      ∃ e, (breakpoints k start stop).getLast? = some e ∧ stop - timeEpsilon < e ∧ e ≤ stop := by
  rcases breakpoints_cases (k := k) h with ⟨hb,hlt⟩ | ⟨us,t,hb,hp,ht,hlt⟩
  · rw [hb]
    exact ⟨rfl,List.pairwise_singleton _ _,start,rfl,by linarith,h.le⟩
  · rw [hb]
    exact ⟨rfl,hp,t,List.getLast?_concat,by linarith,ht⟩

end Cuts

section Windows

@[simp] theorem windows_cons_cons (a b : ℝ) (ts : List ℝ) :
    windows (a :: b :: ts) = (a,b) :: windows (b :: ts) := rfl

@[simp] theorem windows_singleton (a : ℝ) : windows [a] = [] := rfl

theorem getLast?_windows (a : ℝ) (us : List ℝ) (t : ℝ) :
    ∃ b, (windows (a :: us ++ [t])).getLast? = some (b,t) := by
  induction us generalizing a with
  | nil => exact ⟨a,rfl⟩
  | cons u us ih =>
    obtain ⟨b,hb⟩ := ih u
    refine ⟨b,?_⟩
    rw [List.cons_append,List.cons_append,windows_cons_cons,← List.cons_append,
      List.getLast?_cons,hb]
    rfl

theorem windows_clear {us : List ℝ} (h : us.Pairwise fun u v => u + timeEpsilon ≤ v) :
    ∀ w ∈ windows us, w.1 ∈ us ∧ w.2 ∈ us ∧ w.1 + timeEpsilon ≤ w.2 ∧
      ∀ u ∈ us, u ≤ w.1 ∨ w.2 ≤ u := by
  have he := timeEpsilon_pos
  induction us with
  | nil => nofun
  | cons a us ih =>
    cases us with
    | nil => nofun
    | cons b us =>
      obtain ⟨ha,hb⟩ := List.pairwise_cons.1 h
      intro w hw
      rw [windows_cons_cons] at hw
      rcases List.mem_cons.1 hw with rfl | hw
      · refine ⟨List.mem_cons_self,by simp,ha b List.mem_cons_self,List.forall_mem_cons.2
          ⟨Or.inl le_rfl,List.forall_mem_cons.2 ⟨Or.inr le_rfl,fun u hu => Or.inr ?_⟩⟩⟩
        linarith [(List.pairwise_cons.1 hb).1 u hu]
      · obtain ⟨hfst,hsnd,hle,hclear⟩ := ih hb w hw
        refine ⟨List.mem_cons_of_mem a hfst,List.mem_cons_of_mem a hsnd,hle,
          List.forall_mem_cons.2 ⟨Or.inl ?_,hclear⟩⟩
        linarith [ha w.1 hfst]

end Windows

end Gantry
