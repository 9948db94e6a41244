import Mathlib
import Gantry.Proofs.Settings.Heeded

set_option autoImplicit false

namespace Gantry

variable {α : Type}

namespace StageOptions

theorem get?_insert (o : StageOptions α) (key k : String) (v : StageValue α) :
    (o.insert key v).get? k = if k = key then some v else o.get? k := by
  simp only [get?,insert]
  generalize o.entries = es
  induction es with
  | nil =>
    by_cases hk : k = key
    · simp [place,hk]
    · simp [place,hk,Ne.symm hk]
  | cons e es ih =>
    rw [place]
    split
    · rename_i hlt
      by_cases he : e.1 = k
      · have hk : k ≠ key := he ▸ hlt.ne
        simp [he,hk]
      · simp [he,ih]
    · split
      · by_cases hk : k = key
        · simp [hk]
        · simp [hk,Ne.symm hk]
      · rename_i hle hge
        have he : e.1 = key := le_antisymm (not_lt.1 hge) (not_lt.1 hle)
        by_cases hk : k = key
        · simp [hk,he]
        · simp [hk,he,Ne.symm hk]

def insertAll (o : StageOptions α) (es : List (String × StageValue α)) : StageOptions α :=
  es.foldl (fun o e => o.insert e.1 e.2) o

/-- An option that is set to one value only has that value in the end. -/
theorem get?_insertAll (o : StageOptions α) {es : List (String × StageValue α)} {k : String}
    {v : StageValue α} (h : ∀ e ∈ es, e.1 = k → e.2 = v) :
    (o.insertAll es).get? k = if k ∈ es.map (·.1) then some v else o.get? k := by
  induction es generalizing o with
  | nil => simp [insertAll]
  | cons e es ih =>
    have hrest := ih (o.insert e.1 e.2) fun e' he' => h e' (List.mem_cons_of_mem e he')
    rw [insertAll,List.foldl_cons,← insertAll,hrest,get?_insert]
    by_cases hk : k = e.1
    · simp [← h e List.mem_cons_self hk.symm,hk]
    · simp only [hk,if_false,List.map_cons,List.mem_cons,false_or]

end StageOptions

section Write
variable [Zero α] [BEq α]

namespace StageSettings

def writes (s : StageSettings α) (spared : Axis → Bool) : StageField → Bool
  | .offset a => !(spared a && s.offset.along a == 0)
  | _ => true

def written (s : StageSettings α) (spared : Axis → Bool) : StageSettings α :=
  let component a := if s.writes spared (.offset a) then s.offset.along a else 0
  { s with offset := ⟨component .x,component .y,component .z⟩ }

theorem along_written (s : StageSettings α) (spared : Axis → Bool) (a : Axis) :
    (s.written spared).offset.along a =
      if s.writes spared (.offset a) then s.offset.along a else 0 := by
  cases a <;> rfl

/-- A stage is the same as another one, up to components that compare equal to zero. -/
structure Same (s t : StageSettings α) : Prop where
  control : t.control = s.control
  rotateAxis : t.rotateAxis = s.rotateAxis
  offset : ∀ a, t.offset.along a = s.offset.along a ∨
    (s.offset.along a == 0) = true ∧ t.offset.along a = 0

theorem same_written (s : StageSettings α) (spared : Axis → Bool) : s.Same (s.written spared) where
  control := rfl
  rotateAxis := rfl
  offset a := by
    rw [along_written]
    by_cases hz : (s.offset.along a == 0) = true
    · cases hs : spared a <;> simp [writes,hs,hz]
    · simp [writes,hz]

theorem Same.eq {s t : StageSettings α} (h : s.Same t) (hz : ∀ x : α, (x == 0) = true → x = 0) :
    t = s := by
  have halong : ∀ a, t.offset.along a = s.offset.along a := by
    intro a
    rcases h.offset a with ha | ⟨hs,ht⟩
    · exact ha
    · rw [ht,hz _ hs]
  obtain ⟨control,axis,x,y,z⟩ := s
  obtain ⟨control',axis',x',y',z'⟩ := t
  obtain rfl : control' = control := h.control
  obtain rfl : axis' = axis := h.rotateAxis
  obtain rfl : x' = x := halong .x
  obtain rfl : y' = y := halong .y
  obtain rfl : z' = z := halong .z
  rfl

def options (s : StageSettings α) (spared : Axis → Bool) (i : Nat) :
    List (String × StageValue α) :=
  (StageField.all.filter (s.writes spared)).map fun f => (f.key i,s.value f)

theorem mem_options {s : StageSettings α} {spared : Axis → Bool} {i : Nat}
    {e : String × StageValue α} :
    e ∈ s.options spared i ↔ ∃ f, s.writes spared f = true ∧ e = (f.key i,s.value f) := by
  simp only [options,List.mem_map,List.mem_filter]
  constructor
  · rintro ⟨f,⟨-,hf⟩,rfl⟩
    exact ⟨f,hf,rfl⟩
  · rintro ⟨f,hf,rfl⟩
    exact ⟨f,⟨f.mem_all,hf⟩,rfl⟩

end StageSettings

namespace StageOptions
variable {stages : List (StageSettings α)} {spared : Nat → Axis → Bool} {i : Nat}

def ofStages (spared : Nat → Axis → Bool) (stages : List (StageSettings α)) : StageOptions α :=
  insertAll empty (stages.zipIdx.flatMap fun (s,i) => s.options (spared i) i)

theorem mem_written {e : String × StageValue α} :
    e ∈ (stages.zipIdx.flatMap fun (s,i) => s.options (spared i) i) ↔
      ∃ (i : Nat) (s : StageSettings α) (f : StageField), stages[i]? = some s ∧
        s.writes (spared i) f = true ∧ e = (f.key i,s.value f) := by
  simp only [List.mem_flatMap,Prod.exists,List.mem_zipIdx_iff_getElem?,StageSettings.mem_options]
  constructor
  · rintro ⟨s,i,hs,f,hf,rfl⟩
    exact ⟨i,s,f,hs,hf,rfl⟩
  · rintro ⟨i,s,f,hs,hf,rfl⟩
    exact ⟨s,i,hs,f,hf,rfl⟩

theorem get?_ofStages_of_written {s : StageSettings α} {f : StageField} (hs : stages[i]? = some s)
    (hf : s.writes (spared i) f = true) :
    (ofStages spared stages).get? (f.key i) = some (s.value f) := by
  have hmem : (f.key i,s.value f) ∈ stages.zipIdx.flatMap fun (s,i) => s.options (spared i) i :=
    mem_written.2 ⟨i,s,f,hs,hf,rfl⟩
  rw [ofStages,get?_insertAll (v := s.value f),if_pos (List.mem_map_of_mem hmem)]
  intro e he hkey
  obtain ⟨j,t,g,ht,-,rfl⟩ := mem_written.1 he
  obtain ⟨rfl,rfl⟩ := StageField.key_injective hkey
  rw [Option.some.inj (ht.symm.trans hs)]

theorem mem_ofStages {e : String × StageValue α} : e ∈ (ofStages spared stages).entries ↔
    ∃ (i : Nat) (s : StageSettings α) (f : StageField), stages[i]? = some s ∧
      s.writes (spared i) f = true ∧ e = (f.key i,s.value f) := by
  rw [← get?_eq_some]
  constructor
  · intro he
    by_cases hmem : e.1 ∈ (stages.zipIdx.flatMap fun (s,i) => s.options (spared i) i).map (·.1)
    · obtain ⟨e',he',hkey⟩ := List.mem_map.1 hmem
      obtain ⟨i,s,f,hs,hf,rfl⟩ := mem_written.1 he'
      rw [← hkey,get?_ofStages_of_written hs hf] at he
      exact ⟨i,s,f,hs,hf,Prod.ext hkey.symm (Option.some.inj he).symm⟩
    · have hnone := get?_insertAll empty (v := e.2) fun e' he' (hkey : e'.1 = e.1) =>
        (hmem (List.mem_map.2 ⟨e',he',hkey⟩)).elim
      rw [if_neg hmem] at hnone
      cases hnone.symm.trans he
  · rintro ⟨i,s,f,hs,hf,rfl⟩
    exact get?_ofStages_of_written hs hf

theorem get?_ofStages_eq_none {f : StageField}
    (h : ∀ s, stages[i]? = some s → s.writes (spared i) f = false) :
    (ofStages spared stages).get? (f.key i) = none := by
  refine Option.eq_none_iff_forall_ne_some.2 fun v hv => ?_
  obtain ⟨j,s,g,hs,hg,he⟩ := mem_ofStages.1 (get?_eq_some.1 hv)
  obtain ⟨rfl,rfl⟩ := StageField.key_injective (congrArg Prod.fst he)
  rw [h s hs] at hg
  cases hg

theorem describes_ofStages {s : StageSettings α} (hs : stages[i]? = some s) :
    (ofStages spared stages).Describes i (s.written (spared i)) where
  control := get?_ofStages_of_written (s := s) (f := .control) hs rfl
  rotateAxis := get?_ofStages_of_written (s := s) (f := .rotateAxis) hs rfl
  offset a := by
    rw [StageSettings.value,StageSettings.along_written]
    cases hw : s.writes (spared i) (.offset a) with
    | true => exact .inl (get?_ofStages_of_written hs hw)
    | false =>
      refine .inr ⟨get?_ofStages_eq_none fun t ht => ?_,rfl⟩
      rw [Option.some.inj (ht.symm.trans hs),hw]

theorem stagesFrom_ofStages (n : Nat) : (ofStages spared stages).stagesFrom n 0 =
    .ok ((stages.mapIdx fun i s => s.written (spared i)).take n) := by
  refine stagesFrom_eq_ok.2 ⟨by simp,fun k s hk => ?_,fun hlt => ?_⟩
  · rw [Nat.zero_add]
    rw [List.getElem?_take] at hk
    split at hk
    · rw [List.getElem?_mapIdx] at hk
      obtain ⟨t,ht,rfl⟩ := Option.map_eq_some_iff.1 hk
      exact describes_ofStages ht
    · cases hk
  · have hlen : stages.length < n := by simpa using hlt
    refine get?_ofStages_eq_none fun s hs => ?_
    have hi := (List.getElem?_eq_some_iff.1 hs).1
    simp at hi
    omega

theorem stages_ofStages_of_le (h : stages.length ≤ Pivot.maxStages) :
    (ofStages spared stages).stages = .ok (stages.mapIdx fun i s => s.written (spared i)) := by
  refine stages_eq_ok.2 ⟨?_,fun e he => ?_⟩
  · rw [stagesFrom_ofStages,List.take_of_length_le (by simpa using h)]
  · obtain ⟨i,s,f,hs,-,rfl⟩ := mem_ofStages.1 he
    have hi := (List.getElem?_eq_some_iff.1 hs).1
    exact belongs_iff.2 ⟨f,false,0,i,by simpa using hi,f.key_eq_spelling i⟩

theorem control_lt_key {f : StageField} (hf : f ≠ .control) (i j : Nat) :
    StageField.control.key i < f.key j := by
  obtain ⟨t,ht⟩ : ∃ t, (StageField.control.key i).toList = 'c' :: t := by
    rw [StageField.key_eq_spelling,StageField.toList_spelling]
    exact ⟨_,rfl⟩
  obtain ⟨c,u,hu,hc⟩ : ∃ c u, (f.key j).toList = c :: u ∧ 'c' < c := by
    rw [StageField.key_eq_spelling,StageField.toList_spelling]
    rcases f with _ | _ | ⟨_ | _ | _⟩
    · exact absurd rfl hf
    · exact ⟨'r',_,rfl,by decide⟩
    · exact ⟨'o',_,rfl,by decide⟩
    · exact ⟨'o',_,rfl,by decide⟩
    · exact ⟨'o',_,rfl,by decide⟩
  rw [String.lt_iff_toList_lt,ht,hu]
  exact List.cons_lt_cons_iff.2 (.inl hc)

omit [Zero α] [BEq α] in
theorem strayError_control (i : Nat) :
    (strayError Pivot.maxStages (StageField.control.key i) : ConfigError α) =
      .tooManyStages Pivot.maxStages := by
  have hlead : "control_".toList <+: (StageField.control.key i).toList := by
    rw [StageField.key_eq_spelling,StageField.toList_spelling]
    exact List.prefix_append _ _
  exact if_pos ⟨List.isPrefixOf_iff_prefix.2 hlead,rfl⟩

omit [Zero α] [BEq α] in
/-- Of options that belong to no stage the first is a control if one of them is. -/
theorem find?_eq_control {o : StageOptions α} {n : Nat} {v : StageValue α}
    (hcontrol : (StageField.control.key i,v) ∈ o.entries) (hi : n ≤ i)
    (hall : ∀ e ∈ o.entries, ∃ f j, e.1 = StageField.key f j) :
    ∃ j w, (o.entries.find? fun e => !belongs n e.1) = some (StageField.control.key j,w) := by
  have hstray : belongs n (StageField.control.key i) = false := by
    rw [← Bool.not_eq_true,belongs_iff]
    rintro ⟨f,plus,zeros,j,hj,hkey⟩
    rw [StageField.key_eq_spelling] at hkey
    obtain ⟨-,-,-,rfl⟩ := StageField.spelling_injective hkey
    omega
  cases hfind : o.entries.find? fun e => !belongs n e.1 with
  | none => exact absurd (List.find?_eq_none.1 hfind _ hcontrol) (by simp [hstray])
  | some e =>
    obtain ⟨-,before,after,hsplit,hbefore⟩ := List.find?_eq_some_iff_append.1 hfind
    obtain ⟨f,j,hkey⟩ := hall e (List.mem_of_find?_eq_some hfind)
    -- the control stands at the place of what is found, or behind it
    have hle : e.1 ≤ StageField.control.key i := by
      rw [hsplit,List.mem_append,List.mem_cons] at hcontrol
      rcases hcontrol with hmem | rfl | hmem
      · exact absurd (hbefore _ hmem) (by simp [hstray])
      · exact le_rfl
      · have hsorted := o.ascending
        rw [hsplit] at hsorted
        exact (List.rel_of_pairwise_cons (List.pairwise_append.1 hsorted).2.1 hmem).le
    obtain rfl : f = .control := by
      by_contra hf
      exact absurd (hkey ▸ hle) (not_le.2 (control_lt_key hf i j))
    exact ⟨j,e.2,by rw [← hkey]⟩

theorem stages_ofStages_of_lt (h : Pivot.maxStages < stages.length) :
    (ofStages spared stages).stages = .error (.tooManyStages Pivot.maxStages) := by
  have hlast := List.getElem?_eq_getElem h
  obtain ⟨j,v,hfind⟩ := find?_eq_control (n := Pivot.maxStages)
    (mem_ofStages.2 ⟨_,_,.control,hlast,rfl,rfl⟩) le_rfl fun e he => by
      obtain ⟨i,s,f,-,-,rfl⟩ := mem_ofStages.1 he
      exact ⟨f,i,rfl⟩
  have hread : (ofStages spared stages).stagesFrom Pivot.maxStages 0 = _ := stagesFrom_ofStages _
  have hlen : ((stages.mapIdx fun i s => s.written (spared i)).take Pivot.maxStages).length =
      Pivot.maxStages := by
    simpa using h.le
  rw [StageOptions.stages,hread,Results.ok_bind,hlen,hfind]
  exact congrArg Except.error (strayError_control j)

/-- Stages that are written as options are read again in order, and more of them than there can be
are refused for their number. -/
theorem stages_ofStages (spared : Nat → Axis → Bool) (stages : List (StageSettings α)) :
    (stages.length ≤ Pivot.maxStages →
      (∃ read, (ofStages spared stages).stages = .ok read ∧
        List.Forall₂ StageSettings.Same stages read) ∧
      ((∀ x : α, (x == 0) = true → x = 0) → (ofStages spared stages).stages = .ok stages)) ∧
    (Pivot.maxStages < stages.length →
      (ofStages spared stages).stages = .error (.tooManyStages Pivot.maxStages)) := by
  have hsame : List.Forall₂ StageSettings.Same stages
      (stages.mapIdx fun i s => s.written (spared i)) := by
    refine List.forall₂_iff_get.2 ⟨by simp,fun i hi hi' => ?_⟩
    simpa using StageSettings.same_written _ _
  refine ⟨fun h => ⟨⟨_,stages_ofStages_of_le h,hsame⟩,fun hz => ?_⟩,stages_ofStages_of_lt⟩
  have heq : List.Forall₂ (· = ·) stages (stages.mapIdx fun i s => s.written (spared i)) :=
    hsame.imp fun _ _ hs => (hs.eq hz).symm
  rw [List.forall₂_eq_eq_eq] at heq
  rw [stages_ofStages_of_le h,← heq]

end StageOptions

end Write

def StageSettings.tilted : StageSettings Float := ⟨"manual_stepper a",.x,⟨0,5,-0⟩⟩

/-- Eleven such stages, of which the last comes before the third by name, are read again from what
is not zero; a hundred are too many. -/
theorem StageOptions.stages_ofStages_tilted :
    (∃ read, (ofStages (fun _ _ => true) (List.replicate 11 StageSettings.tilted)).stages =
        .ok read ∧
      List.Forall₂ StageSettings.Same (List.replicate 11 StageSettings.tilted) read) ∧
    (ofStages (fun _ _ => true) (List.replicate 100 StageSettings.tilted)).stages =
      .error (.tooManyStages 99) :=
  ⟨((stages_ofStages _ _).1 (by decide)).1,(stages_ofStages _ _).2 (by decide)⟩

end Gantry
