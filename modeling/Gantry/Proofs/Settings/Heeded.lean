import Mathlib
import Gantry.Numeric.Binary64
import Gantry.Proofs.Results
import Gantry.Proofs.Settings.OptionNames

/-!
Options that are heeded. The stages that are read are those that the options describe, one after
another up to the first without a control. What belongs to none of them is refused, but a name
belongs to a stage however its number is spelled, and only one spelling is read. So an option that
spells the number of a stage in another way is accepted without being read; nothing else is.
-/
set_option autoImplicit false

namespace Gantry
open Results

variable {α : Type}

theorem Axis.ofName?_eq_some {s : String} {a : Axis} : Axis.ofName? s = some a ↔ s = a.name := by
  constructor
  · intro h
    have hname := List.find?_some h
    exact (eq_of_beq hname).symm
  · rintro rfl
    exact Axis.ofName?_name a

def Vector3.along (v : Vector3 α) : Axis → α
  | .x => v.x
  | .y => v.y
  | .z => v.z

def StageSettings.value (s : StageSettings α) : StageField → StageValue α
  | .control => .text s.control
  | .rotateAxis => .text s.rotateAxis.name
  | .offset a => .number (s.offset.along a)

namespace StageOptions
variable {o : StageOptions α} {i n : Nat}

theorem ascending_nil : ([] : List (String × StageValue α)).Pairwise (fun e f => e.1 < f.1) :=
  List.Pairwise.nil

def empty : StageOptions α := ⟨[],ascending_nil⟩

theorem key_nodup (o : StageOptions α) : (o.entries.map (·.1)).Nodup :=
  List.pairwise_map.2 (o.ascending.imp fun h => ne_of_lt h)

theorem get?_eq_some {key : String} {v : StageValue α} :
    o.get? key = some v ↔ (key,v) ∈ o.entries := by
  constructor
  · intro h
    obtain ⟨e,he,rfl⟩ := Option.map_eq_some_iff.1 h
    have hkey := List.find?_some he
    rw [← eq_of_beq hkey]
    exact List.mem_of_find?_eq_some he
  · intro h
    cases hfind : o.entries.find? fun e => e.1 == key with
    | none => exact absurd (List.find?_eq_none.1 hfind (key,v) h) (by simp)
    | some e =>
      have hkey := List.find?_some hfind
      have heq := List.inj_on_of_nodup_map o.key_nodup (List.mem_of_find?_eq_some hfind) h
        (eq_of_beq hkey)
      rw [get?,hfind,heq]
      rfl

theorem control?_eq_none : o.control? i = .ok none ↔ o.get? (StageField.control.key i) = none := by
  unfold control?
  dsimp only
  split <;> simp_all

theorem control?_eq_some {s : String} :
    o.control? i = .ok (some s) ↔ o.get? (StageField.control.key i) = some (.text s) := by
  unfold control?
  dsimp only
  split <;> simp_all

theorem rotateAxis_eq_ok {a : Axis} :
    o.rotateAxis i = .ok a ↔ o.get? (StageField.rotateAxis.key i) = some (.text a.name) := by
  unfold rotateAxis
  dsimp only
  split
  · simp_all
  · rename_i s hs
    rw [hs]
    cases hname : Axis.ofName? s with
    | none =>
      simp only [reduceCtorEq,Option.some.injEq,StageValue.text.injEq,false_iff]
      rintro rfl
      rw [Axis.ofName?_name] at hname
      cases hname
    | some b =>
      simp only [Except.ok.injEq,Option.some.injEq,StageValue.text.injEq]
      rw [← Axis.ofName?_eq_some,hname,Option.some.injEq]
  · simp_all

variable [Zero α]

theorem offset_eq_ok {a : Axis} {x : α} : o.offset i a = .ok x ↔
    o.get? ((StageField.offset a).key i) = some (.number x) ∨
      o.get? ((StageField.offset a).key i) = none ∧ x = 0 := by
  unfold offset
  dsimp only
  split <;> rename_i h <;> rw [h] <;> simp [eq_comm]

/-- Options describe a stage of a number: what they give is what it has, its control and its axis
are given, and where a component is not, it is zero. -/
structure Describes (o : StageOptions α) (i : Nat) (s : StageSettings α) : Prop where
  control : o.get? (StageField.control.key i) = some (s.value .control)
  rotateAxis : o.get? (StageField.rotateAxis.key i) = some (s.value .rotateAxis)
  offset : ∀ a, o.get? ((StageField.offset a).key i) = some (s.value (.offset a)) ∨
    o.get? ((StageField.offset a).key i) = none ∧ s.offset.along a = 0

theorem Describes.value {s : StageSettings α} (h : o.Describes i s) {f : StageField}
    {v : StageValue α} (hv : o.get? (f.key i) = some v) : s.value f = v := by
  have hf : o.get? (f.key i) = some (s.value f) ∨ o.get? (f.key i) = none := by
    cases f with
    | control => exact .inl h.control
    | rotateAxis => exact .inl h.rotateAxis
    | offset a => exact (h.offset a).imp id And.left
  rcases hf with hf | hf
  · exact Option.some.inj (hf.symm.trans hv)
  · cases hf.symm.trans hv

theorem stage?_eq_none :
    o.stage? i = .ok none ↔ o.get? (StageField.control.key i) = none := by
  rw [← control?_eq_none,stage?,bind_eq_ok]
  constructor
  · rintro ⟨c,hc,h⟩
    cases c with
    | none => exact hc
    | some c =>
      obtain ⟨_,-,h⟩ := bind_eq_ok.1 h
      obtain ⟨_,-,h⟩ := bind_eq_ok.1 h
      obtain ⟨_,-,h⟩ := bind_eq_ok.1 h
      obtain ⟨_,-,h⟩ := bind_eq_ok.1 h
      cases h
  · exact fun h => ⟨none,h,rfl⟩

theorem stage?_eq_some {s : StageSettings α} : o.stage? i = .ok (some s) ↔ o.Describes i s := by
  rw [stage?,bind_eq_ok]
  constructor
  · rintro ⟨c,hc,h⟩
    cases c with
    | none => cases h
    | some c =>
      obtain ⟨a,ha,h⟩ := bind_eq_ok.1 h
      obtain ⟨x,hx,h⟩ := bind_eq_ok.1 h
      obtain ⟨y,hy,h⟩ := bind_eq_ok.1 h
      obtain ⟨z,hz,h⟩ := bind_eq_ok.1 h
      cases h
      refine ⟨control?_eq_some.1 hc,rotateAxis_eq_ok.1 ha,?_⟩
      rintro (_ | _ | _)
      · exact offset_eq_ok.1 hx
      · exact offset_eq_ok.1 hy
      · exact offset_eq_ok.1 hz
  · intro h
    refine ⟨some s.control,control?_eq_some.2 h.control,?_⟩
    dsimp only
    rw [rotateAxis_eq_ok.2 h.rotateAxis,ok_bind,offset_eq_ok.2 (h.offset .x),ok_bind,
      offset_eq_ok.2 (h.offset .y),ok_bind,offset_eq_ok.2 (h.offset .z)]
    rfl

/-- The stages that are read are the ones described from a number on, up to the first without a
control. -/
theorem stagesFrom_eq_ok {stages : List (StageSettings α)} :
    o.stagesFrom n i = .ok stages ↔ stages.length ≤ n ∧
      (∀ k s, stages[k]? = some s → o.Describes (i + k) s) ∧
      (stages.length < n → o.get? (StageField.control.key (i + stages.length)) = none) := by
  induction n generalizing i stages with
  | zero =>
    simp only [stagesFrom,Except.ok.injEq]
    constructor
    · rintro rfl
      simp
    · rintro ⟨h,-,-⟩
      exact (List.length_eq_zero_iff.1 (Nat.le_zero.1 h)).symm
  | succ n ih =>
    rw [stagesFrom,bind_eq_ok]
    constructor
    · rintro ⟨s,hs,h⟩
      cases s with
      | none =>
        cases h
        exact ⟨Nat.zero_le _,by simp,fun _ => stage?_eq_none.1 hs⟩
      | some s =>
        obtain ⟨rest,hrest,h⟩ := bind_eq_ok.1 h
        cases h
        obtain ⟨hlen,hdesc,hend⟩ := ih.1 hrest
        refine ⟨Nat.succ_le_succ hlen,?_,fun h => ?_⟩
        · rintro (_ | k) s' hk
          · cases hk
            exact stage?_eq_some.1 hs
          · rw [← Nat.add_assoc,Nat.add_right_comm]
            exact hdesc k s' hk
        · rw [List.length_cons,← Nat.add_assoc,Nat.add_right_comm]
          exact hend (Nat.lt_of_succ_lt_succ h)
    · rintro ⟨hlen,hdesc,hend⟩
      cases stages with
      | nil => exact ⟨none,stage?_eq_none.2 (hend (Nat.succ_pos n)),rfl⟩
      | cons s rest =>
        refine ⟨some s,stage?_eq_some.2 (hdesc 0 s rfl),?_⟩
        have hrest : o.stagesFrom n (i + 1) = .ok rest := by
          refine ih.2 ⟨Nat.le_of_succ_le_succ hlen,fun k s' hk => ?_,fun h => ?_⟩
          · rw [Nat.add_right_comm,Nat.add_assoc]
            exact hdesc (k + 1) s' hk
          · rw [Nat.add_right_comm,Nat.add_assoc]
            exact hend (Nat.succ_lt_succ h)
        dsimp only
        rw [hrest]
        rfl

theorem stages_eq_ok {stages : List (StageSettings α)} : o.stages = .ok stages ↔
    o.stagesFrom Pivot.maxStages 0 = .ok stages ∧
      ∀ e ∈ o.entries, belongs stages.length e.1 = true := by
  have hstray : ∀ read : List (StageSettings α),
      (o.entries.find? fun e => !belongs read.length e.1) = none ↔
        ∀ e ∈ o.entries, belongs read.length e.1 = true := by
    intro read
    simp [List.find?_eq_none]
  rw [StageOptions.stages,bind_eq_ok]
  constructor
  · rintro ⟨read,hread,h⟩
    split at h
    · cases h
    · rename_i hnone
      cases h
      exact ⟨hread,(hstray stages).1 hnone⟩
  · rintro ⟨hread,hall⟩
    refine ⟨stages,hread,?_⟩
    rw [(hstray stages).2 hall]
    rfl

theorem Describes.exists_control {s : StageSettings α} (h : o.Describes i s) :
    o.get? (StageField.control.key i) ≠ none := by
  rw [h.control]
  exact Option.some_ne_none _

theorem describes_of_stages {stages : List (StageSettings α)} (h : o.stages = .ok stages)
    (hi : i < stages.length) : ∃ s, stages[i]? = some s ∧ o.Describes i s := by
  obtain ⟨-,hdesc,-⟩ := stagesFrom_eq_ok.1 (stages_eq_ok.1 h).1
  have hget := List.getElem?_eq_getElem hi
  exact ⟨stages[i],hget,by simpa using hdesc i stages[i] hget⟩

section Count

omit [Zero α]

def names (n : Nat) : List String :=
  (List.range n).flatMap fun i => StageField.all.map fun f => f.key i

theorem mem_names {key : String} : key ∈ names n ↔ ∃ f i, i < n ∧ key = StageField.key f i := by
  simp only [names,List.mem_flatMap,List.mem_range,List.mem_map]
  constructor
  · rintro ⟨i,hi,f,-,rfl⟩
    exact ⟨f,i,hi,rfl⟩
  · rintro ⟨f,i,hi,rfl⟩
    exact ⟨i,hi,f,f.mem_all,rfl⟩

theorem names_nodup (n : Nat) : (names n).Nodup := by
  refine List.nodup_flatMap.2 ⟨fun i _ => ?_,?_⟩
  · exact List.Nodup.map (fun _ _ h => (StageField.key_injective h).1) (by decide)
  · refine List.nodup_range.imp fun {i j} hij key hi hj => ?_
    obtain ⟨f,-,rfl⟩ := List.mem_map.1 hi
    obtain ⟨g,-,hg⟩ := List.mem_map.1 hj
    exact hij (StageField.key_injective hg).2.symm

def used (o : StageOptions α) (n : Nat) : List String :=
  (names n).filter fun key => (o.get? key).isSome

theorem mem_used {key : String} :
    key ∈ o.used n ↔ (∃ f i, i < n ∧ key = StageField.key f i) ∧ key ∈ o.entries.map (·.1) := by
  rw [used,List.mem_filter,mem_names,Option.isSome_iff_exists,List.mem_map]
  refine and_congr_right fun _ => ?_
  constructor
  · rintro ⟨v,hv⟩
    exact ⟨(key,v),get?_eq_some.1 hv,rfl⟩
  · rintro ⟨e,he,rfl⟩
    exact ⟨e.2,get?_eq_some.2 he⟩

theorem length_used_eq : (o.used n).length = o.entries.length ↔
    ∀ e ∈ o.entries, ∃ f i, i < n ∧ e.1 = StageField.key f i := by
  have hused : (o.used n).Nodup := (names_nodup n).filter _
  have hsub : o.used n ⊆ o.entries.map (·.1) := fun key h => (mem_used.1 h).2
  have hlength : (o.entries.map (·.1)).length = o.entries.length := List.length_map _
  rw [← hlength]
  constructor
  · intro hlen e he
    have hperm := (hused.subperm hsub).perm_of_length_le hlen.ge
    exact (mem_used.1 (hperm.mem_iff.2 (List.mem_map_of_mem he))).1
  · intro hall
    refine ((hused.subperm hsub).antisymm (o.key_nodup.subperm fun key hkey => ?_)).length_eq
    obtain ⟨e,he,rfl⟩ := List.mem_map.1 hkey
    exact mem_used.2 ⟨hall e he,hkey⟩

end Count

/-- The stages in order, where what is left over is looked for only if fewer options are used than
there are. -/
def countedStages (o : StageOptions α) : Except (ConfigError α) (List (StageSettings α)) := do
  let stages ← o.stagesFrom Pivot.maxStages 0
  if (o.used stages.length).length = o.entries.length then return stages
  else
    match o.entries.find? fun e => !belongs stages.length e.1 with
    | some (key,_) => .error (strayError stages.length key)
    | none => return stages

theorem countedStages_eq (o : StageOptions α) : o.countedStages = o.stages := by
  unfold countedStages StageOptions.stages
  congr 1
  funext stages
  split
  · rename_i hlen
    have hnone : (o.entries.find? fun e => !belongs stages.length e.1) = none := by
      refine List.find?_eq_none.2 fun e he => ?_
      obtain ⟨f,i,hi,hkey⟩ := length_used_eq.1 hlen e he
      have hbelongs := belongs_iff.2 ⟨f,false,0,i,hi,hkey.trans (f.key_eq_spelling i)⟩
      simp [hbelongs]
    rw [hnone]
  · rfl

/-- Options are heeded: where stages are read, each option is that of one field of one of them, and
gives what the stage has; and options among which there is one of no stage, or of one behind a
missing one, are refused. -/
structure Heeded (o : StageOptions α) : Prop where
  read : ∀ stages, o.stages = .ok stages → ∀ e ∈ o.entries, ∃ f i, e.1 = StageField.key f i ∧
    (∀ g j, e.1 = StageField.key g j → g = f ∧ j = i) ∧
    ∃ s, stages[i]? = some s ∧ s.value f = e.2
  refused : (∃ e ∈ o.entries, ∀ f i, e.1 = StageField.key f i →
    ∃ j ≤ i, o.get? (StageField.control.key j) = none) → ∃ err, o.stages = .error err

def Plain (o : StageOptions α) : Prop :=
  ∀ e ∈ o.entries, ∀ f plus zeros i, e.1 = StageField.spelling f plus zeros i →
    plus = false ∧ zeros = 0

theorem length_used_of_plain (hp : o.Plain) {stages : List (StageSettings α)}
    (h : o.stages = .ok stages) : (o.used stages.length).length = o.entries.length := by
  refine length_used_eq.2 fun e he => ?_
  obtain ⟨f,plus,zeros,i,hi,hkey⟩ := belongs_iff.1 ((stages_eq_ok.1 h).2 e he)
  obtain ⟨rfl,rfl⟩ := hp e he f plus zeros i hkey
  exact ⟨f,i,hi,hkey.trans (f.key_eq_spelling i).symm⟩

theorem plain_of_read {stages : List (StageSettings α)} (h : o.stages = .ok stages)
    (hh : o.Heeded) : o.Plain := by
  intro e he f plus zeros i hkey
  obtain ⟨g,j,hkey',-,-⟩ := hh.read stages h e he
  rw [hkey,StageField.key_eq_spelling] at hkey'
  obtain ⟨-,hplus,hzeros,-⟩ := StageField.spelling_injective hkey'
  exact ⟨hplus,hzeros⟩

theorem heeded_of_count
    (hcount : ∀ stages, o.stages = .ok stages → (o.used stages.length).length = o.entries.length) :
    o.Heeded where
  read := by
    intro stages h e he
    obtain ⟨f,i,hi,hkey⟩ := length_used_eq.1 (hcount stages h) e he
    obtain ⟨s,hs,hdesc⟩ := describes_of_stages h hi
    refine ⟨f,i,hkey,fun g j hkey' => ?_,s,hs,?_⟩
    · exact StageField.key_injective (hkey'.symm.trans hkey)
    · exact hdesc.value (get?_eq_some.2 (hkey ▸ he))
  refused := by
    rintro ⟨e,he,hgap⟩
    cases h : o.stages with
    | error err => exact ⟨err,rfl⟩
    | ok stages =>
      -- an option that is used has all the controls up to it in front
      obtain ⟨f,i,hi,hkey⟩ := length_used_eq.1 (hcount stages h) e he
      obtain ⟨j,hj,hnone⟩ := hgap f i hkey
      obtain ⟨s,-,hdesc⟩ := describes_of_stages h (hj.trans_lt hi)
      exact absurd hnone hdesc.exists_control

/-- Options are heeded exactly if they are refused or spell all their numbers plainly; and the count
of the options used tells. -/
theorem heeded_tfae (o : StageOptions α) : [o.Heeded,(∃ err, o.stages = .error err) ∨ o.Plain,
    ∀ stages, o.stages = .ok stages → (o.used stages.length).length = o.entries.length].TFAE := by
  tfae_have 1 → 2 := by
    intro hh
    cases h : o.stages with
    | error err => exact .inl ⟨err,rfl⟩
    | ok stages => exact .inr (plain_of_read h hh)
  tfae_have 2 → 3 := by
    rintro (⟨err,herr⟩ | hp) stages h
    · cases herr.symm.trans h
    · exact length_used_of_plain hp h
  tfae_have 3 → 1 := heeded_of_count
  tfae_finish

def misspelled : StageOptions Float :=
  ((empty.insert "control_0" (.text "manual_stepper a")).insert "rotate_axis_0" (.text "z")).insert
    "offset_x_00" (.number 5)

/-- The offset is neither refused nor read. -/
theorem misspelled_ignored :
    misspelled.stages = .ok [⟨"manual_stepper a",.z,⟨0,0,0⟩⟩] ∧ ¬misspelled.Heeded := by
  have hread : misspelled.stages = .ok [⟨"manual_stepper a",.z,⟨0,0,0⟩⟩] := rfl
  refine ⟨hread,fun hh => ?_⟩
  have hmem : ("offset_x_00",.number 5) ∈ misspelled.entries :=
    List.mem_of_getElem? (show misspelled.entries[1]? = some ("offset_x_00",.number 5) from rfl)
  have hplain := plain_of_read hread hh _ hmem (.offset .x) false 1 0 rfl
  exact absurd hplain.2 (by decide)

end StageOptions

end Gantry
