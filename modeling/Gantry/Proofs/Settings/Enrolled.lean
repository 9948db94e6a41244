import Mathlib
import Gantry.Proofs.Settings.Usable

set_option autoImplicit false

namespace Gantry
open Results

namespace ExtraAxes
variable {α : Type} {r r' : ExtraAxes} {name : String}

theorem slot?_eq_none : r.slot? name = none ↔ name ∉ r.names := by
  simp [slot?]

theorem slot?_eq_some (h : r.names.Nodup) {k : Nat} :
    r.slot? name = some (base + k) ↔ r.names[k]? = some name := by
  unfold slot?
  rw [Option.map_eq_some_iff]
  constructor
  · rintro ⟨j,hj,hjk⟩
    obtain rfl : j = k := Nat.add_left_cancel hjk
    obtain ⟨hlt,hname,-⟩ := List.idxOf?_eq_some_iff.1 hj
    exact List.getElem?_eq_some_iff.2 ⟨hlt,hname⟩
  · intro hk
    obtain ⟨hlt,rfl⟩ := List.getElem?_eq_some_iff.1 hk
    refine ⟨k,List.idxOf?_eq_some_iff.2 ⟨hlt,rfl,fun j hj hname => ?_⟩,rfl⟩
    exact hj.ne ((List.Nodup.getElem_inj_iff h).1 hname)

theorem slot?_injective {name' : String} {i : Nat} (h : r.slot? name = some i)
    (h' : r.slot? name' = some i) : name = name' := by
  obtain ⟨j,hj,rfl⟩ := Option.map_eq_some_iff.1 h
  obtain ⟨j',hj',hjj⟩ := Option.map_eq_some_iff.1 h'
  obtain rfl : j' = j := Nat.add_left_cancel hjj
  obtain ⟨hlt,rfl,-⟩ := List.idxOf?_eq_some_iff.1 hj
  exact (List.idxOf?_eq_some_iff.1 hj').2.1

theorem register_eq_ok {slot : Nat} (h : r.register (α := α) name = .ok (slot,r')) :
    name ∉ r.names ∧ r'.names = r.names ++ [name] := by
  unfold register at h
  split at h
  · cases h
  · rename_i hfree
    cases h
    refine ⟨fun hmem => hfree ?_,rfl⟩
    have hslot : r.slot? name ≠ none := fun hn => slot?_eq_none.1 hn hmem
    simp [contains,Option.isSome_iff_ne_none.2 hslot]

theorem remove_sublist (r : ExtraAxes) (name : String) :
    (r.remove name).2.names.Sublist r.names := by
  unfold remove
  split
  · exact List.eraseIdx_sublist _ _
  · exact List.Sublist.refl _

end ExtraAxes

namespace ManualAxis

theorem objectNameOf_injective : Function.Injective objectNameOf :=
  fun _ _ h => (String.append_right_inj "manual_stepper ").1 h

theorem objectName_ofSettings {α : Type} [Scalar α] {name : Name} {s : ManualSettings α}
    {a : ManualAxis α} (h : ManualAxis.ofSettings name s = .ok a) :
    a.objectName = objectNameOf name.text := by
  obtain ⟨-,h⟩ := Results.check_eq_ok.1 h
  obtain ⟨-,h⟩ := Results.check_eq_ok.1 h
  obtain ⟨rail,-,h⟩ := bind_eq_ok.1 h
  rw [← pure_eq_ok.1 h]
  rfl

end ManualAxis

namespace MachineSettings
variable {α : Type} [Scalar α] {m : MachineSettings α} {r : ExtraAxes}

/-- The registries that hold axes of a machine: the empty one, and those that come from others by
registering an axis built from an entry or by removing any name. -/
inductive Enrolled (m : MachineSettings α) : ExtraAxes → Prop where
  | empty : m.Enrolled {}
  | register {r r' : ExtraAxes} {e : Name × ManualSettings α} {a : ManualAxis α} {slot : Nat} :
      m.Enrolled r → e ∈ m.manual → ManualAxis.ofSettings e.1 e.2 = .ok a →
      r.register (α := α) a.objectName = .ok (slot,r') → m.Enrolled r'
  | remove {r : ExtraAxes} (name : String) : m.Enrolled r → m.Enrolled (r.remove name).2

def HasPlace (m : MachineSettings α) (r : ExtraAxes) (key : Name) (k : Nat) : Prop :=
  ∃ e ∈ m.manual, e.1 = key ∧
    ∃ a, ManualAxis.ofSettings e.1 e.2 = .ok a ∧ r.names[k]? = some a.objectName

theorem Enrolled.nodup (h : m.Enrolled r) : r.names.Nodup := by
  induction h with
  | empty => exact List.nodup_nil
  | register _ _ _ hreg ih =>
    obtain ⟨hnew,hnames⟩ := ExtraAxes.register_eq_ok hreg
    rw [hnames]
    exact List.nodup_append.2 ⟨ih,List.nodup_singleton _,by grind⟩
  | remove name _ ih => exact ih.sublist (ExtraAxes.remove_sublist _ name)

theorem Enrolled.exists_axis (h : m.Enrolled r) {name : String} (hn : name ∈ r.names) :
    ∃ e ∈ m.manual, ∃ a, ManualAxis.ofSettings e.1 e.2 = .ok a ∧ a.objectName = name := by
  induction h with
  | empty => cases hn
  | @register r r' e a slot _ he ha hreg ih =>
    rw [(ExtraAxes.register_eq_ok hreg).2,List.mem_append,List.mem_singleton] at hn
    rcases hn with hn | rfl
    · exact ih hn
    · exact ⟨e,he,a,ha,rfl⟩
  | remove name _ ih => exact ih ((ExtraAxes.remove_sublist _ name).subset hn)

theorem Enrolled.hasPlace_iff (h : m.Enrolled r) {key : Name} {k : Nat} :
    m.HasPlace r key k ↔ r.names[k]? = some (ManualAxis.objectNameOf key.text) := by
  constructor
  · rintro ⟨e,-,rfl,a,ha,hk⟩
    rwa [ManualAxis.objectName_ofSettings ha] at hk
  · intro hk
    obtain ⟨e,he,a,ha,hname⟩ := h.exists_axis (List.mem_of_getElem? hk)
    have hkey : e.1 = key := by
      rw [ManualAxis.objectName_ofSettings ha] at hname
      exact Label.text_injective (ManualAxis.objectNameOf_injective hname)
    exact ⟨e,he,hkey,a,ha,hname ▸ hk⟩

omit [Scalar α] in
theorem exists_key_of_checkControl {s : StageSettings α} {i : Nat}
    (h : m.checkControl s i = .ok ()) :
    ∃ key ∈ m.manual.map Prod.fst, ManualAxis.objectNameOf key.text = s.control := by
  unfold checkControl at h
  split at h
  · rename_i hany
    obtain ⟨e,he,hname⟩ := List.any_eq_true.1 hany
    exact ⟨e.1,List.mem_map_of_mem he,by simpa using hname⟩
  · cases h

/-- A stage names exactly one manual axis of a machine, and has the slot of its place in a registry,
or no slot where it is not registered. -/
def Drives (m : MachineSettings α) (r : ExtraAxes) (s : Stage α) : Prop :=
  ∃ key ∈ m.manual.map Prod.fst, ManualAxis.objectNameOf key.text = s.control ∧
    (∀ key' ∈ m.manual.map Prod.fst, ManualAxis.objectNameOf key'.text = s.control → key' = key) ∧
    (∀ k, s.slot = some (ExtraAxes.base + k) ↔ m.HasPlace r key k) ∧
    (s.slot = none ↔ ∀ k, ¬m.HasPlace r key k)

theorem Enrolled.drives (h : m.Enrolled r) {s : Stage α} {key : Name}
    (hkey : key ∈ m.manual.map Prod.fst) (hs : ManualAxis.objectNameOf key.text = s.control) :
    m.Drives r (s.resolve r) := by
  refine ⟨key,hkey,hs,fun key' _ hs' => ?_,fun k => ?_,?_⟩
  · exact Label.text_injective (ManualAxis.objectNameOf_injective (hs'.trans hs.symm))
  · rw [h.hasPlace_iff,hs]
    exact ExtraAxes.slot?_eq_some h.nodup
  · simp only [h.hasPlace_iff,hs]
    rw [← not_exists,← List.mem_iff_getElem?]
    exact ExtraAxes.slot?_eq_none

end MachineSettings

/-- The stages of a sound machine find their axes in every registry of axes built for it: each names
one manual axis and has its slot, and those that have slots share them exactly with their controls. -/
theorem Pivot.resolve_drives {α : Type} [Scalar α] {m : MachineSettings α} {p : PivotSettings α}
    {pivot : Pivot α} {r : ExtraAxes} (valid : m.validate = .ok ()) (hp : p ∈ m.pivot)
    (built : Pivot.ofSettings p = .ok pivot) (enrolled : m.Enrolled r) :
    (∃ stages, p.options.stages = .ok stages ∧
      (pivot.resolve r).stages.map Stage.control = stages.map StageSettings.control) ∧
    (∀ s ∈ (pivot.resolve r).stages, m.Drives r s) ∧
    ∀ s ∈ (pivot.resolve r).stages, ∀ s' ∈ (pivot.resolve r).stages, ∀ i, s.slot = some i →
      ∀ i', s'.slot = some i' → (i = i' ↔ s.control = s'.control) := by
  obtain ⟨stages,hstages,hcontrols⟩ := (MachineSettings.checked_of_validate valid).exists_stages hp
  rw [Pivot.ofSettings_eq hstages] at built
  obtain ⟨bare,-,rfl⟩ := map_eq_ok.1 built
  simp only [Pivot.resolve,List.map_map,List.forall_mem_map]
  refine ⟨⟨stages,hstages,rfl⟩,fun s hs => ?_,fun s _ s' _ i hi i' hi' => ?_⟩
  · obtain ⟨i,hi⟩ := hcontrols s hs
    obtain ⟨key,hkey,hname⟩ := MachineSettings.exists_key_of_checkControl hi
    exact enrolled.drives hkey hname
  · have hslot : r.slot? s.control = some i := hi
    have hslot' : r.slot? s'.control = some i' := hi'
    constructor
    · rintro rfl
      exact ExtraAxes.slot?_injective hslot hslot'
    · intro hcontrol
      have hcontrol : s.control = s'.control := hcontrol
      rw [hcontrol,hslot'] at hslot
      exact (Option.some.inj hslot).symm

/-- The stage of a machine with one manual axis, once that axis is registered. -/
theorem Pivot.resolve_drives_ofTravel : ∃ (p : PivotSettings Float) (pivot : Pivot Float)
    (r : ExtraAxes), (MachineSettings.ofTravel 40).validate = .ok () ∧
      p ∈ (MachineSettings.ofTravel 40).pivot ∧ Pivot.ofSettings p = .ok pivot ∧
      (MachineSettings.ofTravel 40).Enrolled r ∧
      (pivot.resolve r).stages.map Stage.slot = [some 4] ∧
      ((∃ stages, p.options.stages = .ok stages ∧
        (pivot.resolve r).stages.map Stage.control = stages.map StageSettings.control) ∧
      (∀ s ∈ (pivot.resolve r).stages, (MachineSettings.ofTravel 40).Drives r s) ∧
      ∀ s ∈ (pivot.resolve r).stages, ∀ s' ∈ (pivot.resolve r).stages, ∀ i, s.slot = some i →
        ∀ i', s'.slot = some i' → (i = i' ↔ s.control = s'.control)) := by
  have valid : (MachineSettings.ofTravel 40).validate = .ok () := rfl
  have enrolled : (MachineSettings.ofTravel 40).Enrolled ⟨["manual_stepper a"]⟩ :=
    .register .empty (List.mem_singleton_self _) rfl rfl
  exact ⟨_,_,_,valid,rfl,rfl,enrolled,rfl,Pivot.resolve_drives valid rfl rfl enrolled⟩

end Gantry
