import Mathlib
import Gantry.Proofs.Settings.Enrolled
import Gantry.Proofs.Transform.Activation

set_option autoImplicit false

namespace Gantry

namespace ExtraAxes

inductive Change where
  | register (name : String)
  | remove (name : String)
  | clear
  deriving DecidableEq

def change (α : Type) (r : ExtraAxes) : Change → Except (CommandError α) (Option Nat) × ExtraAxes
  | .register name =>
    match r.register name with
    | .ok (slot,r) => (.ok (some slot),r)
    | .error e => (.error e,r)
  | .remove name => (.ok (r.remove name).1,(r.remove name).2)
  | .clear => (.ok none,r.clear)

def ofChanges (α : Type) (cs : List Change) : ExtraAxes := cs.foldl (fun r c => (r.change α c).2) {}

/-- Where a slot is after an axis has been removed. -/
def closeGap (removed : Option Nat) (slot : Nat) : Nat :=
  match removed with
  | some gap => if gap < slot then slot - 1 else slot
  | none => slot

section Changes
variable {α : Type} {r : ExtraAxes} {name other : String}

theorem register_of_free (h : name ∉ r.names) (hl : r.names.length < capacity) :
    r.change α (.register name) = (.ok (some r.coordinateLength),⟨r.names ++ [name]⟩) := by
  have hc : r.contains name = false := by simp [contains,slot?_eq_none.2 h]
  simp [change,register,hc,not_le.2 hl]

theorem register_of_taken (h : name ∈ r.names ∨ capacity ≤ r.names.length) :
    r.change α (.register name) = (.error (.duplicateExtraAxis (.clip name)),r) := by
  have hc : (r.contains name || decide (capacity ≤ r.names.length)) = true := by
    rcases h with h | h
    · have hs : r.slot? name ≠ none := fun hn => slot?_eq_none.1 hn h
      simp [contains,Option.isSome_iff_ne_none.2 hs]
    · simp [h]
  simp only [change,register,hc,if_true]

theorem remove_of_slot {gap : Nat} (h : r.slot? name = some (base + gap)) :
    r.remove name = (some (base + gap),⟨r.names.eraseIdx gap⟩) := by
  simp only [remove,h,Nat.add_sub_cancel_left]

theorem remove_of_absent (h : r.slot? name = none) : r.remove name = (none,r) := by
  simp only [remove,h]

theorem exists_slot {slot : Nat} (h : r.slot? name = some slot) : ∃ k, slot = base + k := by
  obtain ⟨k,-,hk⟩ := Option.map_eq_some_iff.1 h
  exact ⟨k,hk.symm⟩

theorem remove_fst (r : ExtraAxes) (name : String) : (r.remove name).1 = r.slot? name := by
  unfold remove
  split <;> simp_all

theorem names_remove (r : ExtraAxes) (name : String) :
    (r.remove name).2.names = r.names.erase name := by
  rw [List.erase_eq_eraseIdx]
  cases h : r.names.idxOf? name with
  | none => rw [remove_of_absent (by simp [slot?,h])]
  | some k =>
    have hs : r.slot? name = some (base + k) := by simp [slot?,h]
    rw [remove_of_slot hs]

/-- Removing an axis moves exactly the axes behind it, by one slot. -/
theorem slot?_remove (hr : r.names.Nodup) (hne : other ≠ name) :
    (r.remove name).2.slot? other = (r.slot? other).map (closeGap (r.slot? name)) := by
  have hr' : (r.remove name).2.names.Nodup := hr.sublist (remove_sublist r name)
  cases hn : r.slot? name with
  | none =>
    rw [remove_of_absent hn]
    cases r.slot? other <;> rfl
  | some slot =>
    obtain ⟨gap,rfl⟩ := exists_slot hn
    rw [remove_of_slot hn] at hr' ⊢
    cases ho : r.slot? other with
    | none => exact slot?_eq_none.2 fun h => slot?_eq_none.1 ho (List.mem_of_mem_eraseIdx h)
    | some slot =>
      obtain ⟨k,rfl⟩ := exists_slot ho
      have hk := (slot?_eq_some hr).1 ho
      have hgap := (slot?_eq_some hr).1 hn
      -- an axis in front of the gap keeps its slot, one behind it moves up
      rcases lt_trichotomy k gap with hlt | rfl | hlt
      · have hclose : closeGap (some (base + gap)) (base + k) = base + k :=
          if_neg (by omega)
        rw [Option.map_some,hclose,slot?_eq_some hr',List.getElem?_eraseIdx,if_pos hlt,hk]
      · exact absurd (Option.some.inj (hk.symm.trans hgap)) hne
      · obtain ⟨k,rfl⟩ : ∃ j, k = j + 1 := ⟨k - 1,by omega⟩
        have hclose : closeGap (some (base + gap)) (base + (k + 1)) = base + k :=
          if_pos (by omega)
        rw [Option.map_some,hclose,slot?_eq_some hr',List.getElem?_eraseIdx,if_neg (by omega),hk]

theorem slot?_remove_self (hr : r.names.Nodup) : (r.remove name).2.slot? name = none := by
  rw [slot?_eq_none,names_remove]
  exact hr.not_mem_erase

end Changes

structure Packed (r : ExtraAxes) : Prop where
  nodup : r.names.Nodup
  length : r.names.length ≤ capacity

namespace Packed
variable {α : Type} {r : ExtraAxes}

theorem change (h : r.Packed) (c : Change) : (r.change α c).2.Packed := by
  cases c with
  | register name =>
    by_cases hfree : name ∉ r.names ∧ r.names.length < capacity
    · rw [register_of_free hfree.1 hfree.2]
      refine ⟨h.nodup.append (List.nodup_singleton name) (by simpa using hfree.1),?_⟩
      rw [List.length_append]
      exact hfree.2
    · rw [not_and_or,not_not,not_lt] at hfree
      rwa [register_of_taken hfree]
  | remove name =>
    have hsub := remove_sublist r name
    exact ⟨h.nodup.sublist hsub,hsub.length_le.trans h.length⟩
  | clear => exact ⟨List.nodup_nil,Nat.zero_le _⟩

/-- The slots in use are those behind the first four, as many as there are names. -/
theorem exists_slot_iff (h : r.Packed) {slot : Nat} :
    (∃ name, r.slot? name = some slot) ↔ base ≤ slot ∧ slot < r.coordinateLength := by
  constructor
  · rintro ⟨name,hs⟩
    obtain ⟨k,rfl⟩ := exists_slot hs
    obtain ⟨hk,-⟩ := List.getElem?_eq_some_iff.1 ((slot?_eq_some h.nodup).1 hs)
    exact ⟨Nat.le_add_right base k,Nat.add_lt_add_left hk base⟩
  · rintro ⟨hb,hlt⟩
    obtain ⟨k,rfl⟩ := Nat.exists_eq_add_of_le hb
    have hk : k < r.names.length := Nat.lt_of_add_lt_add_left hlt
    exact ⟨r.names[k],(slot?_eq_some h.nodup).2 (List.getElem?_eq_getElem hk)⟩

end Packed

theorem ofChanges_snoc {α : Type} (cs : List Change) (c : Change) :
    ofChanges α (cs ++ [c]) = ((ofChanges α cs).change α c).2 := by
  simp [ofChanges]

theorem packed_ofChanges {α : Type} (cs : List Change) : (ofChanges α cs).Packed := by
  induction cs using List.reverseRecOn with
  | nil => exact ⟨List.nodup_nil,Nat.zero_le _⟩
  | append_singleton cs c ih =>
    rw [ofChanges_snoc]
    exact ih.change c

end ExtraAxes

namespace Transform
variable {α : Type}

def stages : Transform α → List (Stage α)
  | .terminal _ => []
  | .detached p => p.stages
  | .over p next => p.stages ++ next.stages

theorem stages_resolve (t : Transform α) (axes : ExtraAxes) :
    (t.resolve axes).stages = t.stages.map (·.resolve axes) := by
  induction t with
  | terminal base => rfl
  | detached p => rfl
  | «over» p next ih => rw [resolve,stages,stages,List.map_append,ih]; rfl

theorem slot_of_mem_stages {t : Transform α} {axes : ExtraAxes} {s : Stage α}
    (h : s ∈ (t.resolve axes).stages) : s.slot = axes.slot? s.control := by
  rw [stages_resolve] at h
  obtain ⟨s,-,rfl⟩ := List.mem_map.1 h
  rfl

end Transform

namespace ExtraAxes
variable {α : Type}

/-- Whatever has been changed, each axis has the slot of its place, and each change keeps to that: a
name is refused if it is taken or there is no room, and a removal moves the later axes alone. A host
that is told of the axes has good slots in all stages of its chain. -/
theorem slots_ofChanges (cs : List Change) (h : TransformHost α) :
    let r := ofChanges α cs
    let t := (h.resolve r).transform
    (r.names.Nodup ∧ r.names.length ≤ 16) ∧
      (∀ name k, r.slot? name = some (4 + k) ↔ r.names[k]? = some name) ∧
      (∀ slot, (∃ name, r.slot? name = some slot) ↔ 4 ≤ slot ∧ slot < r.coordinateLength) ∧
      (∀ name, r.change α (.register name) =
        if name ∈ r.names ∨ r.names.length = 16 then (.error (.duplicateExtraAxis (.clip name)),r)
        else (.ok (some r.coordinateLength),⟨r.names ++ [name]⟩)) ∧
      (∀ name, ∃ r', r.change α (.remove name) = (.ok (r.slot? name),r') ∧
        r'.names = r.names.erase name ∧ r'.slot? name = none ∧
        ∀ other, other ≠ name → r'.slot? other = (r.slot? other).map (closeGap (r.slot? name))) ∧
      r.change α .clear = (.ok none,{}) ∧
      t.designs = h.transform.designs ∧
      ∀ s ∈ t.stages, s.slot = r.slot? s.control ∧
        (∀ slot, s.slot = some slot → 4 ≤ slot ∧ slot < r.coordinateLength) ∧
        ∀ s' ∈ t.stages, s'.control = s.control → s'.slot = s.slot := by
  intro r t
  have hr : r.Packed := packed_ofChanges cs
  refine ⟨⟨hr.nodup,hr.length⟩,fun name k => slot?_eq_some hr.nodup,fun slot => hr.exists_slot_iff,
    fun name => ?_,fun name => ?_,rfl,h.transform.designs_resolve r,fun s hs => ?_⟩
  · split
    · rename_i htaken
      exact register_of_taken (htaken.imp_right fun he => he.ge)
    · rename_i hfree
      obtain ⟨hname,hlen⟩ := not_or.1 hfree
      exact register_of_free hname (lt_of_le_of_ne hr.length hlen)
  · exact ⟨(r.remove name).2,by rw [change,remove_fst],names_remove r name,
      slot?_remove_self hr.nodup,fun other hne => slot?_remove hr.nodup hne⟩
  · have hslot := Transform.slot_of_mem_stages hs
    refine ⟨hslot,fun slot hsome => ?_,fun s' hs' hc => ?_⟩
    · exact hr.exists_slot_iff.1 ⟨s.control,hslot.symm.trans hsome⟩
    · rw [hslot,Transform.slot_of_mem_stages hs',hc]

/-- The axis behind a removed one moves up into its slot. -/
example : (ofChanges Unit [.register "a",.register "b",.register "c",.remove "b"]).slot? "c" =
    some 5 := by
  decide

end ExtraAxes

end Gantry
