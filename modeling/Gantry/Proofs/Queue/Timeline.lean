import Mathlib
import Gantry.Proofs.Motion.Segment
import Gantry.Queue.Channel

set_option autoImplicit false

namespace Gantry

namespace Timeline

section Origin
variable {α : Type} {l l' : Timeline α}

theorem origin_isSome (h : l ≠ []) : ∃ p, l.origin = some p := by
  induction l with
  | nil => exact absurd rfl h
  | cons m l ih =>
    cases l with
    | nil => exact ⟨m.startPos,rfl⟩
    | cons n l => exact ih (List.cons_ne_nil n l)

theorem origin_cons (m : Segment α) (h : l ≠ []) : origin (m :: l) = l.origin := by
  cases l with
  | nil => exact absurd rfl h
  | cons n l => rfl

theorem origin_append (h : l' ≠ []) : origin (l ++ l') = l'.origin := by
  induction l with
  | nil => rfl
  | cons m l ih => rw [List.cons_append,origin_cons m (List.append_ne_nil_of_right_ne_nil l h),ih]

theorem origin_reverse (ms : List (Segment α)) :
    origin ms.reverse = ms.head?.map Segment.startPos := by
  cases ms with
  | nil => rfl
  | cons m ms => rw [List.reverse_cons,origin_append (List.cons_ne_nil m [])]; rfl

variable [Scalar α] {t : α}

theorem positionAt_isSome (h : l ≠ []) (t : α) : ∃ p, l.positionAt t = some p := by
  unfold positionAt
  split
  · exact ⟨_,rfl⟩
  · exact origin_isSome h

theorem positionBefore_isSome (h : l ≠ []) (t : α) : ∃ p, l.positionBefore t = some p := by
  unfold positionBefore
  split
  · exact ⟨_,rfl⟩
  · exact origin_isSome h

theorem positionAt_append_of_begun (h : ∃ m ∈ l, m.startTime ≤ t) :
    positionAt (l ++ l') t = l.positionAt t := by
  have hf : (l.find? fun m => decide (m.startTime ≤ t)).isSome :=
    List.find?_isSome.2 (h.imp fun m hm => ⟨hm.1,decide_eq_true hm.2⟩)
  obtain ⟨m,hm⟩ := Option.isSome_iff_exists.1 hf
  simp [positionAt,List.find?_append,hm]

theorem positionBefore_append_of_begun (h : ∃ m ∈ l, m.startTime < t) :
    positionBefore (l ++ l') t = l.positionBefore t := by
  have hf : (l.find? fun m => decide (m.startTime < t)).isSome :=
    List.find?_isSome.2 (h.imp fun m hm => ⟨hm.1,decide_eq_true hm.2⟩)
  obtain ⟨m,hm⟩ := Option.isSome_iff_exists.1 hf
  simp [positionBefore,List.find?_append,hm]

theorem positionAt_append_of_unbegun (h : ∀ m ∈ l, ¬m.startTime ≤ t) (hl : l' ≠ []) :
    positionAt (l ++ l') t = l'.positionAt t := by
  have hn : (l.find? fun m => decide (m.startTime ≤ t)) = none :=
    List.find?_eq_none.2 fun m hm => by simpa using h m hm
  simp [positionAt,List.find?_append,hn,origin_append hl]

theorem positionAt_of_unbegun (h : ∀ m ∈ l, ¬m.startTime ≤ t) : l.positionAt t = l.origin := by
  have hn : (l.find? fun m => decide (m.startTime ≤ t)) = none :=
    List.find?_eq_none.2 fun m hm => by simpa using h m hm
  simp [positionAt,hn]

theorem positionAt_cons_of_le {m : Segment α} (h : m.startTime ≤ t) :
    positionAt (m :: l) t = some (m.positionAt t) := by
  simp [positionAt,h]

theorem positionBefore_cons_of_lt {m : Segment α} (h : m.startTime < t) :
    positionBefore (m :: l) t = some (m.positionAt t) := by
  simp [positionBefore,h]

end Origin

section Cons
variable {m : Segment ℝ} {l : Timeline ℝ} {t : ℝ}

theorem positionAt_cons_of_lt (h : t < m.startTime) (hl : l ≠ []) :
    positionAt (m :: l) t = l.positionAt t := by
  simp [positionAt,not_le.2 h,origin_cons m hl]

theorem positionAt_single_of_lt (h : t < m.startTime) :
    positionAt [m] t = some m.startPos := by
  simp [positionAt,not_le.2 h,origin]

theorem positionBefore_cons_of_le (h : t ≤ m.startTime) (hl : l ≠ []) :
    positionBefore (m :: l) t = l.positionBefore t := by
  simp [positionBefore,not_lt.2 h,origin_cons m hl]

theorem positionBefore_single_of_le (h : t ≤ m.startTime) :
    positionBefore [m] t = some m.startPos := by
  simp [positionBefore,not_lt.2 h,origin]

/-- Up to its start a segment only counts where it is the only one. -/
theorem positionBefore_of_le_startTime (h : t ≤ m.startTime) :
    positionBefore (m :: l) t = (l.positionBefore t).or (some m.startPos) := by
  rcases eq_or_ne l [] with rfl | hl
  · exact positionBefore_single_of_le h
  · obtain ⟨p,hp⟩ := positionBefore_isSome hl t
    rw [positionBefore_cons_of_le h hl,hp,Option.some_or]

end Cons

section Append
variable {l l' : Timeline ℝ} {t : ℝ}

theorem positionAt_append_of_ahead (h : ∀ m ∈ l, t < m.startTime) (hl : l' ≠ []) :
    positionAt (l ++ l') t = l'.positionAt t :=
  positionAt_append_of_unbegun (fun m hm => not_le.2 (h m hm)) hl

theorem positionBefore_append_of_ahead (h : ∀ m ∈ l, t ≤ m.startTime) (hl : l' ≠ []) :
    positionBefore (l ++ l') t = l'.positionBefore t := by
  have hn : (l.find? fun m => decide (m.startTime < t)) = none :=
    List.find?_eq_none.2 fun m hm => by simpa using h m hm
  simp [positionBefore,List.find?_append,hn,origin_append hl]

theorem positionAt_of_ahead {l : Timeline ℝ} (h : ∀ m ∈ l, t < m.startTime) :
    l.positionAt t = l.origin :=
  positionAt_of_unbegun fun m hm => not_le.2 (h m hm)

theorem positionBefore_of_ahead {l : Timeline ℝ} (h : ∀ m ∈ l, t ≤ m.startTime) :
    l.positionBefore t = l.origin := by
  have hn : (l.find? fun m => decide (m.startTime < t)) = none :=
    List.find?_eq_none.2 fun m hm => by simpa using h m hm
  simp [positionBefore,hn]

end Append

noncomputable def rest : Timeline ℝ → Option ℝ
  | [] => none
  | m :: _ => some m.endPosition

theorem rest_of_head? {l : Timeline ℝ} {m : Segment ℝ} (h : l.head? = some m) :
    l.rest = some m.endPosition := by
  cases l with
  | nil => cases h
  | cons n l => rw [← Option.some.inj h]; rfl

section Ended
variable {l : Timeline ℝ} {t : ℝ}

theorem positionAt_of_ended (hs : ∀ m ∈ l, m.Sound) (h : ∀ m ∈ l, m.endTime ≤ t) :
    l.positionAt t = l.rest := by
  cases l with
  | nil => rfl
  | cons m l =>
    have hm := hs m List.mem_cons_self
    have ht := h m List.mem_cons_self
    rw [positionAt_cons_of_le (hm.startTime_le_endTime.trans ht),hm.positionAt_of_endTime_le ht]
    rfl

theorem positionBefore_of_ended (hs : ∀ m ∈ l, m.Sound) (h : ∀ m ∈ l, m.endTime < t) :
    l.positionBefore t = l.rest := by
  cases l with
  | nil => rfl
  | cons m l =>
    have hm := hs m List.mem_cons_self
    have ht := h m List.mem_cons_self
    rw [positionBefore_cons_of_lt (hm.startTime_le_endTime.trans_lt ht),
      hm.positionAt_of_endTime_le ht.le]
    rfl

theorem positionAt_cons_of_rest {m : Segment ℝ} {o : ℝ} (hm : t < m.startTime)
    (h : ∀ n ∈ l, n.Sound ∧ n.endTime ≤ t) (ho : o ∈ l.rest) :
    Timeline.positionAt (m :: l) t = some o := by
  have hne : l ≠ [] := by rintro rfl; cases ho
  rw [positionAt_cons_of_lt hm hne,positionAt_of_ended (fun n hn => (h n hn).1)
    fun n hn => (h n hn).2]
  exact ho

theorem positionBefore_cons_of_rest {m : Segment ℝ} {o : ℝ} (hm : t ≤ m.startTime)
    (h : ∀ n ∈ l, n.Sound ∧ n.endTime < t) (ho : o ∈ l.rest) :
    Timeline.positionBefore (m :: l) t = some o := by
  have hne : l ≠ [] := by rintro rfl; cases ho
  rw [positionBefore_cons_of_le hm hne,positionBefore_of_ended (fun n hn => (h n hn).1)
    fun n hn => (h n hn).2]
  exact ho

end Ended

/-- Every segment starts where the one before it ended, and no earlier. -/
def Joined : Timeline ℝ → Prop
  | [] => True
  | [m] => m.Sound
  | m :: n :: l => m.Sound ∧ n.endTime ≤ m.startTime ∧ m.startPos = n.endPosition ∧ Joined (n :: l)

namespace Joined
variable {m : Segment ℝ} {l : Timeline ℝ} {t : ℝ}

theorem head (h : Joined (m :: l)) : m.Sound := by
  cases l with
  | nil => exact h
  | cons n l => exact h.1

theorem tail (h : Joined (m :: l)) : Joined l := by
  cases l with
  | nil => trivial
  | cons n l => exact h.2.2.2

theorem positionAt_of_endTime_le (h : Joined (m :: l)) (ht : m.endTime ≤ t) :
    positionAt (m :: l) t = some m.endPosition := by
  rw [positionAt_cons_of_le (h.head.startTime_le_endTime.trans ht),
    h.head.positionAt_of_endTime_le ht]

theorem positionAt_of_le_startTime (h : Joined (m :: l)) (ht : t ≤ m.startTime) :
    positionAt (m :: l) t = (l.positionAt t).or (some m.startPos) := by
  have hstart := h.head.positionAt_of_le_startTime (le_refl m.startTime)
  cases l with
  | nil =>
    rcases ht.lt_or_eq with hlt | rfl
    · exact positionAt_single_of_lt hlt
    · rw [positionAt_cons_of_le le_rfl,hstart]
      rfl
  | cons n l =>
    rcases ht.lt_or_eq with hlt | rfl
    · obtain ⟨p,hp⟩ := positionAt_isSome (List.cons_ne_nil n l) t
      rw [positionAt_cons_of_lt hlt (List.cons_ne_nil n l),hp,Option.some_or]
    · rw [positionAt_cons_of_le le_rfl,hstart,h.tail.positionAt_of_endTime_le h.2.1,h.2.2.1,
        Option.some_or]

theorem positionBefore_eq (h : Joined l) (t : ℝ) : l.positionBefore t = l.positionAt t := by
  induction l with
  | nil => rfl
  | cons m l ih =>
    rcases le_or_gt t m.startTime with ht | ht
    · rw [positionBefore_of_le_startTime ht,h.positionAt_of_le_startTime ht,ih h.tail]
    · rw [positionBefore_cons_of_lt ht,positionAt_cons_of_le ht.le]

theorem positionBefore_of_endTime_le (h : Joined (m :: l)) (ht : m.endTime ≤ t) :
    positionBefore (m :: l) t = some m.endPosition := by
  rw [h.positionBefore_eq,h.positionAt_of_endTime_le ht]

/-- Where no segment lies the position stays. -/
theorem positionBefore_gap {s : ℝ} (h : Joined l) (hst : s ≤ t)
    (hg : ∀ m ∈ l, m.endTime ≤ s ∨ t ≤ m.startTime) :
    l.positionBefore t = l.positionBefore s := by
  induction l with
  | nil => rfl
  | cons m l ih =>
    rcases hg m List.mem_cons_self with hm | hm
    · rw [h.positionBefore_of_endTime_le hm,h.positionBefore_of_endTime_le (hm.trans hst)]
    · cases l with
      | nil =>
        rw [positionBefore_single_of_le hm,positionBefore_single_of_le (hst.trans hm)]
      | cons n l =>
        have hl := List.cons_ne_nil n l
        rw [positionBefore_cons_of_le hm hl,positionBefore_cons_of_le (hst.trans hm) hl]
        exact ih h.tail fun k hk => hg k (List.mem_cons_of_mem m hk)

end Joined

end Timeline

end Gantry
