import Mathlib
import Gantry.Manual.Homing
import Gantry.Proofs.Results

set_option autoImplicit false

namespace Gantry
variable {α : Type}

section Motion
variable {β γ : Type}

/-- A result that is refused, if at all, for a reason of motion. -/
def OfMotion (r : Except (Error α) β) : Prop := ∀ e, r = .error e → ∃ m, e = .motion m

theorem ofMotion_ok (b : β) : OfMotion (.ok b : Except (Error α) β) := nofun

theorem ofMotion_error (m : MotionError) : OfMotion (.error (.motion m) : Except (Error α) β) :=
  fun _ h => ⟨m,(Except.error.inj h).symm⟩

theorem OfMotion.bind {r : Except (Error α) β} {f : β → Except (Error α) γ} (h : OfMotion r)
    (hf : ∀ b, OfMotion (f b)) : OfMotion (r >>= f) := by
  cases r with
  | ok b => exact hf b
  | error e => exact fun e' he => h e' (congrArg _ (Except.error.inj he))

theorem OfMotion.map {r : Except (Error α) β} (h : OfMotion r) (f : β → γ) : OfMotion (r.map f) := by
  cases r with
  | ok b => exact ofMotion_ok _
  | error e => exact fun e' he => h e' (congrArg _ (Except.error.inj he))

theorem OfMotion.mapM {f : β → Except (Error α) γ} (h : ∀ b, OfMotion (f b)) (bs : List β) :
    OfMotion (bs.mapM f) := by
  induction bs with
  | nil => exact ofMotion_ok _
  | cons b bs ih =>
    rw [List.mapM_cons]
    exact (h b).bind fun _ => ih.bind fun _ => ofMotion_ok _

def Refused (r : Except (Error α) β) : Prop := ∃ e, r = .error (.command e)

theorem not_refused_ok (b : β) : ¬Refused (.ok b : Except (Error α) β) := nofun

theorem OfMotion.not_refused {r : Except (Error α) β} (h : OfMotion r) : ¬Refused r := by
  rintro ⟨e,he⟩
  obtain ⟨m,hm⟩ := h _ he
  cases hm

theorem refused_map {r : Except (Error α) β} {f : β → γ} : Refused (r.map f) ↔ Refused r := by
  cases r <;> simp [Refused,Except.map]

end Motion

variable [Scalar α]

namespace Rail

theorem ofMotion_track (r : Rail α) (q : SegmentQueue α) : OfMotion (r.track q) := by
  refine OfMotion.mapM (fun term => ?_) _
  dsimp only
  split
  · exact ofMotion_ok _
  · exact ofMotion_error _

theorem ofMotion_generateSteps (r : Rail α) (q : Option (SegmentQueue α)) (upto : α) :
    OfMotion (r.generateSteps q upto) := by
  unfold generateSteps
  split
  · exact ofMotion_error _
  split
  · exact ofMotion_ok _
  · refine (ofMotion_track r _).bind fun k => ?_
    split <;> exact ofMotion_ok _

theorem ofMotion_setPosition (r : Rail α) (coord : List α) : OfMotion (r.setPosition coord) := by
  unfold setPosition
  split
  · exact ofMotion_ok _
  · exact ofMotion_error _

end Rail

namespace ManualAxis
variable {a : ManualAxis α} {speed accel : Option α}

omit [Scalar α] in
theorem ofMotion_firstOf (coord : List α) : OfMotion (firstOf coord) := by
  cases coord with
  | nil => exact ofMotion_error _
  | cons pos coord => exact ofMotion_ok pos

theorem ofMotion_place (a : ManualAxis α) (pos : α) : OfMotion (a.place pos) :=
  (a.rail.ofMotion_setPosition _).map _

theorem ofMotion_calcPosition (a : ManualAxis α) (p : RailPositions α) :
    OfMotion (a.calcPosition p) := by
  unfold calcPosition
  split
  · exact ofMotion_ok _
  · exact ofMotion_error _

omit [Scalar α] in
theorem checkCommandable_eq_ok :
    a.checkCommandable = .ok () ↔ a.letter = none ∧ a.state = .idle := by
  unfold checkCommandable
  split_ifs with hl hs
  · simp only [false_iff,not_and]
    exact fun h => by simp [h] at hl
  · simp only [false_iff,not_and]
    exact fun _ => hs
  · simpa using ⟨by simpa using hl,not_not.1 hs⟩

omit [Scalar α] in
theorem checkCommandable_cases (a : ManualAxis α) :
    a.checkCommandable = .ok () ∨ ∃ e, a.checkCommandable = .error (.command e) := by
  unfold checkCommandable
  split_ifs
  · exact Or.inr ⟨_,rfl⟩
  · exact Or.inr ⟨_,rfl⟩
  · exact Or.inl rfl

omit [Scalar α] in
theorem checkCommandable_of_letter (h : a.letter.isSome) :
    a.checkCommandable = .error (.command (.axisRegistered a.name)) :=
  if_pos h

theorem speeds_cases (a : ManualAxis α) (speed accel : Option α) :
    (∃ v w, a.speeds speed accel = .ok (v,w)) ∨ ∃ e, a.speeds speed accel = .error (.command e) := by
  unfold speeds
  dsimp only
  split_ifs
  · exact Or.inr ⟨_,rfl⟩
  · exact Or.inr ⟨_,rfl⟩
  · exact Or.inl ⟨_,_,rfl⟩

section Clock
variable {σ : Type} [MotionClock σ α]

theorem moveTo_cases (a : ManualAxis α) (s : σ) (target : α) (speed accel : Option α)
    (synchronize : Bool) :
    (a.checkCommandable = .ok () ∧ ∃ v w, a.speeds speed accel = .ok (v,w)) ∨
      ∃ e, a.moveTo s target speed accel synchronize = (.error (.command e),a,s) := by
  unfold moveTo
  rcases a.checkCommandable_cases with hc | ⟨e,hc⟩ <;> rw [hc]
  · rcases a.speeds_cases speed accel with hs | ⟨e,hs⟩
    · exact Or.inl ⟨rfl,hs⟩
    · rw [hs]
      exact Or.inr ⟨e,rfl⟩
  · exact Or.inr ⟨e,rfl⟩

theorem moveTo_eq {s : σ} {v w : α} (target : α) (synchronize : Bool)
    (hc : a.checkCommandable = .ok ()) (hs : a.speeds speed accel = .ok (v,w)) :
    a.moveTo s target speed accel synchronize = a.drive s target v w synchronize := by
  unfold moveTo
  rw [hc,hs]
  rfl

end Clock

end ManualAxis

end Gantry
