import Mathlib
import Gantry.Proofs.Results
import Gantry.Transform.Pivot

set_option autoImplicit false

namespace Gantry

variable {α : Type}

def Stage.Registered (s : Stage α) : Prop :=
  ∀ i, s.slot = some i → ∃ axes : ExtraAxes, axes.slot? s.control = some i

def Pivot.Registered (p : Pivot α) : Prop := ∀ s ∈ p.stages, s.Registered

def Pivot.Fits (p : Pivot α) (n : Nat) : Prop :=
  3 ≤ n ∧ ∀ s ∈ p.stages, ∀ i, s.slot = some i → i < n

theorem ExtraAxes.base_le_of_slot? {axes : ExtraAxes} {name : String} {i : Nat}
    (h : axes.slot? name = some i) : ExtraAxes.base ≤ i := by
  obtain ⟨k,-,rfl⟩ := Option.map_eq_some_iff.1 h
  exact Nat.le_add_right _ _

theorem Stage.Registered.three_le {s : Stage α} (h : s.Registered) {i : Nat}
    (hi : s.slot = some i) : 3 ≤ i := by
  obtain ⟨axes,ha⟩ := h i hi
  exact Nat.le_of_succ_le (ExtraAxes.base_le_of_slot? ha)

theorem Stage.registered_resolve (s : Stage α) (axes : ExtraAxes) : (s.resolve axes).Registered :=
  fun _ hi => ⟨axes,hi⟩

theorem Pivot.registered_resolve (p : Pivot α) (axes : ExtraAxes) : (p.resolve axes).Registered := by
  intro s hs
  obtain ⟨t,-,rfl⟩ := List.mem_map.1 hs
  exact t.registered_resolve axes

/-- The position of the axis of a slot, in a coordinate with these entries behind x, y and z. -/
def heading [Zero α] (rest : List α) (i : Nat) : α := (rest[i - 3]?).getD 0

namespace Turned

@[simp] theorem length_coord (t : Turned α) : t.coord.length = t.rest.length + 3 := rfl

theorem getElem?_coord (t : Turned α) {i : Nat} (h : 3 ≤ i) : t.coord[i]? = t.rest[i - 3]? := by
  obtain ⟨k,rfl⟩ := Nat.exists_eq_add_of_le h
  simp [coord,Nat.add_comm 3 k]

end Turned

theorem Pivot.mem_along {p : Pivot α} {pass : Pass} {s : Stage α} :
    s ∈ p.along pass ↔ s ∈ p.stages := by
  cases pass <;> simp [along]

theorem exists_cartesian {c : List α} (h : 3 ≤ c.length) :
    ∃ x y z rest, c = x :: y :: z :: rest := by
  match c,h with
  | x :: y :: z :: rest, _ => exact ⟨x,y,z,rest,rfl⟩

variable [Scalar α]

namespace Stage

def radius2 (s : Stage α) (p : Vector3 α) : α := (p.sub s.offset).radius2 s.rotateAxis

def place (factor : α) (θ : Nat → α) (p : Vector3 α) (s : Stage α) : Vector3 α :=
  match s.slot with
  | none => p
  | some i => (s.rotate (θ i * factor) p).1

@[simp] theorem rotate_snd (s : Stage α) (angle : α) (p : Vector3 α) :
    (s.rotate angle p).2 = s.radius2 p := rfl

theorem place_of_slot {s : Stage α} {i : Nat} (h : s.slot = some i) (factor : α) (θ : Nat → α)
    (p : Vector3 α) : s.place factor θ p = (s.rotate (θ i * factor) p).1 := by
  simp [place,h]

theorem place_of_none {s : Stage α} (h : s.slot = none) (factor : α) (θ : Nat → α)
    (p : Vector3 α) : s.place factor θ p = p := by
  simp [place,h]

end Stage

theorem Stage.place_congr_slot {s : Stage α} {θ η : Nat → α} (h : ∀ i, s.slot = some i → θ i = η i)
    (factor : α) (p : Vector3 α) : s.place factor θ p = s.place factor η p := by
  cases hi : s.slot with
  | none => rw [place_of_none hi,place_of_none hi]
  | some i => rw [place_of_slot hi,place_of_slot hi,h i hi]

def walk (factor : α) (θ : Nat → α) (stages : List (Stage α)) (p : Vector3 α) : Vector3 α :=
  stages.foldl (Stage.place factor θ) p

section Walk
variable (factor : α) (θ : Nat → α) (p : Vector3 α) (s : Stage α) (l k : List (Stage α))

@[simp] theorem walk_nil : walk factor θ [] p = p := rfl

@[simp] theorem walk_cons : walk factor θ (s :: l) p = walk factor θ l (s.place factor θ p) := rfl

theorem walk_append : walk factor θ (l ++ k) p = walk factor θ k (walk factor θ l p) :=
  List.foldl_append

end Walk

namespace Turned

def marked (t : Turned α) (s : Stage α) : List α :=
  match s.slot with
  | none => t.radii2
  | some i => t.radii2.set i (s.radius2 t.point)

theorem pass_isOk (factor : α) {t : Turned α} {s : Stage α} :
    (∃ u, t.pass factor s = .ok u) ↔ ∀ i, s.slot = some i → i < t.rest.length + 3 := by
  unfold pass
  cases hs : s.slot with
  | none => simp
  | some i =>
    dsimp only
    cases hc : t.coord[i]? with
    | none => simpa using List.getElem?_eq_none_iff.1 hc
    | some x => simpa using (List.getElem?_eq_some_iff.1 hc).1

theorem pass_rest {factor : α} {t u : Turned α} {s : Stage α} (h : t.pass factor s = .ok u) :
    u.rest = t.rest := by
  unfold pass at h
  split at h
  · cases h; rfl
  · split at h <;> cases h
    rfl

theorem pass_eq {factor : α} {t u : Turned α} {s : Stage α} (hs : s.Registered)
    (h : t.pass factor s = .ok u) :
    u = ⟨s.place factor (heading t.rest) t.point,t.rest,t.marked s⟩ := by
  unfold pass at h
  cases hi : s.slot with
  | none =>
    rw [hi] at h
    cases h
    simp [Stage.place,marked,hi]
  | some i =>
    rw [hi] at h
    dsimp only at h
    rw [t.getElem?_coord (hs.three_le hi)] at h
    cases hr : t.rest[i - 3]? with
    | none => rw [hr] at h; cases h
    | some x =>
      rw [hr] at h
      cases h
      simp [Stage.place,marked,hi,heading,hr]

theorem foldlM_isOk (factor : α) {l : List (Stage α)} {t : Turned α} :
    (∃ u, l.foldlM (pass factor) t = .ok u) ↔
      ∀ s ∈ l, ∀ i, s.slot = some i → i < t.rest.length + 3 := by
  induction l generalizing t with
  | nil => simp [pure,Except.pure]
  | cons s l ih =>
    rw [List.foldlM_cons,List.forall_mem_cons,← pass_isOk factor]
    cases h : t.pass factor s with
    | error e => simp [bind,Except.bind]
    | ok u => rw [Results.ok_bind,ih,pass_rest h]; simp

theorem foldlM_rest {factor : α} {l : List (Stage α)} {t u : Turned α}
    (h : l.foldlM (pass factor) t = .ok u) : u.rest = t.rest := by
  induction l generalizing t with
  | nil => cases h; rfl
  | cons s l ih =>
    rw [List.foldlM_cons] at h
    obtain ⟨v,hv,h⟩ := Results.bind_eq_ok.1 h
    exact (ih h).trans (pass_rest hv)

theorem foldlM_point {factor : α} {l : List (Stage α)} {t u : Turned α}
    (hl : ∀ s ∈ l, s.Registered) (h : l.foldlM (pass factor) t = .ok u) :
    u.point = walk factor (heading t.rest) l t.point := by
  induction l generalizing t with
  | nil => cases h; rfl
  | cons s l ih =>
    obtain ⟨hs,hl⟩ := List.forall_mem_cons.1 hl
    rw [List.foldlM_cons] at h
    obtain ⟨v,hv,h⟩ := Results.bind_eq_ok.1 h
    rw [ih hl h,pass_eq hs hv,walk_cons]

theorem length_radii2 {factor : α} {l : List (Stage α)} {t u : Turned α}
    (h : l.foldlM (pass factor) t = .ok u) : u.radii2.length = t.radii2.length := by
  induction l generalizing t with
  | nil => cases h; rfl
  | cons s l ih =>
    rw [List.foldlM_cons] at h
    obtain ⟨v,hv,h⟩ := Results.bind_eq_ok.1 h
    rw [ih h]
    unfold pass at hv
    split at hv
    · cases hv; rfl
    · split at hv <;> cases hv
      simp

theorem foldlM_getElem?_of_unused {factor : α} {l : List (Stage α)} {t u : Turned α} {e : Nat}
    (hl : ∀ s ∈ l, s.slot ≠ some e) (h : l.foldlM (pass factor) t = .ok u) :
    u.radii2[e]? = t.radii2[e]? := by
  induction l generalizing t with
  | nil => cases h; rfl
  | cons s l ih =>
    obtain ⟨hs,hl⟩ := List.forall_mem_cons.1 hl
    rw [List.foldlM_cons] at h
    obtain ⟨v,hv,h⟩ := Results.bind_eq_ok.1 h
    rw [ih hl h]
    unfold pass at hv
    split at hv
    · cases hv; rfl
    · rename_i i hi
      split at hv <;> cases hv
      rw [List.getElem?_set_ne]
      rintro rfl
      exact hs hi

/-- The distance that stays in a slot is that of the last stage with the slot. -/
theorem foldlM_getElem? {factor : α} {l k : List (Stage α)} {s : Stage α} {t u : Turned α} {e : Nat}
    (hl : ∀ s ∈ l, s.Registered) (hs : s.slot = some e) (hk : ∀ s ∈ k, s.slot ≠ some e)
    (he : e < t.radii2.length) (h : (l ++ s :: k).foldlM (pass factor) t = .ok u) :
    u.radii2[e]? = some (s.radius2 (walk factor (heading t.rest) l t.point)) := by
  rw [List.foldlM_append] at h
  obtain ⟨v,hv,h⟩ := Results.bind_eq_ok.1 h
  rw [List.foldlM_cons] at h
  obtain ⟨w,hw,h⟩ := Results.bind_eq_ok.1 h
  rw [foldlM_getElem?_of_unused hk h,← foldlM_point hl hv]
  rw [← length_radii2 hv] at he
  unfold pass at hw
  rw [hs] at hw
  dsimp only at hw
  split at hw <;> cases hw
  exact List.getElem?_set_self he

end Turned

namespace Pivot
variable {p : Pivot α} {pass : Pass} {c c' d : List α}

theorem coords_eq_ok {x y z : α} {rest : List α} :
    p.coords (x :: y :: z :: rest) pass = .ok (c',d) ↔
      ∃ t : Turned α, (p.along pass).foldlM (Turned.pass (p.factor pass))
        ⟨⟨x,y,z⟩,rest,List.replicate (rest.length + 3) 0⟩ = .ok t ∧ t.coord = c' ∧ t.radii2 = d := by
  unfold coords
  simp only [List.length_cons,Results.bind_eq_ok,Results.pure_eq_ok,Prod.mk.injEq]

theorem three_le_of_coords (h : p.coords c pass = .ok (c',d)) : 3 ≤ c.length := by
  unfold coords at h
  split at h
  · simp
  · cases h

theorem coords_isOk (pass : Pass) : (∃ r, p.coords c pass = .ok r) ↔ p.Fits c.length := by
  constructor
  · rintro ⟨⟨c',d⟩,h⟩
    have h3 := three_le_of_coords h
    obtain ⟨x,y,z,rest,rfl⟩ := exists_cartesian h3
    obtain ⟨t,ht,-⟩ := coords_eq_ok.1 h
    exact ⟨h3,fun s hs => (Turned.foldlM_isOk _).1 ⟨t,ht⟩ s (mem_along.2 hs)⟩
  · rintro ⟨h3,hs⟩
    obtain ⟨x,y,z,rest,rfl⟩ := exists_cartesian h3
    have hl : ∀ s ∈ p.along pass, ∀ i, s.slot = some i → i < rest.length + 3 :=
      fun s h => hs s (mem_along.1 h)
    obtain ⟨t,ht⟩ := (Turned.foldlM_isOk (p.factor pass)
      (l := p.along pass) (t := ⟨⟨x,y,z⟩,rest,List.replicate (rest.length + 3) 0⟩)).2 hl
    exact ⟨_,coords_eq_ok.2 ⟨t,ht,rfl,rfl⟩⟩

theorem coords_fits (h : p.coords c pass = .ok (c',d)) : p.Fits c.length := (coords_isOk pass).1 ⟨_,h⟩

theorem Fits.coords (h : p.Fits c.length) (pass : Pass) :
    ∃ c' d, p.coords c pass = .ok (c',d) := by
  obtain ⟨⟨c',d⟩,hr⟩ := (coords_isOk pass).2 h
  exact ⟨c',d,hr⟩

theorem length_coords (h : p.coords c pass = .ok (c',d)) : c'.length = c.length := by
  obtain ⟨x,y,z,rest,rfl⟩ := exists_cartesian (three_le_of_coords h)
  obtain ⟨t,ht,rfl,-⟩ := coords_eq_ok.1 h
  simp [Turned.foldlM_rest ht]

theorem coords_eq (hp : p.Registered) (h : p.coords c pass = .ok (c',d)) :
    ∃ x y z rest q, c = x :: y :: z :: rest ∧ c' = Vector3.x q :: q.y :: q.z :: rest ∧
      q = walk (p.factor pass) (heading rest) (p.along pass) ⟨x,y,z⟩ := by
  obtain ⟨x,y,z,rest,rfl⟩ := exists_cartesian (three_le_of_coords h)
  obtain ⟨t,ht,rfl,rfl⟩ := coords_eq_ok.1 h
  have hr := Turned.foldlM_rest ht
  have hq := Turned.foldlM_point (fun s hs => hp s (mem_along.1 hs)) ht
  exact ⟨x,y,z,rest,t.point,rfl,congrArg (t.point.x :: t.point.y :: t.point.z :: ·) hr,hq⟩

end Pivot

end Gantry
