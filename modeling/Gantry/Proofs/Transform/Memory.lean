import Mathlib
import Gantry.Proofs.Transform.Chain

set_option autoImplicit false

namespace Gantry

variable {α : Type}

def Vector3.ofCoord [Zero α] (u : List α) : Vector3 α := ⟨u.getD 0 0,u.getD 1 0,u.getD 2 0⟩

theorem Stage.exists_last {l : List (Stage α)} {P : Stage α → Prop} (h : ∃ s ∈ l, P s) :
    ∃ before m after, l = before ++ m :: after ∧ P m ∧ ∀ s ∈ after, ¬P s := by
  induction l with
  | nil => simp at h
  | cons t l ih =>
    by_cases hl : ∃ s ∈ l, P s
    · obtain ⟨before,m,after,rfl,hm⟩ := ih hl
      exact ⟨t :: before,m,after,rfl,hm⟩
    · obtain ⟨s,hs,he⟩ := h
      have hst : s = t := (List.mem_cons.1 hs).resolve_right fun h => hl ⟨s,h,he⟩
      exact ⟨[],t,l,rfl,hst ▸ he,fun s hs hse => hl ⟨s,hs,hse⟩⟩

theorem Stage.exists_last_of_slot {l : List (Stage α)} {e : Nat} (h : ∃ s ∈ l, s.slot = some e) :
    ∃ before m after, l = before ++ m :: after ∧ m.slot = some e ∧
      ∀ s ∈ after, s.slot ≠ some e :=
  Stage.exists_last (P := (·.slot = some e)) h

variable [Scalar α]

namespace Pivot
variable {p q r : Pivot α} {pass : Pass} {u v d : List α}

theorem ofCoord_coords (hp : p.Registered) (h : p.coords u pass = .ok (v,d)) :
    Vector3.ofCoord v = walk (p.factor pass) (heading (u.drop 3)) (p.along pass) (.ofCoord u) := by
  obtain ⟨x,y,z,rest,q,rfl,rfl,hq⟩ := coords_eq hp h
  exact hq

/-- A pass leaves in a slot the distance of the last stage with the slot. -/
theorem getElem?_coords {s : Stage α} {before after : List (Stage α)} {e : Nat} (hp : p.Registered)
    (h : p.coords u pass = .ok (v,d)) (hl : p.along pass = before ++ s :: after)
    (hs : s.slot = some e) (ha : ∀ s ∈ after, s.slot ≠ some e) :
    d[e]? = some (s.radius2
      (walk (p.factor pass) (heading (u.drop 3)) before (.ofCoord u))) := by
  have hmem : s ∈ p.along pass := by simp [hl]
  have hfit := (coords_fits h).2 s (mem_along.1 hmem) e hs
  obtain ⟨x,y,z,rest,rfl⟩ := exists_cartesian (three_le_of_coords h)
  obtain ⟨t,ht,rfl,rfl⟩ := coords_eq_ok.1 h
  rw [hl] at ht
  have hb : ∀ s ∈ before, s.Registered := fun s' hs' =>
    hp s' (mem_along.1 (show s' ∈ p.along pass by simp [hl,hs']))
  have he : e < (List.replicate (rest.length + 3) (0 : α)).length := by
    rw [List.length_replicate]; exact hfit
  have hd := Turned.foldlM_getElem? hb hs ha he ht
  exact hd

/-- The remembered distances are those of a pass at the last position. -/
def Marked (p : Pivot α) : Prop :=
  (∃ v, p.coords p.lastPos .forward = .ok (v,p.lastRadii2)) ∨
    ∃ u, p.coords u .reverse = .ok (p.lastPos,p.lastRadii2)

theorem Marked.fits (h : p.Marked) : p.Fits p.lastPos.length := by
  obtain ⟨v,h⟩ | ⟨u,h⟩ := h
  · exact coords_fits h
  · exact length_coords h ▸ coords_fits h

def Follows (p q : Pivot α) : Prop :=
  q = p ∨ ∃ pos radii2, q = p.arrive pos radii2 ∧ q.Marked

theorem Follows.trans (h : p.Follows q) (h' : q.Follows r) : p.Follows r := by
  obtain rfl | ⟨pos,radii2,rfl,hm⟩ := h'
  · exact h
  · obtain rfl | ⟨_,_,rfl,-⟩ := h <;> exact .inr ⟨pos,radii2,rfl,hm⟩

end Pivot

namespace Transform
variable {p : Pivot α} {next t : Transform α} {speed : α} {target : List α}

theorem follows_getPosition (p : Pivot α) (next : Transform α) :
    ∃ q next', (.over p next : Transform α).getPosition.2 = .over q next' ∧ p.Follows q ∧
      ∀ pos, (.over p next : Transform α).getPosition.1 = .ok pos → q.Marked := by
  unfold getPosition
  dsimp only
  split
  · exact ⟨p,_,rfl,.inl rfl,nofun⟩
  · split
    · exact ⟨p,_,rfl,.inl rfl,nofun⟩
    · rename_i coord _ _ pos radii2 hc
      have hm : (p.arrive pos radii2).Marked := .inr ⟨coord,hc⟩
      exact ⟨_,_,rfl,.inr ⟨pos,radii2,rfl,hm⟩,fun _ _ => hm⟩

theorem follows_refresh (p : Pivot α) (next : Transform α) (m : Nat) :
    ∃ q next', (refresh m (.over p next : Transform α)).2 = .over q next' ∧ p.Follows q ∧
      ((refresh m (.over p next : Transform α)).1 = .ok () → q.Marked ∨ q = p ∧ p.lastPos.length = m) := by
  by_cases hm : p.lastPos.length = m
  · exact ⟨p,next,by simp [refresh,hm],.inl rfl,fun _ => .inr ⟨rfl,hm⟩⟩
  · obtain ⟨q,next',ht,hq,hok⟩ := follows_getPosition p next
    refine ⟨q,next',by simp [refresh,hm,ht],hq,fun hr => ?_⟩
    obtain ⟨pos,hpos,-⟩ := Results.map_eq_ok.1 (show _ = Except.ok () by simpa [refresh,hm] using hr)
    exact .inl (hok pos hpos)

theorem follows_moveTo (p : Pivot α) (next : Transform α) (target : List α) (speed : α) :
    ∃ q next', ((.over p next : Transform α).moveTo target speed).2 = .over q next' ∧ p.Follows q ∧
      (((.over p next : Transform α).moveTo target speed).1 = .ok () → q.Marked) := by
  obtain ⟨q,next',hr,hq,-⟩ := follows_refresh p next target.length
  obtain ⟨r,hr⟩ : ∃ r, (.over p next : Transform α).refresh target.length = (r,.over q next') :=
    ⟨_,Prod.ext rfl hr⟩
  unfold moveTo
  cases r with
  | error e => exact ⟨q,next',by simp [depth,moveWithin,hr],hq,by simp [depth,moveWithin,hr]⟩
  | ok _ =>
    cases hp : q.plan target with
    | error e => rw [moveWithin_of_refused hr hp]; exact ⟨q,next',rfl,hq,by simp⟩
    | ok plan =>
      rw [depth,moveWithin_of_planned hr hp]
      split
      · exact ⟨q,_,rfl,hq,by simp⟩
      · obtain ⟨image,images,himage,-⟩ := Pivot.plan_eq_ok.1 hp
        have hm : (q.arrive target plan.radii2).Marked := .inl ⟨image,himage⟩
        exact ⟨_,_,rfl,hq.trans (.inr ⟨_,_,rfl,hm⟩),fun _ => hm⟩

inductive Operated (t : Transform α) : Transform α → Prop
  | start : Operated t t
  | read {t' : Transform α} (h : Operated t t') : Operated t t'.getPosition.2
  | move {t' : Transform α} (h : Operated t t') (target : List α) (speed : α) :
      Operated t (t'.moveTo target speed).2

theorem Operated.follows (h : Operated (.over p next) t) :
    ∃ q next', t = .over q next' ∧ p.Follows q := by
  induction h with
  | start => exact ⟨p,next,rfl,.inl rfl⟩
  | read _ ih =>
    obtain ⟨q,next',rfl,hq⟩ := ih
    obtain ⟨r,next'',hr,hqr,-⟩ := follows_getPosition q next'
    exact ⟨r,next'',hr,hq.trans hqr⟩
  | move _ target speed ih =>
    obtain ⟨q,next',rfl,hq⟩ := ih
    obtain ⟨r,next'',hr,hqr,-⟩ := follows_moveTo q next' target speed
    exact ⟨r,next'',hr,hq.trans hqr⟩

theorem Operated.marked (h : Operated (.over p next) t) (hp : p.lastPos = []) {q : Pivot α}
    {next' : Transform α} (hr : t.refresh target.length = (.ok (),.over q next'))
    (ht : target ≠ []) : p.Follows q ∧ q.Marked := by
  obtain ⟨q₀,n₀,rfl,hq₀⟩ := h.follows
  obtain ⟨q',n',h₂,hq,hok⟩ := follows_refresh q₀ n₀ target.length
  rw [hr] at h₂ hok
  cases h₂
  refine ⟨hq₀.trans hq,(hok rfl).elim id ?_⟩
  rintro ⟨rfl,hlen⟩
  obtain rfl | ⟨_,_,-,hm⟩ := hq₀
  · rw [hp] at hlen
    exact absurd (List.length_eq_zero_iff.1 hlen.symm) ht
  · exact hm

end Transform

end Gantry
