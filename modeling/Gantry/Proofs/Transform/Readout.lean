import Mathlib
import Gantry.Proofs.Transform.Chain
import Gantry.Proofs.Transform.Straight

set_option autoImplicit false

namespace Gantry

variable {α : Type}

namespace Pivot

theorem coords_of_arrive [Scalar α] {p q : Pivot α} (h : p.arrive [] [] = q.arrive [] []) :
    p.coords = q.coords := by
  funext u pass
  exact congrArg (fun r => r.coords u pass) h

variable [Scalar α] {p : Pivot α} {target : List α} {plan : Pivot.Plan α}

theorem length_le_of_targets {v : List α} {vs : List (List α)} (hp : p.plan target = .ok plan)
    (hv : plan.targets = v :: vs) : ∀ w ∈ vs, v.length ≤ w.length := by
  obtain ⟨image,images,himage,himages,htargets⟩ := plan_eq_ok.1 hp
  have hcut : ∀ w ∈ images, w.length = min p.lastPos.length target.length := by
    intro w hw
    obtain ⟨u,hu,d,hd⟩ : ∃ u ∈ p.stops target plan.radii2, p.Sends u w := by
      obtain ⟨i,hi,rfl⟩ := List.mem_iff_getElem.1 hw
      have hi' : i < (p.stops target plan.radii2).length := himages.length_eq ▸ hi
      exact ⟨_,List.getElem_mem hi',himages.get hi' hi⟩
    exact (length_coords hd).trans (length_of_mem_stops hu)
  have hend := length_coords himage
  intro w hw
  cases images with
  | nil =>
    simp only [htargets,List.nil_append,List.cons.injEq] at hv
    simp [← hv.2] at hw
  | cons v' images =>
    simp only [htargets,List.cons_append,List.cons.injEq] at hv
    obtain ⟨rfl,rfl⟩ := hv
    have hfirst := hcut v' (by simp)
    rcases List.mem_append.1 hw with hw | hw
    · rw [hfirst,hcut w (by simp [hw])]
    · rw [hfirst,List.mem_singleton.1 hw,hend]
      exact min_le_right _ _

end Pivot

namespace Transform
variable [Scalar α] {t t' u : Transform α} {p : Pivot α} {next : Transform α} {d : Nat} {speed : α}
  {target pos : List α}

theorem getPosition_congr (hb : t.bare = u.bare)
    (hu : t.base?.map (·.position) = u.base?.map (·.position)) :
    t.getPosition.1 = u.getPosition.1 := by
  induction t generalizing u with
  | terminal base =>
    cases u <;> simp [bare] at hb
    exact congrArg Except.ok (by simpa [base?] using hu)
  | detached p =>
    cases u <;> simp [bare] at hb
    rfl
  | «over» p next ih =>
    cases u <;> simp only [bare,over.injEq,reduceCtorEq] at hb
    rw [getPosition_over,getPosition_over,ih hb.2 hu,Pivot.coords_of_arrive hb.1]

theorem getPosition_getPosition (t : Transform α) :
    t.getPosition.2.getPosition.1 = t.getPosition.1 :=
  getPosition_congr (kept_getPosition 0 t).bare (congrArg _ (base?_getPosition t))

theorem registered_getPosition (h : t.Registered) : t.getPosition.2.Registered :=
  registered_of_bare (kept_getPosition 0 t).bare h

omit [Scalar α] in
theorem exists_of_sendAll_snoc
    {send : List α → Transform α → Except (Error α) Unit × Transform α} {targets : List (List α)}
    {v : List α} (h : sendAll send (targets ++ [v]) t = (.ok (),t')) :
    ∃ u, send v u = (.ok (),t') := by
  induction targets generalizing t with
  | nil =>
    simp only [List.nil_append,sendAll] at h
    split at h
    · cases h
    · rename_i u hu
      cases h
      exact ⟨t,hu⟩
  | cons w targets ih =>
    simp only [List.cons_append,sendAll] at h
    split at h
    · cases h
    · exact ih h

theorem rests_of_moveWithin (h : moveWithin d speed target t = (.ok (),t')) :
    t'.RestsAt target ∧ t'.Level target.length := by
  induction d generalizing target t t' with
  | zero =>
    obtain ⟨base,-,rfl⟩ | ⟨k,-,-,-,-,hk,-⟩ := of_moveWithin_ok h
    · exact ⟨rfl,rfl⟩
    · cases hk
  | succ d ih =>
    obtain ⟨base,-,rfl⟩ | ⟨k,p,next,plan,next',hk,-,hp,hs,rfl⟩ := of_moveWithin_ok h
    · exact ⟨rfl,rfl⟩
    · obtain rfl := Nat.succ.inj hk
      obtain ⟨image,images,himage,-,htargets⟩ := Pivot.plan_eq_ok.1 hp
      -- the last piece leads to where the target is in the coordinates behind the pivot
      rw [htargets] at hs
      obtain ⟨u,hu⟩ := exists_of_sendAll_snoc hs
      obtain ⟨hrests,hlevel⟩ := ih hu
      rw [Pivot.length_coords himage] at hlevel
      have hfit := Pivot.coords_fits himage
      exact ⟨⟨rfl,image,⟨_,himage⟩,hrests⟩,⟨rfl,hfit,hlevel⟩⟩

theorem base?_refresh (t : Transform α) (m : Nat) : (t.refresh m).2.base? = t.base? := by
  unfold refresh
  split
  · rfl
  · split <;> rfl
  · split
    · rfl
    · exact base?_getPosition _

/-- If the first piece of a move succeeds, so do the others. -/
theorem base?_of_sendAll_refused {plan : Pivot.Plan α} {e : Error α}
    (hp : p.plan target = .ok plan) (hd : next.depth ≤ d)
    (ih : ∀ v w, moveWithin d speed v next = (.error e,w) → w.base? = next.base?)
    (h : sendAll (moveWithin d speed) plan.targets next = (.error e,u)) :
    u.base? = next.base? := by
  cases hv : plan.targets with
  | nil => simp [hv,sendAll] at h
  | cons v vs =>
    obtain ⟨r,w,hw⟩ : ∃ r w, moveWithin d speed v next = (r,w) := ⟨_,_,rfl⟩
    rw [hv] at h
    cases r with
    | error e' =>
      rw [sendAll_cons_error hw] at h
      cases h
      exact ih v _ hw
    | ok _ =>
      have hlevel := (rests_of_moveWithin hw).2
      have hb : w.bare = next.bare := by simpa [hw] using (kept_moveWithin d speed v next).bare
      have hstep : ∀ x ∈ vs, ∀ u : Transform α, ((∃ k, u.Level k) ∧ u.bare = w.bare) →
          ∃ u', moveWithin d speed x u = (.ok (),u') ∧ (∃ k, u'.Level k) ∧ u'.bare = w.bare := by
        rintro x hx u ⟨⟨k,hk⟩,hbu⟩
        have hdu : u.depth ≤ d := depth_of_bare (hbu.trans hb) ▸ hd
        have hreach : u.Reaches x.length := (reaches_of_bare hbu).2
          (hlevel.reaches.mono (Pivot.length_le_of_targets hp hv x hx))
        obtain ⟨u',hm,hlevel'⟩ := (hk.decided hdu speed x).1 hreach
        have hb' : u'.bare = u.bare := by simpa [hm] using (kept_moveWithin d speed x u).bare
        exact ⟨u',hm,⟨_,hlevel'⟩,hb'.trans hbu⟩
      obtain ⟨u',hu',-⟩ := sendAll_ok hstep ⟨⟨_,hlevel⟩,rfl⟩
      rw [sendAll_cons_ok hw,hu'] at h
      cases h

/-- A move that is refused does not reach the end of the chain. -/
theorem base?_of_refused {e : Error α} (hd : t.depth ≤ d)
    (h : moveWithin d speed target t = (.error e,t')) : t'.base? = t.base? := by
  induction d generalizing target t t' with
  | zero =>
    obtain rfl | ⟨k,-,-,-,-,hk,-⟩ := of_moveWithin_error h
    · exact base?_refresh t target.length
    · cases hk
  | succ d ih =>
    obtain rfl | ⟨k,p,next,plan,next',hk,hr,hp,hs,rfl⟩ := of_moveWithin_error h
    · exact base?_refresh t target.length
    · obtain rfl := Nat.succ.inj hk
      have hbase : (Transform.over p next).base? = t.base? := by
        simpa [hr] using base?_refresh t target.length
      have hbare : (Transform.over p next).bare = t.bare := by
        simpa [hr] using (kept_refresh speed target.length t).bare
      rw [← depth_of_bare hbare] at hd
      have hdn : next.depth ≤ d := Nat.le_of_succ_le_succ hd
      rw [← hbase]
      change next'.base? = next.base?
      exact base?_of_sendAll_refused hp hdn (fun v w hw => ih hdn hw) hs

end Transform

end Gantry
