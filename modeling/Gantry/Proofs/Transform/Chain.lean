import Mathlib
import Gantry.Proofs.Transform.Passes
import Gantry.Transform.Host

/-!
Chains of pivots over a terminal transform. Reading the position and making moves change only what
the pivots remember and what has reached the end. Once a chain has read its position, all of it is
at coordinates of one length. A move then succeeds exactly if its target reaches the slots of every
pivot, and the whole chain is at the length of the target; otherwise it stays at its own.
-/
set_option autoImplicit false

namespace Gantry

variable {α : Type}

theorem Pivot.Fits.mono {p : Pivot α} {m n : Nat} (h : p.Fits m) (hmn : m ≤ n) : p.Fits n :=
  ⟨h.1.trans hmn,fun s hs i hi => (h.2 s hs i hi).trans_le hmn⟩

section Plan
variable [Scalar α] {p : Pivot α} {target : List α} {plan : Pivot.Plan α}

def Pivot.stops (p : Pivot α) (target radii2 : List α) : List (List α) :=
  cuts p.lastPos target (Scalar.ceil (p.travel target radii2 * p.invResolution))

def Pivot.Sends (p : Pivot α) (u v : List α) : Prop := ∃ d, p.coords u .forward = .ok (v,d)

theorem Pivot.cuts_of_lt_two {last : List α} {n : Nat} (h : n < 2) : cuts last target n = [] := by
  have hn : n - 1 = 0 := by omega
  simp [cuts,hn]

theorem Pivot.map_fst_eq_ok {u v : List α} :
    (p.coords u .forward).map (·.1) = .ok v ↔ p.Sends u v := by
  rw [Results.map_eq_ok]
  constructor
  · rintro ⟨⟨v,d⟩,h,rfl⟩; exact ⟨d,h⟩
  · rintro ⟨d,h⟩; exact ⟨(v,d),h,rfl⟩

theorem Pivot.plan_eq : p.plan target = p.coords target .forward >>= fun r =>
    (p.stops target r.2).mapM (fun u => (p.coords u .forward).map (·.1)) >>= fun images =>
      .ok ⟨images ++ [r.1],r.2⟩ := by
  unfold Pivot.plan stops
  congr 1
  funext ⟨image,radii2⟩
  dsimp only
  split
  · rfl
  · rw [cuts_of_lt_two (by omega)]; rfl

theorem Pivot.plan_eq_ok : p.plan target = .ok plan ↔
    ∃ image images, p.coords target .forward = .ok (image,plan.radii2) ∧
      List.Forall₂ p.Sends (p.stops target plan.radii2) images ∧
      plan.targets = images ++ [image] := by
  simp only [plan_eq,Results.bind_eq_ok,Results.mapM_eq_ok_iff,map_fst_eq_ok,Prod.exists]
  constructor
  · rintro ⟨image,radii2,himage,images,himages,hplan⟩
    cases hplan
    exact ⟨image,images,himage,himages,rfl⟩
  · obtain ⟨targets,radii2⟩ := plan
    rintro ⟨image,images,himage,himages,rfl⟩
    exact ⟨image,radii2,himage,images,himages,rfl⟩

theorem Pivot.length_of_mem_stops {u radii2 : List α} (h : u ∈ p.stops target radii2) :
    u.length = min p.lastPos.length target.length := by
  obtain ⟨k,-,rfl⟩ := List.mem_map.1 h
  exact List.length_zipWith

theorem Pivot.Fits.length_stops {u radii2 : List α} (hl : p.Fits p.lastPos.length)
    (ht : p.Fits target.length) (hu : u ∈ p.stops target radii2) : p.Fits u.length := by
  rw [length_of_mem_stops hu]
  rcases min_choice p.lastPos.length target.length with hm | hm <;> rw [hm] <;> assumption

theorem Pivot.exists_images {us : List (List α)} (h : ∀ u ∈ us, p.Fits u.length) :
    ∃ images, List.Forall₂ p.Sends us images := by
  have himage (u : List α) : ∃ v, u ∈ us → p.Sends u v := by
    by_cases hu : u ∈ us
    · obtain ⟨v,d,hv⟩ := (h u hu).coords .forward
      exact ⟨v,fun _ => ⟨d,hv⟩⟩
    · exact ⟨[],fun h => absurd h hu⟩
  choose f hf using himage
  exact ⟨us.map f,List.forall₂_map_right_iff.2 (List.forall₂_same.2 hf)⟩

theorem Pivot.plan_isOk (hl : p.Fits p.lastPos.length) :
    (∃ plan, p.plan target = .ok plan) ↔ p.Fits target.length := by
  constructor
  · rintro ⟨plan,hp⟩
    obtain ⟨image,images,himage,-⟩ := plan_eq_ok.1 hp
    exact coords_fits himage
  · intro ht
    obtain ⟨image,radii2,himage⟩ := ht.coords .forward
    obtain ⟨images,himages⟩ := exists_images fun u (hu : u ∈ p.stops target radii2) =>
      hl.length_stops ht hu
    exact ⟨⟨images ++ [image],radii2⟩,plan_eq_ok.2 ⟨image,images,himage,himages,rfl⟩⟩

theorem Pivot.length_of_mem_targets {v : List α} (h : p.plan target = .ok plan)
    (hv : v ∈ plan.targets) :
    v.length = min p.lastPos.length target.length ∨ v.length = target.length := by
  obtain ⟨image,images,himage,himages,htargets⟩ := plan_eq_ok.1 h
  rw [htargets,List.mem_append,List.mem_singleton] at hv
  rcases hv with hv | rfl
  · obtain ⟨i,hi,rfl⟩ := List.mem_iff_getElem.1 hv
    have hi' : i < (p.stops target plan.radii2).length := himages.length_eq ▸ hi
    obtain ⟨d,hd⟩ := himages.get hi' hi
    simp only [List.get_eq_getElem] at hd
    exact Or.inl ((length_coords hd).trans (length_of_mem_stops (List.getElem_mem hi')))
  · exact Or.inr (length_coords himage)

end Plan

def Terminal.recordAll (b : Terminal α) (moves : List (List α × α)) : Terminal α :=
  moves.foldl (fun b m => b.record m.1 m.2) b

theorem Terminal.moves_recordAll (b : Terminal α) (moves : List (List α × α)) :
    (b.recordAll moves).moves.toList = b.moves.toList ++ moves := by
  induction moves generalizing b with
  | nil => simp [recordAll]
  | cons m moves ih => simpa [recordAll,record] using ih (b.record m.1 m.2)

theorem Terminal.recordAll_append (b : Terminal α) (moves moves' : List (List α × α)) :
    b.recordAll (moves ++ moves') = (b.recordAll moves).recordAll moves' :=
  List.foldl_append

theorem Terminal.getLast?_recordAll (b : Terminal α) {targets : List (List α)} {speed : α}
    (h : targets ≠ []) :
    targets.getLast? = some (b.recordAll (targets.map (·,speed))).position := by
  obtain ⟨front,last,rfl⟩ := (List.eq_nil_or_concat' targets).resolve_left h
  rw [List.map_append,recordAll_append]
  simp [recordAll,record]

namespace Transform

/-- A chain without what its pivots remember and what has reached its end. -/
def bare : Transform α → Transform α
  | .terminal _ => .terminal {}
  | .detached p => .detached (p.arrive [] [])
  | .over p next => .over (p.arrive [] []) next.bare

def base? : Transform α → Option (Terminal α)
  | .terminal base => some base
  | .detached _ => none
  | .over _ next => next.base?

def Reaches (n : Nat) : Transform α → Prop
  | .terminal _ => True
  | .detached _ => False
  | .over p next => p.Fits n ∧ next.Reaches n

/-- All of a chain is at coordinates of one length, which reach the slots of its pivots. -/
def Level (n : Nat) : Transform α → Prop
  | .terminal base => base.position.length = n
  | .detached _ => False
  | .over p next => p.lastPos.length = n ∧ p.Fits n ∧ next.Level n

theorem depth_bare (t : Transform α) : t.bare.depth = t.depth := by
  induction t with
  | terminal base => rfl
  | detached p => rfl
  | «over» p next ih => exact congrArg (· + 1) ih

theorem reaches_bare (n : Nat) (t : Transform α) : t.bare.Reaches n ↔ t.Reaches n := by
  induction t with
  | terminal base => rfl
  | detached p => rfl
  | «over» p next ih => exact and_congr Iff.rfl ih

theorem Reaches.mono {t : Transform α} {m n : Nat} (h : t.Reaches m) (hmn : m ≤ n) :
    t.Reaches n := by
  induction t with
  | terminal base => trivial
  | detached p => exact h
  | «over» p next ih => exact ⟨h.1.mono hmn,ih h.2⟩

theorem Level.reaches {t : Transform α} {n : Nat} (h : t.Level n) : t.Reaches n := by
  induction t with
  | terminal base => trivial
  | detached p => exact h
  | «over» p next ih => exact ⟨h.2.1,ih h.2.2⟩

theorem Level.base? {t : Transform α} {n : Nat} (h : t.Level n) :
    ∃ base, t.base? = some base ∧ base.position.length = n := by
  induction t with
  | terminal base => exact ⟨base,rfl,h⟩
  | detached p => exact h.elim
  | «over» p next ih => exact ih h.2.2

variable [Scalar α] {t t' u : Transform α} {d m n : Nat} {speed : α} {target pos : List α}

structure Kept (speed : α) (t t' : Transform α) : Prop where
  bare : t'.bare = t.bare
  fed : ∃ moves : List (List α × α), t'.base? = t.base?.map (·.recordAll moves) ∧
    ∀ m ∈ moves, m.2 = speed

section Kept

omit [Scalar α] in
theorem Kept.refl (speed : α) (t : Transform α) : Kept speed t t :=
  ⟨rfl,[],by cases t.base? <;> rfl,nofun⟩

omit [Scalar α] in
theorem Kept.trans (h : Kept speed t t') (h' : Kept speed t' u) : Kept speed t u := by
  obtain ⟨hb,ms,hms,hs⟩ := h
  obtain ⟨hb',ns,hns,hs'⟩ := h'
  refine ⟨hb'.trans hb,ms ++ ns,?_,fun m hm => (List.mem_append.1 hm).elim (hs m) (hs' m)⟩
  rw [hns,hms,Option.map_map]
  congr 1
  funext base
  exact (base.recordAll_append ms ns).symm

omit [Scalar α] in
theorem Kept.over {p p' : Pivot α} (h : Kept speed t t') (hp : p'.arrive [] [] = p.arrive [] []) :
    Kept speed (.over p t) (.over p' t') :=
  ⟨by rw [Transform.bare,Transform.bare,hp,h.bare],h.fed⟩

theorem kept_getPosition (speed : α) (t : Transform α) : Kept speed t t.getPosition.2 := by
  induction t with
  | terminal base => exact .refl _ _
  | detached p => exact .refl _ _
  | «over» p next ih =>
    unfold getPosition
    dsimp only
    split
    · exact ih.over rfl
    · split <;> exact ih.over rfl

theorem kept_refresh (speed : α) (m : Nat) (t : Transform α) : Kept speed t (t.refresh m).2 := by
  unfold refresh
  split
  · exact .refl _ _
  · split <;> exact .refl _ _
  · split
    · exact .refl _ _
    · exact kept_getPosition speed _

omit [Scalar α] in
theorem kept_sendAll {send : List α → Transform α → Except (Error α) Unit × Transform α}
    (h : ∀ v u, Kept speed u (send v u).2) (targets : List (List α)) (t : Transform α) :
    Kept speed t (sendAll send targets t).2 := by
  induction targets generalizing t with
  | nil => exact .refl _ _
  | cons v targets ih =>
    have hv := h v t
    unfold sendAll
    split <;> rename_i u hu <;> rw [hu] at hv
    · exact hv
    · exact hv.trans (ih u)

omit [Scalar α] in
theorem kept_record (speed : α) (base : Terminal α) (target : List α) :
    Kept speed (.terminal base) (.terminal (base.record target speed)) :=
  ⟨rfl,[(target,speed)],rfl,by simp⟩

theorem kept_moveWithin (d : Nat) (speed : α) (target : List α) (t : Transform α) :
    Kept speed t (moveWithin d speed target t).2 := by
  induction d generalizing target t with
  | zero =>
    have hr := kept_refresh speed target.length t
    unfold moveWithin
    split <;> rename_i hu <;> rw [hu] at hr
    · exact hr
    · exact hr.trans (kept_record speed _ target)
    · split <;> exact hr
    · split <;> first | exact hr | contradiction
  | succ d ih =>
    have hr := kept_refresh speed target.length t
    unfold moveWithin
    split <;> rename_i hu <;> rw [hu] at hr
    · exact hr
    · exact hr.trans (kept_record speed _ target)
    · split <;> exact hr
    · rename_i p next
      split
      · exact hr
      · contradiction
      · rename_i plan k _ hk
        cases hk
        have hs := kept_sendAll ih plan.targets next
        split <;> rename_i hm <;> rw [hm] at hs <;> exact hr.trans (hs.over rfl)

theorem kept_moveTo (t : Transform α) (target : List α) (speed : α) :
    Kept speed t (t.moveTo target speed).2 := kept_moveWithin _ _ _ _

end Kept

omit [Scalar α] in
theorem depth_of_bare (h : t.bare = u.bare) : t.depth = u.depth := by
  rw [← depth_bare t,h,depth_bare]

omit [Scalar α] in
theorem reaches_of_bare (h : t.bare = u.bare) : t.Reaches n ↔ u.Reaches n := by
  rw [← reaches_bare n t,h,reaches_bare]

theorem level_of_getPosition (h : t.getPosition = (.ok pos,t')) : t'.Level pos.length := by
  induction t generalizing pos t' with
  | terminal base => cases h; rfl
  | detached p => cases h
  | «over» p next ih =>
    unfold getPosition at h
    dsimp only at h
    split at h
    · cases h
    · rename_i coord hr
      split at h
      · cases h
      · rename_i pos' radii2 hc
        cases h
        have hlen := Pivot.length_coords hc
        have hfit := Pivot.coords_fits hc
        have hn := ih (Prod.ext hr rfl)
        rw [← hlen] at hfit hn
        exact ⟨rfl,hfit,hn⟩

theorem getPosition_over (p : Pivot α) (next : Transform α) :
    (Transform.over p next).getPosition.1 =
      next.getPosition.1 >>= fun c => (p.coords c .reverse).map (·.1) := by
  obtain ⟨r,next',hn⟩ : ∃ r next', next.getPosition = (r,next') := ⟨_,_,rfl⟩
  cases r with
  | error e => simp [getPosition,hn,bind,Except.bind]
  | ok c =>
    cases hc : p.coords c .reverse <;>
      simp [getPosition,hn,hc,bind,Except.bind,Except.map]

theorem Reaches.getPosition (h : t.Reaches n)
    (hb : ∀ base, t.base? = some base → base.position.length = n) :
    ∃ pos t', t.getPosition = (.ok pos,t') ∧ pos.length = n := by
  induction t with
  | terminal base => exact ⟨_,_,rfl,hb base rfl⟩
  | detached p => exact h.elim
  | «over» p next ih =>
    obtain ⟨coord,next',hn,hlen⟩ := ih h.2 hb
    obtain ⟨pos,radii2,hc⟩ := (hlen.symm ▸ h.1 : p.Fits coord.length).coords .reverse
    refine ⟨pos,.over (p.arrive pos radii2) next',?_,(Pivot.length_coords hc).trans hlen⟩
    simp [Transform.getPosition,hn,hc]

theorem Level.getPosition (h : t.Level n) :
    ∃ pos t', t.getPosition = (.ok pos,t') ∧ pos.length = n := by
  obtain ⟨base,hb,hn⟩ := h.base?
  exact h.reaches.getPosition fun b hb' => Option.some.inj (hb.symm.trans hb') ▸ hn

theorem Level.refresh (h : t.Level n) (m : Nat) :
    ∃ t', t.refresh m = (.ok (),t') ∧ t'.Level n := by
  cases t with
  | terminal base => exact ⟨_,rfl,h⟩
  | detached p => exact h.elim
  | «over» p next =>
    by_cases hm : p.lastPos.length = m
    · exact ⟨_,by simp [Transform.refresh,hm],h⟩
    · obtain ⟨pos,t',ht,hlen⟩ := h.getPosition
      refine ⟨t',by simp [Transform.refresh,hm,ht,Except.map],?_⟩
      rw [← hlen]
      exact level_of_getPosition ht

theorem Level.refresh_self (h : t.Level n) : t.refresh n = (.ok (),t) := by
  cases t with
  | terminal base => rfl
  | detached p => exact h.elim
  | «over» p next => simp [Transform.refresh,h.1]

theorem base?_getPosition (t : Transform α) : t.getPosition.2.base? = t.base? := by
  induction t with
  | terminal base => rfl
  | detached p => rfl
  | «over» p next ih =>
    unfold getPosition
    dsimp only
    split
    · exact ih
    · split <;> exact ih

section Move
variable {p : Pivot α} {next : Transform α} {base : Terminal α} {plan : Pivot.Plan α} {e : Error α}

theorem moveWithin_of_terminal (h : t.refresh target.length = (.ok (),.terminal base)) :
    moveWithin d speed target t = (.ok (),.terminal (base.record target speed)) := by
  cases d <;> simp [moveWithin,h]

theorem moveWithin_of_refused (h : t.refresh target.length = (.ok (),.over p next))
    (hp : p.plan target = .error e) : moveWithin d speed target t = (.error e,.over p next) := by
  cases d <;> simp [moveWithin,h,hp]

theorem moveWithin_of_planned (h : t.refresh target.length = (.ok (),.over p next))
    (hp : p.plan target = .ok plan) : moveWithin (d + 1) speed target t =
      match sendAll (moveWithin d speed) plan.targets next with
      | (.error e,next) => (.error e,.over p next)
      | (.ok (),next) => (.ok (),.over (p.arrive target plan.radii2) next) := by
  obtain ⟨r,u,hs⟩ : ∃ r u, sendAll (moveWithin d speed) plan.targets next = (r,u) := ⟨_,_,rfl⟩
  cases r <;> simp [moveWithin,h,hp,hs]

/-- What a move that succeeds has done: it is recorded at the end of the chain, or all its pieces
are made by the chain behind the first pivot. -/
theorem of_moveWithin_ok (h : moveWithin d speed target t = (.ok (),t')) :
    (∃ base, t.refresh target.length = (.ok (),.terminal base) ∧
      t' = .terminal (base.record target speed)) ∨
    ∃ k p next plan next', d = k + 1 ∧ t.refresh target.length = (.ok (),.over p next) ∧
      p.plan target = .ok plan ∧
      sendAll (moveWithin k speed) plan.targets next = (.ok (),next') ∧
      t' = .over (p.arrive target plan.radii2) next' := by
  obtain ⟨r,u,hr⟩ : ∃ r u, t.refresh target.length = (r,u) := ⟨_,_,rfl⟩
  cases r with
  | error e => cases d <;> simp [moveWithin,hr] at h
  | ok _ =>
    cases u with
    | terminal base =>
      rw [moveWithin_of_terminal hr] at h
      cases h
      exact Or.inl ⟨base,hr,rfl⟩
    | detached p => cases d <;> cases hp : p.plan target <;> simp [moveWithin,hr,hp] at h
    | «over» p next =>
      cases hp : p.plan target with
      | error e => simp [moveWithin_of_refused hr hp] at h
      | ok plan =>
        cases d with
        | zero => simp [moveWithin,hr,hp] at h
        | succ k =>
          rw [moveWithin_of_planned hr hp] at h
          split at h
          · cases h
          · rename_i next' hs
            cases h
            exact Or.inr ⟨k,p,next,plan,next',rfl,hr,hp,hs,rfl⟩

/-- What a move that is refused has done: nothing but reading the position, or some of its pieces
are made. -/
theorem of_moveWithin_error (h : moveWithin d speed target t = (.error e,t')) :
    t' = (t.refresh target.length).2 ∨
    ∃ k p next plan next', d = k + 1 ∧ t.refresh target.length = (.ok (),.over p next) ∧
      p.plan target = .ok plan ∧
      sendAll (moveWithin k speed) plan.targets next = (.error e,next') ∧
      t' = .over p next' := by
  obtain ⟨r,u,hr⟩ : ∃ r u, t.refresh target.length = (r,u) := ⟨_,_,rfl⟩
  rw [hr]
  cases r with
  | error e =>
    cases d <;> simp only [moveWithin,hr] at h <;> cases h <;> exact Or.inl rfl
  | ok _ =>
    cases u with
    | terminal base => simp [moveWithin_of_terminal hr] at h
    | detached p =>
      cases d <;> cases hp : p.plan target <;> simp only [moveWithin,hr,hp] at h <;> cases h <;>
        exact Or.inl rfl
    | «over» p next =>
      cases hp : p.plan target with
      | error e =>
        rw [moveWithin_of_refused hr hp] at h
        cases h
        exact Or.inl rfl
      | ok plan =>
        cases d with
        | zero =>
          simp only [moveWithin,hr,hp] at h
          cases h
          exact Or.inl rfl
        | succ k =>
          rw [moveWithin_of_planned hr hp] at h
          split at h
          · rename_i e next' hs
            cases h
            exact Or.inr ⟨k,p,next,plan,next',rfl,rfl,hp,hs,rfl⟩
          · cases h

end Move

section Send
variable {send : List α → Transform α → Except (Error α) Unit × Transform α}
  {targets : List (List α)} {v : List α} {e : Error α}

omit [Scalar α] in
theorem sendAll_cons_ok (h : send v t = (.ok (),t')) :
    sendAll send (v :: targets) t = sendAll send targets t' := by
  simp [sendAll,h]

omit [Scalar α] in
theorem sendAll_cons_error (h : send v t = (.error e,t')) :
    sendAll send (v :: targets) t = (.error e,t') := by
  simp [sendAll,h]

omit [Scalar α] in
theorem sendAll_snoc {t'' : Transform α} (h : sendAll send targets t = (.ok (),t'))
    (hv : send v t' = (.ok (),t'')) : sendAll send (targets ++ [v]) t = (.ok (),t'') := by
  induction targets generalizing t with
  | nil => cases h; simp [sendAll,hv]
  | cons w targets ih =>
    rw [List.cons_append]
    unfold sendAll at h ⊢
    split <;> rename_i hw <;> rw [hw] at h
    · cases h
    · exact ih h

omit [Scalar α] in
theorem sendAll_ok {P : Transform α → Prop}
    (h : ∀ v ∈ targets, ∀ u, P u → ∃ u', send v u = (.ok (),u') ∧ P u') (ht : P t) :
    ∃ t', sendAll send targets t = (.ok (),t') ∧ P t' := by
  induction targets generalizing t with
  | nil => exact ⟨t,rfl,ht⟩
  | cons v targets ih =>
    obtain ⟨hv,htargets⟩ := List.forall_mem_cons.1 h
    obtain ⟨u,hu,hP⟩ := hv t ht
    rw [sendAll_cons_ok hu]
    exact ih htargets hP

end Send

omit [Scalar α] in
theorem Level.sendAll (send : List α → Transform α → Except (Error α) Unit × Transform α)
    {next : Transform α} {images : List (List α)} {image : List α} (h : next.Level n)
    (hsend : ∀ v ∈ images ++ [image], ∀ k u, u.Level k → u.bare = next.bare →
      ∃ u', send v u = (.ok (),u') ∧ u'.Level v.length ∧ u'.bare = next.bare) :
    ∃ u', sendAll send (images ++ [image]) next = (.ok (),u') ∧ u'.Level image.length := by
  obtain ⟨u,hu,⟨k,hk⟩,hb⟩ := sendAll_ok (P := fun u => (∃ k, u.Level k) ∧ u.bare = next.bare)
    (fun v hv u ⟨⟨k,hk⟩,hb⟩ => by
      obtain ⟨u',hm,hlevel,hb'⟩ := hsend v (List.mem_append_left _ hv) k u hk hb
      exact ⟨u',hm,⟨_,hlevel⟩,hb'⟩) ⟨⟨n,h⟩,rfl⟩
  obtain ⟨u',hm,hlevel,-⟩ := hsend image (by simp) k u hk hb
  exact ⟨u',sendAll_snoc hu hm,hlevel⟩

def Decided (t : Transform α) (m n : Nat) (r : Except (Error α) Unit × Transform α) : Prop :=
  (t.Reaches m → ∃ t', r = (.ok (),t') ∧ t'.Level m) ∧
  (¬t.Reaches m → ∃ e t', r = (.error e,t') ∧ t'.Level n)

theorem Level.decided_planned {p : Pivot α} {next : Transform α} {plan : Pivot.Plan α}
    (h : (Transform.over p next).Level n) (hp : p.plan target = .ok plan)
    (hs : ∀ v k u, u.Level k → u.bare = next.bare →
      Decided u v.length k (moveWithin d speed v u)) :
    Decided (.over p next) target.length n
      (match Transform.sendAll (moveWithin d speed) plan.targets next with
      | (.error e,next) => (.error e,.over p next)
      | (.ok (),next) => (.ok (),.over (p.arrive target plan.radii2) next)) := by
  obtain ⟨hlast,hfit,hnext⟩ := h
  have ht : p.Fits target.length := (Pivot.plan_isOk (hlast.symm ▸ hfit)).1 ⟨plan,hp⟩
  obtain ⟨image,images,himage,-,htargets⟩ := Pivot.plan_eq_ok.1 hp
  have hlen : ∀ v ∈ plan.targets, v.length = min n target.length ∨ v.length = target.length :=
    fun v hv => hlast ▸ Pivot.length_of_mem_targets hp hv
  by_cases hn : next.Reaches target.length
  · refine ⟨fun _ => ?_,fun hno => absurd ⟨ht,hn⟩ hno⟩
    have hreach : ∀ v ∈ plan.targets, next.Reaches v.length := by
      intro v hv
      rcases hlen v hv with hv | hv <;> rw [hv]
      · rcases min_choice n target.length with hm | hm <;> rw [hm]
        · exact hnext.reaches
        · exact hn
      · exact hn
    rw [htargets] at hreach ⊢
    obtain ⟨u,hu,hlevel⟩ := hnext.sendAll (moveWithin d speed) fun v hv k u hk hb => by
      obtain ⟨u',hm,hlevel⟩ := (hs v k u hk hb).1 ((reaches_of_bare hb).2 (hreach v hv))
      have hb' : u'.bare = u.bare := by simpa [hm] using (kept_moveWithin d speed v u).bare
      exact ⟨u',hm,hlevel,hb'.trans hb⟩
    rw [hu]
    rw [Pivot.length_coords himage] at hlevel
    exact ⟨_,rfl,rfl,ht,hlevel⟩
  · refine ⟨fun hyes => absurd hyes.2 hn,fun _ => ?_⟩
    have hlt : target.length < n := by
      by_contra hle
      exact hn (hnext.reaches.mono (not_lt.1 hle))
    -- The first of the pieces is refused, so none is made.
    obtain ⟨v,targets,hv⟩ : ∃ v targets, plan.targets = v :: targets := by
      rw [htargets]
      cases images <;> simp
    have hvlen : v.length = target.length := by
      rcases hlen v (by simp [hv]) with h | h <;> omega
    obtain ⟨e,next',hm,hlevel⟩ := (hs v n next hnext rfl).2 (hvlen ▸ hn)
    rw [hv,sendAll_cons_error hm]
    exact ⟨e,_,rfl,hlast,hfit,hlevel⟩

theorem Level.decided (h : t.Level n) (hd : t.depth ≤ d) (speed : α) (target : List α) :
    Decided t target.length n (moveWithin d speed target t) := by
  induction d generalizing t n target with
  | zero =>
    cases t with
    | terminal base =>
      exact ⟨fun _ => ⟨_,moveWithin_of_terminal rfl,rfl⟩,fun hno => absurd trivial hno⟩
    | detached p => exact h.elim
    | «over» p next => simp [depth] at hd
  | succ d ih =>
    -- reading the position again leaves a chain of the same pivots, which is the one that moves
    obtain ⟨u,hr,hu⟩ := h.refresh target.length
    have hb : u.bare = t.bare := by simpa [hr] using (kept_refresh speed target.length t).bare
    rw [← depth_of_bare hb] at hd
    unfold Decided
    rw [← reaches_of_bare hb]
    cases u with
    | terminal base =>
      exact ⟨fun _ => ⟨_,moveWithin_of_terminal hr,rfl⟩,fun hno => absurd trivial hno⟩
    | detached p => exact hu.elim
    | «over» p next =>
      have hl : p.Fits p.lastPos.length := hu.1.symm ▸ hu.2.1
      cases hp : p.plan target with
      | ok plan =>
        rw [moveWithin_of_planned hr hp]
        exact hu.decided_planned hp fun v k w hw hbw =>
          ih hw (depth_of_bare hbw ▸ Nat.le_of_succ_le_succ hd) v
      | error e =>
        have ht : ¬p.Fits target.length := fun hfit => by
          obtain ⟨plan,hplan⟩ := (Pivot.plan_isOk hl).2 hfit
          rw [hp] at hplan
          cases hplan
        exact ⟨fun hyes => absurd hyes.1 ht,fun _ => ⟨e,_,moveWithin_of_refused hr hp,hu⟩⟩

theorem Level.moveWithin_isOk (h : t.Level n) (hd : t.depth ≤ d) (hn : target.length = n) (speed : α) :
    ∃ t', moveWithin d speed target t = (.ok (),t') ∧ t'.Level n := by
  subst hn
  exact (h.decided hd speed target).1 h.reaches

/-- The chain has read its position since its stages were last resolved: it has done so as a whole,
and since then it has made moves, of which any number were refused, or pivots have been taken off
its front. -/
inductive Primed : Transform α → Prop
  | read {t t' : Transform α} {pos : List α} (h : t.getPosition = (.ok pos,t')) : Primed t'
  | move {t : Transform α} (h : Primed t) (target : List α) (speed : α) :
      Primed (t.moveTo target speed).2
  | behind {p : Pivot α} {next : Transform α} (h : Primed (.over p next)) : Primed next

theorem Primed.level (h : Primed t) : ∃ n, t.Level n := by
  induction h with
  | read h => exact ⟨_,level_of_getPosition h⟩
  | @move t _ target speed ih =>
    obtain ⟨n,hn⟩ := ih
    have hm := hn.decided le_rfl speed target
    unfold moveTo
    by_cases hr : t.Reaches target.length
    · obtain ⟨t',ht',hlevel⟩ := hm.1 hr
      exact ⟨_,by rw [ht']; exact hlevel⟩
    · obtain ⟨e,t',ht',hlevel⟩ := hm.2 hr
      exact ⟨_,by rw [ht']; exact hlevel⟩
  | behind _ ih =>
    obtain ⟨n,-,-,hn⟩ := ih
    exact ⟨n,hn⟩

end Transform

end Gantry
