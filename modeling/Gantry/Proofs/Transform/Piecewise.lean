import Mathlib
import Gantry.Proofs.InPlace
import Gantry.Proofs.Transform.Readout

/-!
Moves in place: a move as the pivots of a chain make it one after another. A pivot finds the image of
a cut only when the pieces before have been sent on, so a refusal between two pieces would leave the
first one made. All cuts of a move have one length, and whether a coordinate has an image depends on
its length alone: no cut is refused after another one has been sent on. So the move in place is the
move that is planned as a whole, and a refused one has not reached the end of the chain.
-/
set_option autoImplicit false

namespace Gantry

variable {α : Type}

namespace Pivot
variable [Scalar α]

/-- Either all cuts of a move have images, or the first one has none. -/
theorem stops_decided (p : Pivot α) (target radii2 : List α) :
    (∃ images, List.Forall₂ p.Sends (p.stops target radii2) images) ∨
      ∃ u us e, p.stops target radii2 = u :: us ∧ p.coords u .forward = .error e := by
  cases hs : p.stops target radii2 with
  | nil => exact .inl ⟨[],.nil⟩
  | cons u us =>
    cases hu : p.coords u .forward with
    | error e => exact .inr ⟨u,us,e,rfl,hu⟩
    | ok r =>
      have hfit : p.Fits u.length := coords_fits hu
      have hlen : u.length = min p.lastPos.length target.length :=
        length_of_mem_stops (hs ▸ List.mem_cons_self : u ∈ p.stops target radii2)
      refine .inl (exists_images fun w hw => ?_)
      rwa [length_of_mem_stops (hs ▸ hw),← hlen]

end Pivot

namespace Transform

theorem sendAll_append (send : List α → Transform α → Except (Error α) Unit × Transform α)
    (vs ws : List (List α)) (t : Transform α) :
    sendAll send (vs ++ ws) t =
      match sendAll send vs t with
      | (.error e,t) => (.error e,t)
      | (.ok (),t) => sendAll send ws t := by
  induction vs generalizing t with
  | nil => rfl
  | cons v vs ih =>
    obtain ⟨r,u,hr⟩ : ∃ r u, send v t = (r,u) := ⟨_,_,rfl⟩
    rw [List.cons_append]
    cases r with
    | error e => rw [sendAll_cons_error hr,sendAll_cons_error hr]
    | ok _ => rw [sendAll_cons_ok hr,sendAll_cons_ok hr,ih]

def front? : Transform α → Option (Pivot α)
  | .terminal _ => none
  | .detached p => some p
  | .over p _ => some p

def mapFront (f : Pivot α → Pivot α) : Transform α → Transform α
  | .terminal base => .terminal base
  | .detached p => .detached (f p)
  | .over p next => .over (f p) next

def record (target : List α) (speed : α) : Transform α → Transform α
  | .terminal base => .terminal (base.record target speed)
  | t => t

end Transform

namespace InPlace
open MonadExcept (ofExcept)

def behind (m : EStateM (Error α) (Transform α) Unit) : EStateM (Error α) (Transform α) Unit
  | .over p next =>
    match m next with
    | .ok _ next => .ok () (.over p next)
    | .error e next => .error e (.over p next)
  | t => .error pivotDetached t

variable [Scalar α]

def relay (p : Pivot α) (send : List α → EStateM (Error α) (Transform α) Unit)
    (points : List (List α)) : EStateM (Error α) (Transform α) Unit :=
  points.forM fun u => do
    let (image,_) ← ofExcept (p.coords u .forward)
    behind (send image)

def cross (p : Pivot α) (send : List α → EStateM (Error α) (Transform α) Unit) (target : List α) :
    EStateM (Error α) (Transform α) Unit := do
  let (image,radii2) ← ofExcept (p.coords target .forward)
  relay p send (p.stops target radii2)
  behind (send image)
  modify (Transform.mapFront (·.arrive target radii2))

def move (send : List α → EStateM (Error α) (Transform α) Unit) (speed : α) (target : List α) :
    EStateM (Error α) (Transform α) Unit := do
  paired (Transform.refresh target.length)
  match (← get).front? with
  | none => modify (Transform.record target speed)
  | some p => cross p send target

def moveWithin (speed : α) : Nat → List α → EStateM (Error α) (Transform α) Unit
  | 0 => move (fun _ => throw pivotDetached) speed
  | depth + 1 => move (moveWithin speed depth) speed

/-- Issues a move to a host. The last position is written once the move has been made. -/
def issue (target : List α) (speed : α) : EStateM (Error α) (TransformHost α) Unit := do
  let h ← get
  onPart (·.transform) (fun t h => { h with transform := t })
    (moveWithin speed h.transform.depth target)
  modify fun h => { h with lastPosition := target }

section Cross
variable {p : Pivot α} {target : List α} {plan : Pivot.Plan α} {t u next : Transform α} {e : Error α}
  {send : List α → EStateM (Error α) (Transform α) Unit}
  {forward : List α → Transform α → Except (Error α) Unit × Transform α}

theorem relay_cons (v : List α) (us : List (List α)) : relay p send (v :: us) =
    (ofExcept (p.coords v .forward) >>= fun r => behind (send r.1)) >>= fun _ =>
      relay p send us := rfl

theorem relay_of_refused {us : List (List α)} {v : List α} (hv : p.coords v .forward = .error e) :
    relay p send (v :: us) u = .error e u := by
  rw [relay_cons,hv]
  rfl

theorem relay_of_sends {us : List (List α)} {v w : List α} (hv : p.Sends v w) :
    relay p send (v :: us) = behind (send w) >>= fun _ => relay p send us := by
  obtain ⟨d,hd⟩ := hv
  rw [relay_cons,hd]
  rfl

theorem relay_eq_sendAll (forward : List α → Transform α → Except (Error α) Unit × Transform α)
    {us images : List (List α)} (h : List.Forall₂ p.Sends us images) (q : Pivot α)
    (next : Transform α) :
    relay p (fun v => paired (forward v)) us (.over q next) =
      behind (paired (Transform.sendAll forward images)) (.over q next) := by
  induction h generalizing next with
  | nil => rfl
  | @cons v w us images hv _ ih =>
    rw [relay_of_sends hv]
    obtain ⟨r,next',hr⟩ : ∃ r next', forward w next = (r,next') := ⟨_,_,rfl⟩
    cases r with
    | error e =>
      simp [behind,paired,bind,EStateM.bind,hr,Transform.sendAll]
    | ok _ =>
      have hw := ih next'
      simp only [behind,paired,bind,EStateM.bind,hr,Transform.sendAll_cons_ok hr] at hw ⊢
      exact hw

theorem cross_of_image {image radii2 : List α} (h : p.coords target .forward = .ok (image,radii2)) :
    cross p send target = relay p send (p.stops target radii2) >>= fun _ =>
      behind (send image) >>= fun _ => modify (Transform.mapFront (·.arrive target radii2)) := by
  unfold cross
  rw [h]
  rfl

theorem cross_of_refused (hp : p.plan target = .error e) : cross p send target u = .error e u := by
  rw [Pivot.plan_eq] at hp
  cases himage : p.coords target .forward with
  | error e' =>
    rw [himage,Results.error_bind] at hp
    cases hp
    unfold cross
    rw [himage]
    rfl
  | ok r =>
    rw [himage,Results.ok_bind] at hp
    obtain ⟨images,himages⟩ | ⟨v,us,e',hs,hv⟩ := p.stops_decided target r.2
    · rw [Results.mapM_eq_ok_iff.2 (himages.imp fun _ _ h => Pivot.map_fst_eq_ok.2 h)] at hp
      cases hp
    · rw [hs,List.mapM_cons,hv] at hp
      cases hp
      rw [cross_of_image himage,hs]
      simp [bind,EStateM.bind,relay_of_refused hv]

theorem cross_of_stuck (hu : ∀ v, behind (send v) u = .error e u) (hp : p.plan target = .ok plan) :
    cross p send target u = .error e u := by
  obtain ⟨image,images,himage,himages,-⟩ := Pivot.plan_eq_ok.1 hp
  rw [cross_of_image himage]
  generalize p.stops target plan.radii2 = us at himages
  cases himages with
  | nil => simp [relay,bind,EStateM.bind,pure,EStateM.pure,hu]
  | cons hv _ => simp [relay_of_sends hv,bind,EStateM.bind,hu]

theorem cross_of_planned (hp : p.plan target = .ok plan) :
    cross p (fun v => paired (forward v)) target (.over p next) =
      match Transform.sendAll forward plan.targets next with
      | (.error e,next) => .error e (.over p next)
      | (.ok (),next) => .ok () (.over (p.arrive target plan.radii2) next) := by
  obtain ⟨image,images,himage,himages,htargets⟩ := Pivot.plan_eq_ok.1 hp
  have hrelay := relay_eq_sendAll forward himages p next
  rw [cross_of_image himage,htargets,Transform.sendAll_append]
  obtain ⟨r,u,hr⟩ : ∃ r u, Transform.sendAll forward images next = (r,u) := ⟨_,_,rfl⟩
  cases r with
  | error e => simp [bind,EStateM.bind,hrelay,behind,paired,hr]
  | ok _ =>
    obtain ⟨r',u',hr'⟩ : ∃ r' u', forward image u = (r',u') := ⟨_,_,rfl⟩
    cases r' <;> simp [bind,EStateM.bind,hrelay,behind,paired,hr,hr',Transform.sendAll]
    rfl

end Cross

section Move
variable {t u : Transform α} {p : Pivot α} {target : List α} {speed : α} {base : Terminal α}
  {e : Error α} {send : List α → EStateM (Error α) (Transform α) Unit}

theorem move_of_unread (h : t.refresh target.length = (.error e,u)) :
    move send speed target t = .error e u := by
  simp [move,bind,EStateM.bind,paired,h]

theorem move_of_terminal (h : t.refresh target.length = (.ok (),.terminal base)) :
    move send speed target t = .ok () (.terminal (base.record target speed)) := by
  simp [move,bind,EStateM.bind,paired,h,get,getThe,MonadStateOf.get,EStateM.get,Transform.front?]
  rfl

theorem move_of_front (h : t.refresh target.length = (.ok (),u)) (hu : u.front? = some p) :
    move send speed target t = cross p send target u := by
  simp [move,bind,EStateM.bind,paired,h,get,getThe,MonadStateOf.get,EStateM.get,hu]

end Move

/-- How moves are sent on counts only at a pivot that has planned its move and has a chain behind
it. -/
theorem move_eq_paired {depth : Nat} {speed : α} {target : List α} {t : Transform α}
    {send : List α → EStateM (Error α) (Transform α) Unit}
    (h : ∀ p next plan, t.refresh target.length = (.ok (),.over p next) → p.plan target = .ok plan →
      cross p send target (.over p next) = paired (Transform.moveWithin depth speed target) t) :
    move send speed target t = paired (Transform.moveWithin depth speed target) t := by
  obtain ⟨r,u,hr⟩ : ∃ r u, t.refresh target.length = (r,u) := ⟨_,_,rfl⟩
  cases r with
  | error e => simp [move_of_unread hr,paired,Transform.moveWithin,hr]
  | ok _ =>
    cases u with
    | terminal base => rw [move_of_terminal hr,paired,Transform.moveWithin_of_terminal hr]
    | detached p =>
      rw [move_of_front hr rfl]
      cases hp : p.plan target with
      | error e => simp [cross_of_refused hp,paired,Transform.moveWithin,hr,hp]
      | ok plan =>
        have hstuck (v : List α) : behind (send v) (.detached p) =
            .error pivotDetached (.detached p) := rfl
        simp [cross_of_stuck hstuck hp,paired,Transform.moveWithin,hr,hp]
    | «over» p next =>
      rw [move_of_front hr rfl]
      cases hp : p.plan target with
      | error e => rw [cross_of_refused hp,paired,Transform.moveWithin_of_refused hr hp]
      | ok plan => exact h p next plan hr hp

/-- A move in place is the move that is planned as a whole. -/
theorem moveWithin_eq_paired (speed : α) (depth : Nat) (target : List α) :
    moveWithin speed depth target = paired (Transform.moveWithin depth speed target) := by
  induction depth generalizing target with
  | zero =>
    funext t
    refine move_eq_paired fun p next plan hr hp => ?_
    have hstuck (v : List α) : behind ((fun _ => throw pivotDetached : List α → EStateM _ _ Unit) v)
        (.over p next) = .error pivotDetached (.over p next) := rfl
    simp [cross_of_stuck hstuck hp,paired,Transform.moveWithin,hr,hp]
  | succ depth ih =>
    funext t
    refine move_eq_paired fun p next plan hr hp => ?_
    rw [funext ih,cross_of_planned hp,paired,Transform.moveWithin_of_planned hr hp]
    obtain ⟨r,u,hs⟩ : ∃ r u, Transform.sendAll (Transform.moveWithin depth speed)
      plan.targets next = (r,u) := ⟨_,_,rfl⟩
    cases r <;> simp [hs]

theorem issue_eq_paired (target : List α) (speed : α) :
    issue target speed = paired fun h : TransformHost α => h.moveTo target speed := by
  funext h
  have hissue : issue target speed h =
      (onPart (·.transform) (fun t (h : TransformHost α) => { h with transform := t })
        (moveWithin speed h.transform.depth target) >>= fun _ =>
          modify fun h => { h with lastPosition := target }) h := rfl
  rw [hissue,moveWithin_eq_paired]
  obtain ⟨r,t,hr⟩ : ∃ r t, h.transform.moveTo target speed = (r,t) := ⟨_,_,rfl⟩
  have hmove : Transform.moveWithin h.transform.depth speed target h.transform = (r,t) := hr
  cases r <;> simp [bind,EStateM.bind,onPart,paired,hmove,TransformHost.moveTo,hr]
  all_goals rfl

end InPlace

namespace TransformHost
variable [Scalar α]

/-- A refused move moves nothing: made piece by piece it leaves the end of the chain with the
position and the moves it had, and the last position of the host as it was. -/
theorem moveTo_refused {h h' : TransformHost α} {target : List α} {speed : α} {e : Error α}
    (hr : h.moveTo target speed = (.error e,h')) :
    InPlace.issue target speed h = .error e h' ∧ h'.transform.base? = h.transform.base? ∧
      h'.transform.bare = h.transform.bare ∧ h'.lastPosition = h.lastPosition := by
  have hissue : InPlace.issue target speed h = .error e h' := by
    rw [InPlace.issue_eq_paired]
    exact InPlace.paired_eq_error.2 hr
  obtain ⟨r,t,ht⟩ : ∃ r t, h.transform.moveTo target speed = (r,t) := ⟨_,_,rfl⟩
  have hbare : t.bare = h.transform.bare := by
    simpa [ht] using (Transform.kept_moveTo h.transform target speed).bare
  simp only [moveTo,ht] at hr
  cases r with
  | ok _ => cases hr
  | error e' =>
    cases hr
    exact ⟨hissue,Transform.base?_of_refused le_rfl ht,hbare,rfl⟩

def turner : Pivot ℝ where
  stages := [⟨"a",.z,⟨0,0,0⟩,some 4⟩]
  invResolution := 1
  axisToRadians := 1
  lastPos := [1,0,0,0,0]
  lastRadii2 := [0,0,0,0,1]

def unread : Pivot ℝ where
  stages := [⟨"b",.x,⟨0,0,0⟩,some 5⟩]
  invResolution := 1
  axisToRadians := 1

/-- The move is cut into two pieces, and the second pivot refuses the first of them because the end
lacks the entry of its axis. -/
theorem moveTo_refused_short :
    ∃ plan h', turner.plan [0,1,0,0,2] = .ok plan ∧ plan.targets.length = 2 ∧
      moveTo ⟨.over turner (.over unread (.terminal ⟨[0,0,0],#[]⟩)),[1,0,0,0,0]⟩ [0,1,0,0,2] 50 =
        (.error (.motion (.coordinateTooShort 3 5)),h') ∧
      InPlace.issue [0,1,0,0,2] 50
        ⟨.over turner (.over unread (.terminal ⟨[0,0,0],#[]⟩)),[1,0,0,0,0]⟩ =
          .error (.motion (.coordinateTooShort 3 5)) h' ∧
      h'.transform.base? = some ⟨[0,0,0],#[]⟩ ∧ h'.lastPosition = [1,0,0,0,0] := by
  have hcoords : ∃ image, turner.coords [0,1,0,0,2] .forward = .ok (image,[0,0,0,0,1]) := by
    simp [turner,Pivot.coords,Pivot.along,Turned.pass,Turned.coord,Stage.rotate,Vector3.radius2,
      Vector3.plane,Vector3.sub,List.replicate,pure,Except.pure,bind,Except.bind]
  obtain ⟨image,himage⟩ := hcoords
  have hfit : turner.Fits 5 := Pivot.coords_fits himage
  obtain ⟨plan,hp⟩ : ∃ plan, turner.plan [0,1,0,0,2] = .ok plan := (Pivot.plan_isOk hfit).2 hfit
  obtain ⟨image',images,himage',himages,htargets⟩ := Pivot.plan_eq_ok.1 hp
  have hradii : plan.radii2 = [0,0,0,0,1] :=
    congrArg Prod.snd (Except.ok.inj (himage'.symm.trans himage))
  have htravel : turner.travel [0,1,0,0,2] plan.radii2 * turner.invResolution = (2 : ℕ) := by
    simp [hradii,Pivot.travel,Pivot.sweep,turner]
  have htwo : plan.targets.length = 2 := by
    rw [htargets,List.length_append,← himages.length_eq,Pivot.stops,htravel,Scalar.ceil_exact,
      Nat.ceil_natCast]
    simp [Pivot.cuts,turner]
  obtain ⟨v,vs,hv⟩ : ∃ v vs, plan.targets = v :: vs := List.exists_cons_of_length_eq_add_one htwo
  have hlen : v.length = 5 := by
    rcases Pivot.length_of_mem_targets hp (hv ▸ List.mem_cons_self) with h | h <;> exact h
  set next : Transform ℝ := .over unread (.terminal ⟨[0,0,0],#[]⟩)
  have hfirst : Transform.moveWithin 1 50 v next =
      (.error (.motion (.coordinateTooShort 3 5)),next) := by
    simp [Transform.moveWithin,Transform.refresh,Transform.getPosition,hlen,next,unread,Pivot.coords,
      Pivot.along,Turned.pass,Turned.coord,bind,Except.bind,Except.map]
  have hmove : moveTo ⟨.over turner next,[1,0,0,0,0]⟩ [0,1,0,0,2] 50 =
      (.error (.motion (.coordinateTooShort 3 5)),⟨.over turner next,[1,0,0,0,0]⟩) := by
    have hread : (Transform.over turner next).refresh (List.length [0,1,0,0,(2 : ℝ)]) =
      (.ok (),.over turner next) := rfl
    have hsent : (Transform.over turner next).moveTo [0,1,0,0,2] 50 =
        (.error (.motion (.coordinateTooShort 3 5)),.over turner next) := by
      rw [Transform.moveTo,show (Transform.over turner next).depth = 1 + 1 from rfl,
        Transform.moveWithin_of_planned hread hp,hv,Transform.sendAll_cons_error hfirst]
    rw [moveTo,hsent]
  obtain ⟨hissue,hbase,-,hlast⟩ := moveTo_refused hmove
  exact ⟨plan,_,hp,htwo,hmove,hissue,hbase,hlast⟩

end TransformHost

end Gantry
